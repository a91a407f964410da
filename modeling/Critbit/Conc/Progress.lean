import Critbit.Conc.Sight

/-!
# Every call ends

`Road h k i p` says that a lookup of `k` at `p` can go on to a leaf, through nodes that test bits from
`i` on, each a later one than the node before.  Writers change what is on the road, but not that there is
one, and no node on it tests a bit of a byte from `2147483647` on.

* `Road.change`        the road after a store of a writer;
* `Pc.Left`            a bound for the steps that a call has left;
* `Left.step`          a step of the thread lowers it, a step of another one does not change it;
* `own_steps_bounded`  no call makes more than `17179869180` steps of its own;
* `no_deadlock`        a thread in a call can make its next step, or it has found `NULL` in place of a tree,
                       or it waits for a lookup of which this is true;
* `grace_shrinks`      a deletion waits for no lookup that begins while it waits.
-/

namespace Critbit
open Crit CTree

variable {h h' h₀ : Heap} {root : Addr} {T T' : Option MTree} {k k' : Key} {v out : Val} {p q : Ptr}
  {a b : Addr} {i j : Nat}

/-! ## roads -/

/-- the node tests bit `j` -/
def Node.Tests (n : Node) (j : Nat) : Prop := n.byte = (j / 8 : Nat) ∧ n.otherbits = mask (j % 8)

theorem Node.Tests.unique {n : Node} (hi : n.Tests i) (hj : n.Tests j) : i = j := by
  have h1 : ((i / 8 : Nat) : Int) = (j / 8 : Nat) := hi.1.symm.trans hj.1
  have h2 := mask_inj (Nat.mod_lt _ (by decide)) (Nat.mod_lt _ (by decide)) (hi.2.symm.trans hj.2)
  omega

inductive Road (h : Heap) (k : Key) : Nat → Ptr → Prop
  | leaf {i : Nat} {a : Addr} {x : Str} {y : Key} (hx : h.lookup a = some (.str x))
      (hy : x.chars = y.buf) : Road h k i (.str a)
  | node {i j : Nat} {a : Addr} {n : Node} {d : Bool} (hn : h.lookup a = some (.node n))
      (hj : n.Tests j) (hi : i ≤ j) (hlt : j / 8 < 2147483647)
      (hd : getDirection n k.buf (sizeT (int32 (strlen k))) = .ok d)
      (hr : Road h k (j + 1) (n.child d)) : Road h k i (.node a)

/-- the road in a tree -/
theorem road_tree {t : MTree} (hr : Rep h t) (hg : Good t) (k : Key)
    (hi : ∀ a j c, t = .node a j c → i ≤ j) : Road h k i (ptr t) := by
  induction t generalizing i with
  | leaf a x v => exact .leaf hr rfl
  | node a j c ih =>
    refine .node hr.node ⟨rfl, rfl⟩ (hi a j c rfl) hg.byte_lt (getDirection_nodeOf hg.byte_lt c k) ?_
    refine ih _ (hr.child _) (hg.child _) fun b j' e he => ?_
    have hs : Sub (.node b j' e) (c ((seen k).bit j)) := by
      rw [he]
      exact .refl _
    exact hg.wf.lt_sub hs

theorem Holds.road (H : Holds h root T) (k : Key) : ptrOf T = .null ∨ Road h k 0 (ptrOf T) := by
  cases T with
  | none => exact .inl rfl
  | some t => exact .inr (road_tree (H.rep t rfl) (H.good t rfl) k fun _ _ _ _ => Nat.zero_le _)

theorem Road.next (hr : Road h k i (.node a)) {n : Node} {d : Bool} (hn : h.node a = .ok n)
    (hd : getDirection n k.buf (sizeT (int32 (strlen k))) = .ok d) :
    ∃ j, i ≤ j ∧ j / 8 < 2147483647 ∧ Road h k (j + 1) (n.child d) := by
  cases hr with
  | node hn' hj hi hlt hd' hr =>
    rw [Heap.node_ok hn', Except.ok.injEq] at hn
    subst hn
    rw [hd', Except.ok.injEq] at hd
    exact ⟨_, hi, hlt, hd ▸ hr⟩

/-- at a leaf the lookup answers -/
theorem Road.answer (hr : Road h k i (.str a)) (out : Val) : ∃ r, getResult h (.str a) k.buf out = .ok r := by
  cases hr with
  | leaf hx hy =>
    obtain ⟨c, hc, -⟩ := strcmp_buf _ k
    rw [← hy] at hc
    unfold getResult
    rw [Heap.str_ok hx, ok_bind, hc]
    exact ⟨_, rfl⟩

theorem Road.direction (hr : Road h k i (.node a)) :
    ∃ n d, h.node a = .ok n ∧ getDirection n k.buf (sizeT (int32 (strlen k))) = .ok d := by
  cases hr with
  | node hn hj hi hlt hd hr => exact ⟨_, _, Heap.node_ok hn, hd⟩

/-- nothing on the road changes -/
theorem Road.frame (hr : Road h k i p) (hf : ∀ b, On h k p b → h'.lookup b = h.lookup b) :
    Road h' k i p := by
  induction hr with
  | leaf hx hy => exact .leaf ((hf _ ⟨_, .refl, rfl⟩).trans hx) hy
  | @node i j a n d hn hj hi hlt hd _ ih =>
    have hnext : Next h k (.node a) (n.child d) := ⟨a, d, rfl, n, Heap.node_ok hn, hd, rfl⟩
    exact .node ((hf a ⟨_, .refl, rfl⟩).trans hn) hj hi hlt hd (ih fun b hb => hf b (hb.next hnext))

/-- **The road after a store**: a block that is in the tree now goes on in the tree. -/
theorem Road.change {G : Addr → Prop} {s : Slot} {r : Ptr} (hr : Road h k i p) (H' : Holds h' root T')
    (hs : h.store s r = .ok h') (hall : ∀ c, On h k p c → c ∈ annotsOf T' ∨ G c)
    (hG : ∀ c, G c → h'.lookup c = h.lookup c) : Road h' k i p := by
  induction hr with
  | leaf hx hy => exact .leaf (Heap.store_str hs hx) hy
  | @node i j a n d hn hj hi hlt hd _ ih =>
    rcases hall a ⟨_, .refl, rfl⟩ with ha | ha
    · obtain ⟨n', hn', hb, ho, -⟩ := Heap.store_node hs (Heap.node_ok hn)
      cases T' with
      | none => exact absurd ha List.not_mem_nil
      | some t =>
        obtain ⟨u, hu, rfl⟩ := exists_sub_top ha
        have hrep := (H'.rep t rfl).sub hu
        have hgood : Good u := ⟨hu.wf (H'.good t rfl).wf, fun x hx => (H'.good t rfl).short x (hu.keys hx)⟩
        cases u with
        | leaf b x w => cases (Heap.node_inv hn').symm.trans hrep
        | node b j' c =>
          cases (Heap.node_inv hn').symm.trans hrep.node
          have hj' : n.Tests j' := ⟨hb.symm, ho.symm⟩
          refine road_tree hrep hgood k fun b' j'' c' e => ?_
          cases e
          rw [← hj.unique hj']
          exact hi
    · have hnext : Next h k (.node a) (n.child d) := ⟨a, d, rfl, n, Heap.node_ok hn, hd, rfl⟩
      exact .node ((hG a ha).trans hn) hj hi hlt hd (ih fun c hc => hall c (hc.next hnext))

theorem Road.publish {s : Slot} {r : Ptr} {new : List Addr} (hr : Road h k i p) (H : Holds h₀ root T)
    (P : Prepared h₀ root T k' v h s r T' new) (hk' : Short k') (hs : h.store s r = .ok h')
    (hall : ∀ c, On h k p c → c ∈ annotsOf T) : Road h' k i p := by
  obtain ⟨h₁, hs₁, H'⟩ := P.publish H hk'
  obtain rfl := Except.ok.inj (hs₁.symm.trans hs)
  exact hr.change H' hs (G := fun _ => False)
    (fun c hc => .inl (P.inserted.annots.mem_iff.mpr (List.mem_append_right _ (hall c hc))))
    fun c hc => hc.elim

theorem Road.unlink {r : Ptr} {old : List Addr} (hr : Road h k i p) (H : Holds h root T)
    (U : Unlinked h root T k' r h' T' old) (hall : ∀ c, On h k p c → c ∈ annotsOf T) :
    Road h' k i p := by
  obtain ⟨s, q, hs, -⟩ := U.store
  exact hr.change U.holds hs (G := (· ∈ old))
    (fun c hc => (List.mem_append.mp (U.deleted.annots.mem_iff.mp (hall c hc))).symm)
    fun c hc => U.frame fun h1 => List.disjoint_of_nodup_append (U.nodup H) hc h1

/-! ## the steps that are left -/

/-- at most `n` steps of a call are left; a lookup at bit `i` has at most a load for each later bit -/
def Pc.Left (h : Heap) : Pc → Nat → Prop
  | .idle, _ => True
  | .getLock _ _ _, n => 17179869180 ≤ n
  | .getHead _ _ _, n => 17179869179 ≤ n
  | .getAt k _ _ p, n => ∃ i, 17179869178 ≤ n + i ∧ 2 ≤ n ∧ (p = .null ∨ Road h k i p)
  | .getUnlock _ _, n => 1 ≤ n
  | .insEnter _ _, n => 3 ≤ n
  | .insPublish _ _, n => 2 ≤ n
  | .insUnlock _, n => 1 ≤ n
  | .delEnter _, n => 9 ≤ n
  | .delSwapCur _ _ _ _, n => 8 ≤ n
  | .delSwapPrev _ _ _ _, n => 7 ≤ n
  | .delWait _ _ _, n => 6 ≤ n
  | .delUnlock _ _, n => 5 ≤ n
  | .delRead _ _ _, n => 4 ≤ n
  | .delCompare _ _ _ _, n => 3 ≤ n
  | .delFree _ _ _ _, n => 2 ≤ n
  | .delFreeNode _ _ _, n => 1 ≤ n

variable {Tid : Type} {s s' : State Tid} {t t' : Tid} {l : RwLock} {act : Act} {n : Nat}

theorem Pc.Left.mono {pc : Pc} {m : Nat} (hl : pc.Left h n) (hnm : n ≤ m) : pc.Left h m := by
  cases pc with
  | getAt k out l p =>
    obtain ⟨i, hi, hn, hr⟩ := hl
    exact ⟨i, by omega, by omega, hr⟩
  | idle => exact hl
  | _ => exact le_trans hl hnm

theorem Pc.Left.road {l : RwLock} (hl : (Pc.getAt k out l p).Left h n) :
    p = .null ∨ ∃ i, Road h k i p := by
  obtain ⟨i, -, -, hr⟩ := hl
  exact hr.imp id fun hr => ⟨i, hr⟩

theorem Pc.Left.congr {pc : Pc} (hl : pc.Left h n)
    (hr : ∀ k out l p i, pc = .getAt k out l p → Road h k i p → Road h' k i p) : pc.Left h' n := by
  cases pc with
  | getAt k out l p =>
    obtain ⟨i, hi, hn, hroad⟩ := hl
    exact ⟨i, hi, hn, hroad.imp id (hr k out l p i rfl)⟩
  | _ => exact hl

section
variable [DecidableEq Tid]

/-- the steps of another thread -/
theorem Pc.Left.other (hl : (s.pc t').Left s.heap n) (I : Inv root s T) (G : Grace root s T)
    (hs : step root s t act = some s') (S : Stepped root s s' t T T') (hne : t' ≠ t) :
    (s'.pc t').Left s'.heap n := by
  rw [pc_of_ne hs hne]
  by_cases hp : ∃ ret e, s.pc t = .insPublish ret (some e)
  · obtain ⟨ret, ⟨slot, q⟩, hpc⟩ := hp
    obtain ⟨new, ⟨h₀, k, v, T₁, hk, H, P⟩, -⟩ := I.pending t ret slot q hpc
    obtain ⟨h', hst, -⟩ := P.publish H hk
    have hheap : s'.heap = h' := by
      cases step_trans hs with
      | publish hpc' he =>
        obtain ⟨rfl, rfl⟩ := Pc.insPublish.inj (hpc.symm.trans hpc')
        simp only [Critbit.publish, hst] at he
        cases he
        rfl
      | _ hpc' => cases hpc.symm.trans hpc'
    refine hl.congr fun k' out l p i e hr => ?_
    rw [hheap]
    exact hr.publish H P hk hst fun c hc =>
      G.ahead_tree I (t := t) (by rw [hpc]; rfl) (by rw [hpc]; rfl) e hc
  by_cases hd : ∃ k, s.pc t = .delEnter k
  · obtain ⟨k, hpc⟩ := hd
    obtain ⟨q, h, r, he, -, rfl⟩ := step_unlink hpc hs
    refine hl.congr fun k' out l p i e hr => ?_
    show Road h k' i p
    rcases deleteInplace_spec I.holds k with ⟨-, e'⟩ | ⟨q', h', T₁, old, e', U⟩
    · obtain ⟨-, rfl⟩ := Prod.mk.inj (Except.ok.inj (he.symm.trans e'))
      exact hr
    · obtain ⟨-, rfl⟩ := Prod.mk.inj (Except.ok.inj (he.symm.trans e'))
      exact hr.unlink I.holds U fun c hc =>
        G.ahead_tree I (t := t) (by rw [hpc]; rfl) (by rw [hpc]; rfl) e hc
  · obtain ⟨-, hf⟩ := I.untouched hs S (fun ret e h1 => hp ⟨ret, e, h1⟩) fun k h1 => hd ⟨k, h1⟩
    refine hl.congr fun k' out l p i e hr => hr.frame fun b ho => ?_
    obtain ⟨h1, h2, h3⟩ := (G.ahead t' k' out l p e b ho).apart I t
    exact hf b h1 h2 h3

/-- **A step of the thread in its call.** -/
theorem Pc.Left.own {m m' : Option Addr} (hl : (s.pc t).Left s.heap n) (I : Inv root s T)
    (hs : step root s t (.go m m') = some s') : ∃ n', n = n' + 1 ∧ (s'.pc t).Left s'.heap n' := by
  have self : ∀ (g : State Tid) pc, (g.goto t pc).pc t = pc := fun g pc => Function.update_self ..
  cases step_trans hs with
  | rdlock hpc =>
    rw [hpc] at hl
    rw [self]
    replace hl : 17179869180 ≤ n := hl
    exact ⟨n - 1, by omega, show 17179869179 ≤ n - 1 by omega⟩
  | @head k out l p _ _ hpc hp =>
    rw [hpc] at hl
    rw [self]
    replace hl : 17179869179 ≤ n := hl
    obtain ⟨x, hx, hhead⟩ := I.holds.record
    rw [Heap.load_head hx, hhead, Except.ok.injEq] at hp
    exact ⟨n - 1, by omega, 0, by omega, by omega, hp ▸ I.holds.road k⟩
  | @child k out l a x d _ _ hpc hn hd =>
    rw [hpc] at hl
    rw [self]
    obtain ⟨i, hi, h2, hnull | hr⟩ := hl
    · cases hnull
    · obtain ⟨j, hij, hj, hr'⟩ := hr.next hn hd
      exact ⟨n - 1, by omega, j + 1, by omega, by omega, .inr hr'⟩
  | answer hpc hr =>
    rw [hpc] at hl
    rw [self]
    obtain ⟨i, -, h2, -⟩ := hl
    exact ⟨n - 1, by omega, show 1 ≤ n - 1 by omega⟩
  | @delUnlock k c _ _ hpc =>
    rw [hpc] at hl
    rw [self]
    replace hl : 5 ≤ n := hl
    refine ⟨n - 1, by omega, ?_⟩
    unfold afterUnlock
    cases c.p with
    | null => trivial
    | str a => exact show 2 ≤ n - 1 by omega
    | node a => exact show 4 ≤ n - 1 by omega
  | @freeLeaf k c p e h _ _ hpc he =>
    rw [hpc] at hl
    rw [self]
    replace hl : 2 ≤ n := hl
    refine ⟨n - 1, by omega, ?_⟩
    cases e with
    | none => trivial
    | some a => exact show 1 ≤ n - 1 by omega
  | rdunlock hpc | insUnlock hpc | freeNode hpc =>
    rw [hpc] at hl
    rw [self]
    replace hl : 1 ≤ n := hl
    exact ⟨n - 1, by omega, trivial⟩
  | prepare hpc | publish hpc | unlink hpc | swapCur hpc | swapPrev hpc | wait hpc | read hpc | compare hpc =>
    rw [hpc] at hl
    rw [self]
    obtain ⟨n, rfl⟩ := Nat.exists_eq_succ_of_ne_zero (n := n) (by rintro rfl; cases hl)
    exact ⟨n, rfl, Nat.le_of_succ_le_succ hl⟩

/-- a call begins -/
theorem Pc.Left.begin (hs : step root s t act = some s') (hidle : s.pc t = .idle) :
    (s'.pc t).Left s'.heap 17179869180 := by
  have self : ∀ (g : State Tid) pc, (g.goto t pc).pc t = pc := fun g pc => Function.update_self ..
  cases step_trans hs with
  | getCur | insLock | delLock =>
    rw [self]
    show _ ≤ 17179869180
    omega
  | _ hpc => cases hidle.symm.trans hpc

/-! ## runs -/

/-- only a thread that is in no call begins one -/
theorem go_of_busy (hs : step root s t act = some s') (hb : s.pc t ≠ .idle) :
    ∃ m m', act = .go m m' := by
  cases step_trans hs with
  | getCur hpc => exact absurd hpc hb
  | insLock hpc => exact absurd hpc hb
  | delLock hpc => exact absurd hpc hb
  | _ => exact ⟨_, _, rfl⟩

theorem left_run (hr : Run root (Cautious root) (start root) s) :
    ∃ T, Inv root s T ∧ Grace root s T ∧ ∀ t, (s.pc t).Left s.heap 17179869180 := by
  induction hr with
  | refl => exact ⟨none, inv_start root, grace_start root, fun _ => trivial⟩
  | @tail s₁ s₂ _ hs ih =>
    obtain ⟨T, I, G, hl⟩ := ih
    obtain ⟨t, act, ⟨hg, hu⟩, hs⟩ := hs
    obtain ⟨T', S⟩ := I.step hg hs
    refine ⟨T', S.inv, G.step I hu hs S, fun t' => ?_⟩
    by_cases e : t' = t
    · subst e
      by_cases hidle : s₁.pc t' = .idle
      · exact Pc.Left.begin hs hidle
      · obtain ⟨m, m', rfl⟩ := go_of_busy hs hidle
        obtain ⟨n, hn, hl'⟩ := (hl t').own I hs
        exact hl'.mono (by omega)
    · exact (hl t').other I G hs S e

/-- a run in which the thread makes `n` steps and begins no call -/
inductive Within (root : Addr) (P : State Tid → Tid → Act → Prop) (t : Tid) :
    State Tid → Nat → State Tid → Prop
  | refl (s : State Tid) : Within root P t s 0 s
  | own {s s' s'' : State Tid} {m m' : Option Addr} {n : Nat} (hp : P s t (.go m m'))
      (hs : step root s t (.go m m') = some s') (h : Within root P t s' n s'') :
      Within root P t s (n + 1) s''
  | other {s s' s'' : State Tid} {t' : Tid} {act : Act} {n : Nat} (hne : t' ≠ t) (hp : P s t' act)
      (hs : step root s t' act = some s') (h : Within root P t s' n s'') : Within root P t s n s''

theorem within_of_steps {P : State Tid → Tid → Act → Prop} [∀ s t act, Decidable (P s t act)]
    {l : List (Tid × Act)} (h : steps root P s l = some s')
    (hl : ∀ e ∈ l, e.1 = t → ∃ m m', e.2 = .go m m') :
    Within root P t s (l.countP fun e => e.1 = t) s' := by
  induction l generalizing s with
  | nil =>
    cases h
    exact .refl _
  | cons e l ih =>
    unfold steps at h
    split at h
    · rename_i hp
      obtain ⟨s₁, h₁, h₂⟩ := Option.bind_eq_some_iff.mp h
      have hw := ih h₂ fun e he => hl e (List.mem_cons_of_mem _ he)
      by_cases e' : e.1 = t
      · rw [List.countP_cons_of_pos (p := fun e : Tid × Act => e.1 = t) (by simpa using e')]
        obtain ⟨m, m', hgo⟩ := hl e List.mem_cons_self e'
        rw [hgo, e'] at hp h₁
        exact .own hp h₁ hw
      · rw [List.countP_cons_of_neg (p := fun e : Tid × Act => e.1 = t) (by simpa using e')]
        exact .other e' hp h₁ hw
    · cases h

theorem Within.le {m : Nat} (hw : Within root (Cautious root) t s n s') (I : Inv root s T)
    (G : Grace root s T) (hl : (s.pc t).Left s.heap m) : n ≤ m := by
  induction hw generalizing T m with
  | refl s => exact Nat.zero_le m
  | own hp hs _ ih =>
    obtain ⟨T', S⟩ := I.step hp.1 hs
    obtain ⟨m, rfl, hl'⟩ := hl.own I hs
    exact Nat.succ_le_succ (ih S.inv (G.step I hp.2 hs S) hl')
  | other hne hp hs _ ih =>
    obtain ⟨T', S⟩ := I.step hp.1 hs
    exact ih S.inv (G.step I hp.2 hs S) (hl.other I G hs S hne.symm)

/-- **Every call ends after boundedly many steps of its own**, in whatever order the others make theirs:
lookups are wait-free, and an insertion or a deletion that holds `wlock` is delayed only by the wait for
lookups. -/
theorem own_steps_bounded (hr : Run root (Cautious root) (start root) s)
    (hw : Within root (Cautious root) t s n s') : n ≤ 17179869180 := by
  obtain ⟨T, I, G, hl⟩ := left_run hr
  exact hw.le I G (hl t)

/-- a lookup next to an insertion, with four steps of its own -/
theorem own_steps_bounded_two : ∃ s s' : State Bool, Run 0 (Cautious 0) (start 0) s ∧
    Within 0 (Cautious 0) true s 4 s' ∧ 4 ≤ 17179869180 := by
  have hrun : (steps 0 (Cautious 0) (start 0 : State Bool)
      [(false, .insert ⟨[97], by decide⟩ 1), (false, .go none (some 1)), (false, .go none none),
        (false, .go none none), (true, .get ⟨[97], by decide⟩ 0)]).any fun s =>
      (steps 0 (Cautious 0) s [(true, .go none none), (false, .insert ⟨[98], by decide⟩ 2),
        (true, .go none none), (false, .go (some 2) (some 3)), (false, .go none none),
        (true, .go none none), (true, .go none none)]).isSome := by decide +kernel
  obtain ⟨s, hs, hrest⟩ := (Option.any_eq_true _ _).mp hrun
  obtain ⟨s', hs'⟩ := Option.isSome_iff_exists.mp hrest
  have hw : Within 0 (Cautious 0) true s 4 s' := within_of_steps hs' (by simp)
  exact ⟨s, s', run_of_steps hs, hw, own_steps_bounded (run_of_steps hs) hw⟩

/-! ## no deadlock -/

/-- who has a lock is in the call that has taken it -/
structure Manned (s : State Tid) : Prop where
  held : ∀ t l, t ∈ s.held l → (s.pc t).holding = some l
  wlock : ∀ t, s.wlock = some t → (s.pc t).writing

theorem Manned.update (M : Manned s) {pc : Pc} (hs : s'.pc = Function.update s.pc t pc)
    (hheld : ∀ t' l, t' ∈ s'.held l → (t' = t → pc.holding = some l) ∧ (t' ≠ t → t' ∈ s.held l))
    (hw : ∀ t', s'.wlock = some t' → (t' = t → pc.writing) ∧ (t' ≠ t → s.wlock = some t')) :
    Manned s' := by
  refine ⟨fun t' l hl => ?_, fun t' ht' => ?_⟩
  · by_cases e : t' = t
    · rw [hs, e, Function.update_self]
      exact (hheld t' l hl).1 e
    · rw [hs, Function.update_of_ne e]
      exact M.held t' l ((hheld t' l hl).2 e)
  · by_cases e : t' = t
    · rw [hs, e, Function.update_self]
      exact (hw t' ht').1 e
    · rw [hs, Function.update_of_ne e]
      exact M.wlock t' ((hw t' ht').2 e)

theorem Manned.quiet (M : Manned s) {pc : Pc} (hs : s'.pc = Function.update s.pc t pc)
    (hheld : s'.held = s.held) (hwl : s'.wlock = s.wlock)
    (hh : ∀ l, (s.pc t).holding = some l → pc.holding = some l)
    (hw : (s.pc t).writing → pc.writing) : Manned s' := by
  refine M.update hs (fun t' l hl => ⟨?_, fun _ => hheld ▸ hl⟩) fun t' ht' => ⟨?_, fun _ => hwl ▸ ht'⟩
  · rintro rfl
    exact hh l (M.held t' l (hheld ▸ hl))
  · rintro rfl
    exact hw (M.wlock t' (hwl ▸ ht'))

theorem Manned.step (M : Manned s) (hs : Critbit.step root s t act = some s') : Manned s' := by
  -- a thread in no call has no lock
  have hfree : (s.pc t).holding = none → ∀ l, t ∉ s.held l := fun hn l hl => by
    cases hn.symm.trans (M.held t l hl)
  have hno : (s.pc t).writing = false → s.wlock ≠ some t := fun hn hw => by
    rw [M.wlock t hw] at hn
    cases hn
  cases step_trans hs with
  | @rdlock k out l m n hpc =>
    refine M.update rfl (fun t' l' hl => ?_) fun t' ht' => ⟨fun e => ?_, fun _ => ht'⟩
    · replace hl : t' ∈ Function.update s.held l (insert t (s.held l)) l' := hl
      by_cases e : l' = l
      · rw [e, Function.update_self] at hl
        exact ⟨fun _ => congrArg some e.symm, fun hne => e ▸ (Finset.mem_insert.mp hl).resolve_left hne⟩
      · rw [Function.update_of_ne e] at hl
        exact ⟨fun h => absurd (h ▸ hl) (hfree (by rw [hpc]; rfl) l'), fun _ => hl⟩
    · exact absurd (e ▸ ht') (hno (by rw [hpc]; rfl))
  | @rdunlock l ret m n hpc =>
    refine M.update rfl (fun t' l' hl => ?_) fun t' ht' => ⟨fun e => ?_, fun _ => ht'⟩
    · replace hl : t' ∈ Function.update s.held l ((s.held l).erase t) l' := hl
      by_cases e : l' = l
      · rw [e, Function.update_self, Finset.mem_erase] at hl
        exact ⟨fun h => absurd h hl.1, fun _ => e ▸ hl.2⟩
      · rw [Function.update_of_ne e] at hl
        refine ⟨fun h => absurd ?_ e, fun _ => hl⟩
        have h1 := M.held t l' (h ▸ hl)
        rw [hpc] at h1
        exact (Option.some.inj h1).symm
    · exact absurd (e ▸ ht') (hno (by rw [hpc]; rfl))
  | insLock hpc hw | delLock hpc hw =>
    refine M.update rfl (fun t' l hl => ⟨fun e => ?_, fun _ => hl⟩)
      fun t' ht' => ⟨fun _ => rfl, fun e => ?_⟩
    · exact absurd (e ▸ hl) (hfree (by rw [hpc]; rfl) l)
    · exact absurd (Option.some.inj ht').symm e
  | insUnlock hpc | delUnlock hpc =>
    refine M.update rfl (fun t' l hl => ⟨fun e => ?_, fun _ => hl⟩) nofun
    exact absurd (e ▸ hl) (hfree (by rw [hpc]; rfl) l)
  | freeLeaf hpc =>
    refine M.quiet rfl rfl rfl (by rw [hpc]; nofun) (by rw [hpc]; nofun)
  | _ hpc => exact M.quiet rfl rfl rfl (by rw [hpc]; exact fun _ h => h) (by rw [hpc]; exact fun h => h)

theorem manned_run {P : State Tid → Tid → Act → Prop} (hr : Run root P (start root) s) : Manned s := by
  induction hr with
  | refl => exact ⟨fun t l hl => absurd hl (Finset.notMem_empty t), nofun⟩
  | tail _ hs ih =>
    obtain ⟨t, act, -, hs⟩ := hs
    exact ih.step hs

/-- the lock that a lookup has loaded from `cur_rwlock`, taken or not -/
def Pc.lock : Pc → Option RwLock
  | .getLock _ _ l => some l
  | .getHead _ _ l => some l
  | .getAt _ _ l _ => some l
  | .getUnlock l _ => some l
  | _ => none

/-- the lock that a deletion waits for is not the current one -/
def Turned (root : Addr) (s : State Tid) : Prop :=
  ∀ t k c l, s.pc t = .delWait k c l → ∀ x, s.heap.lookup root = some (.root x) → x.cur ≠ l

theorem Turned.step (W : Turned root s) (I : Inv root s T) (G : Grace root s T)
    (hs : Critbit.step root s t act = some s') : Turned root s' := by
  intro t' k c l hpc' x hx
  by_cases e : t' = t
  · subst e
    -- it has just exchanged the locks
    cases step_trans hs with
    | @swapPrev k' c' l₁ l₂ h m n hpc he =>
      obtain ⟨y, hy, hy', -, -⟩ := casPrev_ok I.holds he
      have hw : s.wlock = some t' := I.owner t' (by rw [hpc]; rfl)
      have hl := G.locks y hy
      rw [State.writer_eq hw, hpc] at hl
      obtain ⟨hcur, -, hne⟩ := hl
      cases (Function.update_self ..).symm.trans hpc'
      cases hy'.symm.trans hx
      exact hcur ▸ hne.symm
    | delUnlock hpc =>
      have e := (Function.update_self ..).symm.trans hpc'
      unfold afterUnlock at e
      split at e <;> cases e
    | @freeLeaf _ _ _ w _ _ _ hpc =>
      have e := (Function.update_self ..).symm.trans hpc'
      cases w <;> cases e
    | _ => cases (Function.update_self ..).symm.trans hpc'
  · rw [pc_of_ne hs e] at hpc'
    have hw : (s.pc t').writing := by rw [hpc']; rfl
    have ha : (s.pc t).awaits = none := by
      by_contra hn
      obtain ⟨l', hl'⟩ := Option.ne_none_iff_exists'.mp hn
      exact I.alone hw (fun h => e h.symm) (Pc.writing_of_awaits hl')
    obtain ⟨y, hy, hcur, -⟩ := I.step_root hs ha hx
    exact hcur ▸ W t' k c l hpc' y hy

theorem turned_run (hr : Run root (Cautious root) (start root) s) :
    ∃ T, Inv root s T ∧ Grace root s T ∧ Turned root s := by
  induction hr with
  | refl => exact ⟨none, inv_start root, grace_start root, nofun⟩
  | tail _ hs ih =>
    obtain ⟨T, I, G, W⟩ := ih
    obtain ⟨t, act, ⟨hg, hu⟩, hs⟩ := hs
    obtain ⟨T', S⟩ := I.step hg hs
    exact ⟨T', S.inv, G.step I hu hs S, W.step I G hs⟩

omit [DecidableEq Tid] in
theorem Pc.lock_of_holding {pc : Pc} (h : pc.holding = some l) : pc.lock = some l := by
  cases pc with
  | getHead k out l' => exact h
  | getAt k out l' p => exact h
  | getUnlock l' ret => exact h
  | _ => cases h

/-- one step next to a deletion that waits: a lookup that begins loads the other lock -/
theorem Turned.lock_step (W : Turned root s) {c : Cut} (hpc : s.pc t = .delWait k c l)
    (hs : Critbit.step root s t' act = some s') {t'' : Tid} (hl : (s'.pc t'').lock = some l) :
    (s.pc t'').lock = some l := by
  by_cases e : t'' = t'
  · subst e
    have self : ∀ (g : State Tid) pc, (g.goto t'' pc).pc t'' = pc := fun g pc => Function.update_self ..
    cases step_trans hs with
    | getCur hpc' hr =>
      rw [self] at hl
      exact absurd (Option.some.inj hl) (W t k c l hpc _ (Heap.root_inv hr))
    | rdlock hpc' | head hpc' | child hpc' | answer hpc' =>
      rw [self] at hl
      rw [hpc']
      exact hl
    | @delUnlock _ c' _ _ hpc' =>
      rw [self] at hl
      unfold afterUnlock at hl
      split at hl <;> cases hl
    | @freeLeaf _ _ _ w _ _ _ hpc' =>
      rw [self] at hl
      cases w <;> cases hl
    | _ =>
      rw [self] at hl
      cases hl
  · rwa [pc_of_ne hs e] at hl

/-- **A deletion waits for no lookup that begins while it waits**: as long as it does, the lookups that have
loaded its lock are among those that had when the wait began, and so are the readers that hold it. -/
theorem grace_shrinks (hr : Run root (Cautious root) (start root) s) {c : Cut}
    (hw : Run root (fun s t' act => Cautious root s t' act ∧ s.pc t = .delWait k c l) s s') :
    (∀ t', (s'.pc t').lock = some l → (s.pc t').lock = some l) ∧
      ∀ t' ∈ s'.held l, (s.pc t').lock = some l := by
  have hlock : Run root (Cautious root) (start root) s' ∧
      ∀ t', (s'.pc t').lock = some l → (s.pc t').lock = some l := by
    induction hw with
    | refl => exact ⟨hr, fun t' h => h⟩
    | tail _ hs ih =>
      obtain ⟨t', act, ⟨hp, hpc⟩, hs⟩ := hs
      obtain ⟨T, I, G, W⟩ := turned_run ih.1
      exact ⟨ih.1.tail ⟨t', act, hp, hs⟩, fun t'' hl => ih.2 t'' (W.lock_step hpc hs hl)⟩
  refine ⟨hlock.2, fun t' ht' => hlock.2 t' ?_⟩
  exact Pc.lock_of_holding ((manned_run hlock.1).held t' l ht')

end

/-- the lookup had loaded the lock before, and takes it while the deletion waits -/
theorem grace_shrinks_two : ∃ s s' : State Bool, Run 0 (Cautious 0) (start 0) s ∧ s.held .left = ∅ ∧
    Run 0 (fun s t act => Cautious 0 s t act ∧
      s.pc false = .delWait ⟨[98], by decide⟩ ⟨.node 2, 3, 0⟩ .left) s s' ∧
    true ∈ s'.held .left ∧ (s.pc true).lock = some .left := by
  have hrun : (steps 0 (Cautious 0) (start 0 : State Bool)
      [(false, .insert ⟨[97], by decide⟩ 1), (false, .go none (some 1)), (false, .go none none),
        (false, .go none none), (false, .insert ⟨[98], by decide⟩ 2), (false, .go (some 2) (some 3)),
        (false, .go none none), (false, .go none none), (true, .get ⟨[97], by decide⟩ 0),
        (false, .delete ⟨[98], by decide⟩), (false, .go none none), (false, .go none none),
        (false, .go none none)]).any fun s =>
      s.held .left = ∅ ∧ (steps 0 (fun s t act => Cautious 0 s t act ∧
        s.pc false = .delWait ⟨[98], by decide⟩ ⟨.node 2, 3, 0⟩ .left) s
        [(true, .go none none), (true, .go none none)]).any fun s' => true ∈ s'.held .left := by
    decide +kernel
  obtain ⟨s, hs, hrest⟩ := (Option.any_eq_true _ _).mp hrun
  obtain ⟨hfree, hrest⟩ := of_decide_eq_true hrest
  obtain ⟨s', hs', hheld⟩ := (Option.any_eq_true _ _).mp hrest
  have hw := run_of_steps hs'
  have hmem := of_decide_eq_true hheld
  exact ⟨s, s', run_of_steps hs, hfree, hw, hmem, (grace_shrinks (run_of_steps hs) hw).2 true hmem⟩

end Critbit
