import Critbit.Conc.Reclaim

/-!
# The grace period of two locks

A lookup holds the lock that it has found in `cur_rwlock`.  A deletion exchanges the two locks and
waits until no one holds the one that was current.  A lookup that has loaded `cur_rwlock` before the
exchange and takes the lock after the wait is not waited for by the next deletion.

* `On.change`        where a walk leads after a step: into the tree, or to blocks that are left alone;
* `Grace`            what a lookup is on or has ahead of it is in the tree, or a deletion is going to
                     wait for its lock before it frees it;
* `Unread`           no lookup with the lock that is not waited for is at the leaf or the node that a
                     deletion is about to unlink;
* `reader_safe`      then no lookup comes to a block that has been freed;
* `not_reader_safe`  a schedule of two threads in which a lookup is at a freed node.
-/

namespace Critbit
open Crit CTree

variable {Tid : Type} {root : Addr} {h h' : Heap} {T T' : Option MTree} {k : Key} {s s' : State Tid}
  {t : Tid} {l : RwLock} {p : Ptr} {b : Addr}

/-! ## where a walk leads after a step -/

/-- from a block of the tree a walk stays in the tree -/
theorem on_of_block {u : MTree} {a : Addr} (hr : Rep h u) (hp : p.block = some a) (ha : a ∈ u.annots)
    (ho : On h k p b) : b ∈ u.annots := by
  obtain ⟨q, hw, hb⟩ := ho
  rcases Relation.ReflTransGen.cases_head hw with rfl | ⟨q', hn, -⟩
  · rw [hp, Option.some.injEq] at hb
    exact hb ▸ ha
  · obtain ⟨a', d, rfl, n, hnode, -, -⟩ := hn
    cases hp
    obtain ⟨w, hw', rfl⟩ := exists_sub_top ha
    have hrep := hr.sub hw'
    cases w with
    | leaf c x v => cases (Heap.node_inv hnode).symm.trans hrep
    | node c i e => exact hw'.annots (On.sub hrep ⟨q, hw, hb⟩)

/-- **A walk after a change of the heap**: if all that was on it is in the new tree or has been left
alone, so it is with what is on it now. -/
theorem On.change {G : Addr → Prop} (hr : ∀ u ∈ T', Rep h' u)
    (hall : ∀ a, On h k p a → a ∈ annotsOf T' ∨ G a) (hG : ∀ a, G a → h'.lookup a = h.lookup a)
    (ho : On h' k p b) : b ∈ annotsOf T' ∨ G b := by
  obtain ⟨q, hw, hb⟩ := ho
  induction hw using Relation.ReflTransGen.head_induction_on with
  | refl => exact hall b ⟨q, .refl, hb⟩
  | @head p p' hn hrest ih =>
    obtain ⟨a, d, rfl, n, hnode, hdir, hq⟩ := hn
    rcases hall a ⟨_, .refl, rfl⟩ with ha | ha
    · -- in the tree already
      cases T' with
      | none => exact absurd ha List.not_mem_nil
      | some u =>
        exact .inl (on_of_block (hr u rfl) rfl ha ⟨q, .head ⟨a, d, rfl, n, hnode, hdir, hq⟩ hrest, hb⟩)
    · have hold := Heap.node_ok ((hG a ha).symm.trans (Heap.node_inv hnode))
      refine ih fun c hc => hall c ?_
      obtain ⟨r, hr', hc⟩ := hc
      exact ⟨r, .head ⟨a, d, rfl, n, hold, hdir, hq⟩ hr', hc⟩

/-! ## lookups and locks -/

/-- the lock that a lookup holds -/
def Pc.holding : Pc → Option RwLock
  | .getHead _ _ l => some l
  | .getAt _ _ l _ => some l
  | .getUnlock l _ => some l
  | _ => none

/-- the lock whose readers a deletion has yet to wait for -/
def Pc.awaits : Pc → Option RwLock
  | .delSwapCur _ _ l _ => some l
  | .delSwapPrev _ _ l _ => some l
  | .delWait _ _ l => some l
  | _ => none

/-- `cur_rwlock` and `prev_rwlock` while the thread holds `wlock` -/
def Pc.Locks (cur prev : RwLock) : Pc → Prop
  | .delSwapCur _ _ l l' => cur = l ∧ prev = l' ∧ l ≠ l'
  | .delSwapPrev _ _ l l' => cur = l' ∧ prev = l' ∧ l ≠ l'
  | _ => cur ≠ prev

theorem RwLock.eq_of_ne {x y z : RwLock} (hx : x ≠ z) (hy : y ≠ z) : x = y := by
  cases z <;> cases x <;> cases y <;> first | rfl | contradiction

/-- where the thread is that holds `wlock` -/
def State.writer (s : State Tid) : Pc := s.wlock.elim .idle s.pc

theorem State.writer_eq (hw : s.wlock = some t) : s.writer = s.pc t := by
  unfold writer
  rw [hw]
  rfl

theorem State.writer_goto [DecidableEq Tid] (hw : s.wlock = some t) (pc : Pc) :
    (s.goto t pc).writer = pc :=
  (State.writer_eq (s := s.goto t pc) hw).trans (Function.update_self ..)

/-- a lookup with the lock `l` may be on the block -/
def Kept (s : State Tid) (T : Option MTree) (l : RwLock) (b : Addr) : Prop :=
  b ∈ annotsOf T ∨ ∃ t, b ∈ (s.pc t).garbage ∧ (s.pc t).awaits = some l

structure Grace (root : Addr) (s : State Tid) (T : Option MTree) : Prop where
  held : ∀ t l, (s.pc t).holding = some l → t ∈ s.held l
  locks : ∀ x, s.heap.lookup root = some (.root x) → s.writer.Locks x.cur x.prev
  ahead : ∀ t k out l p, s.pc t = .getAt k out l p → ∀ b, On s.heap k p b → Kept s T l b

theorem Pc.locks_iff {cur prev : RwLock} {pc : Pc} (ha : pc.awaits = none) :
    pc.Locks cur prev ↔ cur ≠ prev := by
  cases pc with
  | delSwapCur k c l l' => cases ha
  | delSwapPrev k c l l' => cases ha
  | _ => exact Iff.rfl

/-- a deletion that has yet to wait holds `wlock` -/
theorem Pc.writing_of_awaits {pc : Pc} (ha : pc.awaits = some l) : pc.writing := by
  cases pc with
  | delSwapCur k c l l' => rfl
  | delSwapPrev k c l l' => rfl
  | delWait k c l => rfl
  | _ => cases ha

theorem Kept.live (I : Inv root s T) (hk : Kept s T l b) : b ∈ s.heap := by
  rcases hk with hb | ⟨t, hb, -⟩
  · exact I.holds.mem (List.mem_cons_of_mem _ hb)
  · exact (I.live t b hb).1

/-! ## the locks in the root record -/

/-- a store does not change them -/
theorem Heap.store_root {slot : Slot} {x : Root} (hs : h.store slot p = .ok h')
    (hx : h'.lookup root = some (.root x)) :
    ∃ y, h.lookup root = some (.root y) ∧ y.cur = x.cur ∧ y.prev = x.prev := by
  by_cases e : root = slot.addr
  · cases slot with
    | head r =>
      obtain rfl : root = r := e
      cases hy : h.root root with
      | error f => rw [store, hy] at hs; cases hs
      | ok y =>
        rw [store_head (root_inv hy)] at hs
        cases hs
        rw [Finmap.lookup_insert] at hx
        cases hx
        exact ⟨y, root_inv hy, rfl, rfl⟩
    | child a d =>
      obtain rfl : root = a := e
      cases hn : h.node root with
      | error f => rw [store, hn] at hs; cases hs
      | ok n =>
        rw [store_child (node_inv hn)] at hs
        cases hs
        rw [Finmap.lookup_insert] at hx
        cases hx
  · exact ⟨x, (store_frame hs e).symm.trans hx, rfl, rfl⟩

theorem lookup_of_erase {a : Addr} {x : Block} (hx : Finmap.lookup b (h.erase a) = some x) :
    h.lookup b = some x := by
  by_cases e : b = a
  · subst e
    rw [Finmap.lookup_erase] at hx
    cases hx
  · rwa [Finmap.lookup_erase_ne e] at hx

section
variable [DecidableEq Tid]

/-- only the exchange changes them -/
theorem Inv.step_root (I : Inv root s T) {act : Act} (hs : Critbit.step root s t act = some s')
    (ha : (s.pc t).awaits = none) {x : Root} (hx : s'.heap.lookup root = some (.root x)) :
    ∃ y, s.heap.lookup root = some (.root y) ∧ y.cur = x.cur ∧ y.prev = x.prev := by
  cases step_trans hs with
  | @prepare k v m n ret h w hpc e =>
    have hk : (Pc.insEnter k v).Ok s.heap s.frees := hpc ▸ I.ok t
    rcases insertPrepare_spec I.holds hk v m n with ⟨e', -⟩ | ⟨h₁, slot, q, T', new, e', P, -⟩
    · cases e.symm.trans e'
      exact ⟨x, hx, rfl, rfl⟩
    · cases e.symm.trans e'
      exact ⟨x, (P.old I.holds List.mem_cons_self).symm.trans hx, rfl, rfl⟩
  | @publish ret ret' w h m n hpc e =>
    cases w with
    | none =>
      cases e
      exact ⟨x, hx, rfl, rfl⟩
    | some w =>
      cases hst : s.heap.store w.1 w.2 with
      | error f =>
        rw [Critbit.publish] at e
        simp only [hst] at e
        cases e
      | ok g =>
        rw [Critbit.publish] at e
        simp only [hst] at e
        cases e
        exact Heap.store_root hst hx
  | unlink hpc e hr =>
    rcases deleteInplace_spec I.holds _ with ⟨-, e'⟩ | ⟨p', h', T', old, e', U⟩
    · cases e.symm.trans e'
      exact ⟨x, hx, rfl, rfl⟩
    · cases e.symm.trans e'
      obtain ⟨slot, q, hst, -⟩ := U.store
      exact Heap.store_root hst hx
  | swapCur hpc e => rw [hpc] at ha; cases ha
  | swapPrev hpc e => rw [hpc] at ha; cases ha
  | @freeLeaf k c q w h m n hpc e =>
    obtain ⟨rfl, -⟩ : (Pc.delFree k c q w).Ok s.heap s.frees := hpc ▸ I.ok t
    have hfree : s.heap.free c.leaf = .ok h := e
    unfold Heap.free at hfree
    split at hfree
    · cases hfree
      exact ⟨x, lookup_of_erase hx, rfl, rfl⟩
    · cases hfree
  | freeNode hpc e =>
    unfold Heap.free at e
    split at e
    · cases e
      exact ⟨x, lookup_of_erase hx, rfl, rfl⟩
    · cases e
  | _ => exact ⟨x, hx, rfl, rfl⟩

/-! ## one thread moves -/

/-- **What a lookup may be on, it still may be on after the step**: the new tree has the old one, and
the thread that moves goes on to wait for the same lock if it had to. -/
theorem Kept.step (S : Stepped root s s' t T T') {pc : Pc} (hs : s'.pc = Function.update s.pc t pc)
    (htree : ∀ b ∈ annotsOf T, b ∈ annotsOf T')
    (hown : ∀ b, b ∈ (s.pc t).garbage → (s.pc t).awaits = some l →
      b ∈ pc.garbage ∧ pc.awaits = some l ∧ s'.heap.lookup b = s.heap.lookup b)
    (hall : ∀ a, On s.heap k p a → Kept s T l a) (ho : On s'.heap k p b) : Kept s' T' l b := by
  have self : s'.pc t = pc := by rw [hs, Function.update_self]
  have other : ∀ t', t' ≠ t → s'.pc t' = s.pc t' := fun t' hne => by
    rw [hs, Function.update_of_ne hne]
  have hG : ∀ a, (∃ t', a ∈ (s.pc t').garbage ∧ (s.pc t').awaits = some l) →
      (∃ t', a ∈ (s'.pc t').garbage ∧ (s'.pc t').awaits = some l) ∧
        s'.heap.lookup a = s.heap.lookup a := by
    rintro a ⟨t', ha, hw⟩
    by_cases e : t' = t
    · subst e
      obtain ⟨h1, h2, h3⟩ := hown a ha hw
      exact ⟨⟨t', self ▸ h1, self ▸ h2⟩, h3⟩
    · exact ⟨⟨t', (other t' e).symm ▸ ha, (other t' e).symm ▸ hw⟩, S.others t' e a ha⟩
  exact (On.change S.inv.holds.rep (fun a ha => (hall a ha).imp (htree a) id)
    (fun a ha => (hG a ha).2) ho).imp id fun h1 => (hG b h1).1

theorem Grace.update (G : Grace root s T) {pc : Pc} (hs : s'.pc = Function.update s.pc t pc)
    (hheld : ∀ l, pc.holding = some l → t ∈ s'.held l)
    (hkeep : ∀ t', t' ≠ t → ∀ l, t' ∈ s.held l → t' ∈ s'.held l)
    (hlocks : ∀ x, s'.heap.lookup root = some (.root x) → s'.writer.Locks x.cur x.prev)
    (hself : ∀ k out l p, pc = .getAt k out l p → ∀ b, On s'.heap k p b → Kept s' T' l b)
    (hothers : ∀ t' k l p, t' ∈ s.held l → (∀ out, s.pc t' = .getAt k out l p →
      ∀ b, On s'.heap k p b → Kept s' T' l b)) : Grace root s' T' := by
  have self : s'.pc t = pc := by rw [hs, Function.update_self]
  have other : ∀ t', t' ≠ t → s'.pc t' = s.pc t' := fun t' hne => by
    rw [hs, Function.update_of_ne hne]
  refine ⟨fun t' l hl => ?_, hlocks, fun t' k out l p e => ?_⟩
  · by_cases e : t' = t
    · subst e
      exact hheld l (self ▸ hl)
    · rw [other t' e] at hl
      exact hkeep t' e l (G.held t' l hl)
  · by_cases e' : t' = t
    · subst e'
      exact hself k out l p (self ▸ e)
    · rw [other t' e'] at e
      exact hothers t' k l p (G.held t' l (by rw [e]; rfl)) out e

/-- the tree has lost nothing if the thread has no new garbage -/
theorem Stepped.tree_mono (S : Stepped root s s' t T T') (I : Inv root s T) {pc : Pc}
    (hs : s'.pc = Function.update s.pc t pc) (hg : ∀ b ∈ pc.garbage, b ∈ (s.pc t).garbage) :
    ∀ b ∈ annotsOf T, b ∈ annotsOf T' := by
  intro b hb
  refine (S.tree b hb).resolve_right fun h1 => ?_
  rw [hs, Function.update_self] at h1
  exact (I.live t b (hg b h1)).2 (List.mem_cons_of_mem _ hb)

/-- a step that neither begins to wait nor ends to -/
theorem Grace.plain (G : Grace root s T) (I : Inv root s T) {act : Act}
    (hst : Critbit.step root s t act = some s') (S : Stepped root s s' t T T') {pc : Pc}
    (hs : s'.pc = Function.update s.pc t pc) (ha : (s.pc t).awaits = none) (ha' : pc.awaits = none)
    (hg : ∀ b ∈ pc.garbage, b ∈ (s.pc t).garbage)
    (hwl : s'.wlock = s.wlock ∨ s.wlock = none ∧ s'.wlock = some t ∨
      s.wlock = some t ∧ s'.wlock = none)
    (hheld : ∀ l, pc.holding = some l → t ∈ s'.held l)
    (hkeep : ∀ t', t' ≠ t → ∀ l, t' ∈ s.held l → t' ∈ s'.held l)
    (hself : ∀ k out l p, pc = .getAt k out l p → ∀ a, On s.heap k p a → Kept s T l a) :
    Grace root s' T' := by
  have self : s'.pc t = pc := by rw [hs, Function.update_self]
  have htree := S.tree_mono I hs hg
  have hown : ∀ l b, b ∈ (s.pc t).garbage → (s.pc t).awaits = some l →
      b ∈ pc.garbage ∧ pc.awaits = some l ∧ s'.heap.lookup b = s.heap.lookup b := by
    intro l b _ hw
    cases ha.symm.trans hw
  refine G.update hs hheld hkeep (fun x hx => ?_)
    (fun k out l p e b ho => Kept.step S hs htree (hown l) (hself k out l p e) ho)
    (fun t' k l p _ out e b ho => Kept.step S hs htree (hown l) (G.ahead t' k out l p e) ho)
  obtain ⟨y, hy, hcur, hprev⟩ := I.step_root hst ha hx
  have hl := G.locks y hy
  rw [hcur, hprev] at hl
  rcases hwl with e | ⟨e, e'⟩ | ⟨e, e'⟩
  · cases hw : s.wlock with
    | none =>
      unfold State.writer at hl ⊢
      rw [e]
      rwa [hw] at hl ⊢
    | some t' =>
      rw [State.writer_eq hw] at hl
      rw [State.writer_eq (e.trans hw)]
      by_cases e' : t' = t
      · subst e'
        rw [self, Pc.locks_iff ha']
        exact (Pc.locks_iff ha).mp hl
      · rwa [hs, Function.update_of_ne e']
  · unfold State.writer at hl
    rw [e] at hl
    rwa [State.writer_eq e', self, Pc.locks_iff ha']
  · rw [State.writer_eq e] at hl
    unfold State.writer
    rw [e']
    exact (Pc.locks_iff ha).mp hl

/-- a step after which the thread is in no lookup -/
theorem Grace.silent (G : Grace root s T) (I : Inv root s T) {act : Act}
    (hst : Critbit.step root s t act = some s') (S : Stepped root s s' t T T') {pc : Pc}
    (hs : s'.pc = Function.update s.pc t pc) (hheld : s'.held = s.held)
    (ha : (s.pc t).awaits = none) (ha' : pc.awaits = none) (hh : pc.holding = none)
    (hg : ∀ b ∈ pc.garbage, b ∈ (s.pc t).garbage)
    (hwl : s'.wlock = s.wlock ∨ s.wlock = none ∧ s'.wlock = some t ∨
      s.wlock = some t ∧ s'.wlock = none) : Grace root s' T' := by
  refine G.plain I hst S hs ha ha' hg hwl (fun l e => ?_) (fun t' _ l hl => hheld ▸ hl)
    fun k out l p e => ?_
  · cases hh.symm.trans e
  · rw [e] at hh
    cases hh

/-- a deletion exchanges the locks -/
theorem Grace.swap (G : Grace root s T) (I : Inv root s T) (S : Stepped root s s' t T T') {pc : Pc}
    (hs : s'.pc = Function.update s.pc t pc) (ha : pc.awaits = (s.pc t).awaits)
    (hg : pc.garbage = (s.pc t).garbage) (hheld : s'.held = s.held)
    (hno : pc.holding = none) (hlook : ∀ b, b ≠ root → s'.heap.lookup b = s.heap.lookup b)
    (hlocks : ∀ x, s'.heap.lookup root = some (.root x) → s'.writer.Locks x.cur x.prev) :
    Grace root s' T' := by
  refine G.update hs (fun l e => ?_) (fun t' _ l hl => hheld ▸ hl) hlocks (fun k out l p e => ?_)
    fun t' k l p _ out e b ho => Kept.step S hs (S.tree_mono I hs fun b hb => hg ▸ hb)
      (fun b hb hw => ⟨hg ▸ hb, ha ▸ hw, hlook b ?_⟩) (G.ahead t' k out l p e) ho
  · cases hno.symm.trans e
  · rw [e] at hno
    cases hno
  · rintro rfl
    exact (I.live t b hb).2 List.mem_cons_self

/-- a deletion has waited: no lookup has the lock -/
theorem Grace.wait (G : Grace root s T) (I : Inv root s T) {c : Cut} (S : Stepped root s
    (s.goto t (.delUnlock k c)) t T T') (hpc : s.pc t = .delWait k c l) (hl : s.held l = ∅) :
    Grace root (s.goto t (.delUnlock k c)) T' := by
  have hw : s.wlock = some t := I.owner t (by rw [hpc]; rfl)
  have htree := S.tree_mono I rfl fun b hb => by rw [hpc]; exact hb
  refine G.update rfl nofun (fun t' _ l hl => hl) (fun x hx => ?_) nofun
    fun t' k' l' p ht' out e b ho => Kept.step S rfl htree (fun b _ haw => ?_)
      (G.ahead t' k' out l' p e) ho
  · have hlk := G.locks x hx
    rw [State.writer_eq hw, hpc] at hlk
    rw [State.writer_goto hw]
    exact hlk
  · rw [hpc] at haw
    cases haw
    rw [hl] at ht'
    exact absurd ht' (Finset.notMem_empty t')

/-! ## the condition -/

def Pc.deleting : Pc → Option Key
  | .delEnter k => some k
  | _ => none

/-- the lock of a lookup and where it is -/
def Pc.reading : Pc → Option (RwLock × Ptr)
  | .getAt _ _ l p => some (l, p)
  | _ => none

/-- the block is the leaf `a`, or a node with a field that points to it -/
def touches (h : Heap) (a b : Addr) : Bool :=
  b = a || (h.node b).toOption.any fun n => n.child false = .str a || n.child true = .str a

/-- If the thread is about to unlink a leaf, no lookup that holds the lock in `prev_rwlock` is at that
leaf or at the node above it. -/
def Unread (root : Addr) (s : State Tid) (t : Tid) : Prop :=
  ∀ k ∈ (s.pc t).deleting, ∀ r ∈ (s.heap.root root).toOption,
    ∀ x ∈ (s.heap.str (.str (nearestLeaf s.heap root k))).toOption, x.chars = k.buf →
      ∀ t', ∀ q ∈ (s.pc t').reading, q.1 = r.prev →
        ∀ b ∈ q.2.block, touches s.heap (nearestLeaf s.heap root k) b = false

instance [Fintype Tid] (root : Addr) (s : State Tid) (t : Tid) : Decidable (Unread root s t) :=
  inferInstanceAs (Decidable (∀ k ∈ (s.pc t).deleting, ∀ r ∈ (s.heap.root root).toOption,
    ∀ x ∈ (s.heap.str (.str (nearestLeaf s.heap root k))).toOption, x.chars = k.buf →
      ∀ t', ∀ q ∈ (s.pc t').reading, q.1 = r.prev →
        ∀ b ∈ q.2.block, touches s.heap (nearestLeaf s.heap root k) b = false))

/-- the unlinked blocks are the leaf and the node above it -/
theorem Unlinked.touches {old : List Addr} (H : Holds h root T)
    (U : Unlinked h root T k p h' T' old) :
    (∃ v, h.lookup (nearestLeaf h root k) = some (.str ⟨v, k.buf⟩)) ∧
      ∀ b ∈ old, Critbit.touches h (nearestLeaf h root k) b := by
  obtain ⟨a, v, -, ⟨u, rfl, hu⟩, hcase⟩ := U.blocks H
  rw [nearestLeaf_eq H hu]
  refine ⟨⟨v, (H.rep u rfl).leaf hu⟩, fun b hb => ?_⟩
  unfold Critbit.touches
  rcases hcase with ⟨-, rfl⟩ | ⟨b', n, d, -, rfl, hn, hc, -⟩
  · rw [List.mem_singleton.mp hb]
    simp
  · rcases List.mem_pair.mp hb with rfl | rfl
    · simp
    · have hout : b ∉ root :: annotsOf T' := fun h1 =>
        List.disjoint_of_nodup_append (U.nodup H) hb h1
      rw [Heap.node_ok ((U.frame hout).symm.trans hn)]
      cases d with
      | false => simp [Except.toOption, hc]
      | true => simp [Except.toOption, hc]

/-- when a deletion unlinks, what a lookup has ahead of it is in the tree -/
theorem Grace.in_tree (G : Grace root s T) (I : Inv root s T) (hpc : s.pc t = .delEnter k) {t' : Tid}
    {k' : Key} {out : Val} (hpc' : s.pc t' = .getAt k' out l p) (ho : On s.heap k' p b) :
    b ∈ annotsOf T := by
  refine (G.ahead t' k' out l p hpc' b ho).resolve_right ?_
  rintro ⟨t₁, -, hw⟩
  have hwr : (s.pc t).writing := by rw [hpc]; rfl
  have e : t₁ = t := by
    by_contra hne
    exact I.alone hwr hne (Pc.writing_of_awaits hw)
  rw [e, hpc] at hw
  cases hw

/-- **A deletion unlinks**: the lookups that may still come to the blocks hold the lock that it is
going to wait for. -/
theorem Grace.unlink (G : Grace root s T) (I : Inv root s T) (hu : Unread root s t) {q : Ptr} {h : Heap}
    {r : Root} {m n : Option Addr} (hpc : s.pc t = .delEnter k)
    (e : critbitDeleteInplace s.heap root k.buf (int32 (strlen k)) = .ok (q, h))
    (hr : h.root root = .ok r)
    (hs : Critbit.step root s t (.go m n) = some s')
    (es : s' = ({ s with heap := h } : State Tid).goto t
      (.delSwapCur k ⟨q, nearestLeaf s.heap root k, s.frees.length⟩ r.cur r.prev))
    (S : Stepped root s s' t T T') : Grace root s' T' := by
  have hpcs : s'.pc = Function.update s.pc t
      (.delSwapCur k ⟨q, nearestLeaf s.heap root k, s.frees.length⟩ r.cur r.prev) := by rw [es]; rfl
  have hheap : s'.heap = h := by rw [es]; rfl
  have hroot : s'.heap.lookup root = some (.root r) := by rw [hheap]; exact Heap.root_inv hr
  have hw : s.wlock = some t := I.owner t (by rw [hpc]; rfl)
  obtain ⟨y, hy, hcur, hprev⟩ := I.step_root hs (by rw [hpc]; rfl) hroot
  have hne : r.cur ≠ r.prev := by
    have hl := G.locks y hy
    rwa [State.writer_eq hw, hpc, hcur, hprev] at hl
  refine G.update hpcs nofun (fun t' _ l hl => by rw [es]; exact hl) (fun x hx => ?_) nofun
    fun t' k' l p _ out e' b ho => ?_
  · rw [hroot, Option.some.injEq, Block.root.injEq] at hx
    have hw' : s'.wlock = some t := by rw [es]; exact hw
    rw [State.writer_eq hw', hpcs, Function.update_self, ← hx]
    exact ⟨rfl, rfl, hne⟩
  have hall : ∀ a, On s.heap k' p a → a ∈ annotsOf T := fun a ha => G.in_tree I hpc e' ha
  rcases deleteInplace_spec I.holds k with ⟨-, e₁⟩ | ⟨q', h', T₁, old, e₁, U⟩
  · obtain ⟨-, e₂⟩ := Prod.mk.inj (Except.ok.inj (e.symm.trans e₁))
    have H' : Holds s.heap root T' := by
      have := S.inv.holds
      rwa [hheap, e₂] at this
    rw [hheap, e₂] at ho
    exact .inl (I.holds.unique H' ▸ hall b ho)
  · obtain ⟨rfl, e₂⟩ := Prod.mk.inj (Except.ok.inj (e.symm.trans e₁))
    rw [hheap] at ho
    have H' : Holds h root T' := hheap ▸ S.inv.holds
    obtain rfl : T₁ = T' := (e₂ ▸ U.holds).unique H'
    subst e₂
    have hparts : ∀ a, a ∈ annotsOf T → a ∈ annotsOf T₁ ∨ a ∈ old := fun a ha =>
      (List.mem_append.mp (U.deleted.annots.mem_iff.mp ha)).symm
    cases hp : p.block with
    | none =>
      obtain ⟨q₁, hw₁, hb⟩ := ho
      rcases Relation.ReflTransGen.cases_head hw₁ with rfl | ⟨q₂, ⟨a, d, rfl, -⟩, -⟩
      · cases hp.symm.trans hb
      · cases hp
    | some a =>
      rcases hparts a (hall a ⟨p, .refl, hp⟩) with ha | ha
      · -- where the lookup is, is still in the tree
        cases T₁ with
        | none => exact absurd ha List.not_mem_nil
        | some u => exact .inl (on_of_block (H'.rep u rfl) hp ha ho)
      · obtain ⟨⟨v, hleaf⟩, htouch⟩ := U.touches I.holds
        have hl : l ≠ r.prev := by
          intro hl
          have h1 := hu k (by rw [hpc]; rfl) y (by rw [Heap.root_ok hy]; rfl) ⟨v, k.buf⟩
            (by rw [Heap.str_ok hleaf]; rfl) rfl t' (l, p) (by rw [e']; rfl) (hl.trans hprev.symm) a hp
          rw [htouch a ha] at h1
          cases h1
        have hl' : r.cur = l := RwLock.eq_of_ne hne hl
        have hout : ∀ c ∈ old, h.lookup c = s.heap.lookup c := fun c hc => U.frame fun h1 =>
          List.disjoint_of_nodup_append (U.nodup I.holds) hc h1
        refine (On.change H'.rep (fun c hc => hparts c (hall c hc)) hout ho).imp id fun hb =>
          ⟨t, ?_, ?_⟩
        · rw [hpcs, Function.update_self]
          show b ∈ Cut.blocks _
          rwa [U.cut_leaf I.holds]
        · rw [hpcs, Function.update_self]
          exact congrArg some hl'

/-! ## every step and every run -/

theorem afterUnlock_silent (k : Key) (c : Cut) : (afterUnlock k c).awaits = none ∧
    (afterUnlock k c).holding = none ∧ ∀ b ∈ (afterUnlock k c).garbage, b ∈ c.blocks := by
  unfold afterUnlock
  cases c.p with
  | null => exact ⟨rfl, rfl, nofun⟩
  | str a => exact ⟨rfl, rfl, fun b hb => hb⟩
  | node a => exact ⟨rfl, rfl, fun b hb => hb⟩

/-- **One step.** -/
theorem Grace.step (G : Grace root s T) (I : Inv root s T) {act : Act} (hu : Unread root s t)
    (hs : Critbit.step root s t act = some s') (S : Stepped root s s' t T T') : Grace root s' T' := by
  cases step_trans hs with
  | getCur hpc hr => exact G.silent I hs S rfl rfl (by rw [hpc]; rfl) rfl rfl nofun (.inl rfl)
  | @rdlock k out l m n hpc =>
    refine G.plain I hs S rfl (by rw [hpc]; rfl) rfl nofun (.inl rfl) (fun l' hl => ?_)
      (fun t' _ l' hl => ?_) nofun
    · cases hl
      show t ∈ Function.update s.held l (insert t (s.held l)) l
      rw [Function.update_self]
      exact Finset.mem_insert_self t _
    · show t' ∈ Function.update s.held l (insert t (s.held l)) l'
      by_cases e : l' = l
      · subst e
        rw [Function.update_self]
        exact Finset.mem_insert_of_mem hl
      · rwa [Function.update_of_ne e]
  | @head k out l p m n hpc hp =>
    refine G.plain I hs S rfl (by rw [hpc]; rfl) rfl nofun (.inl rfl) (fun l' hl => ?_)
      (fun t' _ l' hl => hl) fun k' out' l' p' e a ho => .inl ?_
    · cases hl
      exact G.held t l (by rw [hpc]; rfl)
    · -- all that is ahead of the new lookup is in the tree
      cases e
      obtain ⟨x, hx, hhead⟩ := I.holds.record
      rw [Heap.load_head hx, hhead, Except.ok.injEq] at hp
      subst hp
      cases T with
      | none =>
        obtain ⟨q, hw, hb⟩ := ho
        rw [not_below_null (Relation.ReflTransGen.mono (fun _ _ => Next.child) _ _ hw)] at hb
        cases hb
      | some u => exact On.sub (I.holds.rep u rfl) ho
  | @child k out l a x d m n hpc hn hd =>
    refine G.plain I hs S rfl (by rw [hpc]; rfl) rfl nofun (.inl rfl) (fun l' hl => ?_)
      (fun t' _ l' hl => hl) fun k' out' l' p' e b ho => ?_
    · cases hl
      exact G.held t l (by rw [hpc]; rfl)
    · -- it was ahead of the lookup already
      cases e
      obtain ⟨q, hw, hb⟩ := ho
      exact G.ahead t k out l _ hpc b ⟨q, .head ⟨a, d, rfl, x, hn, hd, rfl⟩ hw, hb⟩
  | @answer k out l p ret m n hpc hr =>
    refine G.plain I hs S rfl (by rw [hpc]; rfl) rfl nofun (.inl rfl) (fun l' hl => ?_)
      (fun t' _ l' hl => hl) nofun
    cases hl
    exact G.held t l (by rw [hpc]; rfl)
  | @rdunlock l ret m n hpc =>
    refine G.plain I hs S rfl (by rw [hpc]; rfl) rfl nofun (.inl rfl) nofun
      (fun t' hne l' hl => ?_) nofun
    show t' ∈ Function.update s.held l ((s.held l).erase t) l'
    by_cases e : l' = l
    · subst e
      rw [Function.update_self]
      exact Finset.mem_erase.mpr ⟨hne, hl⟩
    · rwa [Function.update_of_ne e]
  | insLock hpc hw =>
    exact G.silent I hs S rfl rfl (by rw [hpc]; rfl) rfl rfl nofun (.inr (.inl ⟨hw, rfl⟩))
  | prepare hpc e => exact G.silent I hs S rfl rfl (by rw [hpc]; rfl) rfl rfl nofun (.inl rfl)
  | publish hpc e => exact G.silent I hs S rfl rfl (by rw [hpc]; rfl) rfl rfl nofun (.inl rfl)
  | insUnlock hpc =>
    have hw : s.wlock = some t := I.owner t (by rw [hpc]; rfl)
    exact G.silent I hs S rfl rfl (by rw [hpc]; rfl) rfl rfl nofun (.inr (.inr ⟨hw, rfl⟩))
  | delLock hpc hw =>
    exact G.silent I hs S rfl rfl (by rw [hpc]; rfl) rfl rfl nofun (.inr (.inl ⟨hw, rfl⟩))
  | unlink hpc e hr => exact G.unlink I hu hpc e hr hs rfl S
  | @swapCur k c l l' h m n hpc e =>
    obtain ⟨x, hx, hx', hf, -⟩ := casCur_ok I.holds e
    have hw : s.wlock = some t := I.owner t (by rw [hpc]; rfl)
    have hl := G.locks x hx
    rw [State.writer_eq hw, hpc] at hl
    obtain ⟨hcur, hprev, hne⟩ := hl
    refine G.swap I S rfl (by rw [hpc]; rfl) (by rw [hpc]; rfl) rfl rfl hf fun y hy => ?_
    cases hx'.symm.trans hy
    rw [State.writer_goto (s := { s with heap := h }) hw, if_pos hcur]
    exact ⟨rfl, hprev, hne⟩
  | @swapPrev k c l l' h m n hpc e =>
    obtain ⟨x, hx, hx', hf, -⟩ := casPrev_ok I.holds e
    have hw : s.wlock = some t := I.owner t (by rw [hpc]; rfl)
    have hl := G.locks x hx
    rw [State.writer_eq hw, hpc] at hl
    obtain ⟨hcur, hprev, hne⟩ := hl
    refine G.swap I S rfl (by rw [hpc]; rfl) (by rw [hpc]; rfl) rfl rfl hf fun y hy => ?_
    cases hx'.symm.trans hy
    rw [State.writer_goto (s := { s with heap := h }) hw, if_pos hprev]
    show x.cur ≠ _
    rw [hcur]
    exact hne.symm
  | wait hpc hl => exact G.wait I S hpc hl
  | @delUnlock k c m n hpc =>
    have hw : s.wlock = some t := I.owner t (by rw [hpc]; rfl)
    obtain ⟨ha', hh, hg⟩ := afterUnlock_silent k c
    exact G.silent I hs S rfl rfl (by rw [hpc]; rfl) ha' hh (fun b hb => by rw [hpc]; exact hg b hb)
      (.inr (.inr ⟨hw, rfl⟩))
  | read hpc hn =>
    exact G.silent I hs S rfl rfl (by rw [hpc]; rfl) rfl rfl (fun b hb => by rw [hpc]; exact hb)
      (.inl rfl)
  | compare hpc e =>
    exact G.silent I hs S rfl rfl (by rw [hpc]; rfl) rfl rfl (fun b hb => by rw [hpc]; exact hb)
      (.inl rfl)
  | @freeLeaf k c p w h m n hpc e =>
    obtain ⟨-, -, hcase⟩ : (Pc.delFree k c p w).Ok s.heap s.frees := hpc ▸ I.ok t
    rcases hcase with ⟨-, rfl⟩ | ⟨a, x, hp, rfl, -⟩
    · exact G.silent I hs S rfl rfl (by rw [hpc]; rfl) rfl rfl nofun (.inl rfl)
    · refine G.silent I hs S rfl rfl (by rw [hpc]; rfl) rfl rfl (fun b hb => ?_) (.inl rfl)
      rw [hpc, List.mem_singleton.mp hb]
      exact mem_node_blocks hp
  | freeNode hpc e => exact G.silent I hs S rfl rfl (by rw [hpc]; rfl) rfl rfl nofun (.inl rfl)

omit [DecidableEq Tid] in
theorem grace_start (root : Addr) : Grace root (start root : State Tid) none := by
  refine ⟨fun _ _ => nofun, fun x hx => ?_, fun _ _ _ _ _ => nofun⟩
  rw [show (start root : State Tid).heap = newHeap root from rfl, newHeap, Finmap.lookup_insert] at hx
  cases hx
  exact nofun

/-- no leaf is freed that is going to be compared, the keys are short, and no lookup is missed -/
def Cautious (root : Addr) (s : State Tid) (t : Tid) (act : Act) : Prop :=
  Guarded s t act ∧ Unread root s t

instance [Fintype Tid] (root : Addr) (s : State Tid) (t : Tid) (act : Act) :
    Decidable (Cautious root s t act) := inferInstanceAs (Decidable (_ ∧ _))

theorem Grace.run (I : Inv root s T) (G : Grace root s T) (hr : Run root (Cautious root) s s') :
    ∃ T', Inv root s' T' ∧ Grace root s' T' := by
  induction hr with
  | refl => exact ⟨T, I, G⟩
  | tail _ hs ih =>
    obtain ⟨T₁, I₁, G₁⟩ := ih
    obtain ⟨t, act, ⟨hg, hu⟩, hs⟩ := hs
    obtain ⟨T₂, S⟩ := I₁.step hg hs
    exact ⟨T₂, S.inv, G₁.step I₁ hu hs S⟩

/-! ## lookups -/

/-- no lookup is on a block that has been freed -/
def ReaderSafe (s : State Tid) : Prop :=
  ∀ t k out l p b, s.pc t = .getAt k out l p → p.block = some b → b ∈ s.heap

/-- **No lookup is on a block that has been freed**, nor has it one ahead, in every run in which no
deletion unlinks what a lookup is on that it does not wait for. -/
theorem reader_safe (hr : Run root (Cautious root) (start root : State Tid) s) :
    ReaderSafe s ∧ ∀ t k out l p, s.pc t = .getAt k out l p → ∀ b, On s.heap k p b → b ∈ s.heap := by
  obtain ⟨T, I, G⟩ := Grace.run (inv_start root) (grace_start root) hr
  have hahead : ∀ t k out l p, s.pc t = .getAt k out l p → ∀ b, On s.heap k p b → b ∈ s.heap :=
    fun t k out l p e b ho => (G.ahead t k out l p e b ho).live I
  exact ⟨fun t k out l p b e hb => hahead t k out l p e b ⟨p, .refl, hb⟩, hahead⟩

end

/-- a lookup at a node that a deletion has unlinked; the deletion waits for it -/
theorem reader_safe_two : ∃ s : State Bool, Run 0 (Cautious 0) (start 0) s ∧
    s.pc false = .delWait ⟨[98], by decide⟩ ⟨.node 2, 3, 0⟩ .left ∧
    s.pc true = .getAt ⟨[97], by decide⟩ 0 .left (.node 2) ∧ 2 ∈ s.heap := by
  have hrun : (steps 0 (Cautious 0) (start 0 : State Bool)
      [(false, .insert ⟨[97], by decide⟩ 1), (false, .go none (some 1)), (false, .go none none),
        (false, .go none none), (false, .insert ⟨[98], by decide⟩ 2), (false, .go (some 2) (some 3)),
        (false, .go none none), (false, .go none none), (true, .get ⟨[97], by decide⟩ 0),
        (true, .go none none), (true, .go none none), (false, .delete ⟨[98], by decide⟩),
        (false, .go none none), (false, .go none none), (false, .go none none)]).any fun s =>
      s.pc false = .delWait ⟨[98], by decide⟩ ⟨.node 2, 3, 0⟩ .left ∧
        s.pc true = .getAt ⟨[97], by decide⟩ 0 .left (.node 2) := by decide +kernel
  obtain ⟨s, hs, hpc⟩ := (Option.any_eq_true _ _).mp hrun
  obtain ⟨hdel, hget⟩ := of_decide_eq_true hpc
  have hr := run_of_steps hs
  exact ⟨s, hr, hdel, hget, (reader_safe hr).1 true _ _ _ _ 2 hget rfl⟩

/-- **A lookup is at a freed node.**  The second thread loads `cur_rwlock`; the first one deletes a key
that is not there, which exchanges the locks; the second one takes its lock, now in `prev_rwlock`, and
loads `head`; the first one deletes `a`, does not wait for it, and frees the node. -/
theorem not_reader_safe : ∃ s : State Bool, Run 0 (fun _ _ _ => True) (start 0) s ∧
    s.pc true = .getAt ⟨[97], by decide⟩ 0 .left (.node 2) ∧ 2 ∉ s.heap ∧ ¬ ReaderSafe s := by
  have hrun : (steps 0 (fun _ _ _ => True) (start 0 : State Bool)
      [(false, .insert ⟨[97], by decide⟩ 1), (false, .go none (some 1)), (false, .go none none),
        (false, .go none none), (false, .insert ⟨[98], by decide⟩ 2), (false, .go (some 2) (some 3)),
        (false, .go none none), (false, .go none none), (true, .get ⟨[97], by decide⟩ 0),
        (false, .delete ⟨[99], by decide⟩), (false, .go none none), (false, .go none none),
        (false, .go none none), (false, .go none none), (false, .go none none),
        (true, .go none none), (true, .go none none), (false, .delete ⟨[97], by decide⟩),
        (false, .go none none), (false, .go none none), (false, .go none none),
        (false, .go none none), (false, .go none none), (false, .go none none),
        (false, .go none none), (false, .go none none), (false, .go none none)]).any fun s =>
      s.pc true = .getAt ⟨[97], by decide⟩ 0 .left (.node 2) ∧ 2 ∉ s.heap := by decide +kernel
  obtain ⟨s, hs, hpc⟩ := (Option.any_eq_true _ _).mp hrun
  obtain ⟨hget, hfreed⟩ := of_decide_eq_true hpc
  exact ⟨s, run_of_steps hs, hget, hfreed, fun hsafe => hfreed (hsafe true _ _ _ _ 2 hget rfl)⟩

end Critbit
