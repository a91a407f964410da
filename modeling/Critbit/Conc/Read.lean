import Critbit.Run.Refine
import Critbit.Conc.Walk

/-!
# A lookup next to writers

One lookup of `k` loads `head` and one child after another, while writers under `wlock` prepare and
publish insertions and unlink leaves.  Unlinked blocks keep their contents, and the tree does not
become empty.  `seen` collects the heaps that are current from the load of `head` up to the last load
of a pointer.

* `Rewrite`               what a step of a writer means to the lookup: the leaf of a bound key stays
                          where the walk ends, with its value;
* `ReadInv`               the invariant of all interleavings;
* `read_linearizable`     the answer is that of an atomic lookup in one of the heaps of `seen`; a key
                          that all of them bind is found, one that none of them binds is not.
-/

namespace Critbit
open Crit CTree

variable {h h' h₀ : Heap} {root : Addr} {T T' : Option MTree} {k k' : Key} {v : Val}

/-! ## what a step of a writer means to the lookup -/

/-- the heap has changed from `h` to `h'`, where the tree is `t'` -/
structure Rewrite (root : Addr) (k : Key) (h h' : Heap) (t' : MTree) : Prop where
  holds : Holds h' root (some t')
  str : ∀ a x, h.lookup a = some (.str x) → h'.lookup a = some (.str x)
  node : ∀ a n, h.node a = .ok n → ∃ n', h'.node a = .ok n' ∧ (a ∉ t'.annots → n' = n)
  walk : k ∈ t'.keys → ∀ q a w, Walk h k q (.str a) → h.str (.str a) = .ok ⟨w, k.buf⟩ →
    Walk h' k q (.str a)
  value : k ∈ t'.keys → ∀ t w, Holds h root (some t) → valueOf (some t) k = some w →
    valueOf (some t') k = some w

/-- new blocks only -/
theorem Rewrite.of_grow {t : MTree} (H : Holds h root (some t))
    (hf : ∀ b ∈ h, h'.lookup b = h.lookup b) : Rewrite root k h h' t where
  holds := H.frame fun b hb => hf b (H.mem hb)
  str a x ha := (hf a (Heap.mem_of_lookup ha)).trans ha
  node a n hn := by
    have ha := Heap.node_inv hn
    exact ⟨n, Heap.node_ok ((hf a (Heap.mem_of_lookup ha)).trans ha), fun _ => rfl⟩
  walk _ q a w hw _ := walk_grow hf hw
  value _ u w Hu hv := H.unique Hu ▸ hv

/-- a store to a block of the tree -/
theorem Rewrite.of_store {s : Slot} {r : Ptr} {t' : MTree} (H' : Holds h' root (some t'))
    (hs : h.store s r = .ok h') (hin : s.addr ∈ root :: t'.annots)
    (hw : k ∈ t'.keys → ∀ q a w, Walk h k q (.str a) → h.str (.str a) = .ok ⟨w, k.buf⟩ →
      Walk h' k q (.str a))
    (hv : k ∈ t'.keys → ∀ t w, Holds h root (some t) → valueOf (some t) k = some w →
      valueOf (some t') k = some w) : Rewrite root k h h' t' where
  holds := H'
  str a x ha := Heap.store_str hs ha
  node a n hn := by
    obtain ⟨n', hn', -⟩ := Heap.store_node hs hn
    refine ⟨n', hn', fun ha => ?_⟩
    have hne : a ≠ s.addr := by
      rintro rfl
      rcases List.mem_cons.mp hin with e | e
      · obtain ⟨x, hx, -⟩ := H'.record
        rw [e] at hn'
        cases (Heap.node_inv hn').symm.trans hx
      · exact ha e
    have e := (Heap.store_frame hs hne).trans (Heap.node_inv hn)
    rw [Heap.node_ok e, Except.ok.injEq] at hn'
    exact hn'.symm
  walk := hw
  value := hv

theorem Rewrite.of_publish {t : MTree} {s : Slot} {p : Ptr} {new : List Addr}
    (H : Holds h₀ root (some t)) (P : Prepared h₀ root (some t) k' v h s p T' new)
    (hs : h.store s p = .ok h') (hk : Short k) (hk' : Short k') :
    ∃ t', T' = some t' ∧ Rewrite root k h h' t' := by
  obtain ⟨h₁, hs₁, H'⟩ := P.publish H hk'
  obtain rfl := Except.ok.inj (hs₁.symm.trans hs)
  obtain ⟨t', rfl⟩ : ∃ t', T' = some t' := by
    cases P.inserted with
    | splice => exact ⟨_, rfl⟩
  refine ⟨t', rfl, .of_store H' hs ?_ (fun _ q a w hw ha => walk_publish H P hs hk hw ha)
    fun _ u w Hu hv => ?_⟩
  · have hsub : ∀ b ∈ root :: t.annots, b ∈ root :: t'.annots := by
      intro b hb
      refine (List.mem_cons.mp hb).elim (fun e => e ▸ List.mem_cons_self) fun e => ?_
      exact List.mem_cons_of_mem _ (P.inserted.annots.mem_iff.mpr (List.mem_append_right _ e))
    exact hsub _ P.addr
  · -- only a key that is not bound is inserted
    obtain rfl := Option.some.inj ((H.frame fun b hb => P.old H hb).unique Hu)
    have hne : k ≠ k' := by
      rintro rfl
      rw [valueOf_eq_none.mpr (P.inserted.not_mem H.good)] at hv
      cases hv
    rwa [P.inserted.valueOf hk' H.good, Function.update_of_ne hne]

theorem Rewrite.of_unlink {t' : MTree} {p : Ptr} {old : List Addr} (H : Holds h root T)
    (U : Unlinked h root T k' p h' (some t') old) (hk : Short k) : Rewrite root k h h' t' := by
  obtain ⟨s, r, hs, hin⟩ := U.store
  have hne : k ∈ t'.keys → k ≠ k' := by
    rintro hmem rfl
    exact U.deleted.not_mem H.good hmem
  refine .of_store U.holds hs hin (fun hmem q a w hw ha => walk_unlink H U hk (hne hmem) hw ha)
    fun hmem u w Hu hv => ?_
  obtain rfl := H.unique Hu
  rwa [U.deleted.valueOf H.good, Function.update_of_ne (hne hmem)]

/-! ## the invariant of the lookup -/

/-- the pointer `q` was in the tree at some moment of the lookup -/
def Seen (root : Addr) (seen : List Heap) (q : Ptr) : Prop :=
  ∃ g ∈ seen, ∃ t u, Holds g root (some t) ∧ Sub u t ∧ q = ptr u

/-- the tree of `g` stands for the map `m` -/
def Shows (root : Addr) (g : Heap) (m : Map) : Prop := ∃ T, Holds g root T ∧ valueOf T = m

/-- `k` is bound in the tree of `g` -/
def Bound (root : Addr) (k : Key) (g : Heap) : Prop := ∃ m, Shows root g m ∧ m k ≠ none

theorem bound_iff (H : Holds h root T) : Bound root k h ↔ k ∈ keysOf T := by
  constructor
  · rintro ⟨m, ⟨S, H', rfl⟩, hm⟩
    obtain rfl := H.unique H'
    exact not_imp_comm.mp valueOf_eq_none.mpr hm
  · exact fun hk => ⟨_, ⟨T, H, rfl⟩, fun e => valueOf_eq_none.mp e hk⟩

/-- The lookup stands on the node `a` in the heap `h`: what it can reach was in the tree at some moment,
and if `k` was bound all the time, then the walk leads to its leaf, which has the value that it had
all the time. -/
structure Standing (root : Addr) (k : Key) (h : Heap) (seen : List Heap) (a : Addr) : Prop where
  current : h ∈ seen
  trees : ∀ g ∈ seen, ∃ t, Holds g root (some t)
  str : ∀ g ∈ seen, ∀ b x, g.lookup b = some (.str x) → h.lookup b = some (.str x)
  here : Seen root seen (.node a)
  ahead : ∀ b, Seen root seen (.node b) → ∃ n, h.node b = .ok n ∧
    (∃ d, getDirection n k.buf (sizeT (int32 (strlen k))) = .ok d) ∧
    ∀ d, Seen root seen (n.child d)
  walk : (∀ g ∈ seen, Bound root k g) → ∃ b w, Walk h k (.node a) (.str b) ∧
    h.str (.str b) = .ok ⟨w, k.buf⟩ ∧ ∀ g ∈ seen, ∃ m, Shows root g m ∧ m k = some w

/-- The lookup has loaded the pointer of the leaf `a`: its answer is that of one map, and if `k` was
bound all the time, then with the value that it had all the time. -/
structure Settled (root : Addr) (k : Key) (h : Heap) (seen : List Heap) (a : Addr) : Prop where
  leaf : ∃ x, h.lookup a = some (.str x)
  trees : ∀ g ∈ seen, ∃ t, Holds g root (some t)
  moment : ∃ g ∈ seen, ∃ m, Shows root g m ∧
    ∀ out, getResult h (.str a) k.buf out = .ok (answer (m k) out)
  found : (∀ g ∈ seen, Bound root k g) → ∃ w, (∀ g ∈ seen, ∃ m, Shows root g m ∧ m k = some w) ∧
    ∀ out, getResult h (.str a) k.buf out = .ok (0, w)

theorem Seen.mono {seen : List Heap} {q : Ptr} (hq : Seen root seen q) (g : Heap) :
    Seen root (g :: seen) q := by
  obtain ⟨g', hg, hrest⟩ := hq
  exact ⟨g', List.mem_cons_of_mem _ hg, hrest⟩

theorem seen_tree {seen : List Heap} {t u : MTree} (hg : h ∈ seen) (H : Holds h root (some t))
    (hu : Sub u t) : Seen root seen (ptr u) := ⟨h, hg, t, u, H, hu, rfl⟩

/-- a node of the tree and what hangs from it -/
theorem ahead_tree {seen : List Heap} {t : MTree} (hg : h ∈ seen) (H : Holds h root (some t))
    {b : Addr} {i : Nat} {c : Bool → MTree} (hu : Sub (.node b i c) t) (k : Key) :
    ∃ n, h.node b = .ok n ∧ (∃ d, getDirection n k.buf (sizeT (int32 (strlen k))) = .ok d) ∧
      ∀ d, Seen root seen (n.child d) := by
  have hgood : Good (.node b i c) := ⟨hu.wf (H.good t rfl).wf, fun x hx =>
    (H.good t rfl).short x (hu.keys hx)⟩
  exact ⟨_, Heap.node_ok ((H.rep t rfl).sub hu).node, ⟨_, getDirection_nodeOf hgood.byte_lt c k⟩,
    fun d => seen_tree hg H (hu.of_node d)⟩

/-- **The step lemma**: a writer moves the heap on, and the lookup stands where it stood. -/
theorem Standing.rewrite {seen : List Heap} {a : Addr} {t' : MTree}
    (S : Standing root k h seen a) (W : Rewrite root k h h' t') :
    Standing root k h' (h' :: seen) a where
  current := List.mem_cons_self
  trees g hg := by
    rcases List.mem_cons.mp hg with rfl | hg
    · exact ⟨t', W.holds⟩
    · exact S.trees g hg
  str g hg b x hb := by
    rcases List.mem_cons.mp hg with rfl | hg
    · exact hb
    · exact W.str b x (S.str g hg b x hb)
  here := S.here.mono h'
  ahead b hb := by
    have hmem : h' ∈ h' :: seen := List.mem_cons_self
    have hin : ∀ {i c}, Sub (.node b i c) t' → _ := fun hu => ahead_tree hmem W.holds hu k
    obtain ⟨g, hg, t, u, H, hu, e⟩ := hb
    cases u with
    | leaf b' x w => cases e
    | node b' i c =>
      cases e
      rcases List.mem_cons.mp hg with rfl | hg
      · rw [W.holds.unique H |> Option.some.inj] at hin
        exact hin hu
      · obtain ⟨n, hn, hd, hc⟩ := S.ahead b ⟨g, hg, t, _, H, hu, rfl⟩
        obtain ⟨n', hn', hsame⟩ := W.node b n hn
        by_cases hmem : b ∈ t'.annots
        · -- a node of the tree now
          obtain ⟨u, hu', rfl⟩ := exists_sub_top hmem
          cases u with
          | leaf b x w =>
            have hleaf := (W.holds.rep t' rfl).sub hu'
            cases (Heap.node_inv hn').symm.trans hleaf
          | node b j e => exact hin hu'
        · obtain rfl := hsame hmem
          exact ⟨n', hn', hd, fun d => (hc d).mono h'⟩
  walk hb := by
    obtain ⟨b, w, hw, hx, hv⟩ := S.walk fun g hg => hb g (List.mem_cons_of_mem _ hg)
    have hk : k ∈ t'.keys := (bound_iff W.holds).mp (hb h' List.mem_cons_self)
    obtain ⟨c, e, hlook⟩ := Heap.str_inv hx
    cases e
    refine ⟨b, w, W.walk hk _ b w hw hx, Heap.str_ok (W.str b _ hlook), fun g hg => ?_⟩
    rcases List.mem_cons.mp hg with rfl | hg
    · obtain ⟨t, H⟩ := S.trees h S.current
      obtain ⟨m, ⟨T, H', rfl⟩, hm⟩ := hv h S.current
      obtain rfl := H.unique H'
      exact ⟨_, ⟨_, W.holds, rfl⟩, W.value hk t w H hm⟩
    · exact hv g hg

theorem Settled.rewrite {seen : List Heap} {a : Addr} {t' : MTree} (S : Settled root k h seen a)
    (W : Rewrite root k h h' t') : Settled root k h' seen a := by
  obtain ⟨x, hx⟩ := S.leaf
  have e : ∀ out, getResult h' (.str a) k.buf out = getResult h (.str a) k.buf out := by
    intro out
    unfold getResult
    rw [Heap.str_ok hx, Heap.str_ok (W.str a x hx)]
  refine ⟨⟨x, W.str a x hx⟩, S.trees, ?_, fun hb => ?_⟩
  · obtain ⟨g, hg, m, hm, hr⟩ := S.moment
    exact ⟨g, hg, m, hm, fun out => (e out).trans (hr out)⟩
  · obtain ⟨w, hw, hr⟩ := S.found hb
    exact ⟨w, hw, fun out => (e out).trans (hr out)⟩

/-- the last load of a pointer -/
theorem settled_of_seen {seen : List Heap} {a : Addr}
    (hstr : ∀ g ∈ seen, ∀ b x, g.lookup b = some (.str x) → h.lookup b = some (.str x))
    (htrees : ∀ g ∈ seen, ∃ t, Holds g root (some t)) (hs : Seen root seen (.str a))
    (hw : (∀ g ∈ seen, Bound root k g) → ∃ w, h.str (.str a) = .ok ⟨w, k.buf⟩ ∧
      ∀ g ∈ seen, ∃ m, Shows root g m ∧ m k = some w) :
    Settled root k h seen a := by
  obtain ⟨g, hg, t, u, H, hu, e⟩ := hs
  cases u with
  | node b i c => cases e
  | leaf b x w =>
    cases e
    have hleaf : (a, x, w) ∈ t.leaves := hu.leaves List.mem_cons_self
    have hlook := hstr g hg a _ ((H.rep t rfl).sub hu)
    have hres : ∀ out, getResult h (.str a) k.buf out =
        .ok (if x = k then (0, w) else (1, out)) := by
      intro out
      have e := getResult_leaf H hleaf k out
      unfold getResult at e ⊢
      rwa [Heap.str_ok ((H.rep t rfl).sub hu), ← Heap.str_ok hlook] at e
    have hbound : (∀ g ∈ seen, Bound root k g) → x = k ∧
        ∀ g ∈ seen, ∃ m, Shows root g m ∧ m k = some w := by
      intro hall
      obtain ⟨w', hx, hv⟩ := hw hall
      rw [Heap.str_ok hlook, Except.ok.injEq] at hx
      simp only [Str.mk.injEq] at hx
      exact ⟨Key.buf_inj hx.2, hx.1 ▸ hv⟩
    refine ⟨⟨_, hlook⟩, htrees, ?_, fun hall => ?_⟩
    · by_cases e : x = k
      · subst e
        have hb : (x, w) ∈ bindsOf (some t) := List.mem_map_of_mem hleaf
        refine ⟨g, hg, _, ⟨_, H, rfl⟩, fun out => ?_⟩
        rw [hres, if_pos rfl, (valueOf_eq_some H.good).mpr hb]
        rfl
      · -- at some moment the key was not bound
        obtain ⟨g', hg', hnb⟩ : ∃ g' ∈ seen, ¬ Bound root k g' := by
          by_contra hc
          exact e (hbound fun g' hg' => by_contra fun hb => hc ⟨g', hg', hb⟩).1
        obtain ⟨t', H'⟩ := htrees g' hg'
        refine ⟨g', hg', _, ⟨_, H', rfl⟩, fun out => ?_⟩
        rw [hres, if_neg e, valueOf_eq_none.mpr fun hm => hnb ((bound_iff H').mpr hm)]
        rfl
    · obtain ⟨e, hv⟩ := hbound hall
      exact ⟨w, hv, fun out => (hres out).trans (by rw [if_pos e])⟩

/-! ## the interleavings -/

/-- the heap, the store that an insertion has prepared and not yet made, what the lookup has loaded
last, and the heaps that were current meanwhile -/
structure Reading where
  heap : Heap
  prepared : Option (Slot × Ptr)
  pos : Option Ptr
  seen : List Heap

/-- the state after a step of a writer; heaps count until the last pointer is loaded -/
def Reading.write (s : Reading) (h : Heap) (w : Option (Slot × Ptr)) : Reading :=
  ⟨h, w, s.pos, match s.pos with
    | some (.node _) => h :: s.seen
    | _ => s.seen⟩

inductive ReadStep (root : Addr) (k : Key) : Reading → Reading → Prop
  /-- an insertion takes `wlock` and fills its new blocks, or gives up -/
  | prepare {s : Reading} {k' : Key} {v : Val} {mnode mstr : Option Addr} {ret : Int} {h : Heap}
      {w : Option (Slot × Ptr)} (hw : s.prepared = none) (hk : Short k')
      (e : insertPrepare s.heap root k'.buf (int32 (strlen k')) v mnode mstr = .ok (ret, h, w)) :
      ReadStep root k s (s.write h w)
  /-- its store to `*wherep`, or to `head` -/
  | publish {s : Reading} {slot : Slot} {p : Ptr} {h : Heap} (hw : s.prepared = some (slot, p))
      (e : s.heap.store slot p = .ok h) : ReadStep root k s (s.write h none)
  /-- the critical section of a deletion, with its store to `*whereq` -/
  | unlink {s : Reading} {k' : Key} {p : Ptr} {h : Heap} (hw : s.prepared = none)
      (e : critbitDeleteInplace s.heap root k'.buf (int32 (strlen k')) = .ok (p, h))
      (hne : ∃ r, h.root root = .ok r ∧ r.head ≠ .null) : ReadStep root k s (s.write h none)
  /-- the lookup loads `head` -/
  | head {s : Reading} {p : Ptr} (hp : s.pos = none) (e : s.heap.load (.head root) = .ok p) :
      ReadStep root k s ⟨s.heap, s.prepared, some p, [s.heap]⟩
  /-- it loads a child -/
  | child {s : Reading} {a : Addr} {n : Node} {d : Bool} (hp : s.pos = some (.node a))
      (hn : s.heap.node a = .ok n)
      (hd : getDirection n k.buf (sizeT (int32 (strlen k))) = .ok d) :
      ReadStep root k s ⟨s.heap, s.prepared, some (n.child d), s.seen⟩

abbrev ReadRun (root : Addr) (k : Key) : Reading → Reading → Prop :=
  Relation.ReflTransGen (ReadStep root k)

/-- the loads of a walk, when no writer gets in between -/
theorem readRun_of_walk {w : Option (Slot × Ptr)} {seen : List Heap} {p q : Ptr}
    (hw : Walk h k p q) : ReadRun root k ⟨h, w, some p, seen⟩ ⟨h, w, some q, seen⟩ := by
  induction hw with
  | refl => exact .refl
  | tail _ hn ih =>
    obtain ⟨a, d, rfl, n, hn, hd, rfl⟩ := hn
    exact ih.tail (.child rfl hn hd)

/-- the store that is prepared in `h` turns the tree `t` into another one -/
def Pending (root : Addr) (h : Heap) (t : MTree) : Option (Slot × Ptr) → Prop
  | none => True
  | some (s, p) => ∃ h₀ k' v T' new, Short k' ∧ Holds h₀ root (some t) ∧
      Prepared h₀ root (some t) k' v h s p T' new

def Located (root : Addr) (k : Key) (h : Heap) (seen : List Heap) : Option Ptr → Prop
  | none => True
  | some (.node a) => Standing root k h seen a
  | some (.str a) => Settled root k h seen a
  | some .null => False

structure ReadInv (root : Addr) (k : Key) (s : Reading) : Prop where
  tree : ∃ t, Holds s.heap root (some t) ∧ Pending root s.heap t s.prepared
  located : Located root k s.heap s.seen s.pos

theorem Located.rewrite {s : Reading} {t' : MTree} {w : Option (Slot × Ptr)}
    (L : Located root k s.heap s.seen s.pos) (W : Rewrite root k s.heap h' t') :
    Located root k h' (s.write h' w).seen (s.write h' w).pos := by
  unfold Reading.write
  cases hp : s.pos with
  | none => exact trivial
  | some p =>
    rw [hp] at L
    cases p with
    | null => exact L
    | str a => exact Settled.rewrite L W
    | node a => exact Standing.rewrite L W

/-- the lookup has just loaded the pointer to a subtree of the current tree -/
theorem located_head {t : MTree} (H : Holds h root (some t)) (hk : Short k) :
    Located root k h [h] (some (ptr t)) := by
  have htrees : ∀ g ∈ [h], ∃ t, Holds g root (some t) := fun g hg =>
    ⟨t, List.mem_singleton.mp hg ▸ H⟩
  have hstr : ∀ g ∈ [h], ∀ b x, g.lookup b = some (.str x) → h.lookup b = some (.str x) :=
    fun g hg b x hb => List.mem_singleton.mp hg ▸ hb
  have hseen : Seen root [h] (ptr t) := seen_tree (List.mem_singleton_self h) H (.refl t)
  have hwalk : (∀ g ∈ [h], Bound root k g) → ∃ b w, Walk h k (ptr t) (.str b) ∧
      h.str (.str b) = .ok ⟨w, k.buf⟩ ∧ ∀ g ∈ [h], ∃ m, Shows root g m ∧ m k = some w := by
    intro hb
    have hm : k ∈ t.keys := (bound_iff H).mp (hb h (List.mem_singleton_self h))
    have hn := nearest_of_mem (H.good t rfl).wf hm
    have e := nearest_str (H.rep t rfl) k
    rw [hn] at e
    refine ⟨_, _, walk_nearest (H.rep t rfl) (H.good t rfl) hk, e, fun g hg => ?_⟩
    rw [List.mem_singleton.mp hg]
    refine ⟨_, ⟨_, H, rfl⟩, (valueOf_eq_some H.good).mpr ?_⟩
    exact List.mem_map.mpr ⟨_, nearest_mem Key.bit k t, Prod.ext hn rfl⟩
  cases t with
  | leaf a x v =>
    refine settled_of_seen hstr htrees hseen fun hb => ?_
    obtain ⟨b, w, hw, hx⟩ := hwalk hb
    cases hw.of_str
    exact ⟨w, hx⟩
  | node a i c =>
    refine ⟨List.mem_singleton_self h, htrees, hstr, hseen, fun b hb => ?_, hwalk⟩
    obtain ⟨g, hg, t, u, H', hu, e⟩ := hb
    obtain rfl := List.mem_singleton.mp hg
    cases u with
    | leaf b' x w => cases e
    | node b' j c' =>
      cases e
      exact ahead_tree (List.mem_singleton_self _) H' hu k

/-- the lookup goes on to a child -/
theorem Standing.child {seen : List Heap} {a : Addr} {n : Node} {d : Bool}
    (S : Standing root k h seen a) (hn : h.node a = .ok n)
    (hd : getDirection n k.buf (sizeT (int32 (strlen k))) = .ok d) :
    Located root k h seen (some (n.child d)) := by
  obtain ⟨n', hn', -, hc⟩ := S.ahead a S.here
  obtain rfl := Except.ok.inj (hn.symm.trans hn')
  have hseen := hc d
  have hnext : Next h k (.node a) (n.child d) := ⟨a, d, rfl, n, hn, hd, rfl⟩
  have hwalk : (∀ g ∈ seen, Bound root k g) → ∃ b w, Walk h k (n.child d) (.str b) ∧
      h.str (.str b) = .ok ⟨w, k.buf⟩ ∧ ∀ g ∈ seen, ∃ m, Shows root g m ∧ m k = some w := by
    intro hb
    obtain ⟨b, w, hw, hx⟩ := S.walk hb
    exact ⟨b, w, hw.next hnext, hx⟩
  generalize n.child d = q at hseen hwalk
  cases q with
  | null =>
    obtain ⟨g, -, t, u, -, -, e⟩ := hseen
    exact ptr_ne_null u e.symm
  | str b =>
    refine settled_of_seen S.str S.trees hseen fun hb => ?_
    obtain ⟨c, w, hw, hx⟩ := hwalk hb
    cases hw.of_str
    exact ⟨w, hx⟩
  | node b => exact ⟨S.current, S.trees, S.str, hseen, S.ahead, hwalk⟩

/-- **One step**, of a writer or of the lookup. -/
theorem ReadInv.step {s s' : Reading} (hk : Short k) (I : ReadInv root k s)
    (hs : ReadStep root k s s') : ReadInv root k s' := by
  obtain ⟨t, H, hpend⟩ := I.tree
  have L := I.located
  cases hs with
  | @prepare k' v mnode mstr ret h w hw hk' e =>
    rcases insertPrepare_spec H hk' v mnode mstr with
      ⟨e', -⟩ | ⟨h₁, slot, p, T', new, e', P, -⟩
    · obtain ⟨-, e₂⟩ := Prod.mk.inj (Except.ok.inj (e.symm.trans e'))
      obtain ⟨rfl, rfl⟩ := Prod.mk.inj e₂
      have W : Rewrite root k s.heap s.heap t := .of_grow H fun _ _ => rfl
      exact ⟨⟨t, H, trivial⟩, L.rewrite W⟩
    · obtain ⟨-, e₂⟩ := Prod.mk.inj (Except.ok.inj (e.symm.trans e'))
      obtain ⟨rfl, rfl⟩ := Prod.mk.inj e₂
      have W : Rewrite root k s.heap h t := .of_grow H fun b hb =>
        P.frame b fun hn => P.fresh b hn hb
      exact ⟨⟨t, W.holds, s.heap, k', v, T', new, hk', H, P⟩, L.rewrite W⟩
  | publish hw e =>
    rw [hw] at hpend
    obtain ⟨h₀, k', v, T', new, hk', H₀, P⟩ := hpend
    obtain ⟨t', -, W⟩ := Rewrite.of_publish H₀ P e hk hk'
    exact ⟨⟨t', W.holds, trivial⟩, L.rewrite W⟩
  | @unlink k' p h hw e hne =>
    rcases deleteInplace_spec H k' with ⟨-, e'⟩ | ⟨p', h₁, T', old, e', U⟩
    · obtain ⟨-, rfl⟩ := Prod.mk.inj (Except.ok.inj (e.symm.trans e'))
      have W : Rewrite root k s.heap s.heap t := .of_grow H fun _ _ => rfl
      exact ⟨⟨t, H, trivial⟩, L.rewrite W⟩
    · obtain ⟨-, rfl⟩ := Prod.mk.inj (Except.ok.inj (e.symm.trans e'))
      obtain ⟨t', rfl⟩ : ∃ t', T' = some t' := by
        obtain ⟨r, hr, hnull⟩ := hne
        obtain ⟨x, hx, hp⟩ := U.holds.record
        rw [Heap.root_ok hx, Except.ok.injEq] at hr
        refine Option.ne_none_iff_exists'.mp fun e => hnull ?_
        rw [← hr, hp, e]
        rfl
      have W := Rewrite.of_unlink H U hk
      exact ⟨⟨t', W.holds, trivial⟩, L.rewrite W⟩
  | head hp e =>
    obtain ⟨x, hx, hq⟩ := H.record
    rw [Heap.load_head hx, hq, Except.ok.injEq] at e
    subst e
    exact ⟨⟨t, H, hpend⟩, located_head H hk⟩
  | child hp hn hd =>
    rw [hp] at L
    exact ⟨⟨t, H, hpend⟩, Standing.child L hn hd⟩

/-- **Every interleaving.** -/
theorem ReadInv.run {s s' : Reading} (hk : Short k) (I : ReadInv root k s)
    (hr : ReadRun root k s s') : ReadInv root k s' := by
  induction hr with
  | refl => exact I
  | tail _ hs ih => exact ih.step hk hs

/-- **A lookup is linearizable**: it can always go on, and when it has loaded a pointer that is no node,
its answer is that of an atomic lookup in the tree of some moment between its first load and its last.
A key that is bound in all trees of that time is found, with the value that it has in all of them; a key
that is bound in none of them is not found. -/
theorem read_linearizable {m₀ : Map} {s : Reading} (hr : Reached root h₀ m₀)
    (hne : ∃ x, m₀ x ≠ none) (hk : Short k) (hrun : ReadRun root k ⟨h₀, none, none, []⟩ s) :
    (∀ a, s.pos = some (.node a) → ∃ n d, s.heap.node a = .ok n ∧
      getDirection n k.buf (sizeT (int32 (strlen k))) = .ok d) ∧
    ∀ p, s.pos = some p → (∀ a, p ≠ .node a) →
      (∀ g ∈ s.seen, ∃ m, Shows root g m ∧ ∀ out, critbitGet g root k out = .ok (answer (m k) out)) ∧
      (∃ g ∈ s.seen, ∃ m, Shows root g m ∧
        ∀ out, getResult s.heap p k.buf out = .ok (answer (m k) out)) ∧
      ((∀ g ∈ s.seen, Bound root k g) → ∃ v, (∀ g ∈ s.seen, ∃ m, Shows root g m ∧ m k = some v) ∧
        ∀ out, getResult s.heap p k.buf out = .ok (0, v)) ∧
      ((∀ g ∈ s.seen, ¬ Bound root k g) → ∀ out, getResult s.heap p k.buf out = .ok (1, out)) := by
  obtain ⟨T, O, rfl⟩ := hr.owns
  obtain ⟨t, rfl⟩ := Option.ne_none_iff_exists'.mp (exists_bound.mp hne)
  have I : ReadInv root k ⟨h₀, none, none, []⟩ := ⟨⟨t, O.toHolds, trivial⟩, trivial⟩
  have L := (I.run hk hrun).located
  refine ⟨fun a ha => ?_, fun p hp hnode => ?_⟩
  · rw [ha] at L
    obtain ⟨n, hn, ⟨d, hd⟩, -⟩ := Standing.ahead L a (Standing.here L)
    exact ⟨n, d, hn, hd⟩
  · rw [hp] at L
    cases p with
    | null => exact absurd L id
    | node a => exact absurd rfl (hnode a)
    | str a =>
      have S : Settled root k s.heap s.seen a := L
      refine ⟨fun g hg => ?_, S.moment, S.found, fun hno out => ?_⟩
      · obtain ⟨t', H'⟩ := S.trees g hg
        exact ⟨_, ⟨_, H', rfl⟩, critbitGet_tree H' k⟩
      · obtain ⟨g, hg, m, hm, e⟩ := S.moment
        rw [e, show m k = none from by_contra fun h => hno g hg ⟨m, hm, h⟩]
        rfl

/-- an insertion that overtakes a lookup of a bound key between its load of `head` and the next one -/
theorem exists_overtaken {a : Addr} {i : Nat} {c : Bool → MTree} (H : Holds h root (some (.node a i c)))
    (hk : Short k) (hk' : Short k') (hb : k ∈ keysOf (some (.node a i c)))
    (hn : k' ∉ keysOf (some (.node a i c))) (v : Val) : ∃ s₁ s₂ s b,
    ReadRun root k ⟨h, none, none, []⟩ s₁ ∧ s₁.pos = some (.node a) ∧ ReadStep root k s₁ s₂ ∧
      Shows root s₁.heap (valueOf (some (.node a i c))) ∧
      Shows root s₂.heap (Function.update (valueOf (some (.node a i c))) k' (some v)) ∧
      ReadRun root k s₂ s ∧ s.pos = some (.str b) ∧ s.seen = [s₂.heap, s₁.heap, h] ∧
      ∀ g ∈ s.seen, Bound root k g := by
  obtain ⟨mnode, mstr, hm⟩ := exists_granted H
  rcases insertPrepare_spec H hk' v mnode mstr with ⟨-, hc⟩ | ⟨h₁, slot, p, T', new, e, P, -⟩
  · rcases hc with hc | hc
    · exact absurd hc hn
    · rw [hc] at hm
      cases hm
  · obtain ⟨h₂, hs, H₂⟩ := P.publish H hk'
    have H₁ : Holds h₁ root (some (.node a i c)) := H.frame fun b hb => P.old H hb
    obtain ⟨x, hx, hp⟩ := H.record
    have hhead : ReadRun root k ⟨h, none, none, []⟩ ⟨h, none, some (.node a), [h]⟩ :=
      .single (.head rfl ((Heap.load_head hx).trans (congrArg _ hp)))
    have hprep : ReadRun root k ⟨h, none, none, []⟩ ⟨h₁, some (slot, p), some (.node a), [h₁, h]⟩ :=
      hhead.tail (.prepare rfl hk' e)
    have hpub : ReadStep root k ⟨h₁, some (slot, p), some (.node a), [h₁, h]⟩
        ⟨h₂, none, some (.node a), [h₂, h₁, h]⟩ := .publish rfl hs
    have hbound : ∀ g ∈ [h₂, h₁, h], Bound root k g := by
      simp only [List.forall_mem_cons, List.not_mem_nil, false_implies, implies_true, and_true]
      exact ⟨(bound_iff H₂).mpr (P.inserted.keys.mem_iff.mpr (List.mem_cons_of_mem _ hb)),
        (bound_iff H₁).mpr hb, (bound_iff H).mpr hb⟩
    have I : ReadInv root k ⟨h, none, none, []⟩ := ⟨⟨_, H, trivial⟩, trivial⟩
    obtain ⟨b, w, hw, -⟩ := Standing.walk (I.run hk (hprep.tail hpub)).located hbound
    refine ⟨_, _, _, b, hprep, rfl, hpub, ⟨_, H₁, rfl⟩, ⟨_, H₂, P.inserted.valueOf hk' H.good⟩,
      readRun_of_walk hw, rfl, rfl, hbound⟩

/-- the insertion of a third key is published between the loads of a lookup of the first one -/
theorem read_linearizable_two : ∃ h₀ s₁ s₂ s a b,
    Reached 0 h₀ (bindAll Map.empty [(⟨[97], by decide⟩, 5), (⟨[97, 98], by decide⟩, 6)]) ∧
    ReadRun 0 ⟨[97], by decide⟩ ⟨h₀, none, none, []⟩ s₁ ∧ s₁.pos = some (.node a) ∧
    (∃ m₁, Shows 0 s₁.heap m₁ ∧ m₁ ⟨[98], by decide⟩ = none) ∧
    ReadStep 0 ⟨[97], by decide⟩ s₁ s₂ ∧
    (∃ m₂, Shows 0 s₂.heap m₂ ∧ m₂ ⟨[98], by decide⟩ = some 7) ∧
    ReadRun 0 ⟨[97], by decide⟩ s₂ s ∧ s.pos = some (.str b) ∧
    ∀ out, getResult s.heap (.str b) (Key.buf ⟨[97], by decide⟩) out = .ok (0, 5) := by
  obtain ⟨h, hr⟩ := reached_two
  obtain ⟨T, O, hT⟩ := hr.owns
  have hmem : ∀ x, x ∈ keysOf T ↔ valueOf T x ≠ none := fun x =>
    (not_iff_comm.mp valueOf_eq_none.symm).symm
  have ha : (⟨[97], by decide⟩ : Key) ∈ keysOf T := (hmem _).mpr (by rw [hT]; decide)
  have hab : (⟨[97, 98], by decide⟩ : Key) ∈ keysOf T := (hmem _).mpr (by rw [hT]; decide)
  have hb : (⟨[98], by decide⟩ : Key) ∉ keysOf T := fun hb => (hmem _).mp hb (by rw [hT]; decide)
  obtain ⟨t, rfl⟩ := Option.ne_none_iff_exists'.mp (exists_bound.mp ⟨_, (hmem _).mp ha⟩)
  cases t with
  | leaf a x v =>
    cases (List.mem_singleton.mp ha).trans (List.mem_singleton.mp hab).symm
  | node a i c =>
    obtain ⟨s₁, s₂, s, b, hrun, hpos, hstep, hs₁, hs₂, hrest, hend, hseen, hbound⟩ :=
      exists_overtaken O.toHolds (by decide) (by decide) ha hb 7
    have hall := (hrun.tail hstep).trans hrest
    obtain ⟨-, -, hfound, -⟩ := (read_linearizable hr ⟨_, hT ▸ (hmem _).mp ha⟩ (by decide) hall).2 _ hend
      (fun a e => by cases e)
    obtain ⟨v, hv, hres⟩ := hfound hbound
    obtain ⟨m, ⟨T', H', rfl⟩, e⟩ := hv h (by rw [hseen]; simp)
    rw [← O.toHolds.unique H', hT, show bindAll Map.empty _ _ = some 5 by decide] at e
    obtain rfl := Option.some.inj e
    refine ⟨h, s₁, s₂, s, a, b, hr, hrun, hpos, ⟨_, hs₁, ?_⟩, hstep, ⟨_, hs₂, ?_⟩, hrest, hend, hres⟩
    · rw [hT]
      decide
    · exact Function.update_self ..

end Critbit
