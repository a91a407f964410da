import Critbit.Memory.Delete
import Critbit.Memory.Reach

/-!
# The walk of a lookup, load by load

A lookup that runs next to writers follows pointers of blocks that may have been unlinked since.
`Walk h k p q` says that from `p` the loads of a lookup of `k` lead to `q` if the heap stays `h`.

* `walk_nearest`    in a tree the walk ends at the leaf `nearest`;
* `walk_sub`        it does not leave the tree;
* `walk_grow`       allocation does not change it;
* `Dir.store`       a store changes one of its edges;
* `walk_publish`, `walk_unlink`   the stores of writers leave the leaf of a bound key at the end of
                    the walk.
-/

namespace Critbit
open Crit CTree

/-- at the node `a` the lookup goes to the side `d`, where it finds `q` -/
def Dir (h : Heap) (k : Key) (a : Addr) (d : Bool) (q : Ptr) : Prop :=
  ∃ n, h.node a = .ok n ∧ getDirection n k.buf (sizeT (int32 (strlen k))) = .ok d ∧ n.child d = q

/-- one load -/
def Next (h : Heap) (k : Key) (p q : Ptr) : Prop := ∃ a d, p = .node a ∧ Dir h k a d q

def Walk (h : Heap) (k : Key) : Ptr → Ptr → Prop := Relation.ReflTransGen (Next h k)

/-- the block `b` is at `p` or ahead of it -/
def On (h : Heap) (k : Key) (p : Ptr) (b : Addr) : Prop := ∃ q, Walk h k p q ∧ q.block = some b

variable {h h' h₀ : Heap} {T T' : Option MTree} {k k' : Key} {v : Val} {p q r : Ptr} {s : Slot}
  {root a b : Addr} {d : Bool} {t : MTree}

/-! ## the walk is determined -/

theorem Dir.unique {e : Bool} (hd : Dir h k a d q) (he : Dir h k a e r) : d = e ∧ q = r := by
  obtain ⟨n, hn, hdir, rfl⟩ := hd
  obtain ⟨n', hn', hdir', rfl⟩ := he
  rw [hn, Except.ok.injEq] at hn'
  subst hn'
  rw [hdir, Except.ok.injEq] at hdir'
  subst hdir'
  exact ⟨rfl, rfl⟩

theorem Next.unique (hq : Next h k p q) (hr : Next h k p r) : q = r := by
  obtain ⟨a, d, rfl, hd⟩ := hq
  obtain ⟨a', e, ha, he⟩ := hr
  cases ha
  exact (hd.unique he).2

theorem not_next_str : ¬ Next h k (.str a) q := by
  rintro ⟨b, d, e, -⟩
  cases e

theorem Walk.of_str (hw : Walk h k (.str a) q) : q = .str a := by
  rcases Relation.ReflTransGen.cases_head hw with e | ⟨r, hr, -⟩
  · exact e.symm
  · exact absurd hr not_next_str

/-- a walk that ends at a leaf goes on through each next load -/
theorem Walk.next (hw : Walk h k p (.str a)) (hn : Next h k p q) : Walk h k q (.str a) := by
  rcases Relation.ReflTransGen.cases_head hw with rfl | ⟨r, hr, hrest⟩
  · exact absurd hn not_next_str
  · rwa [hn.unique hr]

/-! ## the walk in a tree -/

theorem Next.child (hn : Next h k p q) : Child h p q := by
  obtain ⟨a, d, rfl, n, hn, -, rfl⟩ := hn
  exact ⟨a, n, d, rfl, hn, rfl⟩

theorem walk_sub (hr : Rep h t) (hw : Walk h k (ptr t) q) : ∃ u, Sub u t ∧ q = ptr u :=
  (below_iff hr).mp (Relation.ReflTransGen.mono (fun _ _ => Next.child) _ _ hw)

theorem On.sub (hr : Rep h t) (ho : On h k (ptr t) b) : b ∈ t.annots := by
  obtain ⟨q, hw, hb⟩ := ho
  obtain ⟨u, hu, rfl⟩ := walk_sub hr hw
  rw [ptr_block, Option.some.injEq] at hb
  exact hu.annots (hb ▸ top_mem u)

theorem dir_rep {i : Nat} {c : Bool → MTree} (hr : Rep h (.node a i c)) (hg : Good (.node a i c))
    (hk : Short k) : Dir h k a (k.bit i) (ptr (c (k.bit i))) := by
  refine ⟨nodeOf i c, Heap.node_ok hr.node, ?_, rfl⟩
  rw [getDirection_nodeOf hg.byte_lt, hk.seen]

theorem walk_nearest (hr : Rep h t) (hg : Good t) (hk : Short k) :
    Walk h k (ptr t) (.str (t.nearest Key.bit k).1) := by
  induction t with
  | leaf a x v => exact .refl
  | node a i c ih =>
    exact .head ⟨a, k.bit i, rfl, dir_rep hr hg hk⟩ (ih _ (hr.child _) (hg.child _))

/-- the key whose leaf is reached from a tree is in the tree -/
theorem mem_of_walk (hr : Rep h t) {v : Val} (hw : Walk h k (ptr t) (.str a))
    (ha : h.str (.str a) = .ok ⟨v, k.buf⟩) : k ∈ t.keys := by
  obtain ⟨u, hu, e⟩ := walk_sub hr hw
  cases u with
  | node b i c => cases e
  | leaf b x w =>
    cases e
    have e := (Heap.str_ok (hr.sub hu)).symm.trans ha
    simp only [Except.ok.injEq, Str.mk.injEq] at e
    rw [← Key.buf_inj e.2]
    exact hu.keys List.mem_cons_self

/-! ## allocation -/

/-- blocks that are only added are not on the walk -/
theorem Next.grow (hf : ∀ b ∈ h, h'.lookup b = h.lookup b) (hn : Next h k p q) : Next h' k p q := by
  obtain ⟨a, d, rfl, n, hn, hd, hq⟩ := hn
  have ha := Heap.node_inv hn
  exact ⟨a, d, rfl, n, Heap.node_ok ((hf a (Heap.mem_of_lookup ha)).trans ha), hd, hq⟩

theorem walk_grow (hf : ∀ b ∈ h, h'.lookup b = h.lookup b) (hw : Walk h k p q) : Walk h' k p q :=
  Relation.ReflTransGen.mono (fun _ _ => Next.grow hf) _ _ hw

/-! ## a store -/

theorem getDirection_congr {n n' : Node} (hb : n'.byte = n.byte) (ho : n'.otherbits = n.otherbits)
    (bytes : List UInt8) (len : Nat) : getDirection n' bytes len = getDirection n bytes len := by
  unfold getDirection
  rw [hb, ho]

/-- a store changes at most one field of a node -/
theorem Heap.store_node (hs : h.store s r = .ok h') {n : Node} (hn : h.node a = .ok n) :
    ∃ n', h'.node a = .ok n' ∧ n'.byte = n.byte ∧ n'.otherbits = n.otherbits ∧
      ∀ d, n'.child d = if s = .child a d then r else n.child d := by
  by_cases e : s.addr = a
  · cases s with
    | head b =>
      obtain rfl : b = a := e
      rw [store, Heap.root, Heap.node_inv hn] at hs
      cases hs
    | child b d =>
      obtain rfl : b = a := e
      rw [store_child (node_inv hn)] at hs
      cases hs
      refine ⟨_, node_ok (Finmap.lookup_insert _), rfl, rfl, fun d' => ?_⟩
      by_cases e : d' = d
      · subst e
        rw [if_pos rfl]
        exact Function.update_self _ _ _
      · rw [if_neg fun h => e (Slot.child.inj h).2.symm]
        exact Function.update_of_ne e _ _
  · refine ⟨n, ?_, rfl, rfl, fun d => ?_⟩
    · exact node_ok ((store_frame hs fun h => e h.symm).trans (node_inv hn))
    · rw [if_neg fun h => e (by rw [h]; rfl)]

theorem Heap.store_str (hs : h.store s r = .ok h') {x : Str} (hx : h.lookup a = some (.str x)) :
    h'.lookup a = some (.str x) := by
  refine (store_frame hs ?_).trans hx
  rintro rfl
  cases s with
  | head b => rw [store, Heap.root, show h.lookup b = _ from hx] at hs; cases hs
  | child b d => rw [store, Heap.node, show h.lookup b = _ from hx] at hs; cases hs

theorem Dir.store (hs : h.store s r = .ok h') (hd : Dir h k a d q) :
    Dir h' k a d (if s = .child a d then r else q) := by
  obtain ⟨n, hn, hdir, rfl⟩ := hd
  obtain ⟨n', hn', hb, ho, hc⟩ := Heap.store_node hs hn
  exact ⟨n', hn', (getDirection_congr hb ho _ _).trans hdir, hc d⟩

/-! ## walks across the stores of writers -/

theorem slot_load {x : Root} {C : List (Frame Addr Nat Key Val)} {t : MTree}
    (hx : h.lookup root = some (.root x)) (hp : x.head = ptr (fill C t)) (hr : Rep h (fill C t)) :
    h.load (slotAt (.head root) C) = .ok (ptr t) := by
  rcases List.eq_nil_or_concat C with rfl | ⟨D, f, rfl⟩
  · rw [slotAt_nil, Heap.load_head hx, hp, fill_nil]
  · rw [List.concat_eq_append] at hr ⊢
    rw [fill_append, fill_cons, fill_nil] at hr
    rw [slotAt_concat, Heap.load_child hr.of_fill.node]
    show Except.ok (ptr (Function.update f.c f.d t f.d)) = _
    rw [update_self]

theorem Dir.load {a : Addr} {d : Bool} {q : Ptr} (hd : Dir h k a d q) :
    h.load (.child a d) = .ok q := by
  obtain ⟨n, hn, -, rfl⟩ := hd
  exact Heap.load_child (Heap.node_inv hn) d

/-- a walk to the leaf of `k` survives the publication of another key -/
theorem walk_publish {s : Slot} {p q : Ptr} {new : List Addr} {a : Addr} {w : Val}
    (H : Holds h₀ root T) (P : Prepared h₀ root T k' v h s p T' new) (hs : h.store s p = .ok h')
    (hk : Short k) (hw : Walk h k q (.str a)) (ha : h.str (.str a) = .ok ⟨w, k.buf⟩) :
    Walk h' k q (.str a) := by
  have H₁ : Holds h root T := H.frame fun b hb => P.old H hb
  obtain ⟨x, hx, hp⟩ := H₁.record
  induction hw using Relation.ReflTransGen.head_induction_on with
  | refl => exact .refl
  | head hn hrest ih =>
    obtain ⟨b, d, rfl, hd⟩ := hn
    have hd' := hd.store hs
    by_cases hslot : s = .child b d
    · rw [if_pos hslot] at hd'
      rcases P.slot with ⟨-, e, -⟩ | ⟨C, t, i, c, l, rfl, e, rfl, rfl, hdiff, -, -, hc⟩
      · cases hslot.symm.trans e
      · -- the walk goes through the new node, and there to the side of the old subtree
        have hq := hd.load
        rw [← hslot, e, slot_load hx hp (H₁.rep _ rfl), Except.ok.injEq] at hq
        subst hq
        have hfd := hdiff k (mem_of_walk (H₁.rep _ rfl).of_fill hrest ha)
        have hside : k.bit i = !k'.bit i := Bool.eq_not_of_ne hfd.2.symm
        have hi : i / 8 < 2147483647 := lt_of_le_of_lt (Key.firstDiff_le hfd.symm) hk
        have hnew : Dir h k c (k.bit i) (ptr t) := by
          refine ⟨_, Heap.node_ok hc, ?_, ?_⟩
          · rw [getDirection_nodeOf hi, hk.seen]
          · show ptr (Function.update (fun _ => t) (k'.bit i) (leaf l k' v) (k.bit i)) = _
            rw [hside, Function.update_of_ne (Bool.not_ne_self _)]
        have hfresh : s ≠ .child c (k.bit i) := by
          intro e'
          have hmem := H.mem P.addr
          rw [e'] at hmem
          exact P.fresh c List.mem_cons_self hmem
        have hnew' := hnew.store hs
        rw [if_neg hfresh] at hnew'
        exact .head ⟨b, d, rfl, hd'⟩ (.head ⟨c, _, rfl, hnew'⟩ ih)
    · rw [if_neg hslot] at hd'
      exact .head ⟨b, d, rfl, hd'⟩ ih

/-- so it does the unlinking of another key -/
theorem walk_unlink {p q : Ptr} {old : List Addr} {a : Addr} {w : Val} (H : Holds h root T)
    (U : Unlinked h root T k' p h' T' old) (hk : Short k) (hne : k ≠ k')
    (hw : Walk h k q (.str a)) (ha : h.str (.str a) = .ok ⟨w, k.buf⟩) : Walk h' k q (.str a) := by
  obtain ⟨x, hx, hp⟩ := H.record
  induction hw using Relation.ReflTransGen.head_induction_on with
  | refl => exact .refl
  | head hn hrest ih =>
    obtain ⟨b, d, rfl, hd⟩ := hn
    rcases U.slot with ⟨c, v, rfl, rfl, rfl, rfl, hst⟩ |
      ⟨C, g, c, v, rfl, hl, -, rfl, rfl, rfl, hst⟩
    · have hd' := hd.store hst
      rw [if_neg fun e => by cases e] at hd'
      exact .head ⟨b, d, rfl, hd'⟩ ih
    · have hd' := hd.store hst
      by_cases hslot : slotAt (.head root) C = .child b d
      · -- the walk went through the node that is unlinked
        rw [if_pos hslot] at hd'
        have hrep := (H.rep _ rfl).of_fill
        have hq := hd.load
        rw [← hslot, slot_load hx hp (H.rep _ rfl), Except.ok.injEq] at hq
        subst hq
        have hgood : Good (.node g.a g.i g.c) := ⟨(H.good _ rfl).wf.of_fill, fun y hy =>
          (H.good _ rfl).short y (mem_keys_fill.mpr (.inl hy))⟩
        have hfar : slotAt (.head root) C ≠ .child g.a (k.bit g.i) := by
          intro e
          refine slotAt_not_mem H.nodup ?_
          rw [e]
          exact top_mem (CTree.node g.a g.i g.c)
        have hnode := (dir_rep hrep hgood hk).store hst
        rw [if_neg hfar] at hnode
        have hnext := ih.next ⟨g.a, _, rfl, hnode⟩
        by_cases e : k.bit g.i = g.d
        · -- there it cannot have gone to the leaf of the other key
          rw [e, hl] at hnext
          cases hnext.of_str
          have hleaf := hrep.child g.d
          rw [hl] at hleaf
          have h1 := (Heap.str_ok hleaf).symm.trans ha
          simp only [Except.ok.injEq, Str.mk.injEq] at h1
          exact absurd (Key.buf_inj h1.2).symm hne
        · rw [Bool.eq_not_of_ne e] at hnext
          exact .head ⟨b, d, rfl, hd'⟩ hnext
      · rw [if_neg hslot] at hd'
        exact .head ⟨b, d, rfl, hd'⟩ ih

end Critbit
