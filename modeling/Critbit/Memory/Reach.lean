import Critbit.Memory.Rep
import Critbit.Trie.Subtree
import Mathlib.Data.Set.Card

/-!
# What is reached from a pointer

Paths in the heap, without reference to a tree.  For the heap of a tree they are the paths of the
tree:

* `below_iff`      a pointer is reached from the tree exactly if it points to a subtree;
* `pointsTo_unique` each block of the tree is pointed to by one slot;
* `leafBlocks_card`, `nodeBlocks_card`   the numbers of string blocks and of nodes.
-/

namespace Critbit
open Crit CTree

/-- `q` is a field of the node at `p` -/
def Child (h : Heap) (p q : Ptr) : Prop := ∃ a n d, p = .node a ∧ h.node a = .ok n ∧ n.child d = q

/-- `q` is reached from `p` -/
def Below (h : Heap) : Ptr → Ptr → Prop := Relation.ReflTransGen (Child h)

/-- `q` is reached from `p` and lies deeper -/
def StrictlyBelow (h : Heap) : Ptr → Ptr → Prop := Relation.TransGen (Child h)

/-- the block that a pointer goes to -/
def Ptr.block : Ptr → Option Addr
  | null => none
  | str a => some a
  | node a => some a

/-- the slots of a tree: the `head` of the root and the fields of the nodes that are reached -/
def TreeSlot (h : Heap) (root : Addr) (head : Ptr) (s : Slot) : Prop :=
  s = .head root ∨ ∃ a d, s = .child a d ∧ Below h head (.node a)

/-- the slot holds a pointer to the block `b` -/
def PointsTo (h : Heap) (s : Slot) (b : Addr) : Prop := ∃ p, h.load s = .ok p ∧ p.block = some b

variable {h : Heap} {root : Addr} {t u : MTree}

theorem ptr_block (t : MTree) : (ptr t).block = some t.top := by
  cases t <;> rfl

/-- nothing is reached from the `head` of an empty tree -/
theorem not_below_null {q : Ptr} (hb : Below h .null q) : q = .null := by
  rcases Relation.ReflTransGen.cases_head hb with rfl | ⟨p, ⟨a, n, d, e, -⟩, -⟩
  · rfl
  · cases e

/-! ## paths of a tree in memory -/

theorem Rep.sub (hr : Rep h t) (hs : Sub u t) : Rep h u := by
  induction hs with
  | refl => exact hr
  | child d _ ih => exact ih (hr.child d)

/-- two heaps with one tree agree on its blocks -/
theorem Rep.lookup_eq {h' : Heap} (hr : Rep h t) (hr' : Rep h' t) {b : Addr} (hb : b ∈ t.annots) :
    h'.lookup b = h.lookup b := by
  obtain ⟨u, hu, rfl⟩ := exists_sub_top hb
  have h1 := hr.sub hu
  have h2 := hr'.sub hu
  cases u with
  | leaf a k v => exact h2.trans h1.symm
  | node a i c => exact h2.node.trans h1.node.symm

theorem sub_fill (C : List (Frame Addr Nat Key Val)) (t : MTree) : Sub t (fill C t) := by
  induction C with
  | nil => exact .refl t
  | cons f C ih =>
    refine .child f.d ?_
    rw [update_self]
    exact ih

theorem Rep.child_iff (hr : Rep h t) {q : Ptr} :
    Child h (ptr t) q ↔ ∃ a i c d, t = .node a i c ∧ q = ptr (c d) := by
  constructor
  · rintro ⟨a, n, d, e, hn, rfl⟩
    cases t with
    | leaf b k v => cases e
    | node b i c =>
      cases e
      have h1 := hr.node.symm.trans (Heap.node_inv hn)
      simp only [Option.some.injEq, Block.node.injEq] at h1
      exact ⟨_, i, c, d, rfl, by rw [← h1]; rfl⟩
  · rintro ⟨a, i, c, d, rfl, rfl⟩
    exact ⟨a, nodeOf i c, d, rfl, Heap.node_ok hr.node, rfl⟩

/-- **What is reached from a tree are its subtrees.** -/
theorem below_iff (hr : Rep h t) {q : Ptr} : Below h (ptr t) q ↔ ∃ u, Sub u t ∧ q = ptr u := by
  constructor
  · intro hb
    induction hb with
    | refl => exact ⟨t, .refl t, rfl⟩
    | tail _ hc ih =>
      obtain ⟨u, hu, rfl⟩ := ih
      obtain ⟨a, i, c, d, rfl, rfl⟩ := (hr.sub hu).child_iff.mp hc
      exact ⟨c d, hu.of_node d, rfl⟩
  · rintro ⟨u, hu, rfl⟩
    induction hu with
    | refl => exact .refl
    | child d _ ih => exact .head (hr.child_iff.mpr ⟨_, _, _, d, rfl, rfl⟩) (ih (hr.child d))

theorem strictlyBelow_iff (hr : Rep h t) {q : Ptr} : StrictlyBelow h (ptr t) q ↔
    ∃ a i c d u, t = .node a i c ∧ Sub u (c d) ∧ q = ptr u := by
  constructor
  · intro hb
    obtain ⟨p, hc, hp⟩ := Relation.TransGen.head'_iff.mp hb
    obtain ⟨a, i, c, d, rfl, rfl⟩ := hr.child_iff.mp hc
    obtain ⟨u, hu, rfl⟩ := (below_iff (hr.child d)).mp hp
    exact ⟨a, i, c, d, u, rfl, hu, rfl⟩
  · rintro ⟨a, i, c, d, u, rfl, hu, rfl⟩
    exact .head' (hr.child_iff.mpr ⟨_, _, _, d, rfl, rfl⟩)
      ((below_iff (hr.child d)).mpr ⟨u, hu, rfl⟩)

theorem below_node (hr : Rep h t) {a : Addr} (hb : Below h (ptr t) (.node a)) :
    ∃ i c, Sub (.node a i c) t ∧ h.node a = .ok (nodeOf i c) := by
  obtain ⟨u, hu, e⟩ := (below_iff hr).mp hb
  cases u with
  | leaf b k v => cases e
  | node b i c =>
    cases e
    exact ⟨i, c, hu, Heap.node_ok (hr.sub hu).node⟩

theorem below_str (hr : Rep h t) {a : Addr} (hb : Below h (ptr t) (.str a)) :
    ∃ k v, (a, k, v) ∈ t.leaves ∧ h.str (.str a) = .ok ⟨v, Key.buf k⟩ := by
  obtain ⟨u, hu, e⟩ := (below_iff hr).mp hb
  cases u with
  | node b i c => cases e
  | leaf b k v =>
    cases e
    exact ⟨k, v, hu.leaves List.mem_cons_self, Heap.str_ok (hr.sub hu)⟩

theorem below_leaf (hr : Rep h t) {l : Addr × Key × Val} (hl : l ∈ t.leaves) :
    Below h (ptr t) (.str l.1) := (below_iff hr).mpr ⟨_, sub_of_leaf hl, rfl⟩

/-- the blocks of a tree are those that are reached -/
theorem block_iff (hr : Rep h t) {b : Addr} :
    b ∈ t.annots ↔ ∃ p, Below h (ptr t) p ∧ p.block = some b := by
  constructor
  · intro hb
    obtain ⟨u, hu, rfl⟩ := exists_sub_top hb
    exact ⟨ptr u, (below_iff hr).mpr ⟨u, hu, rfl⟩, ptr_block u⟩
  · rintro ⟨p, hp, hb⟩
    obtain ⟨u, hu, rfl⟩ := (below_iff hr).mp hp
    rw [ptr_block, Option.some.injEq] at hb
    exact hu.annots (hb ▸ top_mem u)

/-! ## the slots of a tree -/

/-- the slots of a tree in preorder, each with the subtree that hangs from it -/
def slotsOf (s : Slot) : MTree → List (Slot × MTree)
  | leaf a k v => [(s, leaf a k v)]
  | node a i c => (s, node a i c) ::
    (slotsOf (.child a false) (c false) ++ slotsOf (.child a true) (c true))

theorem slotsOf_top (s : Slot) (t : MTree) : (slotsOf s t).map (fun e => e.2.top) = t.annots := by
  induction t generalizing s with
  | leaf a k v => rfl
  | node a i c ih =>
    rw [slotsOf, List.map_cons, List.map_append, ih false, ih true]
    rfl

theorem self_mem_slotsOf (s : Slot) (t : MTree) : (s, t) ∈ slotsOf s t := by
  cases t <;> exact List.mem_cons_self

theorem child_mem_slotsOf {s : Slot} {a : Addr} {i : Nat} {c : Bool → MTree}
    (hs : Sub (.node a i c) t) (d : Bool) : (.child a d, c d) ∈ slotsOf s t := by
  induction t generalizing s with
  | leaf b k v => cases hs
  | node b j e ih =>
    rw [slotsOf, List.mem_cons, List.mem_append]
    cases hs with
    | refl =>
      refine .inr ?_
      cases d with
      | false => exact .inl (self_mem_slotsOf _ _)
      | true => exact .inr (self_mem_slotsOf _ _)
    | child d' h' =>
      refine .inr ?_
      cases d' with
      | false => exact .inl (ih false h')
      | true => exact .inr (ih true h')

/-- what the entries of the list are -/
theorem mem_slotsOf {s : Slot} {e : Slot × MTree} (he : e ∈ slotsOf s t) :
    e = (s, t) ∨ ∃ a i c d, Sub (.node a i c) t ∧ e = (.child a d, c d) := by
  induction t generalizing s with
  | leaf b k v => exact .inl (List.mem_singleton.mp he)
  | node b j c ih =>
    have step : ∀ d, e ∈ slotsOf (.child b d) (c d) →
        ∃ a i c' d, Sub (.node a i c') (.node b j c) ∧ e = (.child a d, c' d) := by
      intro d hd
      rcases ih d hd with rfl | ⟨a, i, c', d', hs, rfl⟩
      · exact ⟨b, j, c, d, .refl _, rfl⟩
      · exact ⟨a, i, c', d', .child d hs, rfl⟩
    rw [slotsOf, List.mem_cons, List.mem_append] at he
    rcases he with e1 | e1 | e1
    · exact .inl e1
    · exact .inr (step _ e1)
    · exact .inr (step _ e1)

/-- the slots of a tree hold the pointers to its subtrees -/
theorem treeSlot_iff (hr : Rep h t) (hl : h.load (.head root) = .ok (ptr t)) {s : Slot} {b : Addr} :
    TreeSlot h root (ptr t) s ∧ PointsTo h s b ↔
      ∃ u, (s, u) ∈ slotsOf (.head root) t ∧ u.top = b := by
  have hload : ∀ {a i c}, Sub (.node a i c) t → ∀ d, h.load (.child a d) = .ok (ptr (c d)) :=
    fun hs d => Heap.load_child (hr.sub hs).node d
  constructor
  · rintro ⟨rfl | ⟨a, d, rfl, hb⟩, p, hp, hblock⟩
    · rw [hl, Except.ok.injEq] at hp
      subst hp
      rw [ptr_block, Option.some.injEq] at hblock
      exact ⟨t, self_mem_slotsOf _ _, hblock⟩
    · obtain ⟨i, c, hs, -⟩ := below_node hr hb
      rw [hload hs, Except.ok.injEq] at hp
      subst hp
      rw [ptr_block, Option.some.injEq] at hblock
      exact ⟨c d, child_mem_slotsOf hs d, hblock⟩
  · rintro ⟨u, hm, rfl⟩
    rcases mem_slotsOf hm with e | ⟨a, i, c, d, hs, e⟩
    · obtain ⟨rfl, rfl⟩ := Prod.mk.inj e
      exact ⟨.inl rfl, _, hl, ptr_block _⟩
    · obtain ⟨rfl, rfl⟩ := Prod.mk.inj e
      exact ⟨.inr ⟨a, d, rfl, (below_iff hr).mpr ⟨_, hs, rfl⟩⟩, _, hload hs d, ptr_block _⟩

/-- **Each block of a tree is pointed to by one slot.** -/
theorem pointsTo_unique (hr : Rep h t) (hl : h.load (.head root) = .ok (ptr t))
    (hn : t.annots.Nodup) {b : Addr} (hb : b ∈ t.annots) :
    ∃! s, TreeSlot h root (ptr t) s ∧ PointsTo h s b := by
  rw [← slotsOf_top (.head root) t] at hb hn
  obtain ⟨⟨s, u⟩, hm, hu⟩ := List.mem_map.mp hb
  refine ⟨s, (treeSlot_iff hr hl).mpr ⟨u, hm, hu⟩, fun s' hs' => ?_⟩
  obtain ⟨u', hm', hu'⟩ := (treeSlot_iff hr hl).mp hs'
  exact (Prod.mk.inj (List.inj_on_of_nodup_map hn hm' hm (hu'.trans hu.symm))).1

/-! ## how many blocks there are -/

/-- a block of a tree is a string block or a node -/
theorem block_cases (hr : Rep h t) {a : Addr} (ha : a ∈ t.annots) :
    (∃ s, h.lookup a = some (.str s)) ∧ a ∈ t.leaves.map Prod.fst ∨
      (∃ n, h.lookup a = some (.node n)) ∧ a ∉ t.leaves.map Prod.fst := by
  obtain ⟨u, hu, rfl⟩ := exists_sub_top ha
  cases u with
  | leaf a k v =>
    exact .inl ⟨⟨_, hr.sub hu⟩, List.mem_map.mpr ⟨_, hu.leaves List.mem_cons_self, rfl⟩⟩
  | node a i c =>
    have hnode := (hr.sub hu).node
    refine .inr ⟨⟨_, hnode⟩, fun hm => ?_⟩
    obtain ⟨l, hl, e⟩ := List.mem_map.mp hm
    have hleaf := hr.leaf hl
    rw [e] at hleaf
    cases hnode.symm.trans hleaf

theorem ncard_list {α : Type} [DecidableEq α] {l : List α} (hn : l.Nodup) :
    {a | a ∈ l}.ncard = l.length := by
  rw [← List.toFinset_card_of_nodup hn, ← Set.ncard_coe_finset, List.coe_toFinset]

/-- **As many string blocks as keys.** -/
theorem leafBlocks_card (hr : Rep h t) (hn : t.annots.Nodup) :
    {a | a ∈ t.annots ∧ ∃ s, h.lookup a = some (.str s)}.ncard = t.keys.length := by
  have e : {a | a ∈ t.annots ∧ ∃ s, h.lookup a = some (.str s)} = {a | a ∈ t.leaves.map Prod.fst} := by
    ext a
    constructor
    · rintro ⟨ha, s, hs⟩
      rcases block_cases hr ha with ⟨-, hm⟩ | ⟨⟨n, hnode⟩, -⟩
      · exact hm
      · cases hnode.symm.trans hs
    · intro hm
      obtain ⟨l, hl, rfl⟩ := List.mem_map.mp hm
      exact ⟨leaf_annot hl, _, hr.leaf hl⟩
  rw [e, ncard_list ((leaves_sublist t).nodup hn), List.length_map, CTree.keys, List.length_map]

/-- **One node less.** -/
theorem nodeBlocks_card (hr : Rep h t) (hn : t.annots.Nodup) :
    {a | a ∈ t.annots ∧ ∃ n, h.lookup a = some (.node n)}.ncard = t.keys.length - 1 := by
  set L := {a | a ∈ t.annots ∧ ∃ s, h.lookup a = some (.str s)} with hL
  set N := {a | a ∈ t.annots ∧ ∃ n, h.lookup a = some (.node n)} with hN
  have hfin : {a | a ∈ t.annots}.Finite := t.annots.finite_toSet
  have hunion : L ∪ N = {a | a ∈ t.annots} := by
    ext a
    constructor
    · rintro (⟨ha, -⟩ | ⟨ha, -⟩) <;> exact ha
    · intro ha
      rcases block_cases hr ha with ⟨hs, -⟩ | ⟨hs, -⟩
      · exact .inl ⟨ha, hs⟩
      · exact .inr ⟨ha, hs⟩
  have hdisj : Disjoint L N := by
    rw [Set.disjoint_left]
    rintro a ⟨-, s, hs⟩ ⟨-, n, hnode⟩
    cases hs.symm.trans hnode
  have hcard := Set.ncard_union_eq hdisj (hfin.subset fun a ha => ha.1)
    (hfin.subset fun a ha => ha.1)
  rw [hunion, ncard_list hn, length_annots, leafBlocks_card hr hn] at hcard
  have hf := forks_succ t
  omega

end Critbit
