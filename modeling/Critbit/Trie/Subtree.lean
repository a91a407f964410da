import Critbit.Trie.Tree

/-!
# Subtrees

`Sub u t` says that `u` hangs somewhere in `t` (or is `t`).  What holds of a well-formed tree holds of
its subtrees, and along any path the positions increase (`WF.lt_sub`).
-/

namespace Crit

namespace CTree
variable {A ι K V : Type*}

inductive Sub : CTree A ι K V → CTree A ι K V → Prop
  | refl (t : CTree A ι K V) : Sub t t
  | child {u : CTree A ι K V} {a : A} {i : ι} {c : Bool → CTree A ι K V} (d : Bool)
      (h : Sub u (c d)) : Sub u (node a i c)

variable {s t u : CTree A ι K V}

theorem Sub.trans (h : Sub s t) (h' : Sub t u) : Sub s u := by
  induction h' with
  | refl => exact h
  | child d _ ih => exact .child d ih

theorem Sub.of_node {a : A} {i : ι} {c : Bool → CTree A ι K V} (h : Sub (node a i c) t)
    (d : Bool) : Sub (c d) t := Sub.trans (.child d (.refl _)) h

theorem Sub.leaves (h : Sub u t) {l : A × K × V} (hl : l ∈ u.leaves) : l ∈ t.leaves := by
  induction h with
  | refl => exact hl
  | child d _ ih => exact mem_leaves_node.mpr ⟨d, ih⟩

theorem Sub.keys (h : Sub u t) {x : K} (hx : x ∈ u.keys) : x ∈ t.keys := by
  obtain ⟨a, v, hl⟩ := mem_keys.mp hx
  exact mem_keys_of_leaf (h.leaves hl)

theorem Sub.annots (h : Sub u t) {b : A} (hb : b ∈ u.annots) : b ∈ t.annots := by
  induction h with
  | refl => exact hb
  | child d _ ih => exact mem_annots_node.mpr (.inr ⟨d, ih⟩)

theorem sub_of_leaf {l : A × K × V} (hl : l ∈ t.leaves) : Sub (leaf l.1 l.2.1 l.2.2) t := by
  induction t with
  | leaf a k v =>
    rw [leaves_leaf, List.mem_singleton] at hl
    rw [hl]; exact .refl _
  | node a i c ih =>
    obtain ⟨d, hd⟩ := mem_leaves_node.mp hl
    exact .child d (ih d hd)

/-- every annotation is that of a subtree -/
theorem exists_sub_top {b : A} (hb : b ∈ t.annots) : ∃ u, Sub u t ∧ u.top = b := by
  induction t with
  | leaf a k v => exact ⟨_, .refl _, (List.mem_singleton.mp hb).symm⟩
  | node a i c ih =>
    rcases mem_annots_node.mp hb with rfl | ⟨d, hd⟩
    · exact ⟨_, .refl _, rfl⟩
    · obtain ⟨u, hu, e⟩ := ih d hd
      exact ⟨u, .child d hu, e⟩

/-- the leaves come in the order of the annotations -/
theorem leaves_sublist (t : CTree A ι K V) : (t.leaves.map Prod.fst).Sublist t.annots := by
  induction t with
  | leaf a k v => exact List.Sublist.refl _
  | node a i c ih =>
    show List.Sublist (List.map Prod.fst ((c false).leaves ++ (c true).leaves)) _
    rw [List.map_append]
    exact ((ih false).append (ih true)).cons a

variable [LinearOrder ι] {bit : K → ι → Bool}

theorem Sub.wf (h : Sub u t) (hw : t.WF bit) : u.WF bit := by
  induction h with
  | refl => exact hw
  | child d _ ih => exact ih (hw.child d)

/-- **Positions increase downwards.** -/
theorem WF.lt_sub {a b : A} {i j : ι} {c e : Bool → CTree A ι K V} {d : Bool}
    (h : (node a i c).WF bit) (hs : Sub (node b j e) (c d)) : i < j := by
  obtain ⟨x, hx, y, hy, hne⟩ := (hs.wf (h.child d)).exists_sides
  have hle : i ≤ j := (h.forks.below d d x (hs.keys hx) y (hs.keys hy)).le_of_ne hne
  refine lt_of_le_of_ne hle fun e' => hne ?_
  rw [← e', h.forks.side d x (hs.keys hx), h.forks.side d y (hs.keys hy)]

end CTree

end Crit
