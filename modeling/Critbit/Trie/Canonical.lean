import Critbit.Trie.Tree

/-!
# A well-formed tree is determined by its bindings

The root of a well-formed tree forks at the first position where any two of its keys differ, and
its two children hold the keys with bit `0` and bit `1` there.  So two well-formed trees with the
same bindings have the same shape (`shape_unique`), whatever order of operations built them.
-/

set_option linter.unusedSectionVars false

namespace Crit

namespace CTree
variable {A B ι K V : Type*}

theorem mem_keys_binds {t : CTree A ι K V} {x : K} : x ∈ t.keys ↔ ∃ v, (x, v) ∈ t.binds := by
  rw [keys_eq_binds, List.mem_map]
  constructor
  · rintro ⟨⟨y, v⟩, hb, rfl⟩
    exact ⟨v, hb⟩
  · rintro ⟨v, hb⟩
    exact ⟨(x, v), hb, rfl⟩

/-- the same bindings, as sets -/
def SameBinds (s : CTree A ι K V) (t : CTree B ι K V) : Prop := ∀ b, b ∈ s.binds ↔ b ∈ t.binds

theorem SameBinds.symm {s : CTree A ι K V} {t : CTree B ι K V} (h : SameBinds s t) :
    SameBinds t s := fun b => (h b).symm

theorem SameBinds.mem_keys {s : CTree A ι K V} {t : CTree B ι K V} (h : SameBinds s t) {x : K}
    (hx : x ∈ s.keys) : x ∈ t.keys := by
  obtain ⟨v, hv⟩ := mem_keys_binds.mp hx
  exact mem_keys_binds.mpr ⟨v, (h _).mp hv⟩

variable [LinearOrder ι] {bit : K → ι → Bool}

/-- a fork at `i` cannot hold the keys of a tree that agree beyond `i` -/
theorem WF.fork_le {a : A} {b : B} {i j : ι} {c : Bool → CTree A ι K V}
    {c' : Bool → CTree B ι K V} (h : (node a i c).WF bit) (h' : (node b j c').WF bit)
    (hs : SameBinds (node a i c) (node b j c')) : j ≤ i := by
  obtain ⟨x, hx, y, hy, hne⟩ := h.exists_sides
  exact (h'.agree (hs.mem_keys hx) (hs.mem_keys hy)).le_of_ne hne

/-- a leaf never holds the keys of a fork -/
theorem WF.not_leaf {a : A} {b : B} {i : ι} {k : K} {v : V} {c : Bool → CTree A ι K V}
    (h : (node a i c).WF bit) (hs : SameBinds (node a i c) (leaf b k v : CTree B ι K V)) :
    False := by
  obtain ⟨x, hx, y, hy, hne⟩ := h.exists_sides
  have h1 := hs.mem_keys hx
  have h2 := hs.mem_keys hy
  rw [keys_leaf, List.mem_singleton] at h1 h2
  exact hne (by rw [h1, h2])

/-- the bindings of a child are those of the fork with the right bit -/
theorem WF.binds_child {a : A} {i : ι} {c : Bool → CTree A ι K V} (h : (node a i c).WF bit)
    {d : Bool} {b : K × V} : b ∈ (c d).binds ↔ b ∈ (node a i c).binds ∧ bit b.1 i = d := by
  constructor
  · intro hb
    exact ⟨mem_binds_node.mpr ⟨d, hb⟩, h.forks.side d _ (mem_keys_binds.mpr ⟨b.2, hb⟩)⟩
  · rintro ⟨hb, hd⟩
    obtain ⟨e, he⟩ := mem_binds_node.mp hb
    have h1 := h.forks.side e _ (mem_keys_binds.mpr ⟨b.2, he⟩)
    rwa [← hd, h1]

/-- **Two well-formed trees with the same bindings have the same shape.** -/
theorem shape_unique {s : CTree A ι K V} {t : CTree B ι K V} (hs : s.WF bit) (ht : t.WF bit)
    (h : SameBinds s t) : s.shape = t.shape := by
  induction s generalizing t with
  | leaf a k v =>
    cases t with
    | leaf b k' v' =>
      have h1 := (h (k, v)).mp (by rw [binds_leaf]; exact List.mem_cons_self)
      rw [binds_leaf, List.mem_singleton] at h1
      obtain ⟨rfl, rfl⟩ := Prod.mk.inj h1
      rfl
    | node b j c' => exact absurd h.symm (fun h' => ht.not_leaf h')
  | node a i c ih =>
    cases t with
    | leaf b k' v' => exact absurd h (fun h' => hs.not_leaf h')
    | node b j c' =>
      obtain rfl : i = j := le_antisymm (ht.fork_le hs h.symm) (hs.fork_le ht h)
      rw [shape_node, shape_node]
      congr 1
      funext d
      refine ih d (hs.child d) (ht.child d) fun b' => ?_
      rw [hs.binds_child, ht.binds_child, h b']

end CTree

end Crit
