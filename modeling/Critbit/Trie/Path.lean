import Critbit.Trie.Splice
import Critbit.Trie.Subtree

/-!
# Paths from the root

* `path bit x t`     the forks on the walk of `x`, as frames;
* `visits bit x i t` the forks that the descent to position `i` looks at: those it passes, and the
                     one where it stops; they begin the path (`visits_prefix`);
* `mem_path`         a fork above a leaf is on the path of its key;
* `increasing`       along a list of frames the positions increase, and those of a path are less
                     than any bound that each fork above its leaf keeps (`length_path_le`).
-/

namespace Crit

namespace CTree
variable {A ι K V : Type*}

/-- the forks on the walk of `x` -/
def path (bit : K → ι → Bool) (x : K) : CTree A ι K V → List (Frame A ι K V)
  | leaf _ _ _ => []
  | node a i c => ⟨a, i, bit x i, c⟩ :: (c (bit x i)).path bit x

/-- the root of the tree, if it is a fork -/
def stop : CTree A ι K V → List A
  | leaf _ _ _ => []
  | node a _ _ => [a]

section
variable (bit : K → ι → Bool) (x : K)

theorem path_node (a : A) (i : ι) (c : Bool → CTree A ι K V) :
    (node a i c).path bit x = ⟨a, i, bit x i, c⟩ :: (c (bit x i)).path bit x := rfl

theorem begins_stop (t : CTree A ι K V) : t.stop <+: (t.path bit x).map Frame.a := by
  cases t with
  | leaf a k v => exact List.prefix_rfl
  | node a i c => exact ⟨_, rfl⟩

/-- the annotations on a path are those of forks, each once -/
theorem path_sublist (t : CTree A ι K V) : ((t.path bit x).map Frame.a).Sublist t.annots := by
  induction t with
  | leaf a k v => exact List.nil_sublist _
  | node a i c ih =>
    rw [path_node, List.map_cons, annots]
    apply List.Sublist.cons_cons
    cases bit x i with
    | false => exact (ih false).trans (List.sublist_append_left _ _)
    | true => exact (ih true).trans (List.sublist_append_right _ _)

end

variable [LinearOrder ι] {bit : K → ι → Bool}

/-- the forks that the descent to `i` looks at -/
def visits (bit : K → ι → Bool) (x : K) (i : ι) (t : CTree A ι K V) : List A :=
  (t.split bit x i).1.map Frame.a ++ (t.split bit x i).2.stop

theorem path_split (x : K) (i : ι) (t : CTree A ι K V) :
    t.path bit x = (t.split bit x i).1 ++ (t.split bit x i).2.path bit x := by
  induction t with
  | leaf a k v => rfl
  | node a j c ih =>
    by_cases h : i < j
    · rw [split_stop h]; rfl
    · rw [split_go h, path_node, ih, List.cons_append]

theorem visits_stop {i j : ι} (h : i < j) (x : K) (a : A) (c : Bool → CTree A ι K V) :
    (node a j c).visits bit x i = [a] := by
  unfold visits
  rw [split_stop h]
  rfl

theorem visits_go {i j : ι} (h : ¬ i < j) (x : K) (a : A) (c : Bool → CTree A ι K V) :
    (node a j c).visits bit x i = a :: (c (bit x j)).visits bit x i := by
  unfold visits
  rw [split_go h]
  rfl

/-- **The descent looks at no fork that the walk does not pass.** -/
theorem visits_prefix (x : K) (i : ι) (t : CTree A ι K V) :
    t.visits bit x i <+: (t.path bit x).map Frame.a := by
  rw [path_split x i t, List.map_append, visits]
  exact (List.prefix_append_right_inj _).mpr (begins_stop bit x _)

/-- the descent to the first difference never looks at a fork at that position -/
theorem mem_visits {t : CTree A ι K V} {x : K} {i : ι} {b : A} (h : t.WF bit)
    (hd : FirstDiff bit x (t.nearest bit x).2.1 i) (hb : b ∈ t.visits bit x i) :
    ∃ j e, Sub (node b j e) t ∧ j ≠ i := by
  induction t with
  | leaf a k v => exact absurd hb List.not_mem_nil
  | node a j c ih =>
    by_cases hij : i < j
    · rw [visits_stop hij, List.mem_singleton] at hb
      rw [hb]
      exact ⟨j, c, .refl _, ne_of_gt hij⟩
    · rw [visits_go hij, List.mem_cons] at hb
      rcases hb with rfl | hb
      · have hlt : j < i := split_pos_lt h hd (f := ⟨b, j, bit x j, c⟩) (by
          rw [split_go hij]
          exact List.mem_cons_self)
        exact ⟨j, c, .refl _, ne_of_lt hlt⟩
      · obtain ⟨j', e, hs, hne⟩ := ih _ (h.child _) hd hb
        exact ⟨j', e, .child _ hs, hne⟩

/-! ## forks above a leaf -/

theorem mem_path {t : CTree A ι K V} {a : A} {i : ι} {c : Bool → CTree A ι K V} {x : K}
    (h : t.WF bit) (hs : Sub (node a i c) t) (hx : x ∈ (node a i c).keys) :
    ∃ f ∈ t.path bit x, f.a = a := by
  induction t with
  | leaf b k v => cases hs
  | node b j e ih =>
    cases hs with
    | refl => exact ⟨_, List.mem_cons_self, rfl⟩
    | child d hs =>
      have hd : bit x j = d := h.forks.side d x (hs.keys hx)
      obtain ⟨f, hf, hfa⟩ := ih d (h.child d) hs
      refine ⟨f, List.mem_cons_of_mem _ ?_, hfa⟩
      rw [hd]
      exact hf

omit [LinearOrder ι] in
/-- a fork on the path is above the leaf that the walk reaches -/
theorem sub_of_path {t : CTree A ι K V} {x : K} {f : Frame A ι K V} (hf : f ∈ t.path bit x) :
    Sub (node f.a f.i f.c) t ∧ t.nearest bit x ∈ (node f.a f.i f.c).leaves := by
  induction t with
  | leaf a k v => exact absurd hf List.not_mem_nil
  | node a i c ih =>
    rcases List.mem_cons.mp hf with e | e
    · rw [e]
      exact ⟨.refl _, nearest_mem bit x _⟩
    · obtain ⟨hs, hl⟩ := ih (bit x i) e
      exact ⟨.child _ hs, hl⟩

/-! ## how long a path is -/

theorem WF.increasing {t : CTree A ι K V} (h : t.WF bit) (x : K) :
    ((t.path bit x).map Frame.i).Pairwise (· < ·) := by
  induction t with
  | leaf a k v => exact List.Pairwise.nil
  | node a i c ih =>
    rw [path_node, List.map_cons, List.pairwise_cons]
    refine ⟨fun j hj => ?_, ih _ (h.child _)⟩
    obtain ⟨f, hf, rfl⟩ := List.mem_map.mp hj
    exact h.lt_sub (sub_of_path hf).1

end CTree

/-- an increasing list of numbers below `n` has at most `n` entries -/
theorem length_le_of_increasing {l : List Nat} {n : Nat} (h : l.Pairwise (· < ·))
    (hn : ∀ i ∈ l, i < n) : l.length ≤ n := by
  have hnd : l.Nodup := h.imp fun hab => ne_of_lt hab
  have hsub : l ⊆ List.range n := fun i hi => List.mem_range.mpr (hn i hi)
  have hl := hnd.length_le_of_subset hsub
  rwa [List.length_range] at hl

/-- **A path has no more forks than there are positions before the bound.** -/
theorem CTree.length_path_le {A K V : Type*} {bit : K → Nat → Bool} {t : CTree A Nat K V} {n : Nat}
    {x : K} (h : t.WF bit) (hn : ∀ f ∈ t.path bit x, f.i < n) : (t.path bit x).length ≤ n := by
  have hl := length_le_of_increasing (h.increasing x) (n := n) fun i hi => by
    obtain ⟨f, hf, rfl⟩ := List.mem_map.mp hi
    exact hn f hf
  rwa [List.length_map] at hl

end Crit
