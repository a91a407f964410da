import Mathlib.Data.List.Perm.Lattice
import Mathlib.Order.Lattice
import Mathlib.Tactic.Common

/-!
# Crit-bit trees over an arbitrary order of positions

A key is seen only through `bit : K → ι → Bool`, the bits it has at the positions of a linear
order `ι`.  A tree forks at a position; every fork and every leaf carries an annotation in `A`
(for a tree in memory: the address of its block), which no operation looks at.

* `Agree bit i x y`      `x` and `y` have the same bits before `i`;
* `FirstDiff bit x y i`  `i` is the first position where they differ;
* `CTree.WF`             at each fork the bit of a leaf is the side it is on, and all leaves below
                         the fork agree before it;
* `CTree.nearest`        the leaf that the bits of a key lead to.

`WF` is enough for everything else: no key occurs twice (`WF.nodup_keys`), the walk finds every
stored key (`nearest_of_mem`), and for any other key it ends at a leaf that agrees at least as long
as each stored key does (`nearest_agree`).
-/

namespace Crit

/-- A tree whose forks test one position each.  `c false` holds the keys whose bit is `0`. -/
inductive CTree (A ι K V : Type*) where
  | leaf (a : A) (k : K) (v : V)
  | node (a : A) (i : ι) (c : Bool → CTree A ι K V)

namespace CTree
variable {A B ι K V : Type*}

/-- the leaves from left to right -/
def leaves : CTree A ι K V → List (A × K × V)
  | leaf a k v => [(a, k, v)]
  | node _ _ c => (c false).leaves ++ (c true).leaves

def keys (t : CTree A ι K V) : List K := t.leaves.map fun l => l.2.1

def binds (t : CTree A ι K V) : List (K × V) := t.leaves.map fun l => l.2

/-- the annotations of all forks and leaves -/
def annots : CTree A ι K V → List A
  | leaf a _ _ => [a]
  | node a _ c => a :: ((c false).annots ++ (c true).annots)

/-- the annotation at the root -/
def top : CTree A ι K V → A
  | leaf a _ _ => a
  | node a _ _ => a

/-- the tree with its annotations replaced -/
def mapA (f : A → B) : CTree A ι K V → CTree B ι K V
  | leaf a k v => leaf (f a) k v
  | node a i c => node (f a) i fun d => (c d).mapA f

/-- the shape of a tree: everything but the annotations -/
def shape (t : CTree A ι K V) : CTree Unit ι K V := t.mapA fun _ => ()

/-- number of forks -/
def forks : CTree A ι K V → Nat
  | leaf _ _ _ => 0
  | node _ _ c => (c false).forks + (c true).forks + 1

/-- the leaf reached by following the bits of `x` -/
def nearest (bit : K → ι → Bool) (x : K) : CTree A ι K V → A × K × V
  | leaf a k v => (a, k, v)
  | node _ i c => (c (bit x i)).nearest bit x

/-! ## leaves, keys and annotations of a fork -/

theorem leaves_leaf (a : A) (k : K) (v : V) :
    (leaf a k v : CTree A ι K V).leaves = [(a, k, v)] := rfl

theorem keys_leaf (a : A) (k : K) (v : V) : (leaf a k v : CTree A ι K V).keys = [k] := rfl

theorem binds_leaf (a : A) (k : K) (v : V) : (leaf a k v : CTree A ι K V).binds = [(k, v)] := rfl

theorem keys_node (a : A) (i : ι) (c : Bool → CTree A ι K V) :
    (node a i c).keys = (c false).keys ++ (c true).keys := by
  simp [keys, leaves]

theorem binds_node (a : A) (i : ι) (c : Bool → CTree A ι K V) :
    (node a i c).binds = (c false).binds ++ (c true).binds := by
  simp [binds, leaves]

theorem mem_leaves_node {a : A} {i : ι} {c : Bool → CTree A ι K V} {l : A × K × V} :
    l ∈ (node a i c).leaves ↔ ∃ d, l ∈ (c d).leaves := by
  simp [leaves]

theorem mem_keys_node {a : A} {i : ι} {c : Bool → CTree A ι K V} {x : K} :
    x ∈ (node a i c).keys ↔ ∃ d, x ∈ (c d).keys := by
  simp [keys_node]

theorem mem_binds_node {a : A} {i : ι} {c : Bool → CTree A ι K V} {b : K × V} :
    b ∈ (node a i c).binds ↔ ∃ d, b ∈ (c d).binds := by
  simp [binds, leaves]

theorem mem_annots_node {a : A} {i : ι} {c : Bool → CTree A ι K V} {b : A} :
    b ∈ (node a i c).annots ↔ b = a ∨ ∃ d, b ∈ (c d).annots := by
  simp [annots]

theorem mem_keys {t : CTree A ι K V} {x : K} : x ∈ t.keys ↔ ∃ a v, (a, x, v) ∈ t.leaves := by
  simp [keys]

theorem mem_keys_of_leaf {t : CTree A ι K V} {l : A × K × V} (h : l ∈ t.leaves) :
    l.2.1 ∈ t.keys := List.mem_map_of_mem h

theorem keys_eq_binds (t : CTree A ι K V) : t.keys = t.binds.map Prod.fst := by
  simp [keys, binds]

theorem top_mem (t : CTree A ι K V) : t.top ∈ t.annots := by
  cases t with
  | leaf a k v => exact List.mem_cons_self
  | node a i c => exact List.mem_cons_self

theorem leaves_perm (a : A) (i : ι) (c : Bool → CTree A ι K V) (d : Bool) :
    ((node a i c).leaves).Perm ((c d).leaves ++ (c !d).leaves) := by
  cases d with
  | false => exact List.Perm.refl _
  | true => exact List.perm_append_comm

theorem annots_perm (a : A) (i : ι) (c : Bool → CTree A ι K V) (d : Bool) :
    ((node a i c).annots).Perm (a :: ((c d).annots ++ (c !d).annots)) := by
  cases d with
  | false => exact List.Perm.refl _
  | true => exact List.Perm.cons a List.perm_append_comm

theorem exists_key (t : CTree A ι K V) : ∃ x, x ∈ t.keys := by
  induction t with
  | leaf a k v => exact ⟨k, by simp [keys_leaf]⟩
  | node a i c ih =>
    obtain ⟨x, hx⟩ := ih false
    exact ⟨x, mem_keys_node.mpr ⟨false, hx⟩⟩

/-- a leaf's annotation is an annotation of the tree -/
theorem leaf_annot {t : CTree A ι K V} {l : A × K × V} (h : l ∈ t.leaves) : l.1 ∈ t.annots := by
  induction t with
  | leaf a k v =>
    rw [leaves_leaf, List.mem_singleton] at h
    rw [h]; exact List.mem_cons_self
  | node a i c ih =>
    obtain ⟨d, hd⟩ := mem_leaves_node.mp h
    exact mem_annots_node.mpr (.inr ⟨d, ih d hd⟩)

/-- one fork less than leaves -/
theorem forks_succ (t : CTree A ι K V) : t.forks + 1 = t.keys.length := by
  induction t with
  | leaf a k v => rfl
  | node a i c ih =>
    rw [keys_node, List.length_append, ← ih false, ← ih true, forks]
    omega

theorem length_annots (t : CTree A ι K V) : t.annots.length = t.keys.length + t.forks := by
  induction t with
  | leaf a k v => rfl
  | node a i c ih =>
    rw [annots, List.length_cons, List.length_append, ih false, ih true, keys_node,
      List.length_append, forks]
    omega

/-! ## the shape of a tree -/

theorem shape_node (a : A) (i : ι) (c : Bool → CTree A ι K V) :
    (node a i c).shape = node () i fun d => (c d).shape := rfl

/-! ## where a walk ends -/

theorem nearest_leaf (bit : K → ι → Bool) (x : K) (a : A) (k : K) (v : V) :
    (leaf a k v).nearest bit x = (a, k, v) := rfl

theorem nearest_node (bit : K → ι → Bool) (x : K) (a : A) (i : ι) (c : Bool → CTree A ι K V) :
    (node a i c).nearest bit x = (c (bit x i)).nearest bit x := rfl

theorem nearest_mem (bit : K → ι → Bool) (x : K) (t : CTree A ι K V) :
    t.nearest bit x ∈ t.leaves := by
  induction t with
  | leaf a k v => rw [nearest_leaf, leaves_leaf]; exact List.mem_cons_self
  | node a i c ih => exact mem_leaves_node.mpr ⟨bit x i, ih (bit x i)⟩

theorem nearest_key_mem (bit : K → ι → Bool) (x : K) (t : CTree A ι K V) :
    (t.nearest bit x).2.1 ∈ t.keys := mem_keys_of_leaf (nearest_mem bit x t)

end CTree

/-! ## agreement before a position -/

section
variable {ι K : Type*} [LinearOrder ι] {bit : K → ι → Bool}

/-- the same bits at all positions before `i` -/
def Agree (bit : K → ι → Bool) (i : ι) (x y : K) : Prop := ∀ j < i, bit x j = bit y j

/-- `i` is the first position where `x` and `y` differ -/
def FirstDiff (bit : K → ι → Bool) (x y : K) (i : ι) : Prop := Agree bit i x y ∧ bit x i ≠ bit y i

theorem Agree.refl (i : ι) (x : K) : Agree bit i x x := fun _ _ => rfl

theorem Agree.symm {i : ι} {x y : K} (h : Agree bit i x y) : Agree bit i y x :=
  fun j hj => (h j hj).symm

theorem Agree.trans {i : ι} {x y z : K} (h : Agree bit i x y) (h' : Agree bit i y z) :
    Agree bit i x z := fun j hj => (h j hj).trans (h' j hj)

theorem Agree.mono {i j : ι} {x y : K} (h : Agree bit i x y) (hj : j ≤ i) : Agree bit j x y :=
  fun k hk => h k (lt_of_lt_of_le hk hj)

theorem FirstDiff.symm {x y : K} {i : ι} (h : FirstDiff bit x y i) : FirstDiff bit y x i :=
  ⟨h.1.symm, h.2.symm⟩

/-- keys that differ somewhere do not agree beyond that position -/
theorem Agree.le_of_ne {i j : ι} {x y : K} (h : Agree bit i x y) (hne : bit x j ≠ bit y j) :
    i ≤ j := by
  by_contra hc
  exact hne (h j (not_le.mp hc))

theorem FirstDiff.unique {x y : K} {i j : ι} (h : FirstDiff bit x y i) (h' : FirstDiff bit x y j) :
    i = j := le_antisymm (h.1.le_of_ne h'.2) (h'.1.le_of_ne h.2)

end

namespace CTree
variable {A ι K V : Type*} [LinearOrder ι] {bit : K → ι → Bool}

/-! ## well-formed trees -/

/-- what a fork at `i` says about the leaves below it -/
structure Forks (bit : K → ι → Bool) (i : ι) (c : Bool → CTree A ι K V) : Prop where
  side : ∀ d, ∀ x ∈ (c d).keys, bit x i = d
  below : ∀ d e, ∀ x ∈ (c d).keys, ∀ y ∈ (c e).keys, Agree bit i x y

def WF (bit : K → ι → Bool) : CTree A ι K V → Prop
  | leaf _ _ _ => True
  | node _ i c => Forks bit i c ∧ ∀ d, (c d).WF bit

theorem WF.forks {a : A} {i : ι} {c : Bool → CTree A ι K V} (h : (node a i c).WF bit) :
    Forks bit i c := h.1

theorem WF.child {a : A} {i : ι} {c : Bool → CTree A ι K V} (h : (node a i c).WF bit) (d : Bool) :
    (c d).WF bit := h.2 d

/-- all leaves below a fork agree before it -/
theorem WF.agree {a : A} {i : ι} {c : Bool → CTree A ι K V} (h : (node a i c).WF bit) {x y : K}
    (hx : x ∈ (node a i c).keys) (hy : y ∈ (node a i c).keys) : Agree bit i x y := by
  obtain ⟨d, hd⟩ := mem_keys_node.mp hx
  obtain ⟨e, he⟩ := mem_keys_node.mp hy
  exact h.forks.below d e x hd y he

/-- a key below a fork is on the side of its bit -/
theorem WF.mem_side {a : A} {i : ι} {c : Bool → CTree A ι K V} (h : (node a i c).WF bit) {x : K}
    (hx : x ∈ (node a i c).keys) : x ∈ (c (bit x i)).keys := by
  obtain ⟨d, hd⟩ := mem_keys_node.mp hx
  rw [h.forks.side d x hd]
  exact hd

/-- there are leaves on both sides of a fork, and they differ there -/
theorem WF.exists_sides {a : A} {i : ι} {c : Bool → CTree A ι K V} (h : (node a i c).WF bit) :
    ∃ x ∈ (node a i c).keys, ∃ y ∈ (node a i c).keys, bit x i ≠ bit y i := by
  obtain ⟨x, hx⟩ := exists_key (c false)
  obtain ⟨y, hy⟩ := exists_key (c true)
  refine ⟨x, mem_keys_node.mpr ⟨_, hx⟩, y, mem_keys_node.mpr ⟨_, hy⟩, ?_⟩
  rw [h.forks.side _ x hx, h.forks.side _ y hy]
  exact Bool.false_ne_true

/-- **No key occurs twice.** -/
theorem WF.nodup_keys {t : CTree A ι K V} (h : t.WF bit) : t.keys.Nodup := by
  induction t with
  | leaf a k v => rw [keys_leaf]; exact List.nodup_singleton k
  | node a i c ih =>
    rw [keys_node]
    refine List.nodup_append.mpr ⟨ih false (h.child false), ih true (h.child true), ?_⟩
    intro x hx y hy e
    have h1 := h.forks.side false x hx
    rw [e, h.forks.side true y hy] at h1
    exact Bool.false_ne_true h1.symm

/-- a leaf is determined by its key -/
theorem WF.leaf_eq {t : CTree A ι K V} (h : t.WF bit) {l m : A × K × V} (hl : l ∈ t.leaves)
    (hm : m ∈ t.leaves) (e : l.2.1 = m.2.1) : l = m :=
  List.inj_on_of_nodup_map h.nodup_keys hl hm e

/-! ## the walk of a key -/

/-- the walk ends at the leaf of the key if there is one -/
theorem nearest_of_mem {t : CTree A ι K V} (h : t.WF bit) {x : K} (hx : x ∈ t.keys) :
    (t.nearest bit x).2.1 = x := by
  induction t with
  | leaf a k v =>
    rw [keys_leaf, List.mem_singleton] at hx
    exact hx.symm
  | node a i c ih => exact ih (bit x i) (h.child _) (h.mem_side hx)

theorem nearest_eq_iff {t : CTree A ι K V} (h : t.WF bit) {x : K} :
    (t.nearest bit x).2.1 = x ↔ x ∈ t.keys := by
  constructor
  · intro e
    have hk := nearest_key_mem bit x t
    rwa [e] at hk
  · exact nearest_of_mem h

theorem nearest_of_leaf {t : CTree A ι K V} (h : t.WF bit) {l : A × K × V} (hl : l ∈ t.leaves) :
    t.nearest bit l.2.1 = l :=
  h.leaf_eq (nearest_mem bit _ t) hl (nearest_of_mem h (mem_keys_of_leaf hl))

/-- **The walk ends at a best match**: the leaf it reaches agrees with `x` at least as long as any
stored key does. -/
theorem nearest_agree {t : CTree A ι K V} (h : t.WF bit) {x y : K} {i : ι} (hy : y ∈ t.keys)
    (ha : Agree bit i x y) : Agree bit i x (t.nearest bit x).2.1 := by
  induction t with
  | leaf a k v =>
    rw [keys_leaf, List.mem_singleton] at hy
    rwa [hy] at ha
  | node a j c ih =>
    by_cases e : bit y j = bit x j
    · exact ih (bit x j) (h.child _) (e ▸ h.mem_side hy)
    · -- the walk leaves `y` at `j`, so `i ≤ j`, and all leaves below `j` look the same before `i`
      have hij : i ≤ j := ha.le_of_ne (Ne.symm e)
      have hn := nearest_key_mem bit x (node a j c)
      exact ha.trans ((h.agree hy hn).mono hij)

end CTree

end Crit
