import Critbit.Trie.Tree
import Mathlib.Logic.Function.Basic

/-!
# Splicing a key in, pulling a sibling up

A tree with a hole is a list of frames, outermost first (`fill` puts a tree into the hole).

* `split bit x i t`   the descent of an insertion: follow `x` as long as the forks are not beyond
                      `i`; it gives the frames passed and the subtree where it stops;
* `insertAt`          a fork at `i` spliced in where the descent stops;
* `lastFork bit x t`  the frames above the last fork on the walk of `x`, and that fork;
* `delete`            the sibling of the leaf reached pulled up in the place of that fork.

If `i` is the first difference of `x` and the leaf its walk reaches, the leaves below the splice
are exactly the keys that first differ from `x` at `i` (`mem_split`), so `insertAt` keeps `WF`
(`insertAt_wf`); `delete` keeps it always (`delete_wf`), and takes an insertion back, annotations
included (`delete_insertAt`).
-/

set_option linter.unusedSectionVars false

namespace Crit

/-- a fork at `i` whose child `d` is the hole (what `c` has on that side does not matter) -/
structure Frame (A ι K V : Type*) where
  a : A
  i : ι
  d : Bool
  c : Bool → CTree A ι K V

namespace CTree
variable {A ι K V : Type*}

/-- the child of the frame that is not the hole -/
def sibling (f : Frame A ι K V) : CTree A ι K V := f.c (!f.d)

def fill : List (Frame A ι K V) → CTree A ι K V → CTree A ι K V
  | [], t => t
  | f :: C, t => node f.a f.i (Function.update f.c f.d (fill C t))

theorem fill_nil (t : CTree A ι K V) : fill [] t = t := rfl
theorem fill_cons (f : Frame A ι K V) (C : List (Frame A ι K V)) (t : CTree A ι K V) :
    fill (f :: C) t = node f.a f.i (Function.update f.c f.d (fill C t)) := rfl

theorem fill_append (C D : List (Frame A ι K V)) (t : CTree A ι K V) :
    fill (C ++ D) t = fill C (fill D t) := by
  induction C with
  | nil => rfl
  | cons f C ih => rw [List.cons_append, fill_cons, ih, fill_cons]

theorem update_self (f : Frame A ι K V) (t : CTree A ι K V) :
    Function.update f.c f.d t f.d = t := Function.update_self ..

theorem update_sibling (f : Frame A ι K V) (t : CTree A ι K V) :
    Function.update f.c f.d t (!f.d) = sibling f :=
  Function.update_of_ne (Bool.not_ne_self f.d) ..

/-! ## leaves and annotations around the hole -/

theorem leaves_fill (C : List (Frame A ι K V)) (t : CTree A ι K V) :
    ((fill C t).leaves).Perm (t.leaves ++ C.flatMap fun f => (sibling f).leaves) := by
  induction C with
  | nil => rw [fill_nil, List.flatMap_nil, List.append_nil]
  | cons f C ih =>
    have h := leaves_perm f.a f.i (Function.update f.c f.d (fill C t)) f.d
    rw [update_self, update_sibling] at h
    rw [fill_cons, List.flatMap_cons]
    refine h.trans ((ih.append_right _).trans ?_)
    rw [List.append_assoc]
    exact List.Perm.append_left _ List.perm_append_comm

theorem mem_leaves_fill {C : List (Frame A ι K V)} {t : CTree A ι K V} {l : A × K × V} :
    l ∈ (fill C t).leaves ↔ l ∈ t.leaves ∨ ∃ f ∈ C, l ∈ (sibling f).leaves := by
  rw [(leaves_fill C t).mem_iff, List.mem_append, List.mem_flatMap]

theorem mem_keys_fill {C : List (Frame A ι K V)} {t : CTree A ι K V} {x : K} :
    x ∈ (fill C t).keys ↔ x ∈ t.keys ∨ ∃ f ∈ C, x ∈ (sibling f).keys := by
  rw [keys, ((leaves_fill C t).map _).mem_iff, List.map_append, List.mem_append, List.map_flatMap,
    List.mem_flatMap]
  rfl

/-- the annotations of the frames and of what hangs off them -/
def ctxAnnots (C : List (Frame A ι K V)) : List A := C.flatMap fun f => f.a :: (sibling f).annots

theorem annots_fill (C : List (Frame A ι K V)) (t : CTree A ι K V) :
    ((fill C t).annots).Perm (t.annots ++ ctxAnnots C) := by
  induction C with
  | nil => rw [fill_nil, ctxAnnots, List.flatMap_nil, List.append_nil]
  | cons f C ih =>
    have h := annots_perm f.a f.i (Function.update f.c f.d (fill C t)) f.d
    rw [update_self, update_sibling] at h
    rw [fill_cons, ctxAnnots, List.flatMap_cons]
    have h2 : (f.a :: ((t.annots ++ ctxAnnots C) ++ (sibling f).annots)).Perm
        (f.a :: (t.annots ++ ((sibling f).annots ++ ctxAnnots C))) := by
      rw [List.append_assoc]
      exact (List.Perm.append_left _ List.perm_append_comm).cons _
    exact h.trans (((ih.append_right _).cons _).trans (h2.trans List.perm_middle.symm))

theorem mem_annots_fill {C : List (Frame A ι K V)} {t : CTree A ι K V} {b : A} :
    b ∈ (fill C t).annots ↔ b ∈ t.annots ∨ b ∈ ctxAnnots C := by
  rw [(annots_fill C t).mem_iff, List.mem_append]

theorem frame_annot {C : List (Frame A ι K V)} {f : Frame A ι K V} (h : f ∈ C) :
    f.a ∈ ctxAnnots C := List.mem_flatMap.mpr ⟨f, h, List.mem_cons_self⟩

end CTree

/-! ## replacing what is in the hole -/

namespace CTree
variable {A ι K V : Type*} [LinearOrder ι] {bit : K → ι → Bool}

theorem WF.of_fill {C : List (Frame A ι K V)} {t : CTree A ι K V} (h : (fill C t).WF bit) :
    t.WF bit := by
  induction C with
  | nil => exact h
  | cons f C ih =>
    have h' := h.child f.d
    rw [update_self] at h'
    exact ih h'

/-- **The rule for a replacement**: `s` may stand in for `t` if each key of `s` looks like some key
of `t` at the positions of the frames and before them. -/
theorem WF.refill {C : List (Frame A ι K V)} {t s : CTree A ι K V} (h : (fill C t).WF bit)
    (hs : s.WF bit)
    (hk : ∀ x ∈ s.keys, ∃ y ∈ t.keys, ∀ f ∈ C, bit x f.i = bit y f.i ∧ Agree bit f.i x y) :
    (fill C s).WF bit := by
  induction C with
  | nil => exact hs
  | cons f C ih =>
    have hd := h.child f.d
    rw [update_self] at hd
    have hin := ih hd fun x hx => by
      obtain ⟨y, hy, hf⟩ := hk x hx
      exact ⟨y, hy, fun g hg => hf g (List.mem_cons_of_mem _ hg)⟩
    -- a key of the new child looks at `f` like some key of the old one
    have like : ∀ x ∈ (fill C s).keys, ∃ y ∈ (fill C t).keys,
        bit x f.i = bit y f.i ∧ Agree bit f.i x y := by
      intro x hx
      rcases mem_keys_fill.mp hx with e | e
      · obtain ⟨y, hy, hf⟩ := hk x e
        exact ⟨y, mem_keys_fill.mpr (.inl hy), hf f List.mem_cons_self⟩
      · exact ⟨x, mem_keys_fill.mpr (.inr e), rfl, Agree.refl _ _⟩
    have old : ∀ d, ∀ x ∈ (Function.update f.c f.d (fill C s) d).keys,
        ∃ y ∈ (Function.update f.c f.d (fill C t) d).keys,
          bit x f.i = bit y f.i ∧ Agree bit f.i x y := by
      intro d x hx
      by_cases e : d = f.d
      · subst e
        rw [update_self] at hx ⊢
        exact like x hx
      · rw [Function.update_of_ne e] at hx ⊢
        exact ⟨x, hx, rfl, Agree.refl _ _⟩
    refine ⟨⟨?_, ?_⟩, ?_⟩
    · intro d x hx
      obtain ⟨y, hy, hb, _⟩ := old d x hx
      exact hb.trans (h.forks.side d y hy)
    · intro d e x hx y hy
      obtain ⟨x', hx', _, ha⟩ := old d x hx
      obtain ⟨y', hy', _, hb⟩ := old e y hy
      exact ha.trans ((h.forks.below d e x' hx' y' hy').trans hb.symm)
    · intro d
      by_cases e : d = f.d
      · subst e
        rw [update_self]
        exact hin
      · have ho := h.child d
        rw [Function.update_of_ne e] at ho ⊢
        exact ho

/-! ## the descent of an insertion -/

/-- follow `x` past the forks that are not beyond `i` -/
def split (bit : K → ι → Bool) (x : K) (i : ι) :
    CTree A ι K V → List (Frame A ι K V) × CTree A ι K V
  | leaf a k v => ([], leaf a k v)
  | node a j c =>
    if i < j then ([], node a j c)
    else
      let r := (c (bit x j)).split bit x i
      (⟨a, j, bit x j, c⟩ :: r.1, r.2)

theorem split_leaf (x : K) (i : ι) (a : A) (k : K) (v : V) :
    (leaf a k v).split bit x i = ([], leaf a k v) := rfl

theorem split_stop {i j : ι} (h : i < j) (x : K) (a : A) (c : Bool → CTree A ι K V) :
    (node a j c).split bit x i = ([], node a j c) := if_pos h

theorem split_go {i j : ι} (h : ¬ i < j) (x : K) (a : A) (c : Bool → CTree A ι K V) :
    (node a j c).split bit x i =
      (⟨a, j, bit x j, c⟩ :: ((c (bit x j)).split bit x i).1, ((c (bit x j)).split bit x i).2) :=
  if_neg h

theorem fill_split (x : K) (i : ι) (t : CTree A ι K V) :
    fill (t.split bit x i).1 (t.split bit x i).2 = t := by
  induction t with
  | leaf a k v => rfl
  | node a j c ih =>
    by_cases h : i < j
    · rw [split_stop h]; rfl
    · rw [split_go h, fill_cons, ih, Function.update_eq_self]

theorem split_dir {x : K} {i : ι} {t : CTree A ι K V} {f : Frame A ι K V}
    (hf : f ∈ (t.split bit x i).1) : f.d = bit x f.i := by
  induction t with
  | leaf a k v => exact absurd hf List.not_mem_nil
  | node a j c ih =>
    by_cases h : i < j
    · rw [split_stop h] at hf
      exact absurd hf List.not_mem_nil
    · rw [split_go h] at hf
      rcases List.mem_cons.mp hf with e | e
      · rw [e]
      · exact ih _ e

section
variable {x : K} {i : ι}

/-- the descent never meets a fork at the new position itself -/
theorem split_pos_lt {t : CTree A ι K V} (h : t.WF bit)
    (hd : FirstDiff bit x (t.nearest bit x).2.1 i) {f : Frame A ι K V}
    (hf : f ∈ (t.split bit x i).1) : f.i < i := by
  induction t with
  | leaf a k v => exact absurd hf List.not_mem_nil
  | node a j c ih =>
    by_cases hij : i < j
    · rw [split_stop hij] at hf
      exact absurd hf List.not_mem_nil
    · rw [split_go hij] at hf
      rcases List.mem_cons.mp hf with e | e
      · rw [e]
        refine lt_of_le_of_ne (not_lt.mp hij) (fun hji => hd.2 ?_)
        have hn := nearest_key_mem bit x (c (bit x j))
        exact hji ▸ (h.forks.side _ _ hn).symm
      · exact ih _ (h.child _) hd e

/-- **The leaves below the splice are exactly the keys that first differ from `x` at `i`.** -/
theorem mem_split {t : CTree A ι K V} (h : t.WF bit)
    (hd : FirstDiff bit x (t.nearest bit x).2.1 i) {y : K} :
    y ∈ (t.split bit x i).2.keys ↔ y ∈ t.keys ∧ FirstDiff bit x y i := by
  induction t with
  | leaf a k v =>
    rw [split_leaf, keys_leaf, List.mem_singleton]
    exact ⟨fun e => ⟨e, e ▸ hd⟩, fun e => e.1⟩
  | node a j c ih =>
    by_cases hij : i < j
    · -- every leaf below looks like the nearest one up to and including `i`
      rw [split_stop hij]
      refine ⟨fun hy => ⟨hy, ?_⟩, fun hy => hy.1⟩
      have ha := h.agree (nearest_key_mem bit x (node a j c)) hy
      exact ⟨hd.1.trans (ha.mono hij.le), fun e => hd.2 (e.trans (ha i hij).symm)⟩
    · rw [split_go hij]
      refine (ih (bit x j) (h.child _) hd).trans ⟨fun hy => ⟨mem_keys_node.mpr ⟨_, hy.1⟩, hy.2⟩, ?_⟩
      rintro ⟨hy, hyd⟩
      have hji : j < i := split_pos_lt h hd (f := ⟨a, j, bit x j, c⟩)
        (by rw [split_go hij]; exact List.mem_cons_self)
      exact ⟨hyd.1 j hji ▸ h.mem_side hy, hyd⟩

/-! ## insertion -/

/-- the new fork: `x` on the side of its bit, the old subtree on the other side -/
def join (bit : K → ι → Bool) (a b : A) (x : K) (v : V) (i : ι) (t : CTree A ι K V) :
    CTree A ι K V := node a i (Function.update (fun _ => t) (bit x i) (leaf b x v))

def insertAt (bit : K → ι → Bool) (a b : A) (x : K) (v : V) (i : ι) (t : CTree A ι K V) :
    CTree A ι K V := fill (t.split bit x i).1 (join bit a b x v i (t.split bit x i).2)

theorem join_self (b : A) (v : V) (t : CTree A ι K V) :
    Function.update (fun _ => t) (bit x i) (leaf b x v) (bit x i) = leaf b x v :=
  Function.update_self ..

theorem join_not (b : A) (v : V) (t : CTree A ι K V) :
    Function.update (fun _ => t) (bit x i) (leaf b x v) (!bit x i) = t :=
  Function.update_of_ne (Bool.not_ne_self _) ..

theorem leaves_join (a b : A) (v : V) (t : CTree A ι K V) :
    ((join bit a b x v i t).leaves).Perm ((b, x, v) :: t.leaves) := by
  have h := leaves_perm a i (Function.update (fun _ => t) (bit x i) (leaf b x v)) (bit x i)
  rwa [join_self, join_not] at h

theorem annots_join (a b : A) (v : V) (t : CTree A ι K V) :
    ((join bit a b x v i t).annots).Perm (a :: b :: t.annots) := by
  have h := annots_perm a i (Function.update (fun _ => t) (bit x i) (leaf b x v)) (bit x i)
  rwa [join_self, join_not] at h

theorem join_wf {a b : A} {v : V} {t : CTree A ι K V} (h : t.WF bit)
    (hk : ∀ y ∈ t.keys, FirstDiff bit x y i) : (join bit a b x v i t).WF bit := by
  have mem : ∀ d, ∀ y ∈ (Function.update (fun _ => t) (bit x i) (leaf b x v) d).keys,
      bit y i = d ∧ Agree bit i x y := by
    intro d y hy
    by_cases e : d = bit x i
    · subst e
      rw [join_self, keys_leaf, List.mem_singleton] at hy
      rw [hy]; exact ⟨rfl, Agree.refl _ _⟩
    · rw [Function.update_of_ne e] at hy
      refine ⟨?_, (hk y hy).1⟩
      rw [Bool.eq_not_of_ne e]
      exact Bool.eq_not_of_ne (hk y hy).2.symm
  refine ⟨⟨fun d y hy => (mem d y hy).1, ?_⟩, ?_⟩
  · intro d e y hy z hz
    exact (mem d y hy).2.symm.trans (mem e z hz).2
  · intro d
    by_cases e : d = bit x i
    · subst e
      rw [join_self]; trivial
    · rw [Function.update_of_ne e]; exact h

theorem leaves_insertAt (a b : A) (v : V) (t : CTree A ι K V) :
    ((t.insertAt bit a b x v i).leaves).Perm ((b, x, v) :: t.leaves) := by
  have h := leaves_fill (t.split bit x i).1 (t.split bit x i).2
  rw [fill_split] at h
  exact (leaves_fill _ _).trans (((leaves_join a b v _).append_right _).trans (h.symm.cons _))

theorem annots_insertAt (a b : A) (v : V) (t : CTree A ι K V) :
    ((t.insertAt bit a b x v i).annots).Perm (a :: b :: t.annots) := by
  have h := annots_fill (t.split bit x i).1 (t.split bit x i).2
  rw [fill_split] at h
  exact (annots_fill _ _).trans
    (((annots_join a b v _).append_right _).trans ((h.symm.cons _).cons _))

/-- **An insertion at the first difference with the nearest leaf keeps the tree well formed.** -/
theorem insertAt_wf {a b : A} {v : V} {t : CTree A ι K V} (h : t.WF bit)
    (hd : FirstDiff bit x (t.nearest bit x).2.1 i) : (t.insertAt bit a b x v i).WF bit := by
  have hw : (fill (t.split bit x i).1 (t.split bit x i).2).WF bit := by rwa [fill_split]
  refine hw.refill (join_wf hw.of_fill fun y hy => ((mem_split h hd).mp hy).2) ?_
  intro y hy
  rcases List.mem_cons.mp (((leaves_join a b v _).map _).mem_iff.mp hy) with e | e
  · -- the new key looks like any key below the splice
    have e : y = x := e
    rw [e]
    obtain ⟨z, hz⟩ := exists_key (t.split bit x i).2
    have ha := ((mem_split h hd).mp hz).2.1
    refine ⟨z, hz, fun f hf => ?_⟩
    have hlt := split_pos_lt h hd hf
    exact ⟨ha f.i hlt, ha.mono hlt.le⟩
  · exact ⟨y, e, fun f _ => ⟨rfl, Agree.refl _ _⟩⟩

end

/-! ## deletion -/

/-- the frames above the last fork on the walk of `x`, and that fork as a frame -/
def lastFork (bit : K → ι → Bool) (x : K) :
    CTree A ι K V → Option (List (Frame A ι K V) × Frame A ι K V)
  | leaf _ _ _ => none
  | node a i c =>
    match (c (bit x i)).lastFork bit x with
    | none => some ([], ⟨a, i, bit x i, c⟩)
    | some (C, g) => some (⟨a, i, bit x i, c⟩ :: C, g)

/-- the tree without the leaf that the walk of `x` reaches -/
def delete (bit : K → ι → Bool) (x : K) (t : CTree A ι K V) : Option (CTree A ι K V) :=
  (t.lastFork bit x).map fun r => fill r.1 (sibling r.2)

section
variable {x : K}

theorem lastFork_none {t : CTree A ι K V} (h : t.lastFork bit x = none) :
    ∃ a k v, t = leaf a k v := by
  cases t with
  | leaf a k v => exact ⟨a, k, v, rfl⟩
  | node a i c =>
    unfold lastFork at h
    split at h <;> cases h

/-- what `lastFork` finds: the tree around the fork, with the leaf reached on the side of `x` -/
theorem lastFork_some {t : CTree A ι K V} {C : List (Frame A ι K V)} {g : Frame A ι K V}
    (h : t.lastFork bit x = some (C, g)) :
    fill C (node g.a g.i g.c) = t ∧ g.d = bit x g.i ∧ (∀ f ∈ C, f.d = bit x f.i) ∧
      g.c g.d = leaf (t.nearest bit x).1 (t.nearest bit x).2.1 (t.nearest bit x).2.2 := by
  induction t generalizing C g with
  | leaf a k v => cases h
  | node a i c ih =>
    rw [lastFork] at h
    cases hr : (c (bit x i)).lastFork bit x with
    | none =>
      rw [hr] at h
      obtain ⟨rfl, rfl⟩ := Prod.mk.inj (Option.some.inj h)
      obtain ⟨b, k, v, hl⟩ := lastFork_none hr
      refine ⟨rfl, rfl, fun f hf => absurd hf List.not_mem_nil, ?_⟩
      show c (bit x i) = _
      rw [nearest_node, hl]; rfl
    | some r =>
      rw [hr] at h
      obtain ⟨D, g'⟩ := r
      obtain ⟨rfl, rfl⟩ := Prod.mk.inj (Option.some.inj h)
      obtain ⟨h1, h2, h3, h4⟩ := ih _ hr
      refine ⟨?_, h2, ?_, h4⟩
      · rw [fill_cons, h1, Function.update_eq_self]
      · intro f hf
        rcases List.mem_cons.mp hf with e | e
        · rw [e]
        · exact h3 f e

theorem lastFork_fill {C : List (Frame A ι K V)} (hC : ∀ f ∈ C, f.d = bit x f.i)
    {t : CTree A ι K V} {D : List (Frame A ι K V)} {g : Frame A ι K V}
    (h : t.lastFork bit x = some (D, g)) :
    ∃ E, (fill C t).lastFork bit x = some (E, g) ∧ ∀ s, fill E s = fill C (fill D s) := by
  induction C with
  | nil => exact ⟨D, h, fun s => rfl⟩
  | cons f C ih =>
    obtain ⟨E, hE, hs⟩ := ih fun f' hf' => hC f' (List.mem_cons_of_mem _ hf')
    have hf : f.d = bit x f.i := hC f List.mem_cons_self
    refine ⟨⟨f.a, f.i, bit x f.i, Function.update f.c f.d (fill C t)⟩ :: E, ?_, ?_⟩
    · rw [fill_cons, lastFork, ← hf, update_self, hE]
    · intro s
      rw [fill_cons, fill_cons, hs]
      simp only [← hf, Function.update_idem]

theorem delete_some {t s : CTree A ι K V} (h : t.delete bit x = some s) :
    ∃ C g, t.lastFork bit x = some (C, g) ∧ s = fill C (sibling g) := by
  obtain ⟨r, hr, e⟩ := Option.map_eq_some_iff.mp h
  exact ⟨r.1, r.2, hr, e.symm⟩

/-- the leaves of a fork whose child on the side `g.d` is a leaf -/
theorem leaves_last {g : Frame A ι K V} {l : A × K × V} (h : g.c g.d = leaf l.1 l.2.1 l.2.2) :
    ((node g.a g.i g.c).leaves).Perm (l :: (sibling g).leaves) := by
  have h' := leaves_perm g.a g.i g.c g.d
  rwa [h] at h'

theorem leaves_delete {t s : CTree A ι K V} (h : t.delete bit x = some s) :
    (t.leaves).Perm (t.nearest bit x :: s.leaves) := by
  obtain ⟨C, g, hg, rfl⟩ := delete_some h
  obtain ⟨h1, -, -, h4⟩ := lastFork_some hg
  have hp := leaves_fill C (node g.a g.i g.c)
  rw [h1] at hp
  exact hp.trans (((leaves_last h4).append_right _).trans ((leaves_fill C _).symm.cons _))

theorem annots_delete {t : CTree A ι K V} {C : List (Frame A ι K V)} {g : Frame A ι K V}
    (h : t.lastFork bit x = some (C, g)) :
    (t.annots).Perm (g.a :: (t.nearest bit x).1 :: (fill C (sibling g)).annots) := by
  obtain ⟨h1, -, -, h4⟩ := lastFork_some h
  have hp := annots_fill C (node g.a g.i g.c)
  have hn := annots_perm g.a g.i g.c g.d
  rw [h1] at hp
  rw [h4] at hn
  exact hp.trans ((hn.append_right _).trans (((annots_fill C _).symm.cons _).cons _))

/-- **Pulling the sibling up keeps the tree well formed.** -/
theorem delete_wf {t s : CTree A ι K V} (h : t.WF bit) (hs : t.delete bit x = some s) :
    s.WF bit := by
  obtain ⟨C, g, hg, rfl⟩ := delete_some hs
  obtain ⟨h1, -, -, -⟩ := lastFork_some hg
  rw [← h1] at h
  exact h.refill (h.of_fill.child _) fun y hy =>
    ⟨y, mem_keys_node.mpr ⟨_, hy⟩, fun f _ => ⟨rfl, Agree.refl _ _⟩⟩

/-- **A deletion takes the insertion of the same key back, annotations included.** -/
theorem delete_insertAt (a b : A) (v : V) (i : ι) (t : CTree A ι K V) :
    (t.insertAt bit a b x v i).delete bit x = some t := by
  have hj : (join bit a b x v i (t.split bit x i).2).lastFork bit x =
      some ([], ⟨a, i, bit x i,
        Function.update (fun _ => (t.split bit x i).2) (bit x i) (leaf b x v)⟩) := by
    rw [join, lastFork, join_self]; rfl
  obtain ⟨E, hE, hs⟩ := lastFork_fill (C := (t.split bit x i).1) (fun f hf => split_dir hf) hj
  rw [delete, insertAt, hE]
  show some (fill E (sibling _)) = some t
  rw [hs, fill_nil]
  have e : sibling (⟨a, i, bit x i, Function.update (fun _ => (t.split bit x i).2) (bit x i)
      (leaf b x v)⟩ : Frame A ι K V) = (t.split bit x i).2 := join_not ..
  rw [e, fill_split]

end

end CTree

end Crit
