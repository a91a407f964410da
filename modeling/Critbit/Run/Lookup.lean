import Critbit.Run.Refine

/-!
# Lookups in reachable states

* `lookupSafe_iff`      a lookup is safe, and reports an absent key, exactly in the states whose
                        `head` is not `NULL`: an insertion and a deletion ask for an empty root, a
                        lookup does not;
* `findNearest_best`    the leaf that `find_nearest` returns is the key, or no stored key has a
                        later first difference from the key.
-/

namespace Critbit
open Crit CTree

variable {root : Addr} {h : Heap} {m : Map}

/-! ## safety -/

/-- What a lookup of `k` is to do in a state that stands for `m`: `critbit_get`, `critbit_contains`
and `find` come to an end, and they report a key that is absent. -/
structure LookupSafe (h : Heap) (root : Addr) (m : Map) (k : Key) : Prop where
  get : ∀ out, ∃ r, critbitGet h root k out = .ok r
  contains : ∃ r, critbitContains h root k = .ok r
  find : ∃ r, find h root k = .ok r
  absent : m k = none → (∀ out, critbitGet h root k out = .ok (1, out)) ∧
    critbitContains h root k = .ok 1 ∧ Critbit.find h root k = .ok 0

theorem critbitContains_eq (h : Heap) (root : Addr) (k : Key) :
    critbitContains h root k = critbitGet h root k 0 >>= fun r => .ok r.1 := rfl

theorem find_eq (h : Heap) (root : Addr) (k : Key) :
    find h root k = critbitGet h root k 0 >>= fun r => .ok r.2 := rfl

/-- in a non-empty tree the lookup is safe, for a key of any length -/
theorem lookupSafe_tree {t : MTree} (H : Holds h root (some t)) (k : Key) :
    LookupSafe h root (valueOf (some t)) k := by
  have hget := critbitGet_tree H k
  have hcon : critbitContains h root k = .ok (answer (valueOf (some t) k) 0).1 := by
    rw [critbitContains_eq, hget, ok_bind]
  have hfind : find h root k = .ok (answer (valueOf (some t) k) 0).2 := by
    rw [find_eq, hget, ok_bind]
  refine ⟨fun out => ⟨_, hget out⟩, ⟨_, hcon⟩, ⟨_, hfind⟩, fun hk => ?_⟩
  rw [hk] at hget hcon hfind
  exact ⟨hget, hcon, hfind⟩

/-- without a tree it uses `NULL` as a string -/
theorem not_lookupSafe_empty (H : Holds h root none) (k : Key) : ¬ LookupSafe h root m k := by
  intro hs
  obtain ⟨r, e⟩ := hs.get 0
  rw [critbitGet_empty H] at e
  cases e

/-- **A lookup is safe exactly if the tree is not empty.** -/
theorem lookupSafe_iff (hr : Reached root h m) (k : Key) :
    LookupSafe h root m k ↔ ∃ r, h.root root = .ok r ∧ r.head ≠ .null := by
  obtain ⟨T, O, rfl⟩ := hr.owns
  obtain ⟨x, hx, hp⟩ := O.record
  cases T with
  | none =>
    refine iff_of_false (not_lookupSafe_empty O.toHolds k) ?_
    rintro ⟨r, hr, hne⟩
    rw [Heap.root_ok hx] at hr
    cases hr
    exact hne hp
  | some t =>
    refine iff_of_true (lookupSafe_tree O.toHolds k) ⟨x, Heap.root_ok hx, ?_⟩
    rw [hp]
    exact ptr_ne_null t

theorem lookupSafe_two : ∃ h m, Reached 0 h m ∧ m ⟨[97], by decide⟩ = some 5 ∧
    (LookupSafe h 0 m ⟨[98], by decide⟩ ↔ ∃ r, h.root 0 = .ok r ∧ r.head ≠ .null) := by
  obtain ⟨h, hr⟩ := reached_two
  exact ⟨h, _, hr, by decide, lookupSafe_iff hr _⟩

/-- a lookup in a new tree is not safe -/
theorem not_lookupSafe_new :
    ¬ ∀ (root : Addr) (h : Heap) (m : Map) (k : Key), Reached root h m → LookupSafe h root m k := by
  intro H
  obtain ⟨r, e⟩ := (H 0 _ _ ⟨[97], by decide⟩ (.new (critbitNew_fresh 0))).get 0
  cases e

/-! ## the leaf that a walk finds -/

/-- The first difference of two keys: the bytes before `b` agree, and so do the bits of byte `b`
before bit `i`, counted from the most significant one. -/
def DiffersAt (x y : Key) (b i : Nat) : Prop :=
  (∀ j < b, x.byteAt j = y.byteAt j) ∧ i < 8 ∧
    (∀ j < i, bitOf (x.byteAt b) j = bitOf (y.byteAt b) j) ∧
    bitOf (x.byteAt b) i ≠ bitOf (y.byteAt b) i

theorem differsAt_iff {x y : Key} {b i : Nat} :
    DiffersAt x y b i ↔ i < 8 ∧ FirstDiff Key.bit x y (pos b i) := by
  constructor
  · rintro ⟨h1, hi, h2, h3⟩
    refine ⟨hi, (Key.agree_pos_iff hi).mpr ⟨h1, h2⟩, ?_⟩
    unfold Key.bit
    rwa [pos_div hi, pos_mod hi]
  · rintro ⟨hi, ha, hne⟩
    obtain ⟨h1, h2⟩ := (Key.agree_pos_iff hi).mp ha
    unfold Key.bit at hne
    rw [pos_div hi, pos_mod hi] at hne
    exact ⟨h1, hi, h2, hne⟩

theorem exists_differsAt {x y : Key} (hne : x ≠ y) : ∃ b i, DiffersAt x y b i := by
  obtain ⟨b, h1, h2⟩ := Key.exists_firstByte hne
  obtain ⟨i, hi, -, hd⟩ := Key.firstDiff_of_byte h1 h2
  exact ⟨b, i, differsAt_iff.mpr ⟨hi, hd⟩⟩

theorem DiffersAt.unique {x y : Key} {b i c j : Nat} (h : DiffersAt x y b i)
    (h' : DiffersAt x y c j) : b = c ∧ i = j := by
  obtain ⟨hi, hd⟩ := differsAt_iff.mp h
  obtain ⟨hj, hd'⟩ := differsAt_iff.mp h'
  have e := hd.unique hd'
  unfold pos at e
  omega

/-- no key of the tree differs later from `k` than the leaf that the walk finds -/
theorem nearest_best {t : MTree} (hw : t.WF Key.bit) {k x : Key} (hx : x ∈ t.keys)
    {b i c j : Nat} (hy : DiffersAt k (t.nearest Key.bit k).2.1 b i) (hd : DiffersAt k x c j) :
    c < b ∨ c = b ∧ j ≤ i := by
  obtain ⟨hi, hb⟩ := differsAt_iff.mp hy
  obtain ⟨hj, hc⟩ := differsAt_iff.mp hd
  have ha := nearest_agree hw hx hc.1
  have hle : pos c j ≤ pos b i := by
    by_contra hlt
    exact hb.2 (ha _ (not_le.mp hlt))
  unfold pos at hle
  omega

/-- **`find_nearest` returns a best match.** -/
theorem findNearest_best (hr : Reached root h m) (hne : ∃ x, m x ≠ none) {k : Key} (hk : Short k) :
    ∃ r a v y, h.root root = .ok r ∧
      findNearest h r.head k.buf (sizeT (int32 (strlen k))) = .ok (.str a) ∧
      h.str (.str a) = .ok ⟨v, Key.buf y⟩ ∧ m y = some v ∧ (m k ≠ none → y = k) ∧
      (m k = none → ∃ b i, DiffersAt k y b i ∧
        ∀ x, m x ≠ none → ∃ c j, DiffersAt k x c j ∧ (c < b ∨ c = b ∧ j ≤ i)) := by
  obtain ⟨T, O, rfl⟩ := hr.owns
  obtain ⟨t, rfl⟩ := Option.ne_none_iff_exists'.mp (exists_bound.mp hne)
  obtain ⟨x, hx, hp⟩ := O.record
  have hp' : x.head = ptr t := hp
  have hg := O.good t rfl
  have hmem : ∀ y, valueOf (some t) y ≠ none → y ∈ t.keys := fun y hy =>
    not_not.mp fun h1 => hy (valueOf_eq_none.mpr (show y ∉ keysOf (some t) from h1))
  have hbind : ((t.nearest Key.bit k).2.1, (t.nearest Key.bit k).2.2) ∈ bindsOf (some t) :=
    List.mem_map_of_mem (nearest_mem Key.bit k t)
  refine ⟨x, (t.nearest Key.bit k).1, (t.nearest Key.bit k).2.2, (t.nearest Key.bit k).2.1,
    Heap.root_ok hx, ?_, nearest_str (O.rep t rfl) k, (valueOf_eq_some O.good).mpr hbind,
    fun h1 => nearest_of_mem hg.wf (hmem k h1), fun h1 => ?_⟩
  · rw [hp', findNearest_rep O.toHolds, hk.seen]
  · have hnot : ∀ y, y ∈ t.keys → k ≠ y := by
      rintro y hy rfl
      exact valueOf_eq_none.mp h1 hy
    obtain ⟨b, i, hd⟩ := exists_differsAt (hnot _ (nearest_key_mem Key.bit k t))
    refine ⟨b, i, hd, fun y hy => ?_⟩
    obtain ⟨c, j, hd'⟩ := exists_differsAt (hnot y (hmem y hy))
    exact ⟨c, j, hd', nearest_best hg.wf (hmem y hy) hd hd'⟩

theorem findNearest_best_two : ∃ h r a v y b i,
    Reached 0 h (bindAll Map.empty [(⟨[97], by decide⟩, 5), (⟨[97, 98], by decide⟩, 6)]) ∧
    h.root 0 = .ok r ∧ findNearest h r.head (Key.buf ⟨[98], by decide⟩) 1 = .ok (.str a) ∧
    h.str (.str a) = .ok ⟨v, Key.buf y⟩ ∧ DiffersAt ⟨[98], by decide⟩ y b i ∧
    ∃ c j, DiffersAt ⟨[98], by decide⟩ ⟨[97, 98], by decide⟩ c j ∧ (c < b ∨ c = b ∧ j ≤ i) := by
  obtain ⟨h, hr⟩ := reached_two
  obtain ⟨r, a, v, y, hroot, hf, hs, -, -, hbest⟩ := findNearest_best hr ⟨⟨[97], by decide⟩, by decide⟩
    (k := ⟨[98], by decide⟩) (by decide)
  obtain ⟨b, i, hd, hall⟩ := hbest (by decide)
  exact ⟨h, r, a, v, y, b, i, hr, hroot, hf, hs, hd, hall ⟨[97, 98], by decide⟩ (by decide)⟩

end Critbit
