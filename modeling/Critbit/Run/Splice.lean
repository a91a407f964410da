import Critbit.Run.Lookup
import Critbit.Run.Paths

/-!
# The comparison of an insertion, and the slot it leads to

* `compare_exact`   the part of `critbit_insert_inplace` between the two walks computes the first
                    difference of two strings, within both of them;
* `splice_slot`     with that position the second walk goes along the path of the first, meets no
                    node at the position, and stops above exactly those keys that first differ from
                    the new one there.
-/

namespace Critbit
open Crit CTree

/-- `get_direction` at any position, that of the terminator and later ones included -/
theorem getDirection_mask {k : Key} (hk : strlen k < 2147483648) {b i : Nat}
    (hb : b < 2147483648) (hi : i < 8) (child : Bool → Ptr) :
    getDirection ⟨child, int32 b, mask i⟩ k.buf (sizeT (int32 (strlen k))) =
      .ok (bitOf (k.byteAt b) i) := by
  have hs : sizeT (b : Int) = b := sizeT_of_lt (by omega)
  have hn : sizeT (strlen k : Int) = strlen k := sizeT_of_lt (by omega)
  rw [int32_of_lt hb, int32_of_lt hk, hn]
  unfold getDirection
  show (if sizeT (b : Int) < strlen k then _ else _) = _
  rw [hs]
  by_cases hlt : b < strlen k
  · rw [if_pos hlt]
    show (readAt k.buf (b : Int) >>= _) = _
    rw [readAt_buf hlt.le, ok_bind]
    show Except.ok (direction (mask i) (k.byteAt b)) = _
    rw [direction_mask _ hi]
  · rw [if_neg hlt, Key.byteAt_of_le (not_lt.mp hlt), bitOf_zero]
    rfl

/-! ## the first difference -/

/-- **The comparison computes the first difference exactly.**  Neither string is read behind its
terminator, `none` is the exit for a duplicate, and the bit that `newotherbits` leaves out has
opposite values in the two strings: `newdirection` for `p`, and what `get_direction` gives for the
key. -/
theorem compare_exact (p k : Key) (hk : strlen k < 2147483648) :
    (compareKeys p.buf k.buf (int32 (strlen k)) = .ok none ↔ p = k) ∧
    (p ≠ k → ∃ b x i, compareKeys p.buf k.buf (int32 (strlen k)) = .ok (some (b, x)) ∧
      b ≤ strlen p ∧ b ≤ strlen k ∧ (∀ j < b, p.byteAt j = k.byteAt j) ∧
      p.byteAt b ≠ k.byteAt b ∧ i < 8 ∧ (∀ j < i, bitOf (p.byteAt b) j = bitOf (k.byteAt b) j) ∧
      bitOf (p.byteAt b) i ≠ bitOf (k.byteAt b) i ∧ newotherbits x = mask i ∧
      readAt p.buf b = .ok (p.byteAt b) ∧
      direction (newotherbits x) (p.byteAt b) = bitOf (p.byteAt b) i ∧
      ∀ child, getDirection ⟨child, int32 b, newotherbits x⟩ k.buf (sizeT (int32 (strlen k))) =
        .ok (!direction (newotherbits x) (p.byteAt b))) := by
  rw [int32_of_lt hk]
  rcases compareKeys_buf (x := p) (k := k) (by omega) with ⟨rfl, e⟩ | ⟨b, hb, ha, hne, e⟩
  · exact ⟨iff_of_true e rfl, fun h => absurd rfl h⟩
  · have hpk : p ≠ k := fun h => hne (by rw [h])
    constructor
    · rw [e]
      exact iff_of_false (fun h => by cases h) hpk
    · intro _
      obtain ⟨i, hi, hm, hdiff, hlt⟩ := newotherbits_xor hne
      have hbp := le_strlen_of_agree hb ha
      refine ⟨b, _, i, e, hbp, hb, ha, hne, hi, hlt, hdiff, hm, readAt_buf hbp, ?_, fun child => ?_⟩
      · rw [hm, direction_mask _ hi]
      · have hdir := getDirection_mask hk (b := b) (by omega) hi child
        rw [int32_of_lt hk] at hdir
        rw [hm, hdir, direction_mask _ hi, Bool.eq_not_of_ne hdiff, Bool.not_not]

theorem compare_exact_prefix : ∃ b x i,
    compareKeys (Key.buf ⟨[97, 98], by decide⟩) (Key.buf ⟨[97], by decide⟩)
      (int32 (strlen ⟨[97], by decide⟩)) = .ok (some (b, x)) ∧ newotherbits x = mask i := by
  obtain ⟨-, h⟩ := compare_exact ⟨[97, 98], by decide⟩ ⟨[97], by decide⟩ (by decide)
  obtain ⟨b, x, i, e, -, -, -, -, -, -, -, hm, -⟩ := h (by decide)
  exact ⟨b, x, i, e, hm⟩

/-! ## the slot -/

section
variable {h : Heap} {t : MTree}

/-- the leaves below a pointer are those of the subtree -/
theorem exists_below_iff (hr : Rep h t) {z : Key} {v : Val} :
    (∃ s, Below h (ptr t) (.str s) ∧ h.str (.str s) = .ok ⟨v, z.buf⟩) ↔
      ∃ s, (s, z, v) ∈ t.leaves := by
  constructor
  · rintro ⟨s, hs, e⟩
    exact ⟨s, leaf_of_below hr hs e⟩
  · rintro ⟨s, hl⟩
    exact ⟨s, below_leaf hr hl, Heap.str_ok (hr.leaf hl)⟩

/-- the bindings below the splice -/
theorem split_leaves (hg : Good t) {k : Key} {n : Nat}
    (hd : FirstDiff Key.bit k (t.nearest Key.bit k).2.1 n) {z : Key} {v : Val} :
    (∃ s, (s, z, v) ∈ (t.split Key.bit k n).2.leaves) ↔
      (z, v) ∈ t.binds ∧ FirstDiff Key.bit k z n := by
  have hsub : Sub (t.split Key.bit k n).2 t := by
    have hf := sub_fill (t.split Key.bit k n).1 (t.split Key.bit k n).2
    rwa [fill_split] at hf
  constructor
  · intro hs
    obtain ⟨s, hl⟩ := hs
    exact ⟨List.mem_map.mpr ⟨_, hsub.leaves hl, rfl⟩,
      ((mem_split hg.wf hd).mp (mem_keys_of_leaf hl)).2⟩
  · intro hz
    obtain ⟨⟨s, z', v'⟩, hl, e⟩ := List.mem_map.mp hz.1
    obtain ⟨rfl, rfl⟩ := Prod.mk.inj e
    obtain ⟨s', v'', hl'⟩ := mem_keys.mp ((mem_split hg.wf hd).mpr ⟨mem_keys_of_leaf hl, hz.2⟩)
    have heq := hg.wf.leaf_eq hl (hsub.leaves hl') rfl
    exact ⟨s', by rw [show v' = v'' from congrArg (fun l => l.2.2) heq]; exact hl'⟩

/-- no node that the second walk reads is at the new position -/
theorem visits_ne (hr : Rep h t) (hg : Good t) {k : Key} {b i : Nat} (hi : i < 8)
    (hd : FirstDiff Key.bit k (t.nearest Key.bit k).2.1 (pos b i)) {a : Addr}
    (ha : a ∈ t.visits Key.bit k (pos b i)) :
    ∃ n, h.node a = .ok n ∧ ¬ (n.byte = b ∧ n.otherbits = mask i) := by
  obtain ⟨j, c, hs, hne⟩ := mem_visits hg.wf hd ha
  refine ⟨_, Heap.node_ok (hr.sub hs).node, ?_⟩
  intro hpos
  obtain ⟨h1, h2⟩ := hpos
  have h3 : ((j / 8 : Nat) : Int) = b := h1
  have h4 := mask_inj (Nat.mod_lt j (by omega)) hi h2
  apply hne
  unfold pos
  omega

/-- the comparison with the leaf that `find_nearest` returns for a new key -/
theorem compare_nearest (hg : Good t) {k : Key} (hk : Short k) (hno : k ∉ t.keys) :
    ∃ b < 2147483648, ∃ i < 8, ∃ o, FirstDiff Key.bit k (t.nearest Key.bit k).2.1 (pos b i) ∧
      newotherbits o = mask i ∧
      compareKeys (t.nearest Key.bit k).2.1.buf k.buf (int32 (strlen k)) = .ok (some (b, o)) := by
  have hnear := nearest_key_mem Key.bit k t
  have hshort := hg.short _ hnear
  rcases hk.lengthKept.compare hshort with ⟨e, -⟩ | ⟨b, hb, i, hi, o, hd, hm, hc⟩
  · exact absurd (e ▸ hnear) hno
  · unfold Short at hshort
    exact ⟨b, by omega, i, hi, o, hd, hm, hc⟩

/-- where the second walk stops, and what is below -/
theorem spliceTrace_slot {root : Addr} (H : Holds h root (some t)) {k : Key} (hk : Short k)
    {b i : Nat} (hi : i < 8) (hd : FirstDiff Key.bit k (t.nearest Key.bit k).2.1 (pos b i)) :
    ∃ ns slot q, spliceTrace h k.buf (sizeT (int32 (strlen k))) b (mask i) (h.size + 1)
        (.head root) = .ok (ns, slot) ∧
      ns <+: (t.path Key.bit k).map Frame.a ∧
      (∀ c ∈ ns, ∃ n, h.node c = .ok n ∧ ¬ (n.byte = b ∧ n.otherbits = mask i)) ∧
      h.load slot = .ok q ∧
      ∀ z v, (∃ s, Below h q (.str s) ∧ h.str (.str s) = .ok ⟨v, Key.buf z⟩) ↔
        (z, v) ∈ t.binds ∧ FirstDiff Key.bit k z (pos b i) := by
  have hr := H.rep t rfl
  have hg := H.good t rfl
  obtain ⟨hs, hl⟩ := spliceTrace_head (b := b) H k hi
  rw [hk.seen] at hs hl
  have hsub : Rep h (t.split Key.bit k (pos b i)).2 := by
    apply Rep.of_fill (C := (t.split Key.bit k (pos b i)).1)
    rwa [fill_split]
  refine ⟨_, _, _, hs, visits_prefix k (pos b i) t, fun c hc => visits_ne hr hg hi hd hc, hl,
    fun z v => ?_⟩
  rw [exists_below_iff hsub, split_leaves hg hd]

end

/-- **The second walk finds the unique right slot**, in the heap of the insertion: any heap in which
the blocks that were live before are in place. -/
theorem splice_slot {root : Addr} {h : Heap} {m : Map} (hr : Reached root h m)
    (hne : ∃ x, m x ≠ none) {k : Key} (hk : Short k) (hno : m k = none) :
    ∃ r ns a y w b o i, h.root root = .ok r ∧
      findNearestTrace h k.buf (sizeT (int32 (strlen k))) (h.size + 1) r.head = .ok (ns, .str a) ∧
      h.str (.str a) = .ok ⟨w, Key.buf y⟩ ∧
      compareKeys y.buf k.buf (int32 (strlen k)) = .ok (some (b, o)) ∧
      newotherbits o = mask i ∧ DiffersAt k y b i ∧
      ∀ h', Extends h h' → ∃ ns' slot q,
        spliceTrace h' k.buf (sizeT (int32 (strlen k))) b (newotherbits o) (h'.size + 1)
          (.head root) = .ok (ns', slot) ∧
        ns' <+: ns ∧
        (∀ c ∈ ns', ∃ n, h'.node c = .ok n ∧ ¬ (n.byte = b ∧ n.otherbits = newotherbits o)) ∧
        h'.load slot = .ok q ∧
        (∀ z v, (∃ s, Below h' q (.str s) ∧ h'.str (.str s) = .ok ⟨v, Key.buf z⟩) ↔
          m z = some v ∧ DiffersAt k z b i) ∧
        (∀ z, m z ≠ none → DiffersAt k z b i → ∀ child,
          getDirection ⟨child, int32 b, newotherbits o⟩ z.buf (sizeT (int32 (strlen z))) =
            .ok (direction (newotherbits o) (y.byteAt b))) ∧
        ∀ child, getDirection ⟨child, int32 b, newotherbits o⟩ k.buf (sizeT (int32 (strlen k))) =
          .ok (!direction (newotherbits o) (y.byteAt b)) := by
  obtain ⟨T, O, rfl⟩ := hr.owns
  obtain ⟨t, rfl⟩ := Option.ne_none_iff_exists'.mp (exists_bound.mp hne)
  obtain ⟨r, hroot, hp⟩ := O.record
  have hp' : r.head = ptr t := hp
  have hrep := O.rep t rfl
  have hg := O.good t rfl
  have hlong : ∀ {z}, Short z → strlen z < 2147483648 := Nat.lt_succ_of_lt
  obtain ⟨b, hb, i, hi, o, hd, hm, hc⟩ := compare_nearest hg hk (valueOf_eq_none.mp hno)
  have hdir : direction (newotherbits o) ((t.nearest Key.bit k).2.1.byteAt b) =
      bitOf ((t.nearest Key.bit k).2.1.byteAt b) i := by
    rw [hm, direction_mask _ hi]
  obtain ⟨-, -, -, hkn⟩ := differsAt_iff.mpr ⟨hi, hd⟩
  have htrace := findNearestTrace_rep (k := k) hrep hg (Nat.lt_succ_of_lt O.forks_lt)
  rw [hk.seen, ← hp'] at htrace
  refine ⟨r, _, _, _, _, b, o, i, Heap.root_ok hroot, htrace, nearest_str hrep k, hc, hm,
    differsAt_iff.mpr ⟨hi, hd⟩, fun h' he => ?_⟩
  obtain ⟨ns', slot, q, hs, hpre, hmeet, hl, hbelow⟩ := spliceTrace_slot (O.extend he) hk hi hd
  rw [← hm] at hs hmeet
  refine ⟨ns', slot, q, hs, hpre, hmeet, hl, fun z v => ?_, fun z hz hdz child => ?_,
    fun child => ?_⟩
  · rw [hbelow, valueOf_eq_some O.good, differsAt_iff]
    exact and_congr_right fun _ => (and_iff_right hi).symm
  · have hz : Short z := hg.short z (not_not.mp fun h1 => hz (valueOf_eq_none.mpr h1))
    rw [hm, getDirection_mask (hlong hz) hb hi, ← hm, hdir]
    -- both differ from the new key in this bit
    obtain ⟨-, -, -, h1⟩ := hdz
    rw [Bool.eq_not_of_ne h1.symm, Bool.eq_not_of_ne hkn.symm]
  · rw [hm, getDirection_mask (hlong hk) hb hi, ← hm, hdir, Bool.eq_not_of_ne hkn]

/-- the slot for a third key -/
theorem splice_slot_two : ∃ (h : Heap) (r : Root) (ns ns' : List Addr) (a : Addr) (b : Nat) (o : UInt8)
    (i : Nat) (slot : Slot) (q : Ptr),
    Reached 0 h (bindAll Map.empty [(⟨[97], by decide⟩, 5), (⟨[97, 98], by decide⟩, 6)]) ∧
    h.root 0 = .ok r ∧ findNearestTrace h (Key.buf ⟨[98], by decide⟩)
      (sizeT (int32 (strlen ⟨[98], by decide⟩))) (h.size + 1) r.head = .ok (ns, .str a) ∧
    spliceTrace h (Key.buf ⟨[98], by decide⟩) (sizeT (int32 (strlen ⟨[98], by decide⟩))) b
      (newotherbits o) (h.size + 1) (.head 0) = .ok (ns', slot) ∧ ns' <+: ns ∧
    h.load slot = .ok q ∧
    ((∃ s, Below h q (.str s) ∧ h.str (.str s) = .ok ⟨6, Key.buf ⟨[97, 98], by decide⟩⟩) ↔
      DiffersAt ⟨[98], by decide⟩ ⟨[97, 98], by decide⟩ b i) := by
  obtain ⟨h, hr⟩ := reached_two
  obtain ⟨r, ns, a, y, w, b, o, i, hroot, ht, -, -, -, -, hslot⟩ :=
    splice_slot hr ⟨⟨[97], by decide⟩, by decide⟩ (k := ⟨[98], by decide⟩) (by decide) (by decide)
  obtain ⟨ns', slot, q, hs, hpre, -, hl, hbelow, -⟩ := hslot h fun _ _ => rfl
  refine ⟨h, r, ns, ns', a, b, o, i, slot, q, hr, hroot, ht, hs, hpre, hl, ?_⟩
  rw [hbelow]
  exact and_iff_right (by decide)

end Critbit
