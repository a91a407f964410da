import Critbit.Memory.Rep
import Critbit.Source.Trace
import Critbit.Trie.Path

/-!
# The loops of the code on a tree in memory

The length of a key goes through `int` before a walk sees it, so the walks follow the part `seen k`
of the key, and the comparison of an insertion looks at the part `compared k`; both are `k` itself
if it is `Short`.  On a tree in memory each loop of the code computes the walk of `Critbit.Trie`, for
a key of any length:

* `getDirection_nodeOf`   `get_direction` is the bit of the key;
* `findNearestTrace_rep`  `find_nearest` passes the forks of `path` and returns the leaf `nearest`;
* `spliceTrace_rep`       the second walk of an insertion passes the forks of `visits` and stops
                          where `split` does;
* `deleteTrace_rep`       the walk of a deletion ends at `nearest`, with `lastFork` behind it;
* `compareKeys_buf`       the comparison finds the first differing byte.
-/

namespace Critbit
open Crit CTree

variable {h : Heap} {k : Key}

/-! ## keys whose length is narrowed -/

/-- what the walks see of a key: `int keylen` is widened to `size_t bytelen` -/
def seen (k : Key) : Key := k.take (sizeT (int32 (strlen k)))

/-- what the comparison of an insertion sees: `int keylen` is compared as `uint32_t` -/
def compared (k : Key) : Key := k.take (uint32 (int32 (strlen k)))

theorem Short.seen (hk : Short k) : seen k = k := by
  apply Key.take_of_le
  rw [hk.int32, hk.sizeT]

theorem strlen_compared (k : Key) : strlen (compared k) = strlen k % 4294967296 := by
  unfold compared
  rw [Key.strlen_take, uint32_int32]
  exact min_eq_left (Nat.mod_le _ _)

theorem compared_lt (k : Key) : strlen (compared k) < 4294967296 := by
  rw [strlen_compared]
  omega

theorem Short.compared (hk : Short k) : compared k = k := by
  apply Key.take_of_le
  unfold Short at hk
  rw [int32_of_lt (by omega), uint32_of_lt (by omega)]

theorem getDirection_nodeOf {i : Nat} (hi : i / 8 < 2147483647) (c : Bool → MTree) (k : Key) :
    getDirection (nodeOf i c) k.buf (sizeT (int32 (strlen k))) = .ok ((seen k).bit i) := by
  have hs : sizeT (nodeOf i c).byte = i / 8 := sizeT_of_lt (by omega)
  unfold getDirection
  rw [hs]
  by_cases hlt : i / 8 < sizeT (int32 (strlen k))
  · -- a length that is not narrowed ends behind the byte, and a narrowed one is beyond all nodes
    have hle : i / 8 ≤ strlen k := by
      unfold sizeT int32 at hlt
      omega
    rw [if_pos hlt]
    show (readAt k.buf (i / 8 : Nat) >>= _) = _
    rw [readAt_buf hle, ok_bind]
    show Except.ok (direction (mask (i % 8)) (k.byteAt (i / 8))) = _
    rw [direction_mask _ (Nat.mod_lt _ (by decide))]
    show _ = Except.ok (bitOf ((k.take _).byteAt (i / 8)) (i % 8))
    rw [Key.byteAt_take hlt]
  · rw [if_neg hlt, Key.bit_of_le]
    · rfl
    · unfold seen
      rw [Key.strlen_take]
      omega

/-! ## `find_nearest` -/

/-- the children of a fork are smaller -/
theorem forks_lt_child {a : Addr} {i : Nat} {c : Bool → MTree} {n : Nat}
    (hf : (node a i c : MTree).forks < n + 1) (d : Bool) : (c d).forks < n := by
  unfold forks at hf
  cases d <;> omega

theorem findNearestTrace_rep {t : MTree} (hr : Rep h t) (hg : Good t) {fuel : Nat}
    (hf : t.forks < fuel) :
    findNearestTrace h k.buf (sizeT (int32 (strlen k))) fuel (ptr t) =
      .ok ((t.path Key.bit (seen k)).map Frame.a, .str (t.nearest Key.bit (seen k)).1) := by
  induction t generalizing fuel with
  | leaf a x v =>
    obtain ⟨f, rfl⟩ := Nat.exists_eq_add_one_of_ne_zero (Nat.ne_zero_of_lt hf)
    rfl
  | node a i c ih =>
    obtain ⟨f, rfl⟩ := Nat.exists_eq_add_one_of_ne_zero (Nat.ne_zero_of_lt hf)
    show (h.node a >>= fun n => getDirection n k.buf _ >>= fun dir =>
      findNearestTrace h k.buf _ f (n.child dir) >>= fun r => pure (a :: r.1, r.2)) = _
    rw [Heap.node_ok hr.node, ok_bind, getDirection_nodeOf hg.byte_lt, ok_bind]
    show (findNearestTrace h k.buf _ f (ptr (c _)) >>= _) = _
    rw [ih _ (hr.child _) (hg.child _) (forks_lt_child hf _), path_node, nearest_node]
    rfl

theorem findNearest_rep {root : Addr} {t : MTree} (H : Holds h root (some t)) (k : Key) :
    findNearest h (ptr t) k.buf (sizeT (int32 (strlen k))) =
      .ok (.str (t.nearest Key.bit (seen k)).1) := by
  unfold findNearest
  rw [findNearestLoop_trace,
    findNearestTrace_rep (H.rep t rfl) (H.good t rfl) (Nat.lt_succ_of_lt H.forks_lt)]
  rfl

/-- the leaf that the walk ends at, as a block -/
theorem nearest_str {t : MTree} (hr : Rep h t) (k : Key) :
    h.str (.str (t.nearest Key.bit k).1) =
      .ok ⟨(t.nearest Key.bit k).2.2, (t.nearest Key.bit k).2.1.buf⟩ :=
  Heap.str_ok (hr.leaf (nearest_mem Key.bit k t))

/-! ## the comparison -/

/-- a string that agrees with `k` up to `b ≤ strlen k` has not ended before `b` -/
theorem le_strlen_of_agree {x : Key} {b : Nat} (hb : b ≤ strlen k)
    (ha : ∀ j < b, x.byteAt j = k.byteAt j) : b ≤ strlen x := by
  by_contra hc
  have hlt : strlen x < b := not_le.mp hc
  have h0 := ha _ hlt
  rw [Key.byteAt_of_le le_rfl] at h0
  exact Key.byteAt_ne_zero (lt_of_lt_of_le hlt hb) h0.symm

/-- the loop stops at the first differing byte of `k`, or behind its last one -/
theorem compareLoop_buf {x : Key} {n b : Nat} (hn : b + n = strlen k)
    (ha : ∀ j < b, x.byteAt j = k.byteAt j) :
    ∃ b' ≤ strlen k, (∀ j < b', x.byteAt j = k.byteAt j) ∧
      (b' = strlen k ∧ compareLoop x.buf k.buf n b = .ok (b', none) ∨
        x.byteAt b' ≠ k.byteAt b' ∧
          compareLoop x.buf k.buf n b = .ok (b', some (x.byteAt b' ^^^ k.byteAt b'))) := by
  induction n generalizing b with
  | zero => exact ⟨b, by omega, ha, .inl ⟨hn, rfl⟩⟩
  | succ n ih =>
    have hx : b ≤ strlen x := le_strlen_of_agree (by omega) ha
    have hk : b ≤ strlen k := by omega
    have e : compareLoop x.buf k.buf (n + 1) b =
        if x.byteAt b ≠ k.byteAt b then .ok (b, some (x.byteAt b ^^^ k.byteAt b))
        else compareLoop x.buf k.buf n (b + 1) := by
      show (readAt x.buf b >>= fun c => readAt k.buf b >>= fun d => _) = _
      rw [readAt_buf hx, ok_bind, readAt_buf hk, ok_bind]
      rfl
    by_cases hne : x.byteAt b ≠ k.byteAt b
    · rw [if_pos hne] at e
      exact ⟨b, hk, ha, .inr ⟨hne, e⟩⟩
    · rw [if_neg hne] at e
      rw [e]
      refine ih (by omega) fun j hj => ?_
      rcases Nat.lt_succ_iff_lt_or_eq.mp hj with hj' | rfl
      · exact ha j hj'
      · exact not_not.mp hne

/-- **The comparison finds the first differing byte**, or that there is none; neither string is
read beyond its terminator. -/
theorem compareKeys_buf {x : Key} (hk : strlen k < 4294967296) :
    (x = k ∧ compareKeys x.buf k.buf (strlen k) = .ok none) ∨
      ∃ b ≤ strlen k, (∀ j < b, x.byteAt j = k.byteAt j) ∧ x.byteAt b ≠ k.byteAt b ∧
        compareKeys x.buf k.buf (strlen k) = .ok (some (b, x.byteAt b ^^^ k.byteAt b)) := by
  obtain ⟨b, hb, ha, ⟨he, hl⟩ | ⟨hne, hl⟩⟩ :=
    compareLoop_buf (x := x) (k := k) (n := strlen k) (b := 0) (Nat.zero_add _)
      (fun j hj => absurd hj (Nat.not_lt_zero j))
  · have hend : k.byteAt b = 0 := Key.byteAt_of_le (le_of_eq he.symm)
    have hx : b ≤ strlen x := le_strlen_of_agree hb ha
    have e : compareKeys x.buf k.buf (strlen k) =
        if x.byteAt b ≠ 0 then .ok (some (b, x.byteAt b)) else .ok none := by
      unfold compareKeys
      rw [uint32_of_lt hk, hl]
      simp only [ok_bind, readAt_buf hx]
      rfl
    by_cases h0 : x.byteAt b = 0
    · rw [if_neg (not_not.mpr h0)] at e
      refine .inl ⟨Key.ext_byteAt fun j => ?_, e⟩
      -- both strings end at `b`
      by_cases hj : j < b
      · exact ha j hj
      · rw [Key.byteAt_of_le (le_trans (Key.byteAt_eq_zero.mp h0) (not_lt.mp hj)),
          Key.byteAt_of_le (by omega)]
    · rw [if_pos h0] at e
      refine .inr ⟨b, hb, ha, by rwa [hend], ?_⟩
      rw [e, hend, UInt8.xor_zero]
  · refine .inr ⟨b, hb, ha, hne, ?_⟩
    unfold compareKeys
    rw [uint32_of_lt hk, hl]
    rfl

/-- a long key is compared as if it ended at the narrowed length -/
theorem compareKeys_compared (p : List UInt8) (k : Key) :
    compareKeys p k.buf (int32 (strlen k)) =
      compareKeys p (compared k).buf (strlen (compared k)) := by
  have hle : strlen (compared k) ≤ strlen k := by
    rw [strlen_compared]
    exact Nat.mod_le _ _
  have hn : uint32 (int32 (strlen k)) = strlen (compared k) := by
    rw [strlen_compared, uint32_int32]
  have hn' : uint32 (strlen (compared k)) = strlen (compared k) := uint32_of_lt (compared_lt k)
  have hloop : ∀ n b, b + n ≤ strlen (compared k) →
      compareLoop p k.buf n b = compareLoop p (compared k).buf n b := by
    intro n
    induction n with
    | zero =>
      intro b _
      rw [compareLoop, compareLoop]
    | succ n ih =>
      intro b hb
      have hk : b ≤ strlen k := by omega
      have hc : b ≤ strlen (compared k) := by omega
      have hlt : b < uint32 (int32 (strlen k)) := by omega
      have e : (compared k).byteAt b = k.byteAt b := Key.byteAt_take hlt
      rw [compareLoop, compareLoop, readAt_buf hk, readAt_buf hc, e, ih (b + 1) (by omega)]
  unfold compareKeys
  rw [hn, hn', hloop _ _ (by omega)]

/-- **The comparison as a first difference**, for a key of any length: `newotherbits` is the mask of
its bit. -/
theorem compareKeys_firstDiff (x k : Key) :
    (x = compared k ∧ compareKeys x.buf k.buf (int32 (strlen k)) = .ok none) ∨
      ∃ b ≤ strlen x, ∃ i < 8, ∃ y, FirstDiff Key.bit (compared k) x (pos b i) ∧
        newotherbits y = mask i ∧
        compareKeys x.buf k.buf (int32 (strlen k)) = .ok (some (b, y)) := by
  rw [compareKeys_compared]
  rcases compareKeys_buf (x := x) (compared_lt k) with e | ⟨b, hb, ha, hne, e⟩
  · exact .inl e
  · obtain ⟨i, hi, hm, hd⟩ := Key.firstDiff_of_byte ha hne
    exact .inr ⟨b, le_strlen_of_agree hb ha, i, hi, _, hd.symm, hm, e⟩

/-! ## the second walk of an insertion -/

/-- the two tests that end the walk say that the node is beyond the new position -/
theorem beyond_iff {b i j : Nat} (hi : i < 8) :
    pos b i < j ↔ b < j / 8 ∨ j / 8 = b ∧ mask i < mask (j % 8) := by
  rw [pos_lt_iff, pos_div hi, pos_mod hi]
  simp only [eq_comm]

theorem spliceTrace_rep {t : MTree} (hr : Rep h t) (hg : Good t) {s : Slot}
    (hs : h.load s = .ok (ptr t)) {b i : Nat} (hi : i < 8) {fuel : Nat} (hf : t.forks < fuel) :
    spliceTrace h k.buf (sizeT (int32 (strlen k))) b (mask i) fuel s =
        .ok (t.visits Key.bit (seen k) (pos b i),
          slotAt s (t.split Key.bit (seen k) (pos b i)).1) ∧
      h.load (slotAt s (t.split Key.bit (seen k) (pos b i)).1) =
        .ok (ptr (t.split Key.bit (seen k) (pos b i)).2) := by
  induction t generalizing fuel s with
  | leaf a x v =>
    obtain ⟨f, rfl⟩ := Nat.exists_eq_add_one_of_ne_zero (Nat.ne_zero_of_lt hf)
    refine ⟨?_, hs⟩
    unfold spliceTrace
    rw [hs]
    rfl
  | node a j c ih =>
    obtain ⟨f, rfl⟩ := Nat.exists_eq_add_one_of_ne_zero (Nat.ne_zero_of_lt hf)
    have hj := hg.byte_lt
    have hu : uint32 (nodeOf j c).byte = j / 8 := uint32_of_lt (by omega)
    have e : spliceTrace h k.buf (sizeT (int32 (strlen k))) b (mask i) (f + 1) s =
        if b < j / 8 then .ok ([a], s)
        else if j / 8 = b ∧ mask i < mask (j % 8) then .ok ([a], s)
        else spliceTrace h k.buf (sizeT (int32 (strlen k))) b (mask i) f
          (.child a ((seen k).bit j)) >>= fun r => pure (a :: r.1, r.2) := by
      rw [spliceTrace, hs, ok_bind]
      show (h.node a >>= _) = _
      rw [Heap.node_ok hr.node, ok_bind, hu, getDirection_nodeOf hj]
      rfl
    by_cases hb : pos b i < j
    · rw [visits_stop hb, split_stop hb]
      refine ⟨?_, hs⟩
      rw [e]
      rcases (beyond_iff hi).mp hb with h1 | h1
      · rw [if_pos h1, slotAt_nil]
      · rw [if_pos h1, ite_self, slotAt_nil]
    · have hn := mt (beyond_iff hi).mpr hb
      rw [visits_go hb, split_go hb, slotAt_cons, e, if_neg fun h1 => hn (.inl h1),
        if_neg fun h1 => hn (.inr h1)]
      obtain ⟨h1, h2⟩ := ih _ (hr.child _) (hg.child _) (Heap.load_child hr.node ((seen k).bit j))
        (forks_lt_child hf _)
      rw [h1]
      exact ⟨rfl, h2⟩

/-- the second walk from the root -/
theorem spliceTrace_head {root : Addr} {t : MTree} (H : Holds h root (some t)) (k : Key)
    {b i : Nat} (hi : i < 8) :
    spliceTrace h k.buf (sizeT (int32 (strlen k))) b (mask i) (h.size + 1) (.head root) =
        .ok (t.visits Key.bit (seen k) (pos b i),
          slotAt (.head root) (t.split Key.bit (seen k) (pos b i)).1) ∧
      h.load (slotAt (.head root) (t.split Key.bit (seen k) (pos b i)).1) =
        .ok (ptr (t.split Key.bit (seen k) (pos b i)).2) := by
  obtain ⟨x, hx, hp⟩ := H.record
  have hload : h.load (.head root) = .ok (ptr t) := by
    rw [Heap.load_head hx, hp]
    rfl
  exact spliceTrace_rep (H.rep t rfl) (H.good t rfl) hload hi (Nat.lt_succ_of_lt H.forks_lt)

theorem spliceLoop_rep {root : Addr} {t : MTree} (H : Holds h root (some t)) (k : Key) {b i : Nat}
    (hi : i < 8) :
    spliceLoop h k.buf (sizeT (int32 (strlen k))) b (mask i) (h.size + 1) (.head root) =
      .ok (slotAt (.head root) (t.split Key.bit (seen k) (pos b i)).1) := by
  rw [spliceLoop_trace, (spliceTrace_head H k hi).1]
  rfl

/-! ## the walk of a deletion -/

/-- `whereq`, `q` and `dir` for the last fork on the walk -/
def upOf (s : Slot) (r : List (Frame Addr Nat Key Val) × Frame Addr Nat Key Val) :
    Slot × Addr × Bool := (slotAt s r.1, r.2.a, r.2.d)

theorem deleteTrace_rep {t : MTree} (hr : Rep h t) (hg : Good t) {s : Slot} {fuel : Nat}
    (hf : t.forks < fuel) (up : Option (Slot × Addr × Bool)) :
    deleteTrace h k.buf (sizeT (int32 (strlen k))) fuel (ptr t) s up =
      .ok ((t.path Key.bit (seen k)).map Frame.a, .str (t.nearest Key.bit (seen k)).1,
        ((t.lastFork Key.bit (seen k)).map (upOf s)).or up) := by
  induction t generalizing fuel s up with
  | leaf a x v =>
    obtain ⟨f, rfl⟩ := Nat.exists_eq_add_one_of_ne_zero (Nat.ne_zero_of_lt hf)
    rfl
  | node a i c ih =>
    obtain ⟨f, rfl⟩ := Nat.exists_eq_add_one_of_ne_zero (Nat.ne_zero_of_lt hf)
    show (h.node a >>= fun n => getDirection n k.buf _ >>= fun dir =>
      deleteTrace h k.buf _ f (n.child dir) (.child a dir) (some (s, a, dir)) >>= fun r =>
        pure (a :: r.1, r.2)) = _
    rw [Heap.node_ok hr.node, ok_bind, getDirection_nodeOf hg.byte_lt, ok_bind]
    show (deleteTrace h k.buf _ f (ptr (c _)) _ _ >>= _) = _
    rw [ih _ (hr.child _) (hg.child _) (forks_lt_child hf _), path_node, nearest_node, lastFork]
    cases (c ((seen k).bit i)).lastFork Key.bit (seen k) with
    | none => rfl
    | some r => rfl

theorem deleteLoop_rep {root : Addr} {t : MTree} (H : Holds h root (some t)) (k : Key) :
    deleteLoop h k.buf (sizeT (int32 (strlen k))) (h.size + 1) (ptr t) (.head root) none =
      .ok (.str (t.nearest Key.bit (seen k)).1,
        (t.lastFork Key.bit (seen k)).map (upOf (.head root))) := by
  rw [deleteLoop_trace,
    deleteTrace_rep (H.rep t rfl) (H.good t rfl) (Nat.lt_succ_of_lt H.forks_lt), Option.or_none]
  rfl

end Critbit
