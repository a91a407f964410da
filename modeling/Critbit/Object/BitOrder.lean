import Mathlib.Data.BitVec
import Mathlib.Tactic.Common

/-!
# Words in the order of their reversed bits

`revPos x` is the place of `x` when words are counted with the lowest bit as the most significant one.  In
this order the words that agree in their low `k` bits are one interval, whatever `k` is: a smaller `k` has
intervals that are made of those of a larger one.

* `revPos_div_iff`       the interval of a word;
* `interval_iff`      where it ends: `nextLow` is the first word after it;
* `toNat_expansion`   the next word with the same low bits, in the usual order.
-/

namespace Obj
variable {w k i : Nat} {x y : BitVec w}

/-- the low `k` bits -/
def lowBits (w k : Nat) : BitVec w := BitVec.ofNat w (2 ^ k - 1)

theorem getLsbD_lowBits (hi : i < w) : (lowBits w k).getLsbD i = decide (i < k) := by
  unfold lowBits
  rw [BitVec.getLsbD_ofNat, decide_eq_true hi, Bool.true_and, Nat.testBit_two_pow_sub_one]

theorem toNat_and_lowBits (hk : k ≤ w) : (x &&& lowBits w k).toNat = x.toNat % 2 ^ k := by
  have hlt : 2 ^ k - 1 < 2 ^ w :=
    lt_of_lt_of_le (Nat.sub_lt (Nat.two_pow_pos k) Nat.one_pos) (Nat.pow_le_pow_right Nat.two_pos hk)
  unfold lowBits
  rw [BitVec.toNat_and, BitVec.toNat_ofNat, Nat.mod_eq_of_lt hlt, Nat.and_two_pow_sub_one_eq_mod]

/-! ## the reversed order -/

def revPos (x : BitVec w) : Nat := x.reverse.toNat

theorem revPos_lt : revPos x < 2 ^ w := x.reverse.isLt

theorem testBit_revPos (hi : i < w) : (revPos x).testBit i = x.getLsbD (w - 1 - i) := by
  unfold revPos
  rw [BitVec.testBit_toNat, BitVec.getLsbD_reverse, BitVec.getMsbD_eq_getLsbD, decide_eq_true hi,
    Bool.true_and]

theorem testBit_revPos_ge (hi : w ≤ i) : (revPos x).testBit i = false :=
  Nat.testBit_lt_two_pow (lt_of_lt_of_le revPos_lt (Nat.pow_le_pow_right Nat.two_pos hi))

theorem getLsbD_eq_revPos (hi : i < w) : x.getLsbD i = (revPos x).testBit (w - 1 - i) := by
  rw [testBit_revPos (by omega)]
  congr 1
  omega

theorem revPos_zero : revPos (0 : BitVec w) = 0 := by
  apply Nat.eq_of_testBit_eq
  intro i
  rw [Nat.zero_testBit]
  by_cases hi : i < w
  · rw [testBit_revPos hi]
    exact BitVec.getLsbD_zero
  · exact testBit_revPos_ge (by omega)

theorem eq_of_revPos (h : revPos x = revPos y) : x = y := by
  apply BitVec.eq_of_getLsbD_eq
  intro i hi
  rw [getLsbD_eq_revPos hi, getLsbD_eq_revPos hi, h]

/-- **The words with the same low bits are an interval.** -/
theorem revPos_div_iff (hk : k ≤ w) :
    revPos x / 2 ^ (w - k) = revPos y / 2 ^ (w - k) ↔ x.toNat % 2 ^ k = y.toNat % 2 ^ k := by
  constructor
  · intro h
    apply Nat.eq_of_testBit_eq
    intro i
    rw [Nat.testBit_mod_two_pow, Nat.testBit_mod_two_pow]
    by_cases hi : i < k
    · have hb := congrArg (fun n => n.testBit (k - 1 - i)) h
      simp only [Nat.testBit_div_two_pow] at hb
      have e : k - 1 - i + (w - k) = w - 1 - i := by omega
      rw [e, ← getLsbD_eq_revPos (by omega), ← getLsbD_eq_revPos (by omega)] at hb
      rw [BitVec.testBit_toNat, BitVec.testBit_toNat, hb]
    · rw [decide_eq_false hi, Bool.false_and, Bool.false_and]
  · intro h
    apply Nat.eq_of_testBit_eq
    intro i
    rw [Nat.testBit_div_two_pow, Nat.testBit_div_two_pow]
    by_cases hi : i < k
    · have hb := congrArg (fun n => n.testBit (w - 1 - (i + (w - k)))) h
      simp only [Nat.testBit_mod_two_pow] at hb
      rw [decide_eq_true (by omega), Bool.true_and, Bool.true_and, BitVec.testBit_toNat,
        BitVec.testBit_toNat] at hb
      rw [testBit_revPos (by omega), testBit_revPos (by omega), hb]
    · rw [testBit_revPos_ge (by omega), testBit_revPos_ge (by omega)]

/-- a word has low bits only if it is the first of its interval -/
theorem dvd_revPos_iff (hk : k ≤ w) : 2 ^ (w - k) ∣ revPos x ↔ x.toNat < 2 ^ k := by
  have hbit : 2 ^ (w - k) ∣ revPos x ↔ ∀ i, i < w - k → (revPos x).testBit i = false := by
    rw [Nat.dvd_iff_mod_eq_zero]
    constructor
    · intro h i hi
      have hb := congrArg (fun n => n.testBit i) h
      simpa [hi] using hb
    · intro h
      apply Nat.eq_of_testBit_eq
      intro i
      rw [Nat.testBit_mod_two_pow, Nat.zero_testBit]
      by_cases hi : i < w - k
      · rw [h i hi, Bool.and_false]
      · rw [decide_eq_false hi, Bool.false_and]
  rw [hbit]
  constructor
  · intro h
    apply Nat.lt_pow_two_of_testBit
    intro i hi
    rw [BitVec.testBit_toNat]
    by_cases hw : i < w
    · rw [getLsbD_eq_revPos hw]
      exact h _ (by omega)
    · exact BitVec.getLsbD_of_ge x i (by omega)
  · intro h i hi
    rw [testBit_revPos (by omega), ← BitVec.testBit_toNat]
    exact Nat.testBit_lt_two_pow (lt_of_lt_of_le h (Nat.pow_le_pow_right Nat.two_pos (by omega)))

/-! ## the next interval -/

/-- the first word after the interval, or `0` -/
def nextLow (k : Nat) (x : BitVec w) : BitVec w := ((x ||| ~~~lowBits w k).reverse + 1).reverse

theorem revPos_or_not_lowBits (hk : k ≤ w) :
    revPos (x ||| ~~~lowBits w k) = 2 ^ (w - k) * (revPos x / 2 ^ (w - k)) + (2 ^ (w - k) - 1) := by
  apply Nat.eq_of_testBit_eq
  intro i
  rw [Nat.testBit_two_pow_mul_add _ (Nat.sub_lt (Nat.two_pow_pos _) Nat.one_pos)]
  by_cases hi : i < w
  · rw [testBit_revPos hi, BitVec.getLsbD_or, BitVec.getLsbD_not, getLsbD_lowBits (by omega)]
    rw [decide_eq_true (by omega : w - 1 - i < w), Bool.true_and]
    by_cases h : i < w - k
    · rw [if_pos h, Nat.testBit_two_pow_sub_one, decide_eq_true h, decide_eq_false (by omega)]
      simp
    · rw [if_neg h, Nat.testBit_div_two_pow, decide_eq_true (by omega), Nat.sub_add_cancel (by omega),
        testBit_revPos hi]
      simp
  · rw [testBit_revPos_ge (by omega), if_neg (by omega), Nat.testBit_div_two_pow,
      testBit_revPos_ge (by omega)]

theorem revPos_next (hk : k ≤ w) :
    revPos (nextLow k x) = 2 ^ (w - k) * (revPos x / 2 ^ (w - k) + 1) % 2 ^ w := by
  have h := revPos_or_not_lowBits (x := x) hk
  have hone : 2 ^ (w - k) - 1 + 1 = 2 ^ (w - k) := Nat.sub_add_cancel (Nat.two_pow_pos _)
  have h1 : (1 : BitVec w).toNat = 1 % 2 ^ w := BitVec.toNat_ofNat 1 w
  unfold revPos at h
  show ((x ||| ~~~lowBits w k).reverse + 1).reverse.reverse.toNat = _
  rw [BitVec.reverse_reverse_eq, BitVec.toNat_add, h, h1, Nat.add_mod_mod, Nat.add_assoc, hone,
    Nat.mul_add, Nat.mul_one]
  rfl

theorem nextLow_lt (hk : k ≤ w) : (nextLow k x).toNat < 2 ^ k := by
  rw [← dvd_revPos_iff hk, revPos_next hk, Nat.dvd_mod_iff (Nat.pow_dvd_pow 2 (Nat.sub_le w k))]
  exact Nat.dvd_mul_right _ _

/-- the low bits are all that counts -/
theorem nextLow_congr (hk : k ≤ w) (h : x.toNat % 2 ^ k = y.toNat % 2 ^ k) : nextLow k x = nextLow k y := by
  apply eq_of_revPos
  rw [revPos_next hk, revPos_next hk, (revPos_div_iff hk).mpr h]

/-- there are `2^k` intervals -/
theorem revPos_div_lt (hk : k ≤ w) : revPos x / 2 ^ (w - k) < 2 ^ k := by
  rw [Nat.div_lt_iff_lt_mul (Nat.two_pow_pos _), ← Nat.pow_add, Nat.add_sub_cancel' hk]
  exact revPos_lt

/-- where the next interval starts, if it is not the last one -/
theorem revPos_next_of_ne (hk : k ≤ w) (h0 : nextLow k x ≠ 0) :
    revPos (nextLow k x) = 2 ^ (w - k) * (revPos x / 2 ^ (w - k) + 1) := by
  have h2 : 2 ^ (w - k) * (revPos x / 2 ^ (w - k) + 1) ≤ 2 ^ w := by
    calc 2 ^ (w - k) * (revPos x / 2 ^ (w - k) + 1) ≤ 2 ^ (w - k) * 2 ^ k :=
          Nat.mul_le_mul_left _ (revPos_div_lt hk)
      _ = 2 ^ w := by rw [← Nat.pow_add, Nat.sub_add_cancel hk]
  rw [revPos_next hk]
  rcases Nat.lt_or_eq_of_le h2 with hlt | he
  · exact Nat.mod_eq_of_lt hlt
  · refine absurd (eq_of_revPos ?_) h0
    rw [revPos_next hk, he, Nat.mod_self, revPos_zero]

theorem revPos_next_div (hk : k ≤ w) (h0 : nextLow k x ≠ 0) :
    revPos (nextLow k x) / 2 ^ (w - k) = revPos x / 2 ^ (w - k) + 1 := by
  rw [revPos_next_of_ne hk h0, Nat.mul_div_cancel_left _ (Nat.two_pow_pos _)]

/-- **The interval of its first word ends before the next one.** -/
theorem interval_iff (hk : k ≤ w) (hx : x.toNat < 2 ^ k) :
    y.toNat % 2 ^ k = x.toNat % 2 ^ k ↔
      revPos x ≤ revPos y ∧ (revPos y < revPos (nextLow k x) ∨ nextLow k x = 0) := by
  have hpos := Nat.two_pow_pos (w - k)
  rw [← revPos_div_iff hk]
  constructor
  · intro h
    constructor
    · rw [← Nat.mul_div_cancel' ((dvd_revPos_iff hk).mpr hx), ← h]
      exact Nat.mul_div_le _ _
    · by_cases h0 : nextLow k x = 0
      · exact .inr h0
      · rw [revPos_next_of_ne hk h0, ← h, Nat.mul_add, Nat.mul_one]
        exact .inl (Nat.lt_mul_div_succ _ hpos)
  · rintro ⟨hle, hlt⟩
    have hy := revPos_lt (x := y)
    refine Nat.le_antisymm ?_ (Nat.div_le_div_right hle)
    by_contra hgt
    -- `y` is in a later interval
    have h1 : 2 ^ (w - k) * (revPos x / 2 ^ (w - k) + 1) ≤ revPos y := by
      calc 2 ^ (w - k) * (revPos x / 2 ^ (w - k) + 1) ≤ 2 ^ (w - k) * (revPos y / 2 ^ (w - k)) :=
            Nat.mul_le_mul_left _ (by omega)
        _ ≤ revPos y := Nat.mul_div_le _ _
    have hn : revPos (nextLow k x) = 2 ^ (w - k) * (revPos x / 2 ^ (w - k) + 1) := by
      rw [revPos_next hk, Nat.mod_eq_of_lt (by omega)]
    rcases hlt with hlt | h0
    · omega
    · rw [h0, revPos_zero] at hn
      exact absurd hn.symm (Nat.mul_ne_zero hpos.ne' (Nat.succ_ne_zero _))

/-! ## the words with the same low bits -/

/-- the next word with the same low bits -/
def expansion (k : Nat) (x : BitVec w) : BitVec w :=
  (((x ||| lowBits w k) + 1) &&& ~~~lowBits w k) ||| (x &&& lowBits w k)

theorem toNat_expansion (hk : k ≤ w) (hx : x.toNat + 2 ^ k < 2 ^ w) :
    (expansion k x).toNat = x.toNat + 2 ^ k := by
  have hc : x.toNat % 2 ^ k < 2 ^ k := Nat.mod_lt _ (Nat.two_pow_pos k)
  have hdiv := Nat.div_add_mod x.toNat (2 ^ k)
  have hmask : (lowBits w k).toNat = 2 ^ k - 1 := by
    have hlt : 2 ^ k - 1 < 2 ^ w := by omega
    exact (BitVec.toNat_ofNat ..).trans (Nat.mod_eq_of_lt hlt)
  -- the low bits are set, then they overflow
  have hor : (x ||| lowBits w k).toNat = 2 ^ k * (x.toNat / 2 ^ k) + (2 ^ k - 1) := by
    rw [BitVec.toNat_or, hmask]
    apply Nat.eq_of_testBit_eq
    intro i
    rw [Nat.testBit_two_pow_mul_add _ (Nat.sub_lt (Nat.two_pow_pos k) Nat.one_pos), Nat.testBit_or,
      Nat.testBit_two_pow_sub_one]
    by_cases hi : i < k
    · rw [if_pos hi, decide_eq_true hi, Bool.or_true]
    · rw [if_neg hi, decide_eq_false hi, Bool.or_false, Nat.testBit_div_two_pow,
        Nat.sub_add_cancel (by omega)]
  have hsucc : (x ||| lowBits w k).toNat + 1 = 2 ^ k * (x.toNat / 2 ^ k + 1) := by
    rw [hor, Nat.add_assoc, Nat.sub_add_cancel (Nat.two_pow_pos k), Nat.mul_add, Nat.mul_one]
  have hle : 2 ^ k * (x.toNat / 2 ^ k + 1) < 2 ^ w := by
    rw [Nat.mul_add, Nat.mul_one]
    omega
  have hadd : ((x ||| lowBits w k) + 1).toNat = 2 ^ k * (x.toNat / 2 ^ k + 1) := by
    have h1 : (1 : BitVec w).toNat = 1 % 2 ^ w := BitVec.toNat_ofNat 1 w
    rw [BitVec.toNat_add, h1, Nat.add_mod_mod, hsucc, Nat.mod_eq_of_lt hle]
  have hand : ((x ||| lowBits w k) + 1) &&& ~~~lowBits w k = (x ||| lowBits w k) + 1 := by
    apply BitVec.eq_of_getLsbD_eq
    intro i hi
    rw [BitVec.getLsbD_and, BitVec.getLsbD_not, getLsbD_lowBits hi, decide_eq_true hi, Bool.true_and]
    by_cases h : i < k
    · have hz : ((x ||| lowBits w k) + 1).getLsbD i = false := by
        rw [← BitVec.testBit_toNat, hadd, Nat.testBit_two_pow_mul, decide_eq_false (by omega), Bool.false_and]
      rw [hz, Bool.false_and]
    · rw [decide_eq_false h, Bool.not_false, Bool.and_true]
  unfold expansion
  rw [hand, BitVec.toNat_or, hadd, toNat_and_lowBits hk, ← Nat.two_pow_add_eq_or_of_lt hc, Nat.mul_add,
    Nat.mul_one]
  omega

/-- no bits from `k` on to `n` -/
theorem and_xor_lowBits_eq_zero {n : Nat} (hk : k ≤ n) (hn : n ≤ w) :
    x &&& (lowBits w k ^^^ lowBits w n) = 0 ↔ x.toNat % 2 ^ n < 2 ^ k := by
  constructor
  · intro h
    apply Nat.lt_pow_two_of_testBit
    intro i hi
    rw [Nat.testBit_mod_two_pow]
    by_cases hin : i < n
    · have hb := congrArg (fun y => y.getLsbD i) h
      simp only [BitVec.getLsbD_and, BitVec.getLsbD_xor] at hb
      rw [getLsbD_lowBits (by omega), getLsbD_lowBits (by omega), decide_eq_false (by omega),
        decide_eq_true hin, Bool.false_xor, Bool.and_true] at hb
      rw [BitVec.testBit_toNat, hb]
      simp
    · rw [decide_eq_false hin, Bool.false_and]
  · intro h
    apply BitVec.eq_of_getLsbD_eq
    intro i hi
    rw [BitVec.getLsbD_and, BitVec.getLsbD_xor, getLsbD_lowBits hi, getLsbD_lowBits hi]
    by_cases hik : i < k
    · rw [decide_eq_true hik, decide_eq_true (by omega)]
      simp
    · by_cases hin : i < n
      · have hb : (x.toNat % 2 ^ n).testBit i = false :=
          Nat.testBit_lt_two_pow (lt_of_lt_of_le h (Nat.pow_le_pow_right Nat.two_pos (by omega)))
        rw [Nat.testBit_mod_two_pow, decide_eq_true hin, Bool.true_and, BitVec.testBit_toNat] at hb
        rw [hb]
        simp
      · rw [decide_eq_false hik, decide_eq_false hin]
        simp

end Obj
