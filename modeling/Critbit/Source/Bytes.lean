import Critbit.Trie.Tree
import Mathlib.Data.Nat.Bitwise
import Mathlib.Data.Nat.Find

/-!
# Bytes, masks and keys

A node tests one bit: `byte` is an index into the key and `otherbits` is `0xFF` with the tested bit
cleared.  Position `n` stands for the pair (`n / 8`, `mask (n % 8)`), bit `0` of a byte being the
most significant one, so that the order of positions is the order in which the code compares pairs
(`pos_lt_iff`).

* `direction`        the expression `(1 + (otherbits | c)) >> 8`;
* `newotherbits`     the `while` loop that keeps the highest set bit, and the `^= 0xFF` after it;
* `Key`              a NUL-terminated string: bytes without a zero, `buf` adds the terminator;
* `Key.bit`          the bits of a key by position, `0` at the terminator and beyond.

`newotherbits_xor`: applied to the XOR of two different bytes the loop finds their first
differing bit.
-/

namespace Critbit
open Crit

/-! ## one byte -/

/-- `0xFF` with bit `i` cleared, counted from the most significant one -/
def mask (i : Nat) : UInt8 := (0xFF : UInt8) ^^^ ((0x80 : UInt8) >>> UInt8.ofNat i)

/-- `(1 + (otherbits | c)) >> 8`, computed in `int`; it is `0` or `1` (`direction_eq`) -/
def direction (otherbits c : UInt8) : Bool := (1 + (otherbits ||| c).toNat) >>> 8 != 0

/-- `while(x & (x - 1)) x &= x - 1`: each round clears the lowest set bit, so a byte needs at
most seven (`clearLow_done`) -/
def clearLow : Nat → UInt8 → UInt8
  | 0, x => x
  | n + 1, x => if x &&& (x - 1) ≠ 0 then clearLow n (x &&& (x - 1)) else x

def newotherbits (x : UInt8) : UInt8 := clearLow 7 x ^^^ 0xFF

/-- bit `i` of a byte, counted from the most significant one -/
def bitOf (c : UInt8) (i : Nat) : Bool := c.toNat.testBit (7 - i)

theorem forall_byte {P : UInt8 → Prop} (h : ∀ n : Fin 256, P (UInt8.ofNat n)) (c : UInt8) :
    P c := by
  have h1 := h ⟨c.toNat, c.toNat_lt⟩
  rwa [UInt8.ofNat_toNat] at h1

theorem direction_eq (o c : UInt8) :
    (1 + (o ||| c).toNat) >>> 8 = if direction o c then 1 else 0 := by
  have h := (o ||| c).toNat_lt
  unfold direction
  generalize (o ||| c).toNat = n at h
  rw [Nat.shiftRight_eq_div_pow]
  by_cases e : (1 + n) / 2 ^ 8 = 0
  · rw [e]; rfl
  · have h1 : (1 + n) / 2 ^ 8 = 1 := by omega
    rw [h1]; rfl

/-- the direction under a mask is the bit that the mask leaves out -/
theorem direction_mask (c : UInt8) {i : Nat} (hi : i < 8) : direction (mask i) c = bitOf c i := by
  have h : ∀ n : Fin 256, ∀ j : Fin 8,
      direction (mask j) (UInt8.ofNat n) = bitOf (UInt8.ofNat n) j := by decide +kernel
  exact forall_byte (P := fun c => direction (mask i) c = bitOf c i) (fun n => h n ⟨i, hi⟩) c

/-- clearing a less significant bit gives a greater mask -/
theorem mask_lt_iff {i j : Nat} (hi : i < 8) (hj : j < 8) : mask i < mask j ↔ i < j := by
  have h : ∀ i j : Fin 8, mask i < mask j ↔ i < j := by decide +kernel
  exact h ⟨i, hi⟩ ⟨j, hj⟩

theorem mask_inj {i j : Nat} (hi : i < 8) (hj : j < 8) (h : mask i = mask j) : i = j := by
  have h' : ∀ i j : Fin 8, mask i = mask j → i = j := by decide +kernel
  exact Fin.mk.inj_iff.mp (h' ⟨i, hi⟩ ⟨j, hj⟩ h)

/-- seven rounds are enough: the loop has ended -/
theorem clearLow_done (x : UInt8) : clearLow 7 x &&& (clearLow 7 x - 1) = 0 := by
  have h : ∀ n : Fin 256,
      clearLow 7 (UInt8.ofNat n) &&& (clearLow 7 (UInt8.ofNat n) - 1) = 0 := by decide +kernel
  exact forall_byte (P := fun x => clearLow 7 x &&& (clearLow 7 x - 1) = 0) h x

/-- the loop finds the highest set bit -/
theorem newotherbits_mask {x : UInt8} (hx : x ≠ 0) :
    ∃ i < 8, newotherbits x = mask i ∧ bitOf x i = true ∧ ∀ j < i, bitOf x j = false := by
  have h : ∀ n : Fin 256, UInt8.ofNat n ≠ 0 → ∃ i : Fin 8,
      newotherbits (UInt8.ofNat n) = mask i ∧ bitOf (UInt8.ofNat n) i = true ∧
        ∀ j : Fin 8, j < i → bitOf (UInt8.ofNat n) j = false := by decide +kernel
  obtain ⟨i, h1, h2, h3⟩ := forall_byte (P := fun x => x ≠ 0 → ∃ i : Fin 8,
    newotherbits x = mask i ∧ bitOf x i = true ∧ ∀ j : Fin 8, j < i → bitOf x j = false) h x hx
  exact ⟨i, i.isLt, h1, h2, fun j hj => h3 ⟨j, hj.trans i.isLt⟩ hj⟩

theorem bitOf_xor (a b : UInt8) (i : Nat) : bitOf (a ^^^ b) i = (bitOf a i ^^ bitOf b i) := by
  unfold bitOf
  rw [UInt8.toNat_xor, Nat.testBit_xor]

/-- bytes compare as numbers, so at their first differing bit -/
theorem lt_of_bitOf {a b : UInt8} {i : Nat} (hi : i < 8) (h : ∀ j < i, bitOf a j = bitOf b j)
    (ha : bitOf a i = false) (hb : bitOf b i = true) : a.toNat < b.toNat := by
  apply Nat.lt_of_testBit (7 - i) ha hb
  intro j hj
  by_cases h7 : j ≤ 7
  · have e := h (7 - j) (by omega)
    unfold bitOf at e
    rwa [show 7 - (7 - j) = j by omega] at e
  · have hlt : ∀ c : UInt8, c.toNat < 2 ^ j := fun c =>
      lt_of_lt_of_le c.toNat_lt (Nat.pow_le_pow_right (by omega) (by omega))
    rw [Nat.testBit_lt_two_pow (hlt a), Nat.testBit_lt_two_pow (hlt b)]

theorem bitOf_zero (i : Nat) : bitOf 0 i = false := Nat.zero_testBit _

/-- **On the XOR of two different bytes the loop finds their first differing bit.** -/
theorem newotherbits_xor {a b : UInt8} (hab : a ≠ b) :
    ∃ i < 8, newotherbits (a ^^^ b) = mask i ∧ bitOf a i ≠ bitOf b i ∧
      ∀ j < i, bitOf a j = bitOf b j := by
  have hx : a ^^^ b ≠ 0 := fun e => hab (UInt8.xor_eq_zero_iff.mp e)
  obtain ⟨i, hi, hm, h1, h2⟩ := newotherbits_mask hx
  refine ⟨i, hi, hm, ?_, fun j hj => ?_⟩
  · rw [bitOf_xor] at h1
    exact bne_iff_ne.mp h1
  · have h3 := h2 j hj
    rw [bitOf_xor] at h3
    exact bne_eq_false_iff_eq.mp h3

/-! ## positions -/

/-- position of bit `i` of byte `b` -/
def pos (b i : Nat) : Nat := 8 * b + i

theorem pos_div {b i : Nat} (hi : i < 8) : pos b i / 8 = b := by unfold pos; omega
theorem pos_mod {b i : Nat} (hi : i < 8) : pos b i % 8 = i := by unfold pos; omega
theorem pos_div_mod (n : Nat) : pos (n / 8) (n % 8) = n := by unfold pos; omega

/-- the order of positions is the order of the pairs of byte and mask -/
theorem pos_lt_iff (m n : Nat) :
    m < n ↔ m / 8 < n / 8 ∨ m / 8 = n / 8 ∧ mask (m % 8) < mask (n % 8) := by
  rw [mask_lt_iff (Nat.mod_lt _ (by decide)) (Nat.mod_lt _ (by decide))]
  omega

/-! ## keys -/

/-- a NUL-terminated string -/
structure Key where
  bytes : List UInt8
  nul : (0 : UInt8) ∉ bytes
deriving DecidableEq

namespace Key

/-- the characters in memory, the terminator included -/
def buf (k : Key) : List UInt8 := k.bytes ++ [0]

/-- byte `i`; `0` at the terminator and beyond -/
def byteAt (k : Key) (i : Nat) : UInt8 := k.bytes.getD i 0

/-- the bit at position `n` -/
def bit (k : Key) (n : Nat) : Bool := bitOf (k.byteAt (n / 8)) (n % 8)

end Key

/-- `strlen` -/
def strlen (k : Key) : Nat := k.bytes.length

namespace Key

theorem buf_length (k : Key) : k.buf.length = strlen k + 1 := by
  simp [buf, strlen]

theorem buf_get {k : Key} {i : Nat} (hi : i ≤ strlen k) : k.buf[i]? = some (k.byteAt i) := by
  unfold buf byteAt
  by_cases h : i < k.bytes.length
  · rw [List.getElem?_append_left h, List.getD_eq_getElem _ _ h, List.getElem?_eq_getElem h]
  · have e : i = k.bytes.length := by unfold strlen at hi; omega
    subst e
    simp

theorem byteAt_ne_zero {k : Key} {i : Nat} (hi : i < strlen k) : k.byteAt i ≠ 0 := by
  intro e
  unfold byteAt at e
  rw [List.getD_eq_getElem _ _ hi] at e
  exact k.nul (e ▸ List.getElem_mem hi)

theorem byteAt_of_le {k : Key} {i : Nat} (hi : strlen k ≤ i) : k.byteAt i = 0 :=
  List.getD_eq_default _ _ hi

theorem byteAt_eq_zero {k : Key} {i : Nat} : k.byteAt i = 0 ↔ strlen k ≤ i := by
  refine ⟨fun h => ?_, byteAt_of_le⟩
  by_contra hc
  exact byteAt_ne_zero (not_le.mp hc) h

theorem ext_bytes {x y : Key} (h : x.bytes = y.bytes) : x = y := by
  cases x; cases y
  cases h; rfl

/-- keys with the same bytes are equal: the terminator fixes the length -/
theorem ext_byteAt {x y : Key} (h : ∀ i, x.byteAt i = y.byteAt i) : x = y := by
  have hl : strlen x = strlen y := by
    apply le_antisymm
    · exact byteAt_eq_zero.mp ((h _).trans (byteAt_of_le le_rfl))
    · exact byteAt_eq_zero.mp ((h _).symm.trans (byteAt_of_le le_rfl))
  apply ext_bytes
  apply List.ext_getElem hl
  intro i h1 h2
  have h3 := h i
  unfold byteAt at h3
  rwa [List.getD_eq_getElem _ _ h1, List.getD_eq_getElem _ _ h2] at h3

theorem buf_inj {x y : Key} (h : x.buf = y.buf) : x = y :=
  ext_bytes (List.append_cancel_right h)

/-- the first `n` bytes as a key of their own -/
def take (k : Key) (n : Nat) : Key :=
  ⟨k.bytes.take n, fun h => k.nul (List.mem_of_mem_take h)⟩

theorem bytes_take (k : Key) (n : Nat) : (k.take n).bytes = k.bytes.take n := rfl

theorem strlen_take (k : Key) (n : Nat) : strlen (k.take n) = min n (strlen k) := List.length_take

theorem take_of_le {k : Key} {n : Nat} (h : strlen k ≤ n) : k.take n = k := by
  apply ext_bytes
  exact List.take_of_length_le h

theorem byteAt_take {k : Key} {n i : Nat} (h : i < n) : (k.take n).byteAt i = k.byteAt i := by
  unfold byteAt take
  show (k.bytes.take n).getD i 0 = _
  rw [List.getD_eq_getElem?_getD, List.getElem?_take_of_lt h, ← List.getD_eq_getElem?_getD]

theorem bit_of_le {k : Key} {n : Nat} (h : strlen k ≤ n / 8) : k.bit n = false := by
  unfold bit
  rw [byteAt_of_le h, bitOf_zero]

/-- the first index where two keys differ -/
theorem exists_firstByte {x y : Key} (h : x ≠ y) :
    ∃ b, (∀ j < b, x.byteAt j = y.byteAt j) ∧ x.byteAt b ≠ y.byteAt b := by
  have hex : ∃ b, x.byteAt b ≠ y.byteAt b := by
    by_contra hc
    exact h (ext_byteAt fun i => not_not.mp fun hi => hc ⟨i, hi⟩)
  exact ⟨Nat.find hex, fun j hj => not_not.mp (Nat.find_min hex hj), Nat.find_spec hex⟩

theorem agree_of_bytes {x y : Key} {b i : Nat} (hi : i < 8)
    (h : ∀ j < b, x.byteAt j = y.byteAt j)
    (h' : ∀ j < i, bitOf (x.byteAt b) j = bitOf (y.byteAt b) j) : Agree bit (pos b i) x y := by
  intro n hn
  have hn' : n < 8 * b + i := hn
  unfold bit
  by_cases e : n / 8 < b
  · rw [h _ e]
  · have e' : n / 8 = b := by omega
    rw [e']
    exact h' _ (by omega)

theorem agree_pos_iff {x y : Key} {b i : Nat} (hi : i < 8) :
    Agree bit (pos b i) x y ↔ (∀ j < b, x.byteAt j = y.byteAt j) ∧
      ∀ j < i, bitOf (x.byteAt b) j = bitOf (y.byteAt b) j := by
  refine ⟨fun h => ?_, fun h => agree_of_bytes hi h.1 h.2⟩
  have hbit : ∀ c j, j < 8 → pos c j < pos b i → bitOf (x.byteAt c) j = bitOf (y.byteAt c) j := by
    intro c j hj hlt
    have h1 := h _ hlt
    unfold bit at h1
    rwa [pos_div hj, pos_mod hj] at h1
  refine ⟨fun c hc => ?_, fun j hj => hbit b j (by omega) (by unfold pos; omega)⟩
  by_contra hne
  obtain ⟨j, hj, -, hdiff, -⟩ := newotherbits_xor hne
  exact hdiff (hbit c j hj (by unfold pos; omega))

/-- **The first differing bit of the first differing byte is the first difference.** -/
theorem firstDiff_of_byte {x y : Key} {b : Nat} (h : ∀ j < b, x.byteAt j = y.byteAt j)
    (hb : x.byteAt b ≠ y.byteAt b) :
    ∃ i < 8, newotherbits (x.byteAt b ^^^ y.byteAt b) = mask i ∧
      FirstDiff bit x y (pos b i) := by
  obtain ⟨i, hi, hm, hne, hlt⟩ := newotherbits_xor hb
  refine ⟨i, hi, hm, agree_of_bytes hi h hlt, ?_⟩
  unfold bit
  rwa [pos_div hi, pos_mod hi]

/-- the first difference lies within both keys, their terminators included -/
theorem firstDiff_le {x y : Key} {n : Nat} (h : FirstDiff bit x y n) :
    n / 8 ≤ strlen x := by
  by_contra hc
  have hx : x.byteAt (strlen x) = 0 := byteAt_of_le le_rfl
  have hlt : strlen x < n / 8 := not_le.mp hc
  -- if `x` has ended then `y` agrees with its terminator, so it has ended there too
  have hy : y.byteAt (strlen x) = 0 := by
    by_contra hy
    obtain ⟨i, hi, -, hne, -⟩ := newotherbits_xor hy
    have h1 := h.1 (pos (strlen x) i) (by unfold pos; omega)
    unfold bit at h1
    rw [pos_div hi, pos_mod hi, hx] at h1
    exact hne h1.symm
  have h2 := byteAt_eq_zero.mp hy
  exact h.2 (by rw [bit_of_le hlt.le, bit_of_le (by omega)])

end Key

end Critbit
