import Critbit.Run.Refine
import Mathlib.Data.Nat.Digits.Lemmas
import Mathlib.Data.Set.Card

/-!
# The drivers of `helper.c`

`helper.c` is linked with one of the structures behind `helper.h` (an `Adapter`) and runs loops over it that
check the answers: a loop that is not content with one calls `exit(-1)`, here `none`.

* `set`, `get`, `cleanup`               keys from `sprintf`;
* `setRand`, `getRand`, `cleanupRand`   keys from `fill_rand`, always the same ones after `srand`;
* `IsMap`                               what an adapter has to be: a map of at most `cap` keys;
* `setLoop_spec`, `getLoop_spec`, `cleanupLoop_spec`   then no loop exits.
-/

namespace Critbit.Bench

/-! ## keys -/

/-- a character of `%d` -/
def digit (d : Nat) : UInt8 := UInt8.ofNat (48 + d)

theorem toNat_digit {d : Nat} (h : d < 10) : (digit d).toNat = 48 + d := by
  unfold digit
  rw [UInt8.toNat_ofNat']
  omega

/-- the digits of `%09d`, from the last one on -/
def padded (n : Nat) : List Nat :=
  Nat.digits 10 n ++ List.replicate (9 - (Nat.digits 10 n).length) 0

theorem padded_lt {n d : Nat} (h : d ∈ padded n) : d < 10 := by
  rcases List.mem_append.mp h with h | h
  · exact Nat.digits_lt_base (by decide) h
  · rw [List.eq_of_mem_replicate h]
    decide

/-- `sprintf(buf, "%09d", n)`, for `n` that is not negative -/
def decimal (n : Nat) : Key where
  bytes := (padded n).reverse.map digit
  nul h := by
    obtain ⟨d, hd, e⟩ := List.mem_map.mp h
    have e' := congrArg UInt8.toNat e
    rw [toNat_digit (padded_lt (List.mem_reverse.mp hd)), UInt8.toNat_zero] at e'
    omega

example : (decimal 1203).bytes = [48, 48, 48, 48, 48, 49, 50, 48, 51] := by decide

/-- the number in a string of digits -/
def number (k : Key) : Nat := Nat.ofDigits 10 (k.bytes.reverse.map fun b => b.toNat - 48)

theorem number_decimal (n : Nat) : number (decimal n) = n := by
  have h : ∀ l : List Nat, (∀ d ∈ l, d < 10) → l.map (fun d => (digit d).toNat - 48) = l := by
    intro l hl
    refine (List.map_congr_left fun d hd => ?_).trans (List.map_id l)
    show (digit d).toNat - 48 = d
    rw [toNat_digit (hl d hd)]
    omega
  unfold number decimal
  rw [← List.map_reverse, List.reverse_reverse, List.map_map]
  show Nat.ofDigits 10 ((padded n).map fun d => (digit d).toNat - 48) = n
  rw [h _ fun d hd => padded_lt hd]
  unfold padded
  rw [Nat.ofDigits_append_replicate_zero, Nat.ofDigits_digits]

theorem decimal_injective : Function.Injective decimal :=
  Function.LeftInverse.injective number_decimal

theorem short_decimal {n : Nat} (h : n < 2147483648) : Short (decimal n) := by
  have hd : (Nat.digits 10 n).length ≤ 10 := (Nat.digits_length_le_iff (by decide) n).mpr (by omega)
  unfold Short strlen decimal padded
  simp only [List.length_map, List.length_reverse, List.length_append, List.length_replicate]
  omega

/-- `fill_rand(buf, 10)`, called for the `i`-th time after `srand`; `rand` has what `rand()` returns then -/
def fillRand (rand : Nat → Nat) (i : Nat) : Key where
  bytes := (List.range 10).map fun j => UInt8.ofNat (rand (10 * (i - 1) + j)) ||| 0x80
  nul h := by
    obtain ⟨j, -, e⟩ := List.mem_map.mp h
    have hb : ∀ n : Fin 256, UInt8.ofNat n ||| 0x80 ≠ 0 := by decide +kernel
    exact forall_byte (P := fun b => b ||| 0x80 ≠ 0) hb _ e

theorem short_fillRand (rand : Nat → Nat) (i : Nat) : Short (fillRand rand i) := by
  unfold Short strlen fillRand
  rw [List.length_map, List.length_range]
  decide

/-! ## loops -/

/-- `helper.h` -/
structure Adapter (S : Type) where
  add : S → Key → Val → M (Int × S)
  find : S → Key → M (Val × S)
  del : S → Key → M (Int × S)

section
variable {S : Type} (A : Adapter S) (key : Nat → Key)

/-- `n` rounds of `set`, from round `i` on -/
def setLoop : Nat → Nat → S → M (Option S)
  | 0, _, s => pure (some s)
  | n + 1, i, s => do
    let (ret, s) ← A.add s (key i) (UInt64.ofNat i)
    if ret ≠ 0 then pure none else setLoop n (i + 1) s

/-- `n` rounds of `get`, from round `i` on -/
def getLoop : Nat → Nat → S → M (Option S)
  | 0, _, s => pure (some s)
  | n + 1, i, s => do
    let (out, s) ← A.find s (key i)
    if out = 0 then pure none
    else if int32 out.toNat ≠ i then pure none
    else getLoop n (i + 1) s

/-- `n` rounds of `cleanup`, from round `i` on; `cleanup_rand` only prints that a deletion has failed -/
def cleanupLoop (exits : Bool) : Nat → Nat → S → M (Option S)
  | 0, _, s => pure (some s)
  | n + 1, i, s => do
    let (ret, s) ← A.del s (key i)
    if ret ≠ 0 ∧ exits then pure none else cleanupLoop exits n (i + 1) s

end

section
variable {S : Type} (A : Adapter S) (rand : Nat → Nat) (iter : Int) (s : S)

/-- the rounds of `for(i = 1; i < iter; ++i)` -/
def rounds : Nat := (iter - 1).toNat

def set : M (Option S) := setLoop A decimal (rounds iter) 1 s
def get : M (Option S) := getLoop A decimal (rounds iter) 1 s
def cleanup : M (Option S) := cleanupLoop A decimal true (rounds iter) 1 s
def setRand : M (Option S) := setLoop A (fillRand rand) (rounds iter) 1 s
def getRand : M (Option S) := getLoop A (fillRand rand) (rounds iter) 1 s
def cleanupRand : M (Option S) := cleanupLoop A (fillRand rand) false (rounds iter) 1 s

end

/-! ## maps -/

/-- The adapter is a map, as long as there are no more than `cap` keys: `R s m` if `s` stands for `m`. -/
structure IsMap {S : Type} (A : Adapter S) (cap : Nat) (R : S → Map → Prop) : Prop where
  add : ∀ {s m k} (v : Val), R s m → Short k → m k = none → {k | m k ≠ none}.ncard < cap →
    ∃ s', A.add s k v = .ok (0, s') ∧ R s' (Function.update m k (some v))
  find : ∀ {s m k v}, R s m → m k = some v → ∃ s', A.find s k = .ok (v, s') ∧ R s' m
  del : ∀ {s m k}, R s m → m k ≠ none →
    ∃ s', A.del s k = .ok (0, s') ∧ R s' (Function.update m k none)

/-- the `n` rounds from `i` on have bound their keys as `f` says, and no others -/
structure After (key : Nat → Key) (f : Nat → Option Val) (i n : Nat) (m m' : Map) : Prop where
  keys : ∀ j, i ≤ j → j < i + n → m' (key j) = f j
  other : ∀ k, (∀ j, i ≤ j → j < i + n → key j ≠ k) → m' k = m k

section
variable {key : Nat → Key} {f : Nat → Option Val} {m m' : Map} {i n : Nat}

theorem After.nil : After key f i 0 m m := ⟨fun j h h' => by omega, fun _ _ => rfl⟩

/-- the keys after the first one are others -/
theorem later_ne (hinj : Set.InjOn key (Set.Ico i (i + (n + 1)))) {j : Nat} (hj : i + 1 ≤ j)
    (hj' : j < i + 1 + n) : key j ≠ key i := by
  intro h
  have e : j = i := hinj (Set.mem_Ico.mpr ⟨by omega, by omega⟩) (Set.mem_Ico.mpr ⟨by omega, by omega⟩) h
  omega

theorem later_injOn (hinj : Set.InjOn key (Set.Ico i (i + (n + 1)))) :
    Set.InjOn key (Set.Ico (i + 1) (i + 1 + n)) := by
  apply hinj.mono
  intro j hj
  obtain ⟨h, h'⟩ := Set.mem_Ico.mp hj
  exact Set.mem_Ico.mpr ⟨by omega, by omega⟩

theorem After.cons (hinj : Set.InjOn key (Set.Ico i (i + (n + 1))))
    (h : After key f (i + 1) n (Function.update m (key i) (f i)) m') :
    After key f i (n + 1) m m' := by
  constructor
  · intro j hj hj'
    rcases Nat.eq_or_lt_of_le hj with rfl | hlt
    · rw [h.other _ fun x hx hx' => later_ne hinj hx hx', Function.update_self]
    · exact h.keys j hlt (by omega)
  · intro k hk
    rw [h.other k fun j hj hj' => hk j (by omega) (by omega)]
    exact Function.update_of_ne (Ne.symm (hk i (by omega) (by omega))) _ _

theorem ncard_bind (m : Map) (k : Key) (v : Val) :
    {x | Function.update m k (some v) x ≠ none}.ncard ≤ {x | m x ≠ none}.ncard + 1 := by
  have h : {x | Function.update m k (some v) x ≠ none} = insert k {x | m x ≠ none} := by
    ext x
    by_cases hx : x = k
    · rw [hx]
      simp
    · simp [hx]
  rw [h]
  exact Set.ncard_insert_le k _

end

section
variable {S : Type} {A : Adapter S} {cap : Nat} {R : S → Map → Prop} {key : Nat → Key} {m : Map} {s : S}
  {i n : Nat}

/-- **The rounds of `set`** on keys that are not there -/
theorem setLoop_spec (hA : IsMap A cap R) (hs : R s m) (hinj : Set.InjOn key (Set.Ico i (i + n)))
    (hshort : ∀ j, i ≤ j → j < i + n → Short (key j))
    (hfree : ∀ j, i ≤ j → j < i + n → m (key j) = none)
    (hcap : {k | m k ≠ none}.ncard + n ≤ cap) :
    ∃ s' m', setLoop A key n i s = .ok (some s') ∧ R s' m' ∧
      After key (fun j => some (UInt64.ofNat j)) i n m m' := by
  induction n generalizing i s m with
  | zero => exact ⟨s, m, rfl, hs, .nil⟩
  | succ n ih =>
    obtain ⟨s₁, e, hs₁⟩ := hA.add (UInt64.ofNat i) hs (hshort i (by omega) (by omega))
      (hfree i (by omega) (by omega)) (by omega)
    have hcard := ncard_bind m (key i) (UInt64.ofNat i)
    have hfree' : ∀ j, i + 1 ≤ j → j < i + 1 + n →
        Function.update m (key i) (some (UInt64.ofNat i)) (key j) = none := by
      intro j hj hj'
      rw [Function.update_of_ne (later_ne hinj hj hj')]
      exact hfree j (by omega) (by omega)
    obtain ⟨s', m', e', hs', hf⟩ := ih hs₁ (later_injOn hinj)
      (fun j hj hj' => hshort j (by omega) (by omega)) hfree' (by omega)
    refine ⟨s', m', ?_, hs', hf.cons hinj⟩
    show (A.add s (key i) (UInt64.ofNat i) >>= _) = _
    rw [e, ok_bind]
    exact e'

/-- **The rounds of `get`** on keys that are bound to their numbers -/
theorem getLoop_spec (hA : IsMap A cap R) (hs : R s m) (hi : 0 < i) (hn : i + n ≤ 2147483648)
    (hb : ∀ j, i ≤ j → j < i + n → m (key j) = some (UInt64.ofNat j)) :
    ∃ s', getLoop A key n i s = .ok (some s') ∧ R s' m := by
  induction n generalizing i s with
  | zero => exact ⟨s, rfl, hs⟩
  | succ n ih =>
    obtain ⟨s₁, e, hs₁⟩ := hA.find hs (hb i (by omega) (by omega))
    obtain ⟨s', e', hs'⟩ := ih (i := i + 1) hs₁ (by omega) (by omega)
      fun j hj hj' => hb j (by omega) (by omega)
    refine ⟨s', ?_, hs'⟩
    have hval : (UInt64.ofNat i).toNat = i := by
      apply UInt64.toNat_ofNat_of_lt'
      show i < 18446744073709551616
      omega
    have h0 : UInt64.ofNat i ≠ 0 := by
      intro h
      rw [h, UInt64.toNat_zero] at hval
      omega
    show (A.find s (key i) >>= _) = _
    rw [e, ok_bind]
    show (if UInt64.ofNat i = 0 then _ else _) = _
    rw [if_neg h0, hval, int32_of_lt (by omega), if_neg (by omega)]
    exact e'

/-- **The rounds of `cleanup`** on keys that are bound -/
theorem cleanupLoop_spec (hA : IsMap A cap R) (hs : R s m) (exits : Bool)
    (hinj : Set.InjOn key (Set.Ico i (i + n))) (hb : ∀ j, i ≤ j → j < i + n → m (key j) ≠ none) :
    ∃ s' m', cleanupLoop A key exits n i s = .ok (some s') ∧ R s' m' ∧
      After key (fun _ => none) i n m m' := by
  induction n generalizing i s m with
  | zero => exact ⟨s, m, rfl, hs, .nil⟩
  | succ n ih =>
    obtain ⟨s₁, e, hs₁⟩ := hA.del hs (hb i (by omega) (by omega))
    have hb' : ∀ j, i + 1 ≤ j → j < i + 1 + n → Function.update m (key i) none (key j) ≠ none := by
      intro j hj hj'
      rw [Function.update_of_ne (later_ne hinj hj hj')]
      exact hb j (by omega) (by omega)
    obtain ⟨s', m', e', hs', hf⟩ := ih hs₁ (later_injOn hinj) hb'
    refine ⟨s', m', ?_, hs', hf.cons hinj⟩
    show (A.del s (key i) >>= _) = _
    rw [e, ok_bind]
    exact e'

end

/-! ## one driver after another -/

section
variable {S : Type} {A : Adapter S} {cap : Nat} {R : S → Map → Prop} {key : Nat → Key}
  {f : Nat → Option Val} {m m₁ m₂ : Map} {s : S} {i n : Nat}

/-- what the rounds have bound and then unbound again -/
theorem After.undo (h : After key f i n m m₁) (h' : After key (fun _ => none) i n m₁ m₂)
    (hfree : ∀ j, i ≤ j → j < i + n → m (key j) = none) : m₂ = m := by
  funext k
  by_cases hk : ∃ j, i ≤ j ∧ j < i + n ∧ key j = k
  · obtain ⟨j, hj, hj', rfl⟩ := hk
    rw [h'.keys j hj hj', hfree j hj hj']
  · have hno : ∀ j, i ≤ j → j < i + n → key j ≠ k := fun j hj hj' e => hk ⟨j, hj, hj', e⟩
    rw [h'.other k hno, h.other k hno]

/-- the keys are stored, found and deleted -/
theorem rounds_pass (hA : IsMap A cap R) (hs : R s m) (exits : Bool) (hi : 0 < i)
    (hn : i + n ≤ 2147483648) (hinj : Set.InjOn key (Set.Ico i (i + n)))
    (hshort : ∀ j, i ≤ j → j < i + n → Short (key j))
    (hfree : ∀ j, i ≤ j → j < i + n → m (key j) = none)
    (hcap : {k | m k ≠ none}.ncard + n ≤ cap) :
    ∃ s₁ s₂ s₃, setLoop A key n i s = .ok (some s₁) ∧ getLoop A key n i s₁ = .ok (some s₂) ∧
      cleanupLoop A key exits n i s₂ = .ok (some s₃) ∧ R s₃ m := by
  obtain ⟨s₁, m₁, e₁, hs₁, h₁⟩ := setLoop_spec hA hs hinj hshort hfree hcap
  obtain ⟨s₂, e₂, hs₂⟩ := getLoop_spec hA hs₁ hi hn h₁.keys
  have hb : ∀ j, i ≤ j → j < i + n → m₁ (key j) ≠ none := by
    intro j hj hj'
    rw [h₁.keys j hj hj']
    exact Option.some_ne_none _
  obtain ⟨s₃, m₃, e₃, hs₃, h₃⟩ := cleanupLoop_spec hA hs₂ exits hinj hb
  rw [h₁.undo h₃ hfree] at hs₃
  exact ⟨s₁, s₂, s₃, e₁, e₂, e₃, hs₃⟩

end

section
variable {S : Type} {A : Adapter S} {cap : Nat} {R : S → Map → Prop} {rand : Nat → Nat} {iter : Int} {s : S}

theorem ncard_empty : {k | Map.empty k ≠ none}.ncard = 0 := by
  have h : {k | Map.empty k ≠ none} = ∅ := Set.eq_empty_of_forall_notMem fun k hk => hk rfl
  rw [h, Set.ncard_empty]

/-- the first part of `main` -/
theorem rand_passes (hA : IsMap A cap R) (hs : R s Map.empty) (hiter : iter ≤ 2147483647)
    (hcap : rounds iter ≤ cap) (hrand : Set.InjOn (fillRand rand) (Set.Ico 1 (1 + rounds iter))) :
    ∃ s₁ s₂ s₃, setRand A rand iter s = .ok (some s₁) ∧ getRand A rand iter s₁ = .ok (some s₂) ∧
      cleanupRand A rand iter s₂ = .ok (some s₃) ∧ R s₃ Map.empty :=
  rounds_pass hA hs false Nat.one_pos (by unfold rounds; omega) hrand
    (fun j _ _ => short_fillRand rand j) (fun _ _ _ => rfl) (by rw [ncard_empty]; omega)

/-- the other part of `main`, without threads -/
theorem decimal_passes (hA : IsMap A cap R) (hs : R s Map.empty) (hiter : iter ≤ 2147483647)
    (hcap : rounds iter ≤ cap) :
    ∃ s₁ s₂ s₃, set A iter s = .ok (some s₁) ∧ get A iter s₁ = .ok (some s₂) ∧
      cleanup A iter s₂ = .ok (some s₃) ∧ R s₃ Map.empty :=
  rounds_pass hA hs true Nat.one_pos (by unfold rounds; omega) decimal_injective.injOn
    (fun j _ hj => short_decimal (by unfold rounds at hj; omega)) (fun _ _ _ => rfl)
    (by rw [ncard_empty]; omega)

end

end Critbit.Bench
