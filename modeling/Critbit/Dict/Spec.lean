import Critbit.Dict.Change

/-!
# The functions of the dict

What each function does to a dict in order, as changes one after another.

* `rehashBucket_spec`, `rehashLoop_spec`   buckets move, and the rehashing comes to its end;
* `Step`, `Grown`                          what a call does before it looks for its key;
* `dictAddRaw_spec`, `dictFind_spec`, `dictGenericDelete_spec`, `dictSetVal_spec`   the calls.
-/

namespace Critbit
open Obj
variable {K V : Type} {ty : DictType K}

/-- Every table of up to 2^30 buckets is granted, and every record and string. -/
structure DictMem.Grants (mem : DictMem) : Prop where
  calloc : ∀ n ≤ 8589934592, mem.calloc n = true
  malloc : mem.malloc = true

theorem DictMem.Grants.table {mem : DictMem} (hm : mem.Grants) {n : Nat} (hn : n ≤ 1073741824) :
    mem.table n = (List.replicate n [] : List (List (DictEntry K V))) := by
  have hbytes : sizeT ((n : Int) * 8) = n * 8 := by
    unfold sizeT
    omega
  simp only [DictMem.table, hbytes, Nat.mul_div_cancel n (by decide : 0 < 8)]
  exact if_pos (hm.calloc _ (by omega))

namespace Dict
variable {d d' : Dict K V} {key : K} {mem : DictMem}

/-! ## rehashing -/

theorem moveChain_spec (ch : List (DictEntry K V)) {d : Dict K V} (W : d.ht1.Wf ty) :
    ∃ t, moveChain ty ch d =
      .ok { d with ht0 := { d.ht0 with used := d.ht0.used - ch.length }, ht1 := t } ∧
      t.Wf ty ∧ t.size = d.ht1.size ∧ t.entries.Perm (ch ++ d.ht1.entries) := by
  induction ch generalizing d with
  | nil => exact ⟨d.ht1, rfl, W, rfl, .refl _⟩
  | cons de next ih =>
    obtain ⟨ch, hc⟩ := W.bucket_home de.key
    have hok : d.ht1.chain (DictType.index (ty.hashFunction de.key) d.ht1) = .ok ch := Dictht.chain_ok hc
    have hp : ∀ e ∈ de :: ch, d.ht1.home ty e.key = d.ht1.home ty de.key := by
      intro e he
      rcases List.mem_cons.mp he with rfl | he
      · rfl
      · exact W.place _ ch hc e he
    have W' : ({ d.ht1.setChain (d.ht1.home ty de.key) (de :: ch) with
        used := d.ht1.used + 1 } : Dictht K V).Wf ty := W.put hc hp (by rw [List.length_cons]; omega)
    obtain ⟨t, e, Wt, hs, hperm⟩ := ih (d := { d with
      ht0 := { d.ht0 with used := d.ht0.used - 1 }
      ht1 := { d.ht1.setChain (d.ht1.home ty de.key) (de :: ch) with used := d.ht1.used + 1 } }) W'
    refine ⟨t, ?_, Wt, hs, hperm.trans ?_⟩
    · simp only [moveChain, hok, ok_bind]
      refine e.trans ?_
      rw [List.length_cons, Nat.sub_sub, Nat.add_comm 1]
    · have hi := (List.getElem?_eq_some_iff.mp hc).1
      have h1 : (d.ht1.table.set (d.ht1.home ty de.key) (de :: ch)).flatten.Perm (de :: d.ht1.entries) :=
        (flatten_set_perm hi _).trans ((flatten_perm hc).symm.cons de)
      exact (h1.append_left next).trans List.perm_middle

/-- as long as an entry is left, the empty buckets are not all -/
theorem lt_of_below {t : Dictht K V} (W : t.Wf ty) (hu : t.used ≠ 0) {i : Nat}
    (below : ∀ j < i, t.table[j]? = some []) : i < t.size := by
  obtain ⟨e, he⟩ := List.exists_mem_of_length_pos (by rw [← W.used]; omega : 0 < t.entries.length)
  obtain ⟨j, ch, hc, hec⟩ := exists_bucket he
  by_contra hge
  have hj := W.lt_of_bucket hc
  rw [below j (by omega)] at hc
  cases hc
  cases hec

theorem incInt_ok {i : Nat} (hi : i < 2147483647) : incInt (i : Int) = .ok ((i + 1 : Nat) : Int) := by
  unfold incInt
  rw [if_neg (by omega)]
  rfl

theorem skipEmpty_spec {t : Dictht K V} (W : t.Wf ty) (hu : t.used ≠ 0) (fuel i : Nat)
    (hf : t.table.length < i + fuel) (below : ∀ j < i, t.table[j]? = some []) :
    ∃ (j : Nat) (ch : List (DictEntry K V)), skipEmpty t fuel i = .ok (j : Int) ∧ t.table[j]? = some ch ∧
      ch ≠ [] ∧ ∀ j' < j, t.table[j']? = some [] := by
  have hi := lt_of_below W hu below
  induction fuel generalizing i with
  | zero =>
    rw [W.length] at hf
    omega
  | succ fuel ih =>
    obtain ⟨ch, hc⟩ := W.bucket hi
    unfold skipEmpty
    rw [Dictht.chain_ok hc]
    cases ch with
    | cons e ch => exact ⟨i, e :: ch, rfl, hc, nofun, below⟩
    | nil =>
      have hle := W.size_le
      have below' : ∀ j < i + 1, t.table[j]? = some [] := by
        intro j hj
        rcases Nat.lt_succ_iff_lt_or_eq.mp hj with hlt | rfl
        · exact below j hlt
        · exact hc
      simp only [ok_bind, incInt_ok (by omega : i < 2147483647)]
      exact ih (i + 1) (by omega) below' (lt_of_below W hu below')

/-- one bucket moves, as long as there is one -/
theorem rehashBucket_spec (S : d.Shape ty) (hr : d.isRehashing = true) (hu : d.ht0.used ≠ 0) :
    ∃ d', rehashBucket ty d = .ok d' ∧ Bucket ty d d' := by
  obtain ⟨W0, W1, i, hidx, hi, below⟩ := S.of_rehashing hr
  obtain ⟨j, ch, hskip, hc, hne, below'⟩ :=
    skipEmpty_spec W0 hu (d.ht0.table.length + 1) i (by omega) below
  obtain ⟨t, hmove, Wt, hs, hp⟩ := moveChain_spec ch W1
  have hj := W0.lt_of_bucket hc
  have hle := W0.size_le
  refine ⟨_, ?_, .mk hr hc hne below' Wt hs hp⟩
  simp only [rehashBucket, hidx, hskip, ok_bind, Dictht.chain_ok hc, hmove,
    incInt_ok (by omega : j < 2147483647), pure_ok]
  rfl

/-- the buckets that are not empty -/
def filled (t : Dictht K V) : Nat := t.table.countP fun ch => !ch.isEmpty

theorem filled_le {t : Dictht K V} (W : t.Wf ty) : filled t ≤ t.used := by
  rw [W.used]
  unfold filled Dictht.entries
  induction t.table with
  | nil => exact Nat.le_refl 0
  | cons ch l ih =>
    rw [List.countP_cons, List.flatten_cons, List.length_append]
    cases ch with
    | nil => simpa using ih
    | cons e ch =>
      simp only [List.isEmpty_cons, Bool.not_false, if_true, List.length_cons]
      omega

theorem Bucket.filled_eq (B : Bucket ty d d') : filled d'.ht0 + 1 = filled d.ht0 := by
  obtain @⟨i, ch, t, hr, hc, hne, below, ht, hs, hp⟩ := B
  obtain ⟨hi, rfl⟩ := List.getElem?_eq_some_iff.mp hc
  have hpos : 0 < d.ht0.table.countP fun ch => !ch.isEmpty :=
    List.countP_pos_iff.mpr ⟨_, List.getElem_mem hi, by simp [hne]⟩
  change (d.ht0.table.set i []).countP (fun ch => !ch.isEmpty) + 1 = d.ht0.table.countP fun ch => !ch.isEmpty
  rw [List.countP_set hi, if_pos (by simp [hne])]
  simp only [List.isEmpty_nil, Bool.not_true, Bool.false_eq_true, if_false]
  omega

theorem Bucket.isRehashing (B : Bucket ty d d') : d'.isRehashing = true := by
  obtain @⟨i, ch, t, hr, hc, hne, below, ht, hs, hp⟩ := B
  have hi : (i : Int) + 1 ≠ -1 := by omega
  exact isRehashing_eq_true.mpr hi

/-- `_dictRehashStep`, and what keeps it from a step -/
inductive Step (ty : DictType K) (d : Dict K V) : Dict K V → Prop
  | none (h : d.isRehashing = false ∨ d.iterators ≠ 0) : Step ty d d
  | bucket {d' : Dict K V} (h : Bucket ty d d') : Step ty d d'
  | finish (hr : d.isRehashing = true) (hu : d.ht0.used = 0) :
      Step ty d { d with ht0 := d.ht1, ht1 := dictReset, rehashidx := -1 }

theorem Step.quiet (h : Step ty d d') : Quiet ty d d' := by
  cases h with
  | none => exact .refl
  | bucket B => exact .single (.bucket B)
  | finish hr hu => exact .single (.finish hr hu)

theorem Step.shape (h : Step ty d d') (S : d.Shape ty) : d'.Shape ty := h.quiet.shape S

/-- `_dictRehashStep`, which does nothing under an iterator -/
structure Paced (ty : DictType K) (d d' : Dict K V) : Prop where
  step : Step ty d d'
  waits : d.iterators ≠ 0 → d' = d

/-- **Rehashing `n` buckets**: they move if there are so many, and if there are fewer it ends. -/
theorem rehashLoop_spec (n : Nat) {d : Dict K V} (S : d.Shape ty) (hr : d.isRehashing = true) :
    ∃ r d', rehashLoop ty n d = .ok (r, d') ∧ Relation.ReflTransGen (Step ty) d d' ∧
      (r = 0 ∧ d'.isRehashing = false ∧ filled d.ht0 < n ∨
        r = 1 ∧ d'.isRehashing = true ∧ filled d'.ht0 + n = filled d.ht0) := by
  induction n generalizing d with
  | zero => exact ⟨1, d, rfl, .refl, .inr ⟨rfl, hr, rfl⟩⟩
  | succ n ih =>
    by_cases hu : d.ht0.used = 0
    · have hle := filled_le (S.of_rehashing hr).1
      refine ⟨0, _, by rw [rehashLoop, if_pos hu]; rfl, .single (.finish hr hu), .inl ⟨rfl, rfl, ?_⟩⟩
      omega
    · obtain ⟨d1, hb, B⟩ := rehashBucket_spec S hr hu
      obtain ⟨r, d', e, ht, hret⟩ := ih ((Change.bucket B).shape S) B.isRehashing
      have hf := B.filled_eq
      refine ⟨r, d', ?_, .head (.bucket B) ht, ?_⟩
      · rw [rehashLoop, if_neg hu, hb, ok_bind]
        exact e
      · exact hret.imp (fun ⟨h1, h2, h3⟩ => ⟨h1, h2, by omega⟩) fun ⟨h1, h2, h3⟩ => ⟨h1, h2, by omega⟩

theorem dictRehash_spec (n : Nat) (S : d.Shape ty) :
    ∃ r d', dictRehash ty d n = .ok (r, d') ∧ Relation.ReflTransGen (Step ty) d d' ∧
      (r = 0 ∧ d'.isRehashing = false ∧ (d.isRehashing = true → filled d.ht0 < n) ∨
        r = 1 ∧ d'.isRehashing = true ∧ filled d'.ht0 + n = filled d.ht0) := by
  unfold dictRehash
  cases hr : d.isRehashing with
  | false => exact ⟨0, d, rfl, .refl, .inl ⟨rfl, hr, nofun⟩⟩
  | true =>
    obtain ⟨r, d', e, ht, hret⟩ := rehashLoop_spec n S hr
    exact ⟨r, d', e, ht, hret.imp_left fun ⟨h1, h2, h3⟩ => ⟨h1, h2, fun _ => h3⟩⟩

theorem dictRehashStep_spec (S : d.Shape ty) : ∃ d', dictRehashStep ty d = .ok d' ∧ Paced ty d d' := by
  unfold dictRehashStep
  by_cases h : d.isRehashing = true ∧ d.iterators = 0
  · rw [if_pos h]
    unfold dictRehash
    rw [if_pos h.1, rehashLoop]
    by_cases hu : d.ht0.used = 0
    · rw [if_pos hu]
      exact ⟨_, rfl, .finish h.1 hu, fun hi => absurd h.2 hi⟩
    · obtain ⟨d1, hb, B⟩ := rehashBucket_spec S h.1 hu
      rw [if_neg hu, hb]
      exact ⟨d1, rfl, .bucket B, fun hi => absurd h.2 hi⟩
  · rw [if_neg h]
    refine ⟨d, rfl, .none ?_, fun _ => rfl⟩
    rcases not_and_or.mp h with h | h
    · exact .inl (Bool.eq_false_of_not_eq_true h)
    · exact .inr h

theorem Step.count (h : Step ty d d') (S : d.Shape ty) : d'.count = d.count := by
  cases h with
  | none => rfl
  | bucket B =>
    obtain @⟨i, ch, t, hr, hc, hne, below, ht, hs, hp⟩ := B
    obtain ⟨W0, W1, -⟩ := S.of_rehashing hr
    have h1 := W0.length_le hc
    have h2 := hp.length_eq
    rw [List.length_append, ← ht.used, ← W1.used] at h2
    change d.ht0.used - ch.length + t.used = d.ht0.used + d.ht1.used
    omega
  | finish hr hu =>
    change d.ht1.used + 0 = d.ht0.used + d.ht1.used
    omega

/-- without a first table, there is nothing -/
theorem Shape.size_cases (S : d.Shape ty) :
    d.ht0.size = 0 ∧ d.isRehashing = false ∧ d.entries = [] ∨ d.ht0.size ≠ 0 ∧ d.ht0.Wf ty := by
  cases S with
  | new h0 h1 hr =>
    refine .inl ⟨by rw [h0]; rfl, isRehashing_eq_false.mpr hr, ?_⟩
    simp only [entries, h0, h1, Dictht.entries_reset, List.append_nil]
  | plain W => exact .inr ⟨Nat.ne_of_gt W.size_pos, W⟩
  | rehashing _ W => exact .inr ⟨Nat.ne_of_gt W.size_pos, W⟩

theorem Step.wf (h : Step ty d d') (S : d.Shape ty) (W : d.ht0.Wf ty) : d'.ht0.Wf ty := by
  cases h with
  | none => exact W
  | bucket B => exact ((Change.bucket B).shape S).of_rehashing B.isRehashing |>.1
  | finish hr hu => exact (S.of_rehashing hr).2.1

/-! ## growing -/

theorem nextPowerLoop_spec {size : Nat} (hs : size ≤ 2 ^ 30) (fuel k : Nat) (hk : 2 ≤ k) (hk' : k ≤ 30)
    (hf : 30 < k + fuel) :
    ∃ n, 2 ≤ n ∧ n ≤ 30 ∧ dictNextPowerLoop size fuel (2 ^ k) = 2 ^ n ∧ size ≤ 2 ^ n := by
  induction fuel generalizing k with
  | zero => omega
  | succ fuel ih =>
    unfold dictNextPowerLoop
    by_cases h : size ≤ 2 ^ k
    · rw [if_pos h]
      exact ⟨k, hk, hk', rfl, h⟩
    · rw [if_neg h, ← Nat.pow_succ]
      have hlt : k < 30 := by
        by_contra hge
        have e : k = 30 := by omega
        subst e
        exact h hs
      exact ih (k + 1) (by omega) hlt (by omega)

theorem dictNextPower_spec {size : Nat} (hs : size ≤ 1073741824) :
    ∃ k, 2 ≤ k ∧ k ≤ 30 ∧ dictNextPower size = 2 ^ k ∧ size ≤ 2 ^ k := by
  unfold dictNextPower
  rw [if_neg (by omega)]
  exact nextPowerLoop_spec hs 63 2 (by decide) (by decide) (by decide)

/-- `dictExpand`: it makes the first table, or a second one -/
inductive Expand (d : Dict K V) (size : Nat) : Int × Dict K V → Prop
  | refuse (h : d.isRehashing = true ∨ size < d.ht0.used) : Expand d size (1, d)
  | first {n : Nat} (hr : d.isRehashing = false) (h0 : d.ht0 = dictReset)
      (hn : ∃ k, 2 ≤ k ∧ k ≤ 30 ∧ n = 2 ^ k) (hs : size ≤ n) :
      Expand d size (0, { d with ht0 := ⟨List.replicate n [], n, n - 1, 0⟩ })
  | second {n : Nat} (hr : d.isRehashing = false) (h0 : d.ht0.table ≠ []) (hu : d.ht0.used ≤ size)
      (hn : ∃ k, 2 ≤ k ∧ k ≤ 30 ∧ n = 2 ^ k) (hs : size ≤ n) :
      Expand d size (0, { d with ht1 := ⟨List.replicate n [], n, n - 1, 0⟩, rehashidx := 0 })

theorem dictExpand_spec (hm : mem.Grants) (S : d.Shape ty) {size : Nat} (hs : size ≤ 1073741824) :
    Expand d size (dictExpand mem d size) := by
  obtain ⟨k, h2, h30, e, hle⟩ := dictNextPower_spec hs
  have htable : mem.table (2 ^ k) = (List.replicate (2 ^ k) [] : List (List (DictEntry K V))) :=
    hm.table (Nat.pow_le_pow_right (by decide) h30 : 2 ^ k ≤ 2 ^ 30)
  simp only [dictExpand, e, htable]
  by_cases h : d.isRehashing = true ∨ size < d.ht0.used
  · rw [if_pos h]
    exact .refuse h
  · rw [if_neg h]
    obtain ⟨hr, hu⟩ := not_or.mp h
    have hr' := Bool.eq_false_of_not_eq_true hr
    by_cases h0 : d.ht0.table = []
    · rw [if_pos h0]
      refine .first hr' ?_ ⟨k, h2, h30, rfl⟩ hle
      cases S with
      | new h => exact h
      | plain W => exact absurd h0 W.table_ne
      | rehashing _ W => exact absurd h0 W.table_ne
    · rw [if_neg h0]
      exact .second hr' h0 (Nat.le_of_not_lt hu) ⟨k, h2, h30, rfl⟩ hle

theorem Expand.quiet (ty : DictType K) {size : Nat} {x : Int × Dict K V} (h : Expand d size x) :
    Quiet ty d x.2 := by
  cases h with
  | refuse => exact .refl
  | first _ h0 hn hs => exact .single (.first hn h0)
  | second hr h0 hu hn hs => exact .single (.expand hn (hu.trans hs) h0 hr)

/-- `_dictExpandIfNeeded` -/
inductive Grown (canResize : Bool) (d : Dict K V) : Dict K V → Prop
  | rehashing (hr : d.isRehashing = true) : Grown canResize d d
  | room (hr : d.isRehashing = false) (hu : d.ht0.used < (if canResize then 1 else 6) * d.ht0.size) :
      Grown canResize d d
  | grow {size : Nat} {d' : Dict K V} (hfull : d.ht0.size ≤ d.ht0.used) (hu : 2 * d.ht0.used ≤ size)
      (hx : Expand d size (0, d')) : Grown canResize d d'

theorem dictExpandIfNeeded_spec (hm : mem.Grants) (canResize : Bool) (S : d.Shape ty)
    (hu : d.ht0.used ≤ 536870912) :
    ∃ d', dictExpandIfNeeded mem canResize d = (0, d') ∧ Grown canResize d d' := by
  have ok : ∀ size, d.ht0.size ≤ d.ht0.used → 2 * d.ht0.used ≤ size → size ≤ 1073741824 →
      d.isRehashing = false → ∃ d', dictExpand mem d size = (0, d') ∧ Grown canResize d d' := by
    intro size hfull h1 h2 hreh
    have hx := dictExpand_spec hm S h2
    generalize dictExpand mem d size = x at hx
    cases hx with
    | refuse h =>
      rcases h with h | h
      · exact absurd h (by rw [hreh]; nofun)
      · omega
    | first hr h0 hn hs => exact ⟨_, rfl, .grow hfull h1 (.first hr h0 hn hs)⟩
    | second hr h0 hu hn hs => exact ⟨_, rfl, .grow hfull h1 (.second hr h0 hu hn hs)⟩
  unfold dictExpandIfNeeded
  cases hreh : d.isRehashing with
  | true => exact ⟨d, rfl, .rehashing hreh⟩
  | false =>
    rw [if_neg nofun]
    by_cases h0 : d.ht0.size = 0
    · rw [if_pos h0]
      refine ok 4 (by omega) ?_ (by decide) hreh
      cases S with
      | new h =>
        rw [h]
        exact Nat.zero_le 4
      | plain W => exact absurd h0 (Nat.ne_of_gt W.size_pos)
      | rehashing _ W => exact absurd h0 (Nat.ne_of_gt W.size_pos)
    · rw [if_neg h0]
      by_cases hfull : d.ht0.size ≤ d.ht0.used ∧ (canResize = true ∨ 5 < d.ht0.used / d.ht0.size)
      · rw [if_pos hfull]
        exact ok _ hfull.1 (by omega) (by omega) hreh
      · rw [if_neg hfull]
        refine ⟨d, rfl, .room hreh ?_⟩
        cases canResize with
        | true =>
          rw [if_pos rfl, Nat.one_mul]
          exact Nat.lt_of_not_le fun hle => hfull ⟨hle, .inl rfl⟩
        | false =>
          -- not allowed to grow yet, unless there are six times as many entries as buckets
          rw [if_neg nofun]
          by_contra hge
          have h5 : 5 < d.ht0.used / d.ht0.size :=
            Nat.lt_of_lt_of_le (by decide : 5 < 6)
              ((Nat.le_div_iff_mul_le (Nat.pos_of_ne_zero h0)).mpr (Nat.le_of_not_lt hge))
          exact hfull ⟨by omega, .inr h5⟩

theorem Grown.quiet (ty : DictType K) {canResize : Bool} (h : Grown canResize d d') : Quiet ty d d' := by
  cases h with
  | rehashing => exact .refl
  | room => exact .refl
  | grow _ _ hx => exact hx.quiet ty

theorem Grown.wf {canResize : Bool} (h : Grown canResize d d') (S : d'.Shape ty) : d'.ht0.Wf ty := by
  cases S with
  | plain W => exact W
  | rehashing _ W => exact W
  | new h0 h1 hr =>
    exfalso
    cases h with
    | rehashing hreh => exact isRehashing_eq_true.mp hreh hr
    | room hreh hu =>
      rw [h0] at hu
      exact absurd hu (Nat.not_lt_zero 0)
    | grow _ _ hx =>
      cases hx with
      | first _ _ hn hs =>
        obtain ⟨k, -, -, rfl⟩ := hn
        exact absurd (congrArg Dictht.size h0) (Nat.ne_of_gt (Nat.two_pow_pos k))
      | second => exact absurd hr nofun

/-! ## keys -/

/-- `*ref` is `e` -/
def At (d : Dict K V) (ref : EntryRef) (e : DictEntry K V) : Prop :=
  ∃ ch, (d.ht ref.table).table[ref.index]? = some ch ∧ ch[ref.pos]? = some e

theorem entry_ok {ref : EntryRef} {e : DictEntry K V} (h : d.At ref e) : d.entry ref = .ok e := by
  obtain ⟨ch, hc, he⟩ := h
  unfold entry
  simp only [Dictht.chain_ok hc, ok_bind, he, pure_ok]

/-- what the walks down the chains of a key can come to -/
inductive Search (ty : DictType K) (d : Dict K V) (key : K) : Prop
  | first {pos : Nat} {e : DictEntry K V} (h : d.At ⟨false, d.ht0.home ty key, pos⟩ e) (hk : e.key = key)
      (h0 : searchTable ty d.ht0 key = .ok (d.ht0.home ty key, some pos))
  | second {pos : Nat} {e : DictEntry K V} (h : d.At ⟨true, d.ht1.home ty key, pos⟩ e) (hk : e.key = key)
      (h0 : searchTable ty d.ht0 key = .ok (d.ht0.home ty key, none)) (hr : d.isRehashing = true)
      (h1 : searchTable ty d.ht1 key = .ok (d.ht1.home ty key, some pos))
  | missing (hk : ∀ e ∈ d.entries, e.key ≠ key)
      (h0 : searchTable ty d.ht0 key = .ok (d.ht0.home ty key, none))
      (h1 : d.isRehashing = true → searchTable ty d.ht1 key = .ok (d.ht1.home ty key, none))

theorem Shape.search (S : d.Shape ty) (W : d.ht0.Wf ty) (key : K) : Search ty d key := by
  rcases W.search key with ⟨ch, pos, e, hc, he, hk, h0⟩ | ⟨hnone, h0⟩
  · exact .first ⟨ch, hc, he⟩ hk h0
  cases hr : d.isRehashing with
  | false =>
    refine .missing (fun e he => ?_) h0 fun h => absurd h (by rw [hr]; nofun)
    unfold entries at he
    rw [S.of_not_rehashing hr, Dictht.entries_reset, List.append_nil] at he
    exact hnone e he
  | true =>
    obtain ⟨-, W1, -⟩ := S.of_rehashing hr
    rcases W1.search key with ⟨ch, pos, e, hc, he, hk, h1⟩ | ⟨hnone1, h1⟩
    · exact .second ⟨ch, hc, he⟩ hk h0 hr h1
    · refine .missing (fun e he => ?_) h0 fun _ => h1
      rcases List.mem_append.mp he with he | he
      · exact hnone e he
      · exact hnone1 e he

theorem At.mem_entries {ref : EntryRef} {e : DictEntry K V} (h : d.At ref e) : e ∈ d.entries := by
  obtain ⟨ch, hc, he⟩ := h
  obtain ⟨b, i, pos⟩ := ref
  have hm := Dictht.Wf.mem_entries hc (List.mem_of_getElem? he)
  cases b with
  | false => exact List.mem_append_left _ hm
  | true => exact List.mem_append_right _ hm

/-- the table that a new key goes to -/
theorem dictKeyIndex_spec (hm : mem.Grants) (canResize : Bool) (S : d.Shape ty)
    (hu : d.ht0.used ≤ 536870912) (key : K) :
    ∃ d', Grown canResize d d' ∧
      ((∃ e ∈ d'.entries, e.key = key) ∧ dictKeyIndex ty mem canResize d key = .ok (-1, d') ∨
        (∀ e ∈ d'.entries, e.key ≠ key) ∧ (d'.ht d'.isRehashing).Wf ty ∧
        dictKeyIndex ty mem canResize d key = .ok (((d'.ht d'.isRehashing).home ty key : Nat), d')) := by
  obtain ⟨d', hx, G⟩ := dictExpandIfNeeded_spec hm canResize S hu
  have S' : d'.Shape ty := (G.quiet ty).shape S
  have W := G.wf S'
  refine ⟨d', G, ?_⟩
  unfold dictKeyIndex
  simp only [hx]
  rw [if_neg nofun]
  cases S'.search W key with
  | first h hk h0 =>
    simp only [h0, ok_bind]
    exact .inl ⟨⟨_, h.mem_entries, hk⟩, rfl⟩
  | second h hk h0 hreh h1 =>
    simp only [h0, ok_bind, hreh, h1]
    exact .inl ⟨⟨_, h.mem_entries, hk⟩, rfl⟩
  | missing hk h0 h1 =>
    refine .inr ⟨hk, ?_⟩
    cases hreh : d'.isRehashing with
    | false =>
      refine ⟨W, ?_⟩
      simp only [h0, ok_bind]
      exact congrArg (fun i : Int => Except.ok (i, d')) (W.int32_index _)
    | true =>
      obtain ⟨-, W1, -⟩ := S'.of_rehashing hreh
      refine ⟨W1, ?_⟩
      simp only [h0, h1 hreh, ok_bind]
      exact congrArg (fun i : Int => Except.ok (i, d')) (W1.int32_index _)

/-- a new key at the head of its chain, or no change if it is there -/
theorem dictAddRaw_spec (hm : mem.Grants) (canResize : Bool) (S : d.Shape ty) (hu : d.count ≤ 536870912)
    (key : K) :
    ∃ d1 d2, Paced ty d d1 ∧ Grown canResize d1 d2 ∧
      ((∃ e ∈ d2.entries, e.key = key) ∧ dictAddRaw ty mem canResize d key = .ok (none, d2) ∨
        ∃ ref d3, (∀ e ∈ d2.entries, e.key ≠ key) ∧ Change ty d2 (some (.bind key)) d3 ∧
          d3.At ref ⟨key, none⟩ ∧ dictAddRaw ty mem canResize d key = .ok (some ref, d3)) := by
  obtain ⟨d1, h1, hstep⟩ := dictRehashStep_spec S
  have S1 := hstep.step.shape S
  have hc1 := hstep.step.count S
  obtain ⟨d2, G, hkey⟩ := dictKeyIndex_spec hm canResize S1 (by unfold count at hc1 hu; omega) key
  refine ⟨d1, d2, hstep, G, ?_⟩
  unfold dictAddRaw
  simp only [h1, ok_bind]
  rcases hkey with ⟨hk, hx⟩ | ⟨hk, W, hx⟩
  · simp only [hx, ok_bind]
    exact .inl ⟨hk, rfl⟩
  · obtain ⟨ch, hc⟩ := W.bucket_home key
    refine .inr ⟨⟨d2.isRehashing, (d2.ht d2.isRehashing).home ty key, 0⟩, _, hk, .push hc rfl hk,
      ⟨⟨key, none⟩ :: ch, ?_, rfl⟩, ?_⟩
    · change ((d2.put _ _ _ _).ht d2.isRehashing).table[_]? = _
      rw [put_table]
      exact List.getElem?_set_self (List.getElem?_eq_some_iff.mp hc).1
    · simp only [hx, ok_bind]
      rw [if_neg (by omega), if_pos hm.malloc, Dictht.chain_ok hc]
      rfl

theorem dictSetVal_spec (ty : DictType K) {ref : EntryRef} {e : DictEntry K V} (h : d.At ref e) (val : V) :
    ∃ d', dictSetVal d ref val = .ok d' ∧ Change ty d (some (.assign e.key val)) d' ∧
      d'.At ref { e with val := some val } := by
  have hent := entry_ok h
  obtain ⟨ch, hc, he⟩ := h
  refine ⟨_, ?_, .assign hc he, ch.set ref.pos { e with val := some val }, ?_, ?_⟩
  · simp only [dictSetVal, hent, ok_bind, Dictht.chain_ok hc, pure_ok]
    rfl
  · rw [put_table]
    exact List.getElem?_set_self (List.getElem?_eq_some_iff.mp hc).1
  · exact List.getElem?_set_self (List.getElem?_eq_some_iff.mp he).1

/-- `dictFind`, with a step of the rehashing before -/
theorem dictFind_spec (S : d.Shape ty) (key : K) :
    ∃ d1, Paced ty d d1 ∧
      ((∃ ref e, d1.At ref e ∧ e.key = key ∧ dictFind ty d key = .ok (some ref, d1)) ∨
        (∀ e ∈ d1.entries, e.key ≠ key) ∧ dictFind ty d key = .ok (none, d1)) := by
  rcases S.size_cases with ⟨hsize, hreh, hempty⟩ | ⟨hsize, W⟩
  · refine ⟨d, ⟨.none (.inl hreh), fun _ => rfl⟩, .inr ⟨fun e he => ?_, by rw [dictFind, if_pos hsize]; rfl⟩⟩
    rw [hempty] at he
    cases he
  · obtain ⟨d1, h1, hstep⟩ := dictRehashStep_spec S
    refine ⟨d1, hstep, ?_⟩
    unfold dictFind
    rw [if_neg hsize, h1, ok_bind]
    cases (hstep.step.shape S).search (hstep.step.wf S W) key with
    | first h hk h0 =>
      simp only [h0, ok_bind]
      exact .inl ⟨_, _, h, hk, rfl⟩
    | second h hk h0 hreh hs1 =>
      simp only [h0, ok_bind, hreh, hs1]
      exact .inl ⟨_, _, h, hk, rfl⟩
    | missing hk h0 hs1 =>
      refine .inr ⟨hk, ?_⟩
      cases hreh : d1.isRehashing with
      | false => simp only [h0, ok_bind]; rfl
      | true => simp only [h0, ok_bind, hs1 hreh]; rfl

theorem unlinkEntry_ok (ty : DictType K) {ref : EntryRef} {e : DictEntry K V} (h : d.At ref e) :
    ∃ d', unlinkEntry d ref = .ok d' ∧ Change ty d (some (.unbind e.key)) d' := by
  obtain ⟨ch, hc, he⟩ := h
  refine ⟨_, ?_, .unlink hc he⟩
  simp only [unlinkEntry, Dictht.chain_ok hc, ok_bind, pure_ok]
  rfl

/-- `dictGenericDelete`, with a step of the rehashing before -/
theorem dictGenericDelete_spec (S : d.Shape ty) (key : K) :
    ∃ d1, Paced ty d d1 ∧
      ((∃ d2, (∃ e ∈ d1.entries, e.key = key) ∧ Change ty d1 (some (.unbind key)) d2 ∧
          dictGenericDelete ty d key = .ok (0, d2)) ∨
        (∀ e ∈ d1.entries, e.key ≠ key) ∧ dictGenericDelete ty d key = .ok (1, d1)) := by
  rcases S.size_cases with ⟨hsize, hreh, hempty⟩ | ⟨hsize, W⟩
  · refine ⟨d, ⟨.none (.inl hreh), fun _ => rfl⟩, .inr ⟨fun e he => ?_, by rw [dictGenericDelete, if_pos hsize]; rfl⟩⟩
    rw [hempty] at he
    cases he
  · obtain ⟨d1, h1, hstep⟩ := dictRehashStep_spec S
    refine ⟨d1, hstep, ?_⟩
    unfold dictGenericDelete
    rw [if_neg hsize, h1, ok_bind]
    cases (hstep.step.shape S).search (hstep.step.wf S W) key with
    | first h hk h0 =>
      subst hk
      obtain ⟨d2, hun, C⟩ := unlinkEntry_ok ty h
      simp only [h0, ok_bind, hun]
      exact .inl ⟨d2, ⟨_, h.mem_entries, rfl⟩, C, rfl⟩
    | second h hk h0 hreh hs1 =>
      subst hk
      obtain ⟨d2, hun, C⟩ := unlinkEntry_ok ty h
      simp only [h0, ok_bind, hreh, hs1, hun]
      exact .inl ⟨d2, ⟨_, h.mem_entries, rfl⟩, C, rfl⟩
    | missing hk h0 hs1 =>
      refine .inr ⟨hk, ?_⟩
      cases hreh : d1.isRehashing with
      | false => simp only [h0, ok_bind]; rfl
      | true => simp only [h0, ok_bind, hs1 hreh]; rfl

/-! ## emptying -/

theorem clearLoop_eq (table : List (List (DictEntry K V))) {used : Nat} (hu : used = table.flatten.length) :
    clearLoop table used = table.flatten := by
  induction table generalizing used with
  | nil => rfl
  | cons ch table ih =>
    unfold clearLoop
    by_cases h : used = 0
    · rw [if_pos h]
      exact (List.eq_nil_of_length_eq_zero (hu.symm.trans h)).symm
    · rw [if_neg h, List.flatten_cons]
      rw [List.flatten_cons, List.length_append] at hu
      rw [ih (by omega)]

/-- every entry is freed -/
theorem dictEmpty_spec (S : d.Shape ty) : (dictEmpty d).1 = d.entries := by
  have hreset : clearLoop (dictReset : Dictht K V).table (dictReset : Dictht K V).used = [] := rfl
  simp only [dictEmpty, dictClear]
  unfold entries
  cases S with
  | new h0 h1 => rw [h0, h1, hreset, Dictht.entries_reset]
  | plain W h1 => rw [h1, hreset, Dictht.entries_reset, clearLoop_eq _ W.used]; rfl
  | rehashing _ W0 W1 => rw [clearLoop_eq _ W0.used, clearLoop_eq _ W1.used]; rfl

end Dict
end Critbit
