import Critbit.Dict.Spec

/-!
# How full the tables are

`Load r s d`: not more than `r` entries to a bucket, and `s` entries more.  While the dict is rehashed, the
buckets of the old table that wait for their move count as entries of the new one: an entry may come for
each bucket that has moved, so that the new table is not too full when the last one has.

* `Step.load`, `Step.room`   a bucket that moves keeps the load, and makes room for an entry;
* `Grown.load`               so does a larger table;
* `push_load`, `assign_load`, `unlink_load`   what the entries do.
-/

namespace Critbit
open Obj
variable {K V : Type} {ty : DictType K}

namespace Dict
variable {d d' : Dict K V} {r s : Nat} {canResize : Bool}

def Load (r s : Nat) (d : Dict K V) : Prop :=
  if d.isRehashing then d.count + filled d.ht0 ≤ r * d.ht1.size + s else d.count ≤ r * d.ht0.size + s

theorem load_rehashing (hr : d.isRehashing = true) :
    Load r s d ↔ d.count + filled d.ht0 ≤ r * d.ht1.size + s := by
  unfold Load
  rw [if_pos hr]

theorem load_plain (hr : d.isRehashing = false) : Load r s d ↔ d.count ≤ r * d.ht0.size + s := by
  unfold Load
  rw [hr, if_neg nofun]

theorem Load.mono {s' : Nat} (h : Load r s d) (hs : s ≤ s') : Load r s' d := by
  cases hr : d.isRehashing with
  | true =>
    rw [load_rehashing hr] at h ⊢
    omega
  | false =>
    rw [load_plain hr] at h ⊢
    omega

theorem load_of_empty (hr : d.isRehashing = false) (hc : d.count = 0) : Load r s d := by
  rw [load_plain hr, hc]
  exact Nat.zero_le _

/-! ## changes that no map sees -/

theorem Bucket.load (B : Bucket ty d d') (S : d.Shape ty) (h : Load r (s + 1) d) : Load r s d' := by
  have hf := B.filled_eq
  have hc := (Step.bucket B).count S
  have hs : d'.ht1.size = d.ht1.size := by cases B; assumption
  have hr : d.isRehashing = true := by cases B; assumption
  rw [load_rehashing hr] at h
  rw [load_rehashing B.isRehashing, hc, hs]
  omega

theorem finish_load (hr : d.isRehashing = true) (hu : d.ht0.used = 0) (h : Load r s d) :
    Load r s { d with ht0 := d.ht1, ht1 := dictReset, rehashidx := -1 } := by
  rw [load_rehashing hr] at h
  refine (load_plain rfl).mpr ?_
  change d.ht1.used + 0 ≤ r * d.ht1.size + s
  unfold count at h
  omega

theorem Expand.load {size : Nat} {x : Int × Dict K V} (X : Expand d size x) (S : d.Shape ty)
    (hr : 2 * d.ht0.used ≤ r * size) (hx : x.1 = 0) : Load r 0 x.2 := by
  cases X with
  | refuse => cases hx
  | first _ h0 hn hs =>
    cases S with
    | new _ h1 hidx =>
      refine load_of_empty ?_ ?_
      · exact isRehashing_eq_false.mpr hidx
      · change 0 + d.ht1.used = 0
        rw [h1]
        rfl
    | plain W => exact absurd (congrArg Dictht.table h0) W.table_ne
    | rehashing _ W => exact absurd (congrArg Dictht.table h0) W.table_ne
  | @second n hreh h0 hu hn hs =>
    cases S with
    | new h => exact absurd (congrArg Dictht.table h) h0
    | rehashing _ _ _ hidx =>
      rw [isRehashing_eq_false, hidx] at hreh
      exact absurd hreh nofun
    | plain W =>
      refine (load_rehashing rfl).mpr ?_
      change d.ht0.used + 0 + filled d.ht0 ≤ r * n + 0
      have h1 := filled_le W
      have h2 := Nat.mul_le_mul_left r hs
      omega

/-- a table of a size that is asked for -/
theorem Expand.keeps {size : Nat} {x : Int × Dict K V} (X : Expand d size x) (S : d.Shape ty) (hr : 2 ≤ r)
    (h : Load r s d) : Load r s x.2 := by
  have hle : d.ht0.used ≤ size → 2 * d.ht0.used ≤ r * size := fun h => Nat.mul_le_mul hr h
  cases X with
  | refuse => exact h
  | first hr0 h0 hn hs =>
    exact ((Expand.first hr0 h0 hn hs).load S (hle (by rw [h0]; exact Nat.zero_le _)) rfl).mono (Nat.zero_le _)
  | second hreh h0 hu hn hs => exact ((Expand.second hreh h0 hu hn hs).load S (hle hu) rfl).mono (Nat.zero_le _)

theorem Step.load (h : Step ty d d') (S : d.Shape ty) (hl : Load r s d) : Load r s d' := by
  cases h with
  | none => exact hl
  | bucket B => exact B.load S (hl.mono (Nat.le_succ s))
  | finish hr hu => exact finish_load hr hu hl

theorem Step.room (h : Step ty d d') (S : d.Shape ty) (hit : d.iterators = 0) (hl : Load r (s + 1) d)
    (hr : d'.isRehashing = true) : Load r s d' := by
  cases h with
  | none h => exact absurd (h.resolve_right fun h => h hit) (by rw [hr]; nofun)
  | bucket B => exact B.load S hl
  | finish => cases hr

theorem Grown.load (G : Grown canResize d d') (S : d.Shape ty) (hr : 1 ≤ r) (hr' : canResize = true ∨ 6 ≤ r)
    (hl : d.isRehashing = true → Load r 0 d) : Load r 0 d' := by
  cases G with
  | rehashing h => exact hl h
  | room hreh hu =>
    rw [load_plain hreh]
    have h1 : d.ht1.used = 0 := by rw [S.of_not_rehashing hreh]; rfl
    have h2 : (if canResize = true then 1 else 6) * d.ht0.size ≤ r * d.ht0.size := by
      apply Nat.mul_le_mul_right
      split
      · omega
      · exact hr'.resolve_left ‹_›
    unfold count
    omega
  | grow _ hu hx => exact hx.load S (hu.trans (Nat.le_mul_of_pos_left _ hr)) rfl

/-! ## entries -/

theorem load_of_count (d' : Dict K V) (h : Load r s d) (hr : d'.isRehashing = d.isRehashing)
    (h0 : d'.ht0.size = d.ht0.size) (h1 : d'.ht1.size = d.ht1.size) (hf : filled d'.ht0 ≤ filled d.ht0)
    {n : Nat} (hc : d'.count ≤ d.count + n) : Load r (s + n) d' := by
  cases hreh : d.isRehashing with
  | true =>
    rw [load_rehashing hreh] at h
    rw [load_rehashing (hr.trans hreh), h1]
    omega
  | false =>
    rw [load_plain hreh] at h
    rw [load_plain (hr.trans hreh), h0]
    omega

theorem filled_set {t : Dictht K V} {i : Nat} {ch ch' : List (DictEntry K V)} (hc : t.table[i]? = some ch)
    (hne : ch ≠ []) (used : Nat) : filled { t.setChain i ch' with used := used } ≤ filled t := by
  obtain ⟨hi, rfl⟩ := List.getElem?_eq_some_iff.mp hc
  have hpos : 0 < t.table.countP fun ch => !ch.isEmpty :=
    List.countP_pos_iff.mpr ⟨_, List.getElem_mem hi, by simpa using hne⟩
  change (t.table.set i ch').countP (fun ch => !ch.isEmpty) ≤ t.table.countP fun ch => !ch.isEmpty
  rw [List.countP_set hi, if_pos (by simpa using hne)]
  split <;> omega

theorem put_load {b : Bool} {i : Nat} {ch ch' : List (DictEntry K V)} {used n : Nat}
    (hc : (d.ht b).table[i]? = some ch) (hne : b = true ∨ d.isRehashing = false ∨ ch ≠ [])
    (hu : used ≤ (d.ht b).used + n) (h : Load r s d) : Load r (s + n) (d.put b i ch' used) := by
  cases b with
  | true =>
    refine load_of_count (d.put true i ch' used) h rfl rfl rfl (Nat.le_refl _) (n := n) ?_
    change d.ht0.used + used ≤ d.ht0.used + d.ht1.used + n
    change used ≤ d.ht1.used + n at hu
    omega
  | false =>
    have hcount : (d.put false i ch' used).count ≤ d.count + n := by
      change used + d.ht1.used ≤ d.ht0.used + d.ht1.used + n
      change used ≤ d.ht0.used + n at hu
      omega
    cases hreh : d.isRehashing with
    | false =>
      rw [load_plain hreh] at h
      refine (load_plain (d := d.put false i ch' used) hreh).mpr ?_
      change (d.put false i ch' used).count ≤ r * d.ht0.size + (s + n)
      omega
    | true =>
      have hcne : ch ≠ [] := (hne.resolve_left nofun).resolve_left (by rw [hreh]; nofun)
      refine load_of_count (d.put false i ch' used) h rfl rfl rfl ?_ hcount
      exact filled_set hc hcne used

/-- an entry comes -/
theorem push_load {key : K} (C : Change ty d (some (.bind key)) d') (h : Load r s d) : Load r (s + 1) d' := by
  cases C with
  | push hc hi fresh =>
    refine put_load hc ?_ (Nat.le_refl _) h
    cases d.isRehashing with
    | true => exact .inl rfl
    | false => exact .inr (.inl rfl)

/-- a value comes -/
theorem assign_load {key : K} {val : V} (C : Change ty d (some (.assign key val)) d') (h : Load r s d) :
    Load r s d' := by
  cases C with
  | assign hc he => exact put_load (n := 0) hc (.inr (.inr fun e => by rw [e] at he; cases he)) (Nat.le_refl _) h

/-- an entry goes -/
theorem unlink_load {key : K} (C : Change ty d (some (.unbind key)) d') (h : Load r s d) : Load r s d' := by
  cases C with
  | unlink hc he => exact put_load (n := 0) hc (.inr (.inr fun e => by rw [e] at he; cases he)) (Nat.sub_le _ _) h

/-! ## how large they are -/

/-- the size of the smaller table -/
def minSize (d : Dict K V) : Nat := if d.isRehashing then min d.ht0.size d.ht1.size else d.ht0.size

theorem minSize_rehashing (hr : d.isRehashing = true) : d.minSize = min d.ht0.size d.ht1.size := if_pos hr

theorem minSize_plain (hr : d.isRehashing = false) : d.minSize = d.ht0.size := by
  unfold minSize
  rw [hr, if_neg nofun]

theorem Step.minSize (h : Step ty d d') : d.minSize ≤ d'.minSize := by
  cases h with
  | none => exact Nat.le_refl _
  | bucket B =>
    have hs : d'.ht1.size = d.ht1.size := by cases B; assumption
    have hs0 : d'.ht0.size = d.ht0.size := by cases B; rfl
    have hr : d.isRehashing = true := by cases B; assumption
    rw [minSize_rehashing hr, minSize_rehashing B.isRehashing, hs, hs0]
  | finish hr hu =>
    rw [minSize_rehashing hr]
    exact Nat.min_le_right _ _

theorem Grown.minSize (G : Grown canResize d d') : d.minSize ≤ d'.minSize := by
  cases G with
  | rehashing => exact Nat.le_refl _
  | room => exact Nat.le_refl _
  | grow hfull hu hx =>
    cases hx with
    | first hr h0 hn hs =>
      rw [minSize_plain hr, h0]
      exact Nat.zero_le _
    | @second n hr h0 _ hn hs =>
      have hle : d.ht0.size ≤ n := by omega
      rw [minSize_plain hr]
      exact Nat.le_min.mpr ⟨Nat.le_refl _, hle⟩

/-- entries come and go in tables of the same size -/
theorem put_minSize {b : Bool} {i : Nat} {ch : List (DictEntry K V)} {used : Nat} :
    (d.put b i ch used).minSize = d.minSize := by
  cases b <;> rfl

theorem Change.minSize {o : Option (Effect K V)} (C : Change ty d o d') (ho : o ≠ none) :
    d'.minSize = d.minSize := by
  cases C with
  | first | expand | bucket | finish => exact absurd rfl ho
  | push => exact put_minSize
  | assign => exact put_minSize
  | unlink => exact put_minSize

end Dict
end Critbit
