import Mathlib.Data.List.Nodup
import Mathlib.Data.List.Perm.Basic
import Mathlib.Data.Set.Card
import Mathlib.Logic.Function.Basic
import Mathlib.Tactic.Common

/-!
# A map as a list of entries, and as buckets of entries

`Lists key val l m`: the entries of `l` are what the map `m` binds, each key once.  An entry in front binds
its key, one less unbinds it, and the order of the entries does not count.

* `Lists.cons`, `Lists.tail`, `Lists.change`   an entry more, one less, another value;
* `flatten_set_perm`                           a bucket, apart from the others.
-/

namespace Obj
variable {K X E : Type*}

/-- the entries `l` are the map `m` -/
structure Lists (key : E → K) (val : E → X) (l : List E) (m : K → Option X) : Prop where
  nodup : (l.map key).Nodup
  sound : ∀ e ∈ l, m (key e) = some (val e)
  complete : ∀ k, m k ≠ none → ∃ e ∈ l, key e = k

namespace Lists
variable {key : E → K} {val : E → X} {l l' : List E} {m : K → Option X} {e e' : E} {k : K}

theorem nil : Lists key val [] fun _ => none :=
  ⟨List.nodup_nil, fun _ h => absurd h List.not_mem_nil, fun _ h => absurd rfl h⟩

theorem perm (h : Lists key val l m) (hl : l.Perm l') : Lists key val l' m where
  nodup := (hl.map key).nodup_iff.mp h.nodup
  sound e he := h.sound e (hl.mem_iff.mpr he)
  complete k hk := by
    obtain ⟨e, he, hek⟩ := h.complete k hk
    exact ⟨e, hl.mem_iff.mp he, hek⟩

theorem none_iff (h : Lists key val l m) : m k = none ↔ ∀ e ∈ l, key e ≠ k := by
  constructor
  · rintro hk e he rfl
    cases hk.symm.trans (h.sound e he)
  · intro hne
    by_contra hk
    obtain ⟨e, he, hek⟩ := h.complete k hk
    exact hne e he hek

/-- as many entries as bound keys -/
theorem length_eq (h : Lists key val l m) : l.length = {k | m k ≠ none}.ncard := by
  classical
  have hs : {k | m k ≠ none} = ((l.map key).toFinset : Set K) := by
    ext k
    rw [List.coe_toFinset]
    show m k ≠ none ↔ k ∈ l.map key
    rw [List.mem_map]
    constructor
    · exact h.complete k
    · rintro ⟨e, he, rfl⟩ hk
      cases hk.symm.trans (h.sound e he)
  rw [hs, Set.ncard_coe_finset, List.toFinset_card_of_nodup h.nodup, List.length_map]

variable [DecidableEq K]

theorem cons (h : Lists key val l m) (hk : m (key e) = none) :
    Lists key val (e :: l) (Function.update m (key e) (some (val e))) where
  nodup := by
    refine List.nodup_cons.mpr ⟨fun hm => ?_, h.nodup⟩
    obtain ⟨e', he', hek⟩ := List.mem_map.mp hm
    exact h.none_iff.mp hk e' he' hek
  sound e' he' := by
    rcases List.mem_cons.mp he' with rfl | he'
    · exact Function.update_self ..
    · rw [Function.update_of_ne (h.none_iff.mp hk e' he')]
      exact h.sound e' he'
  complete k hb := by
    by_cases e0 : k = key e
    · exact ⟨e, List.mem_cons_self .., e0.symm⟩
    · rw [Function.update_of_ne e0] at hb
      obtain ⟨e', he', hek⟩ := h.complete k hb
      exact ⟨e', List.mem_cons_of_mem _ he', hek⟩

theorem tail (h : Lists key val (e :: l) m) : Lists key val l (Function.update m (key e) none) := by
  have hnot : ∀ e' ∈ l, key e' ≠ key e := fun e' he' hk =>
    (List.nodup_cons.mp h.nodup).1 (hk ▸ List.mem_map_of_mem he')
  refine ⟨(List.nodup_cons.mp h.nodup).2, fun e' he' => ?_, fun k hb => ?_⟩
  · rw [Function.update_of_ne (hnot e' he')]
    exact h.sound e' (List.mem_cons_of_mem _ he')
  · by_cases e0 : k = key e
    · subst e0
      exact absurd (Function.update_self ..) hb
    · rw [Function.update_of_ne e0] at hb
      obtain ⟨e', he', hek⟩ := h.complete k hb
      rcases List.mem_cons.mp he' with rfl | he'
      · exact absurd hek.symm e0
      · exact ⟨e', he', hek⟩

theorem change (h : Lists key val (e :: l) m) (hk : key e' = key e) :
    Lists key val (e' :: l) (Function.update m (key e) (some (val e'))) := by
  have h' := h.tail.cons (e := e') (by rw [hk]; exact Function.update_self ..)
  rwa [hk, Function.update_idem] at h'

end Lists

/-! ## buckets -/

/-- the bucket `i`, and all the others -/
theorem flatten_set_perm {b : List (List E)} {i : Nat} (hi : i < b.length) (c : List E) :
    (b.set i c).flatten.Perm (c ++ (b.set i []).flatten) := by
  rw [List.set_eq_take_append_cons_drop, List.set_eq_take_append_cons_drop, if_pos hi, if_pos hi]
  simp only [List.flatten_append, List.flatten_cons, List.nil_append]
  exact List.perm_append_comm_assoc ..

theorem flatten_perm {b : List (List E)} {i : Nat} {c : List E} (hc : b[i]? = some c) :
    b.flatten.Perm (c ++ (b.set i []).flatten) := by
  obtain ⟨hi, rfl⟩ := List.getElem?_eq_some_iff.mp hc
  have hp := flatten_set_perm hi b[i]
  rwa [List.set_getElem_self] at hp

theorem exists_bucket {b : List (List E)} {e : E} (he : e ∈ b.flatten) :
    ∃ (i : Nat) (c : List E), b[i]? = some c ∧ e ∈ c := by
  obtain ⟨c, hc, hec⟩ := List.mem_flatten.mp he
  obtain ⟨i, hi⟩ := List.mem_iff_getElem?.mp hc
  exact ⟨i, c, hi, hec⟩

end Obj
