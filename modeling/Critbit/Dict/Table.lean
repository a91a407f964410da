import Critbit.Dict.Source
import Critbit.Object.Listing

/-!
# A table of the dict

`Dictht.Wf`: the size is a power of two, the mask is one less, and each entry is in the bucket of its hash.
A bucket that gets other entries keeps all of it as long as they belong there (`Wf.put`).

* `Wf.search`   the walk down the chain of a key ends with the entry of the key, if the table has it.
-/

namespace Critbit
open Obj
variable {K V : Type} {ty : DictType K}

namespace Dictht
variable {t : Dictht K V} {i : Nat} {ch : List (DictEntry K V)} {e : DictEntry K V} {h : UInt32} {key : K}

def entries (t : Dictht K V) : List (DictEntry K V) := t.table.flatten

/-- the bucket of the key -/
def home (ty : DictType K) (t : Dictht K V) (key : K) : Nat := DictType.index (ty.hashFunction key) t

/-- what holds of a table in use -/
structure Wf (ty : DictType K) (t : Dictht K V) : Prop where
  size : ∃ k, 2 ≤ k ∧ k ≤ 30 ∧ t.size = 2 ^ k
  mask : t.sizemask = t.size - 1
  length : t.table.length = t.size
  used : t.used = t.entries.length
  place : ∀ (i : Nat) ch, t.table[i]? = some ch → ∀ e ∈ ch, t.home ty e.key = i

theorem chain_ok (hc : t.table[i]? = some ch) : t.chain i = .ok ch := by
  unfold chain
  rw [if_neg (Int.not_lt.mpr (Int.natCast_nonneg i)), Int.toNat_natCast, hc]
  rfl

@[simp] theorem entries_reset : (dictReset : Dictht K V).entries = [] := rfl
@[simp] theorem entries_fresh (n size mask used : Nat) :
    (⟨List.replicate n [], size, mask, used⟩ : Dictht K V).entries = [] := List.flatten_replicate_nil

namespace Wf

theorem size_pos (W : t.Wf ty) : 0 < t.size := by
  obtain ⟨k, -, -, hk⟩ := W.size
  rw [hk]
  exact Nat.two_pow_pos k

theorem size_le (W : t.Wf ty) : t.size ≤ 1073741824 := by
  obtain ⟨k, -, hk, e⟩ := W.size
  rw [e]
  exact Nat.pow_le_pow_right (by decide) hk

theorem table_ne (W : t.Wf ty) : t.table ≠ [] := by
  intro e
  have hl := W.length
  rw [e, List.length_nil] at hl
  exact absurd hl (Nat.ne_of_lt W.size_pos)

theorem index_eq (W : t.Wf ty) (h : UInt32) : DictType.index h t = h.toNat % t.size := by
  obtain ⟨k, -, -, hk⟩ := W.size
  unfold DictType.index
  rw [W.mask, hk, Nat.and_two_pow_sub_one_eq_mod]

theorem index_lt (W : t.Wf ty) (h : UInt32) : DictType.index h t < t.size := by
  rw [W.index_eq]
  exact Nat.mod_lt _ W.size_pos

theorem int32_index (W : t.Wf ty) (h : UInt32) : int32 (DictType.index h t) = DictType.index h t := by
  have h1 := W.index_lt h
  have h2 := W.size_le
  exact int32_of_lt (by omega)

theorem bucket (W : t.Wf ty) (hi : i < t.size) : ∃ ch, t.table[i]? = some ch :=
  ⟨_, List.getElem?_eq_getElem (by rw [W.length]; exact hi)⟩

theorem bucket_home (W : t.Wf ty) (key : K) : ∃ ch, t.table[t.home ty key]? = some ch :=
  W.bucket (W.index_lt _)

theorem lt_of_bucket (W : t.Wf ty) (hc : t.table[i]? = some ch) : i < t.size := by
  rw [← W.length]
  exact (List.getElem?_eq_some_iff.mp hc).1

theorem mem_home (W : t.Wf ty) (he : e ∈ t.entries) (hc : t.table[t.home ty e.key]? = some ch) :
    e ∈ ch := by
  obtain ⟨i, ch', hc', hec⟩ := exists_bucket he
  rw [W.place i ch' hc' e hec] at hc
  cases hc.symm.trans hc'
  exact hec

theorem mem_entries (hc : t.table[i]? = some ch) (he : e ∈ ch) : e ∈ t.entries :=
  List.mem_flatten.mpr ⟨ch, List.mem_of_getElem? hc, he⟩

/-- a table without an entry -/
theorem fresh {n : Nat} (hn : ∃ k, 2 ≤ k ∧ k ≤ 30 ∧ n = 2 ^ k) :
    (⟨List.replicate n [], n, n - 1, 0⟩ : Dictht K V).Wf ty where
  size := hn
  mask := rfl
  length := List.length_replicate
  used := by
    rw [entries_fresh]
    rfl
  place i ch hc e he := by
    rw [(List.eq_of_mem_replicate (List.mem_of_getElem? hc) : ch = [])] at he
    cases he

/-- **A bucket with other entries.** -/
theorem put (W : t.Wf ty) (hc : t.table[i]? = some ch) {ch' : List (DictEntry K V)} {used : Nat}
    (hp : ∀ e ∈ ch', t.home ty e.key = i) (hu : used + ch.length = t.used + ch'.length) :
    ({ t.setChain i ch' with used := used } : Dictht K V).Wf ty where
  size := W.size
  mask := W.mask
  length := List.length_set.trans W.length
  used := by
    have hi := (List.getElem?_eq_some_iff.mp hc).1
    have h1 := (flatten_set_perm hi ch').length_eq
    have h2 := (flatten_perm hc).length_eq
    have h3 := W.used
    rw [List.length_append] at h1 h2
    unfold entries at h3 ⊢
    change used = (t.table.set i ch').flatten.length
    omega
  place j d hd e he := by
    change (t.table.set i ch')[j]? = some d at hd
    rw [List.getElem?_set] at hd
    split at hd
    · rename_i hij
      split at hd
      · cases hd
        rw [← hij]
        exact hp e he
      · cases hd
    · exact W.place j d hd e he

theorem length_le (W : t.Wf ty) (hc : t.table[i]? = some ch) : ch.length ≤ t.used := by
  have h2 := (flatten_perm hc).length_eq
  rw [List.length_append] at h2
  have h3 := W.used
  unfold entries at h3
  omega

end Wf

/-! ## the walk down a chain -/

/-- **The walk ends with the entry of the key, or the table has none.** -/
theorem Wf.search (W : t.Wf ty) (key : K) :
    (∃ ch pos e, t.table[t.home ty key]? = some ch ∧ ch[pos]? = some e ∧ e.key = key ∧
      searchTable ty t key = .ok (t.home ty key, some pos)) ∨
    ((∀ e ∈ t.entries, e.key ≠ key) ∧ searchTable ty t key = .ok (t.home ty key, none)) := by
  obtain ⟨ch, hc⟩ := W.bucket_home key
  have hs : searchTable ty t key =
      .ok (t.home ty key, ch.findIdx? fun he => ty.keyCompare key he.key) := by
    have hok : t.chain (DictType.index (ty.hashFunction key) t) = .ok ch := chain_ok hc
    simp only [searchTable, hok, ok_bind, pure_ok]
    rfl
  rw [hs]
  cases hf : ch.findIdx? fun he => ty.keyCompare key he.key with
  | some pos =>
    obtain ⟨hpos, hcmp, -⟩ := List.findIdx?_eq_some_iff_getElem.mp hf
    have he : ch[pos]? = some ch[pos] := List.getElem?_eq_getElem hpos
    exact .inl ⟨ch, pos, ch[pos], hc, he, ((ty.compare_iff _ _).mp hcmp).symm, rfl⟩
  | none =>
    refine .inr ⟨fun e he hk => ?_, rfl⟩
    subst hk
    have hcmp := List.findIdx?_eq_none_iff.mp hf e (W.mem_home he hc)
    rw [(ty.compare_iff _ _).mpr rfl] at hcmp
    cases hcmp

end Dictht
end Critbit
