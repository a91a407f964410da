import Critbit.Dict.Load
import Critbit.Dict.Strings

/-!
# The dict as a map

A `DictMap` binds keys to values, or to no value yet.  Every function of the dict is a call on it, whatever
table an entry is in and however far the rehashing is.

* `Does`          what every call does: the dict stays in order, stands for the new map, and is not too full;
* `exec_spec`     one call;
* `dict_refines_map`, `dict_load`, `dict_rehash`   all calls of a run, and the states that they lead to.
-/

namespace Critbit
open Obj
variable {K V : Type} {ty : DictType K}

abbrev DictMap (K V : Type) := K → Option (Option V)

theorem update_ne [DecidableEq K] {m : DictMap K V} {k key : K} {x : Option V} (h : m k ≠ none) :
    Function.update m key (some x) k ≠ none := by
  by_cases hk : k = key
  · rw [hk, Function.update_self]
    exact Option.some_ne_none x
  · rwa [Function.update_of_ne hk]

/-! ## calls -/

/-- `dict_can_resize`, and a dict -/
structure DictState (K V : Type) where
  canResize : Bool
  dict : Dict K V

inductive DictCall (K V : Type)
  | add (key : K) (val : V)
  | addRaw (key : K)
  | replace (key : K) (val : V)
  | replaceRaw (key : K)
  | find (key : K)
  | fetchValue (key : K)
  | delete (key : K)
  | expand (size : Nat)
  | resize
  | rehash (n : Nat)
  | enableResize
  | disableResize
  | empty

/-- What a caller sees of a map: a return code, the entry (`NULL`, or its value), a value, the entries that
are freed.  What the upkeep of the tables returns is not a map's. -/
inductive DictAnswer (K V : Type)
  | code (n : Int)
  | entry (x : Option (Option V))
  | value (x : Option V)
  | freed (n : Nat)
  | done

/-- the entry that is returned -/
def Dict.answer (d : Dict K V) : Option EntryRef → M (DictAnswer K V)
  | none => pure (.entry none)
  | some ref => do
    let x ← d.entry ref
    pure (.entry (some x.val))

namespace DictCall

/-- the call on the code -/
def exec (ty : DictType K) (mem : DictMem) (s : DictState K V) :
    DictCall K V → M (DictAnswer K V × DictState K V)
  | add key val => do
    let (ret, d) ← dictAdd ty mem s.canResize s.dict key val
    pure (.code ret, ⟨s.canResize, d⟩)
  | addRaw key => do
    let (e, d) ← dictAddRaw ty mem s.canResize s.dict key
    let a ← d.answer e
    pure (a, ⟨s.canResize, d⟩)
  | replace key val => do
    let (ret, d) ← dictReplace ty mem s.canResize s.dict key val
    pure (.code ret, ⟨s.canResize, d⟩)
  | replaceRaw key => do
    let (e, d) ← dictReplaceRaw ty mem s.canResize s.dict key
    let a ← d.answer e
    pure (a, ⟨s.canResize, d⟩)
  | find key => do
    let (e, d) ← dictFind ty s.dict key
    let a ← d.answer e
    pure (a, ⟨s.canResize, d⟩)
  | fetchValue key => do
    let (x, d) ← dictFetchValue ty s.dict key
    pure (.value x, ⟨s.canResize, d⟩)
  | delete key => do
    let (ret, d) ← dictGenericDelete ty s.dict key
    pure (.code ret, ⟨s.canResize, d⟩)
  | expand size => pure (.done, ⟨s.canResize, (dictExpand mem s.dict size).2⟩)
  | resize => pure (.done, ⟨s.canResize, (dictResize mem s.canResize s.dict).2⟩)
  | rehash n => do
    let (_, d) ← dictRehash ty s.dict n
    pure (.done, ⟨s.canResize, d⟩)
  | enableResize => pure (.done, ⟨true, s.dict⟩)
  | disableResize => pure (.done, ⟨false, s.dict⟩)
  | empty => pure (.freed (dictEmpty s.dict).1.length, ⟨s.canResize, (dictEmpty s.dict).2⟩)

/-- the call on a map -/
noncomputable def onMap [DecidableEq K] (m : DictMap K V) : DictCall K V → DictAnswer K V × DictMap K V
  | add key val =>
    if m key = none then (.code 0, Function.update m key (some (some val))) else (.code 1, m)
  | addRaw key =>
    if m key = none then (.entry (some none), Function.update m key (some none)) else (.entry none, m)
  | replace key val => (.code (if m key = none then 1 else 0), Function.update m key (some (some val)))
  | replaceRaw key =>
    if m key = none then (.entry (some none), Function.update m key (some none)) else (.entry (m key), m)
  | find key => (.entry (m key), m)
  | fetchValue key => (.value (m key).join, m)
  | delete key => if m key = none then (.code 1, m) else (.code 0, Function.update m key none)
  | empty => (.freed {k | m k ≠ none}.ncard, fun _ => none)
  | _ => (.done, m)

/-- with `n` keys there, at most 2^29, the sizes of the tables and `rehashidx` are `int`s; a table that is
asked for has at most 2^30 buckets -/
def Fits (n : Nat) : DictCall K V → Prop
  | expand size => size ≤ 1073741824
  | _ => n ≤ 536870912

instance (n : Nat) (c : DictCall K V) : Decidable (c.Fits n) := by
  cases c <;> exact inferInstanceAs (Decidable (_ ≤ _))

/-- a call that leaves the tables as large as they are -/
def Keeps : DictCall K V → Prop
  | expand _ | resize | empty => False
  | _ => True

/-- a call that does not leave more than `r` entries to a bucket -/
def Dense (r : Nat) : DictCall K V → Prop
  | expand _ => 2 ≤ r
  | resize => 2 ≤ r
  | disableResize => 6 ≤ r
  | _ => 1 ≤ r

instance (r : Nat) (c : DictCall K V) : Decidable (c.Dense r) := by
  cases c <;> exact inferInstanceAs (Decidable (_ ≤ _))

end DictCall

/-! ## what a call does -/

namespace Dict
variable {d d1 d2 : Dict K V} {m m1 m2 : DictMap K V} {canResize : Bool} {key : K} {val : V} {mem : DictMem}

/-- what a call does to a dict -/
structure Does (ty : DictType K) (canResize : Bool) (d d1 : Dict K V) (m1 : DictMap K V) : Prop where
  model : Model ty d1 m1
  iterators : d.iterators = 0 → d1.iterators = 0
  load : ∀ r, 1 ≤ r → (canResize = true ∨ 6 ≤ r) → d.iterators = 0 → Load r 1 d → Load r 1 d1
  size : d.minSize ≤ d1.minSize

theorem Does.trans (h : Does ty canResize d d1 m1) (h' : Does ty canResize d1 d2 m2) :
    Does ty canResize d d2 m2 where
  model := h'.model
  iterators hi := h'.iterators (h.iterators hi)
  load r hr hr' hi hl := h'.load r hr hr' (h.iterators hi) (h.load r hr hr' hi hl)
  size := h.size.trans h'.size

theorem At.value {ref : EntryRef} {e : DictEntry K V} (h : d.At ref e) (M : Model ty d m) :
    m e.key = some e.val := M.maps.sound e h.mem_entries

theorem answer_some {ref : EntryRef} {x : Option V} (hat : d.At ref ⟨key, x⟩) :
    d.answer (some ref) = .ok (.entry (some x)) := by
  show (d.entry ref >>= _) = _
  rw [entry_ok hat]
  rfl

theorem empty_model (M : Model ty d m) :
    (dictEmpty d).1.length = {k | m k ≠ none}.ncard ∧ Model ty (dictEmpty d).2 (fun _ => none) := by
  refine ⟨?_, .new rfl rfl rfl, .nil⟩
  rw [dictEmpty_spec M.shape]
  exact M.maps.length_eq

theorem dictResize_spec (hm : mem.Grants) (S : d.Shape ty) (canResize : Bool) (hu : d.count ≤ 536870912) :
    Quiet ty d (dictResize mem canResize d).2 ∧
      ∀ r, 2 ≤ r → Load r 1 d → Load r 1 (dictResize mem canResize d).2 := by
  unfold dictResize
  split
  · exact ⟨.refl, fun _ _ h => h⟩
  · have hused : int32 d.ht0.used = d.ht0.used := int32_of_lt (by unfold count at hu; omega)
    have hsize : sizeT (if int32 d.ht0.used < 4 then 4 else int32 d.ht0.used) ≤ 1073741824 := by
      rw [hused]
      unfold count at hu
      split
      · decide
      · unfold sizeT
        omega
    have X := dictExpand_spec hm S hsize
    exact ⟨X.quiet ty, fun r hr h => X.keeps S hr h⟩

variable [DecidableEq K]

theorem Step.does (h : Step ty d d1) (M : Model ty d m) : Does ty canResize d d1 m where
  model := h.quiet.model M
  iterators hi := h.quiet.iterators.trans hi
  load _ _ _ _ hl := h.load M.shape hl
  size := h.minSize

theorem steps_does (h : Relation.ReflTransGen (Step ty) d d1) (M : Model ty d m) :
    Does ty canResize d d1 m := by
  induction h with
  | refl => exact ⟨M, id, fun _ _ _ _ => id, Nat.le_refl _⟩
  | tail _ hs ih => exact ih.trans (hs.does ih.model)

theorem assign_does (C : Change ty d (some (.assign key val)) d1) (M : Model ty d m) :
    Does ty canResize d d1 (Function.update m key (some (some val))) where
  model := C.model M
  iterators hi := C.iterators.trans hi
  load _ _ _ _ hl := assign_load C hl
  size := (C.minSize nofun).ge

theorem unlink_does (C : Change ty d (some (.unbind key)) d1) (M : Model ty d m) :
    Does ty canResize d d1 (Function.update m key none) where
  model := C.model M
  iterators hi := C.iterators.trans hi
  load _ _ _ _ hl := unlink_load C hl
  size := (C.minSize nofun).ge

theorem add_none (hm : mem.Grants) (canResize : Bool) (M : Model ty d m) (hu : d.count ≤ 536870912)
    (hk : m key = none) :
    ∃ ref d1, dictAddRaw ty mem canResize d key = .ok (some ref, d1) ∧ d1.At ref ⟨key, none⟩ ∧
      Does ty canResize d d1 (Function.update m key (some none)) := by
  obtain ⟨x, y, ⟨hs, -⟩, hg, h⟩ := dictAddRaw_spec hm canResize M.shape hu key
  have M1 := hs.quiet.model M
  have M2 := (hg.quiet ty).model M1
  rcases h with ⟨⟨e, he, hek⟩, -⟩ | ⟨ref, z, hno, C, hat, hx⟩
  · exact absurd hek (M2.maps.none_iff.mp hk e he)
  · refine ⟨ref, z, hx, hat, C.model M2, fun hi => ?_, fun r hr hr' hi hl => ?_, ?_⟩
    · exact C.iterators.trans ((hg.quiet ty).iterators.trans (hs.quiet.iterators.trans hi))
    · exact push_load C (hg.load M1.shape hr hr' (hs.room M.shape hi hl))
    · exact (hs.minSize.trans hg.minSize).trans (C.minSize nofun).ge

theorem add_some (hm : mem.Grants) (canResize : Bool) (M : Model ty d m) (hu : d.count ≤ 536870912)
    (hk : m key ≠ none) :
    ∃ d1, dictAddRaw ty mem canResize d key = .ok (none, d1) ∧ Does ty canResize d d1 m := by
  obtain ⟨x, y, ⟨hs, -⟩, hg, h⟩ := dictAddRaw_spec hm canResize M.shape hu key
  have M1 := hs.quiet.model M
  have M2 := (hg.quiet ty).model M1
  rcases h with ⟨-, hx⟩ | ⟨ref, z, hno, C, hat, hx⟩
  · refine ⟨y, hx, M2, fun hi => (hg.quiet ty).iterators.trans (hs.quiet.iterators.trans hi),
      fun r hr hr' hi hl => ?_, hs.minSize.trans hg.minSize⟩
    exact (hg.load M1.shape hr hr' (hs.room M.shape hi hl)).mono (Nat.zero_le 1)
  · exact absurd (M2.maps.none_iff.mpr hno) hk

theorem find_none (canResize : Bool) (M : Model ty d m) (hk : m key = none) :
    ∃ d1, dictFind ty d key = .ok (none, d1) ∧ Does ty canResize d d1 m := by
  obtain ⟨d1, ⟨hs, -⟩, h⟩ := dictFind_spec M.shape key
  have D : Does ty canResize d d1 m := hs.does M
  rcases h with ⟨ref, e, hat, rfl, -⟩ | ⟨-, hx⟩
  · cases hk.symm.trans (hat.value D.model)
  · exact ⟨d1, hx, D⟩

theorem find_some (canResize : Bool) (M : Model ty d m) {x : Option V} (hk : m key = some x) :
    ∃ ref d1, dictFind ty d key = .ok (some ref, d1) ∧ d1.At ref ⟨key, x⟩ ∧
      Does ty canResize d d1 m := by
  obtain ⟨d1, ⟨hs, -⟩, h⟩ := dictFind_spec M.shape key
  have D : Does ty canResize d d1 m := hs.does M
  rcases h with ⟨ref, e, hat, rfl, hx⟩ | ⟨hno, -⟩
  · refine ⟨ref, d1, hx, ?_, D⟩
    cases hk.symm.trans (hat.value D.model)
    exact hat
  · cases hk.symm.trans (D.model.maps.none_iff.mpr hno)

theorem dictAdd_none (hm : mem.Grants) (canResize : Bool) (M : Model ty d m) (hu : d.count ≤ 536870912)
    (hk : m key = none) (val : V) :
    ∃ d1, dictAdd ty mem canResize d key val = .ok (0, d1) ∧
      Does ty canResize d d1 (Function.update m key (some (some val))) := by
  obtain ⟨ref, d1, hx, hat, D⟩ := add_none hm canResize M hu hk
  obtain ⟨d2, hset, C, -⟩ := dictSetVal_spec ty hat val
  have D2 := D.trans (assign_does C D.model)
  rw [Function.update_idem] at D2
  refine ⟨d2, ?_, D2⟩
  unfold dictAdd
  simp only [hx, ok_bind, hset, pure_ok]

theorem dictAdd_some (hm : mem.Grants) (canResize : Bool) (M : Model ty d m) (hu : d.count ≤ 536870912)
    (hk : m key ≠ none) (val : V) :
    ∃ d1, dictAdd ty mem canResize d key val = .ok (1, d1) ∧ Does ty canResize d d1 m := by
  obtain ⟨d1, hx, D⟩ := add_some hm canResize M hu hk
  refine ⟨d1, ?_, D⟩
  unfold dictAdd
  simp only [hx, ok_bind, pure_ok]

theorem dictReplace_does (hm : mem.Grants) (canResize : Bool) (M : Model ty d m) (hu : d.count ≤ 536870912)
    (key : K) (val : V) :
    ∃ d1, dictReplace ty mem canResize d key val = .ok (if m key = none then 1 else 0, d1) ∧
      Does ty canResize d d1 (Function.update m key (some (some val))) := by
  unfold dictReplace
  cases hk : m key with
  | none =>
    obtain ⟨d1, hx, D⟩ := dictAdd_none hm canResize M hu hk val
    refine ⟨d1, ?_, D⟩
    simp only [hx, ok_bind]
    rfl
  | some x =>
    obtain ⟨d1, hx, D1⟩ := dictAdd_some hm canResize M hu (by rw [hk]; nofun) val
    obtain ⟨ref, d2, hf, hat, D2⟩ := find_some canResize D1.model hk
    obtain ⟨d3, hset, C, -⟩ := dictSetVal_spec ty hat val
    refine ⟨d3, ?_, (D1.trans D2).trans (assign_does C D2.model)⟩
    simp only [hx, ok_bind]
    rw [if_neg (by decide), hf]
    simp only [ok_bind, hset]
    rfl

theorem delete_does (canResize : Bool) (M : Model ty d m) (key : K) :
    ∃ d1, dictGenericDelete ty d key = .ok (if m key = none then 1 else 0, d1) ∧
      Does ty canResize d d1 (Function.update m key none) := by
  obtain ⟨x, ⟨hs, -⟩, h⟩ := dictGenericDelete_spec M.shape key
  have D : Does ty canResize d x m := hs.does M
  rcases h with ⟨y, ⟨e, he, rfl⟩, C, hx⟩ | ⟨hno, hx⟩
  · have hk : m e.key ≠ none := by
      rw [D.model.maps.sound e he]
      nofun
    rw [if_neg hk]
    exact ⟨y, hx, D.trans (unlink_does C D.model)⟩
  · have hk := D.model.maps.none_iff.mpr hno
    rw [if_pos hk, Function.update_eq_self_iff.mpr hk.symm]
    exact ⟨x, hx, D⟩

end Dict

/-! ## runs -/

open Dict

section

/-- the tables are not too full, and nothing keeps the dict from getting larger -/
structure DictState.Room (s : DictState K V) (r : Nat) : Prop where
  resize : s.canResize = true ∨ 6 ≤ r
  iterators : s.dict.iterators = 0
  load : Load r 1 s.dict

/-- what a call of a run does -/
structure DictCall.Done (ty : DictType K) (c : DictCall K V) (s s' : DictState K V) (m' : DictMap K V) :
    Prop where
  model : Model ty s'.dict m'
  room : ∀ r, c.Dense r → s.Room r → s'.Room r
  size : c.Keeps → s.dict.minSize ≤ s'.dict.minSize

variable {s s' : DictState K V} {m : DictMap K V} {mem : DictMem}

theorem DictCall.done_of_does {c : DictCall K V} {d1 : Dict K V} {m1 : DictMap K V}
    (hr : ∀ r, c.Dense r → 1 ≤ r) (D : Does ty s.canResize s.dict d1 m1) :
    c.Done ty s ⟨s.canResize, d1⟩ m1 where
  model := D.model
  room r hd R := ⟨R.resize, D.iterators R.iterators, D.load r (hr r hd) R.resize R.iterators R.load⟩
  size _ := D.size

theorem init_model : Model ty (dictInit : Dict K V) fun _ => none := ⟨.new rfl rfl rfl, .nil⟩

theorem create_eq {d : Dict K V} (e : dictCreate mem = .ok d) : d = dictInit := by
  unfold dictCreate at e
  split at e
  · exact (Except.ok.inj e).symm
  · cases e

theorem create_granted (hm : mem.Grants) : dictCreate mem = .ok (dictInit : Dict K V) := if_pos hm.malloc

variable [DecidableEq K]

/-- **One call.** -/
theorem DictCall.exec_spec (hm : mem.Grants) (M : Model ty s.dict m) (c : DictCall K V)
    (hf : c.Fits {k | m k ≠ none}.ncard) :
    ∃ s', c.exec ty mem s = .ok ((c.onMap m).1, s') ∧ c.Done ty s s' (c.onMap m).2 := by
  have hcount := M.count_eq
  cases c with
  | add key val =>
    have hu : s.dict.count ≤ 536870912 := hcount.trans_le hf
    by_cases hk : m key = none
    · obtain ⟨d1, hx, D⟩ := dictAdd_none hm s.canResize M hu hk val
      simp only [exec, onMap, if_pos hk, hx, ok_bind, pure_ok]
      exact ⟨_, rfl, done_of_does (fun _ h => h) D⟩
    · obtain ⟨d1, hx, D⟩ := dictAdd_some hm s.canResize M hu hk val
      simp only [exec, onMap, if_neg hk, hx, ok_bind, pure_ok]
      exact ⟨_, rfl, done_of_does (fun _ h => h) D⟩
  | addRaw key =>
    have hu : s.dict.count ≤ 536870912 := hcount.trans_le hf
    by_cases hk : m key = none
    · obtain ⟨ref, d1, hx, hat, D⟩ := add_none hm s.canResize M hu hk
      simp only [exec, onMap, if_pos hk, hx, ok_bind, answer_some hat, pure_ok]
      exact ⟨_, rfl, done_of_does (fun _ h => h) D⟩
    · obtain ⟨d1, hx, D⟩ := add_some hm s.canResize M hu hk
      simp only [exec, onMap, if_neg hk, hx, ok_bind, answer, pure_ok]
      exact ⟨_, rfl, done_of_does (fun _ h => h) D⟩
  | replace key val =>
    have hu : s.dict.count ≤ 536870912 := hcount.trans_le hf
    obtain ⟨d1, hx, D⟩ := dictReplace_does hm s.canResize M hu key val
    simp only [exec, onMap, hx, ok_bind, pure_ok]
    exact ⟨_, rfl, done_of_does (fun _ h => h) D⟩
  | replaceRaw key =>
    have hu : s.dict.count ≤ 536870912 := hcount.trans_le hf
    cases hk : m key with
    | none =>
      obtain ⟨d1, hx, D1⟩ := find_none s.canResize M hk
      have hu1 : d1.count ≤ 536870912 := D1.model.count_eq.trans_le hf
      obtain ⟨ref, d2, hx2, hat, D2⟩ := add_none hm s.canResize D1.model hu1 hk
      simp only [exec, onMap, if_pos hk, dictReplaceRaw, hx, ok_bind, hx2, answer_some hat, pure_ok]
      exact ⟨_, rfl, done_of_does (fun _ h => h) (D1.trans D2)⟩
    | some x =>
      obtain ⟨ref, d1, hx, hat, D⟩ := find_some s.canResize M hk
      simp only [exec, onMap, hk, dictReplaceRaw, hx, ok_bind, pure_ok, answer_some hat]
      exact ⟨_, rfl, done_of_does (fun _ h => h) D⟩
  | find key =>
    cases hk : m key with
    | none =>
      obtain ⟨d1, hx, D⟩ := find_none s.canResize M hk
      simp only [exec, onMap, hk, hx, ok_bind, answer, pure_ok]
      exact ⟨_, rfl, done_of_does (fun _ h => h) D⟩
    | some x =>
      obtain ⟨ref, d1, hx, hat, D⟩ := find_some s.canResize M hk
      simp only [exec, onMap, hk, hx, ok_bind, answer_some hat, pure_ok]
      exact ⟨_, rfl, done_of_does (fun _ h => h) D⟩
  | fetchValue key =>
    cases hk : m key with
    | none =>
      obtain ⟨d1, hx, D⟩ := find_none s.canResize M hk
      simp only [exec, onMap, hk, dictFetchValue, hx, ok_bind, pure_ok]
      exact ⟨_, rfl, done_of_does (fun _ h => h) D⟩
    | some x =>
      obtain ⟨ref, d1, hx, hat, D⟩ := find_some s.canResize M hk
      simp only [exec, onMap, hk, dictFetchValue, hx, ok_bind, entry_ok hat, pure_ok]
      exact ⟨_, rfl, done_of_does (fun _ h => h) D⟩
  | delete key =>
    obtain ⟨d1, hx, D⟩ := delete_does s.canResize M key
    simp only [exec, onMap, hx, ok_bind, pure_ok]
    by_cases hk : m key = none
    · rw [if_pos hk, if_pos hk]
      rw [Function.update_eq_self_iff.mpr hk.symm] at D
      exact ⟨_, rfl, done_of_does (fun _ h => h) D⟩
    · rw [if_neg hk, if_neg hk]
      exact ⟨_, rfl, done_of_does (fun _ h => h) D⟩
  | expand size =>
    have X := dictExpand_spec hm M.shape (show size ≤ 1073741824 from hf)
    have Q := X.quiet ty
    exact ⟨_, rfl, Q.model M, fun r hr R =>
      ⟨R.resize, Q.iterators.trans R.iterators, X.keeps M.shape hr R.load⟩, False.elim⟩
  | resize =>
    obtain ⟨Q, hl⟩ := dictResize_spec hm M.shape s.canResize (hcount.trans_le hf)
    exact ⟨_, rfl, Q.model M, fun r hr R =>
      ⟨R.resize, Q.iterators.trans R.iterators, hl r hr R.load⟩, False.elim⟩
  | rehash n =>
    obtain ⟨r, d1, hx, hs, -⟩ := dictRehash_spec n M.shape
    have D : Does ty s.canResize s.dict d1 m := steps_does hs M
    simp only [exec, onMap, hx, ok_bind, pure_ok]
    exact ⟨_, rfl, done_of_does (fun _ h => h) D⟩
  | enableResize =>
    exact ⟨_, rfl, M, fun r _ R => ⟨.inl rfl, R.iterators, R.load⟩, fun _ => Nat.le_refl _⟩
  | disableResize =>
    exact ⟨_, rfl, M, fun r hr R => ⟨.inr hr, R.iterators, R.load⟩, fun _ => Nat.le_refl _⟩
  | empty =>
    obtain ⟨hn, M'⟩ := empty_model M
    simp only [exec, onMap, pure_ok, hn]
    exact ⟨_, rfl, M', fun r _ R => ⟨R.resize, rfl, load_of_empty rfl rfl⟩, False.elim⟩

/-- the states that calls of a density lead to, next to their maps -/
inductive DictReached (ty : DictType K) (mem : DictMem) (r : Nat) : DictState K V → DictMap K V → Prop
  | new {d : Dict K V} (e : dictCreate mem = .ok d) : DictReached ty mem r ⟨true, d⟩ fun _ => none
  | call {s s' : DictState K V} {m : DictMap K V} {c : DictCall K V} {a : DictAnswer K V}
      (h : DictReached ty mem r s m) (hf : c.Fits {k | m k ≠ none}.ncard) (hd : c.Dense r)
      (e : c.exec ty mem s = .ok (a, s')) : DictReached ty mem r s' (c.onMap m).2

theorem DictReached.room {r : Nat} (hm : mem.Grants) (h : DictReached ty mem r s m) :
    Model ty s.dict m ∧ s.Room r := by
  induction h with
  | new e =>
    rw [create_eq e]
    exact ⟨init_model, .inl rfl, rfl, load_of_empty rfl rfl⟩
  | call h hf hd e ih =>
    obtain ⟨M, R⟩ := ih
    obtain ⟨s₂, e', D⟩ := DictCall.exec_spec hm M _ hf
    cases e.symm.trans e'
    exact ⟨D.model, D.room _ hd R⟩

/-- the map after calls -/
noncomputable def DictCall.after (m : DictMap K V) (cs : List (DictCall K V)) : DictMap K V :=
  cs.foldl (fun m c => (c.onMap m).2) m

/-- calls one after another, as far as they fit -/
def DictCall.run (ty : DictType K) (mem : DictMem) (r : Nat) :
    DictState K V → List (DictCall K V) → Option (DictState K V)
  | s, [] => some s
  | s, c :: cs =>
    if c.Fits s.dict.count ∧ c.Dense r then do
      let x ← (c.exec ty mem s).toOption
      run ty mem r x.2 cs
    else none

theorem DictReached.run {r : Nat} (hm : mem.Grants) (h : DictReached ty mem r s m) {cs : List (DictCall K V)}
    (e : DictCall.run ty mem r s cs = some s') :
    DictReached ty mem r s' (DictCall.after m cs) := by
  induction cs generalizing s m with
  | nil =>
    cases e
    exact h
  | cons c cs ih =>
    unfold DictCall.run at e
    split at e
    · rename_i hc
      obtain ⟨⟨a, s₁⟩, hx, e⟩ := Option.bind_eq_some_iff.mp e
      have hexec : c.exec ty mem s = .ok (a, s₁) := by
        cases hc : c.exec ty mem s with
        | error f =>
          rw [hc] at hx
          cases hx
        | ok x =>
          rw [hc] at hx
          exact congrArg Except.ok (Option.some.inj hx)
      exact ih (h.call ((h.room hm).1.count_eq ▸ hc.1) hc.2 hexec) e
    · cases e

end

/-! ## a dict with five keys -/

/-- everything is granted -/
def DictMem.all : DictMem := ⟨fun _ => true, true⟩

theorem grants_all : DictMem.all.Grants := ⟨fun _ _ => rfl, rfl⟩

end Critbit
