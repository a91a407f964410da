import Critbit.Dict.Table
import Mathlib.Logic.Relation

/-!
# What a call may do to the dict

`Change` has a constructor for each way the code writes to a dict: a table is made, a bucket moves to the
larger table, a key comes, goes, or gets its value.  Its label is what a map sees of it.

* `Shape`          which of the two tables are in use, and how far the rehashing is;
* `Change.shape`   a change keeps it;
* `Change.maps`    the entries are those of the map after the label.
-/

namespace Critbit
open Obj
variable {K V : Type} {ty : DictType K}

namespace Dict
variable {d d' : Dict K V} {t : Dictht K V} {b : Bool} {i : Nat} {ch ch' : List (DictEntry K V)} {used : Nat}

/-- what holds of the two tables -/
inductive Shape (ty : DictType K) (d : Dict K V) : Prop
  | new (h0 : d.ht0 = dictReset) (h1 : d.ht1 = dictReset) (hr : d.rehashidx = -1)
  | plain (h0 : d.ht0.Wf ty) (h1 : d.ht1 = dictReset) (hr : d.rehashidx = -1)
  | rehashing (i : Nat) (h0 : d.ht0.Wf ty) (h1 : d.ht1.Wf ty) (hr : d.rehashidx = i) (hi : i ≤ d.ht0.size)
      (below : ∀ j < i, d.ht0.table[j]? = some [])

def entries (d : Dict K V) : List (DictEntry K V) := d.ht0.entries ++ d.ht1.entries

/-- `table[i] = ch'` -/
def put (d : Dict K V) (b : Bool) (i : Nat) (ch' : List (DictEntry K V)) (used : Nat) : Dict K V :=
  d.setHt b { (d.ht b).setChain i ch' with used := used }

theorem entries_put (hc : (d.ht b).table[i]? = some ch) (ch' : List (DictEntry K V)) (used : Nat) :
    ∃ l, d.entries.Perm (ch ++ l) ∧ (d.put b i ch' used).entries.Perm (ch' ++ l) := by
  have hi := (List.getElem?_eq_some_iff.mp hc).1
  have h1 := flatten_perm hc
  have h2 := flatten_set_perm hi ch'
  cases b with
  | false =>
    refine ⟨(d.ht0.table.set i []).flatten ++ d.ht1.entries, ?_, ?_⟩
    · rw [← List.append_assoc]
      exact h1.append_right _
    · rw [← List.append_assoc]
      exact h2.append_right _
  | true =>
    refine ⟨d.ht0.entries ++ (d.ht1.table.set i []).flatten, ?_, ?_⟩
    · exact (h1.append_left _).trans (List.perm_append_comm_assoc ..)
    · exact (h2.append_left _).trans (List.perm_append_comm_assoc ..)

theorem put_table : ((d.put b i ch used).ht b).table = (d.ht b).table.set i ch := by
  cases b <;> rfl

theorem isRehashing_eq_true : d.isRehashing = true ↔ d.rehashidx ≠ -1 := decide_eq_true_iff
theorem isRehashing_eq_false : d.isRehashing = false ↔ d.rehashidx = -1 := by
  rw [← Bool.not_eq_true, isRehashing_eq_true, not_not]

theorem Shape.put (S : d.Shape ty) (hc : (d.ht b).table[i]? = some ch)
    (hp : ∀ e ∈ ch', (d.ht b).home ty e.key = i) (hu : used + ch.length = (d.ht b).used + ch'.length)
    (hb : b = false → d.isRehashing = true → ch ≠ []) : (d.put b i ch' used).Shape ty := by
  cases S with
  | new h0 h1 hr =>
    exfalso
    cases b with
    | false => exact absurd (h0 ▸ hc : (dictReset : Dictht K V).table[i]? = some ch) nofun
    | true => exact absurd (h1 ▸ hc : (dictReset : Dictht K V).table[i]? = some ch) nofun
  | plain h0 h1 hr =>
    cases b with
    | false => exact .plain (h0.put hc hp hu) h1 hr
    | true => exact absurd (h1 ▸ hc : (dictReset : Dictht K V).table[i]? = some ch) nofun
  | rehashing n h0 h1 hr hi below =>
    cases b with
    | true => exact .rehashing n h0 (h1.put hc hp hu) hr hi below
    | false =>
      refine .rehashing n (h0.put hc hp hu) h1 hr hi fun j hj => ?_
      -- the bucket that is written is not one of the empty ones
      have hij : i ≠ j := by
        intro e
        subst e
        have hreh : d.isRehashing = true := isRehashing_eq_true.mpr (by rw [hr]; nofun)
        exact hb rfl hreh (Option.some.inj (hc.symm.trans (below i hj)))
      exact (List.getElem?_set_ne hij).trans (below j hj)

/-! ## changes -/

/-- what a map sees -/
inductive Effect (K V : Type)
  | bind (key : K)
  | assign (key : K) (val : V)
  | unbind (key : K)

/-- `NULL` where there is no value yet -/
def Effect.apply [DecidableEq K] (m : K → Option (Option V)) : Effect K V → K → Option (Option V)
  | .bind key => Function.update m key (some none)
  | .assign key val => Function.update m key (some (some val))
  | .unbind key => Function.update m key none

/-- the first bucket that is not empty moves -/
inductive Bucket (ty : DictType K) (d : Dict K V) : Dict K V → Prop
  | mk {i : Nat} {ch : List (DictEntry K V)} {t : Dictht K V} (hr : d.isRehashing = true)
      (hc : d.ht0.table[i]? = some ch) (hne : ch ≠ []) (below : ∀ j < i, d.ht0.table[j]? = some [])
      (ht : t.Wf ty) (hs : t.size = d.ht1.size) (hp : t.entries.Perm (ch ++ d.ht1.entries)) :
      Bucket ty d { d with
        ht0 := { d.ht0.setChain i [] with used := d.ht0.used - ch.length }, ht1 := t, rehashidx := i + 1 }

/-- one change of a dict -/
inductive Change (ty : DictType K) (d : Dict K V) : Option (Effect K V) → Dict K V → Prop
  | first {n : Nat} (hn : ∃ k, 2 ≤ k ∧ k ≤ 30 ∧ n = 2 ^ k) (h0 : d.ht0 = dictReset) :
      Change ty d none { d with ht0 := ⟨List.replicate n [], n, n - 1, 0⟩ }
  | expand {n : Nat} (hn : ∃ k, 2 ≤ k ∧ k ≤ 30 ∧ n = 2 ^ k) (hu : d.ht0.used ≤ n)
      (h0 : d.ht0.table ≠ []) (hr : d.isRehashing = false) :
      Change ty d none { d with ht1 := ⟨List.replicate n [], n, n - 1, 0⟩, rehashidx := 0 }
  | bucket {d' : Dict K V} (h : Bucket ty d d') : Change ty d none d'
  | finish (hr : d.isRehashing = true) (hu : d.ht0.used = 0) :
      Change ty d none { d with ht0 := d.ht1, ht1 := dictReset, rehashidx := -1 }
  | push {i : Nat} {key : K} {ch : List (DictEntry K V)} (hc : (d.ht d.isRehashing).table[i]? = some ch)
      (hi : (d.ht d.isRehashing).home ty key = i) (fresh : ∀ e ∈ d.entries, e.key ≠ key) :
      Change ty d (some (.bind key))
        (d.put d.isRehashing i (⟨key, none⟩ :: ch) ((d.ht d.isRehashing).used + 1))
  | assign {b : Bool} {i pos : Nat} {ch : List (DictEntry K V)} {e : DictEntry K V} {val : V}
      (hc : (d.ht b).table[i]? = some ch) (he : ch[pos]? = some e) :
      Change ty d (some (.assign e.key val)) (d.put b i (ch.set pos { e with val := some val }) (d.ht b).used)
  | unlink {b : Bool} {i pos : Nat} {ch : List (DictEntry K V)} {e : DictEntry K V}
      (hc : (d.ht b).table[i]? = some ch) (he : ch[pos]? = some e) :
      Change ty d (some (.unbind e.key)) (d.put b i (ch.eraseIdx pos) ((d.ht b).used - 1))

/-! ## the shape -/

theorem Shape.wf (S : d.Shape ty) (hc : (d.ht b).table[i]? = some ch) : (d.ht b).Wf ty := by
  cases S with
  | new h0 h1 hr =>
    exfalso
    cases b with
    | false => exact absurd (h0 ▸ hc : (dictReset : Dictht K V).table[i]? = some ch) nofun
    | true => exact absurd (h1 ▸ hc : (dictReset : Dictht K V).table[i]? = some ch) nofun
  | plain h0 h1 hr =>
    cases b with
    | false => exact h0
    | true => exact absurd (h1 ▸ hc : (dictReset : Dictht K V).table[i]? = some ch) nofun
  | rehashing n h0 h1 hr hi below =>
    cases b with
    | false => exact h0
    | true => exact h1

theorem Shape.of_rehashing (S : d.Shape ty) (hr : d.isRehashing = true) :
    d.ht0.Wf ty ∧ d.ht1.Wf ty ∧ ∃ i : Nat, d.rehashidx = i ∧ i ≤ d.ht0.size ∧
      ∀ j < i, d.ht0.table[j]? = some [] := by
  cases S with
  | new h0 h1 hr' => exact absurd hr' (isRehashing_eq_true.mp hr)
  | plain h0 h1 hr' => exact absurd hr' (isRehashing_eq_true.mp hr)
  | rehashing n h0 h1 hr' hi below => exact ⟨h0, h1, n, hr', hi, below⟩

/-- while no rehashing goes on, the second table is not there -/
theorem Shape.of_not_rehashing (S : d.Shape ty) (hr : d.isRehashing = false) : d.ht1 = dictReset := by
  cases S with
  | new h0 h1 hr' => exact h1
  | plain h0 h1 hr' => exact h1
  | rehashing n h0 h1 hr' hi below =>
    rw [isRehashing_eq_false, hr'] at hr
    exact absurd hr nofun

variable {o : Option (Effect K V)}

theorem Change.shape (C : Change ty d o d') (S : d.Shape ty) : d'.Shape ty := by
  cases C with
  | first hn h0 =>
    cases S with
    | new _ h1 hr => exact .plain (.fresh hn) h1 hr
    | plain W => exact absurd (congrArg Dictht.table h0) W.table_ne
    | rehashing n W => exact absurd (congrArg Dictht.table h0) W.table_ne
  | expand hn hu h0 hr =>
    cases S with
    | new h => exact absurd (congrArg Dictht.table h) h0
    | plain W h1 hr' => exact .rehashing 0 W (.fresh hn) rfl (Nat.zero_le _) nofun
    | rehashing n W h1 hr' =>
      rw [isRehashing_eq_false, hr'] at hr
      exact absurd hr nofun
  | bucket h =>
    obtain @⟨i, ch, t, hr, hc, hne, below, ht, hs, hp⟩ := h
    obtain ⟨W, -, -⟩ := S.of_rehashing hr
    refine .rehashing (i + 1) (W.put hc nofun ?_) ht rfl (W.lt_of_bucket hc) fun j hj => ?_
    · rw [List.length_nil, Nat.add_zero]
      exact Nat.sub_add_cancel (W.length_le hc)
    · change (d.ht0.table.set i [])[j]? = some []
      rcases Nat.lt_succ_iff_lt_or_eq.mp hj with hlt | rfl
      · rw [List.getElem?_set_ne (Nat.ne_of_gt hlt)]
        exact below j hlt
      · exact List.getElem?_set_self (List.getElem?_eq_some_iff.mp hc).1
  | finish hr hu =>
    obtain ⟨-, W, -⟩ := S.of_rehashing hr
    exact .plain W rfl rfl
  | @push i key ch hc hi fresh =>
    refine S.put hc (fun e he => ?_) (by rw [List.length_cons]; omega) fun hb hr => ?_
    · rcases List.mem_cons.mp he with rfl | he
      · exact hi
      · exact (S.wf hc).place i ch hc e he
    · exact absurd (hb.symm.trans hr) nofun
  | @assign b i pos ch e val hc he =>
    obtain ⟨hpos, rfl⟩ := List.getElem?_eq_some_iff.mp he
    refine S.put hc (fun e' he' => ?_) (by rw [List.length_set]) fun _ _ => List.ne_nil_of_length_pos (by omega)
    rcases List.mem_or_eq_of_mem_set he' with he' | rfl
    · exact (S.wf hc).place i ch hc e' he'
    · exact (S.wf hc).place i ch hc ch[pos] (List.getElem_mem hpos)
  | @unlink b i pos ch e hc he =>
    obtain ⟨hpos, rfl⟩ := List.getElem?_eq_some_iff.mp he
    have hle := (S.wf hc).length_le hc
    refine S.put hc (fun e' he' => ?_) ?_ fun _ _ => List.ne_nil_of_length_pos (by omega)
    · exact (S.wf hc).place i ch hc e' (List.mem_of_mem_eraseIdx he')
    · rw [List.length_eraseIdx_of_lt hpos]
      omega

theorem Change.iterators (C : Change ty d o d') : d'.iterators = d.iterators := by
  cases C with
  | bucket B => cases B; rfl
  | @push _ => cases d.isRehashing <;> rfl
  | @assign b => cases b <;> rfl
  | @unlink b => cases b <;> rfl
  | _ => rfl

theorem Shape.count_eq (S : d.Shape ty) : d.count = d.entries.length := by
  unfold count entries
  rw [List.length_append]
  cases S with
  | new h0 h1 => rw [h0, h1]; rfl
  | plain W h1 => rw [h1, ← W.used]; rfl
  | rehashing _ W0 W1 => rw [← W0.used, ← W1.used]

/-! ## the entries -/

/-- the entries of the dict are the map -/
def Maps (d : Dict K V) (m : K → Option (Option V)) : Prop :=
  Lists DictEntry.key DictEntry.val d.entries m

theorem Change.maps [DecidableEq K] {m : K → Option (Option V)} (C : Change ty d o d')
    (S : d.Shape ty) (M : d.Maps m) : d'.Maps (o.elim m (Effect.apply m)) := by
  cases C with
  | first hn h0 =>
    refine M.perm ?_
    simp only [entries, h0, Dictht.entries_reset, Dictht.entries_fresh]
    exact .refl _
  | expand hn hu h0 hr =>
    refine M.perm ?_
    simp only [entries, S.of_not_rehashing hr, Dictht.entries_reset, Dictht.entries_fresh]
    exact .refl _
  | bucket h =>
    obtain @⟨i, ch, t, hr, hc, hne, below, ht, hs, hp⟩ := h
    refine M.perm ?_
    calc d.entries.Perm (ch ++ (d.ht0.table.set i []).flatten ++ d.ht1.entries) :=
          (flatten_perm hc).append_right _
      _ |>.Perm ((d.ht0.table.set i []).flatten ++ (ch ++ d.ht1.entries)) := by
        rw [← List.append_assoc]
        exact List.perm_append_comm.append_right _
      _ |>.Perm ((d.ht0.table.set i []).flatten ++ t.entries) := hp.symm.append_left _
  | finish hr hu =>
    obtain ⟨W, -⟩ := S.of_rehashing hr
    refine M.perm ?_
    unfold entries
    rw [List.eq_nil_of_length_eq_zero (W.used.symm.trans hu), Dictht.entries_reset]
    exact List.perm_append_comm
  | @push i key ch hc hi fresh =>
    obtain ⟨l, h1, h2⟩ := entries_put hc (⟨key, none⟩ :: ch) ((d.ht d.isRehashing).used + 1)
    have M1 : Lists DictEntry.key DictEntry.val (⟨key, none⟩ :: (ch ++ l)) _ :=
      (M.perm h1).cons (M.none_iff.mpr fresh)
    exact M1.perm h2.symm
  | @assign b i pos ch e val hc he =>
    obtain ⟨hpos, rfl⟩ := List.getElem?_eq_some_iff.mp he
    obtain ⟨l, h1, h2⟩ := entries_put hc (ch.set pos { ch[pos] with val := some val }) (d.ht b).used
    have M1 : Lists DictEntry.key DictEntry.val (ch[pos] :: (ch.eraseIdx pos ++ l)) m :=
      M.perm (h1.trans ((List.getElem_cons_eraseIdx_perm hpos).symm.append_right _))
    have M2 : Lists DictEntry.key DictEntry.val ({ ch[pos] with val := some val } :: _) _ := M1.change rfl
    exact M2.perm (((List.set_perm_cons_eraseIdx hpos _).append_right _).symm.trans h2.symm)
  | @unlink b i pos ch e hc he =>
    obtain ⟨hpos, rfl⟩ := List.getElem?_eq_some_iff.mp he
    obtain ⟨l, h1, h2⟩ := entries_put hc (ch.eraseIdx pos) ((d.ht b).used - 1)
    have M1 : Lists DictEntry.key DictEntry.val (ch[pos] :: (ch.eraseIdx pos ++ l)) m :=
      M.perm (h1.trans ((List.getElem_cons_eraseIdx_perm hpos).symm.append_right _))
    exact M1.tail.perm h2.symm

/-- the dict is in order, and the map `m` is what it binds -/
structure Model (ty : DictType K) (d : Dict K V) (m : K → Option (Option V)) : Prop where
  shape : d.Shape ty
  maps : d.Maps m

theorem Change.model [DecidableEq K] {m : K → Option (Option V)} (C : Change ty d o d')
    (M : Model ty d m) : Model ty d' (o.elim m (Effect.apply m)) :=
  ⟨C.shape M.shape, C.maps M.shape M.maps⟩

/-- changes that no map sees -/
def Quiet (ty : DictType K) : Dict K V → Dict K V → Prop :=
  Relation.ReflTransGen fun d d' => Change ty d none d'

theorem Quiet.shape (h : Quiet ty d d') (S : d.Shape ty) : d'.Shape ty := by
  induction h with
  | refl => exact S
  | tail _ C ih => exact C.shape ih

theorem Quiet.iterators (h : Quiet ty d d') : d'.iterators = d.iterators := by
  induction h with
  | refl => rfl
  | tail _ C ih => exact C.iterators.trans ih

theorem Model.count_eq {m : K → Option (Option V)} (M : Model ty d m) : d.count = {k | m k ≠ none}.ncard :=
  M.shape.count_eq.trans M.maps.length_eq

theorem Quiet.model [DecidableEq K] {m : K → Option (Option V)} (h : Quiet ty d d')
    (M : Model ty d m) : Model ty d' m := by
  induction h with
  | refl => exact M
  | tail _ C ih => exact C.model ih

end Dict
end Critbit
