import Critbit.Bench.Drivers
import Critbit.Conc.Reinsert
import Critbit.Dict.Refine

/-!
# The tree and the dict under the drivers

Both are maps for the drivers (`critbit_isMap`, `redisdict_isMap`), so none of them exits.

* `critbit_passes`     `main` on the tree, with any number of threads of `get_thread`;
* `redisdict_passes`   the drivers without threads on the dict, which has no locks.
-/

namespace Critbit.Bench

/-! ## the tree -/

/-- `helper.h` in `critbit_common.h`; `mem` has what the `malloc`s return -/
def critbit (root : Addr) (mem : Heap → Option Addr × Option Addr) : Adapter Heap where
  add h key val := Critbit.add h root key val (mem h).1 (mem h).2
  find h key := do
    let out ← Critbit.find h root key
    pure (out, h)
  del h key := Critbit.del h root key

section
variable {root : Addr} {mem : Heap → Option Addr × Option Addr} {h : Heap} {m : Map} {k : Key} {v : Val}

/-- no `malloc` fails -/
def Granting (root : Addr) (mem : Heap → Option Addr × Option Addr) : Prop :=
  ∀ h m, Reached root h m → (mallocs h root (mem h).1 (mem h).2).isSome = true

theorem exists_granting (root : Addr) : ∃ mem, Granting root mem := by
  have h : ∀ h, ∃ o : Option Addr × Option Addr,
      ∀ m, Reached root h m → (mallocs h root o.1 o.2).isSome = true := by
    intro h
    by_cases hr : ∃ m, Reached root h m
    · obtain ⟨m, hr⟩ := hr
      obtain ⟨T, O, -⟩ := hr.owns
      obtain ⟨mnode, mstr, hm⟩ := exists_granted O.toHolds
      exact ⟨(mnode, mstr), fun _ _ => hm⟩
    · exact ⟨(none, none), fun m hm => absurd ⟨m, hm⟩ hr⟩
  choose mem hmem using h
  exact ⟨mem, hmem⟩

theorem critbit_add (hmem : Granting root mem) (hr : Reached root h m) (hk : Short k) (hm : m k = none)
    (v : Val) :
    ∃ h', (critbit root mem).add h k v = .ok (0, h') ∧
      Reached root h' (Function.update m k (some v)) := by
  have hg := hmem h m hr
  obtain ⟨T, O, rfl⟩ := hr.owns
  obtain ⟨h', T', e, -, -⟩ := insert_spec O hk v (mem h).1 (mem h).2
  have hr' := hr.insert hk e
  rw [hg] at e hr'
  have hi : Map.insert (valueOf T) true k v = (0, Function.update (valueOf T) k (some v)) := if_pos ⟨hm, rfl⟩
  rw [hi] at e hr'
  exact ⟨h', e, hr'⟩

theorem critbit_find (hr : Reached root h m) (hm : m k = some v) :
    (critbit root mem).find h k = .ok (v, h) := by
  obtain ⟨T, O, rfl⟩ := hr.owns
  obtain ⟨t, rfl⟩ : ∃ t, T = some t :=
    Option.ne_none_iff_exists'.mp (exists_bound.mp ⟨k, by rw [hm]; exact Option.some_ne_none v⟩)
  show (Critbit.find h root k >>= _) = _
  unfold Critbit.find
  rw [critbitGet_tree O.toHolds, hm]
  rfl

theorem critbit_del (hr : Reached root h m) (hm : m k ≠ none) :
    ∃ h', (critbit root mem).del h k = .ok (0, h') ∧ Reached root h' (Function.update m k none) := by
  obtain ⟨T, O, rfl⟩ := hr.owns
  obtain ⟨h', T', e, -, -⟩ := delete_spec O k
  have hr' := hr.delete e
  have hd : Map.delete (valueOf T) k = (0, Function.update (valueOf T) k none) := if_neg hm
  rw [hd] at e hr'
  exact ⟨h', e, hr'⟩

theorem critbit_isMap (hmem : Granting root mem) (cap : Nat) :
    IsMap (critbit root mem) cap (Reached root) where
  add v hr hk hm _ := critbit_add hmem hr hk hm v
  find hr hm := ⟨_, critbit_find hr hm, hr⟩
  del hr hm := critbit_del hr hm

end

/-! ## the dict -/

/-- `helper.h` in `redisdict.c` -/
def redisdict (mem : DictMem) : Adapter (Dict Key Val) := ⟨Redisdict.add mem, Redisdict.find, Redisdict.del⟩

section
variable {mem : DictMem} {d : Dict Key Val} {m : Map} {k : Key} {v : Val}

/-- the dict stands for the map, and every entry has its value -/
def DictIs (d : Dict Key Val) (m : Map) : Prop := Dict.Model Redisdict.dictType d (Option.map some ∘ m)

theorem DictIs.count_eq (hd : DictIs d m) : d.count = {k | m k ≠ none}.ncard := by
  rw [Dict.Model.count_eq hd]
  congr 1
  ext k
  show (m k).map some ≠ none ↔ m k ≠ none
  rw [Ne, Option.map_eq_none_iff]

theorem redisdict_add (hmem : mem.Grants) (hd : DictIs d m) (hm : m k = none) (hcap : d.count ≤ 536870912)
    (v : Val) : ∃ d', (redisdict mem).add d k v = .ok (0, d') ∧ DictIs d' (Function.update m k (some v)) := by
  have hk : (Option.map some ∘ m) k = none := Option.map_eq_none_iff.mpr hm
  obtain ⟨d', e, D⟩ := Dict.dictAdd_none hmem true hd hcap hk v
  refine ⟨d', e, ?_⟩
  unfold DictIs
  rw [Function.comp_update]
  exact D.model

theorem redisdict_find (hd : DictIs d m) (hm : m k = some v) :
    ∃ d', (redisdict mem).find d k = .ok (v, d') ∧ DictIs d' m := by
  have hk : (Option.map some ∘ m) k = some (some v) := by
    show (m k).map some = some (some v)
    rw [hm]
    rfl
  obtain ⟨ref, d', e, hat, D⟩ := Dict.find_some true hd hk
  refine ⟨d', ?_, D.model⟩
  show Redisdict.find d k = _
  unfold Redisdict.find
  rw [e, ok_bind]
  show (d'.entry ref >>= _) = _
  rw [Dict.entry_ok hat, ok_bind]
  rfl

theorem redisdict_del (hd : DictIs d m) (hm : m k ≠ none) :
    ∃ d', (redisdict mem).del d k = .ok (0, d') ∧ DictIs d' (Function.update m k none) := by
  have hk : (Option.map some ∘ m) k ≠ none := fun e => hm (Option.map_eq_none_iff.mp e)
  obtain ⟨d', e, D⟩ := Dict.delete_does true hd k
  rw [if_neg hk] at e
  refine ⟨d', e, ?_⟩
  unfold DictIs
  rw [Function.comp_update]
  exact D.model

theorem redisdict_isMap (hmem : mem.Grants) : IsMap (redisdict mem) 536870912 DictIs where
  add v hd _ hm hcap := redisdict_add hmem hd hm (by rw [hd.count_eq]; omega) v
  find hd hm := redisdict_find hd hm
  del hd hm := redisdict_del hd hm

end

/-! ## `main` -/

/-- **`main` on the tree**: no driver calls `exit`, whatever the threads do between `set` and `cleanup`, each
call of theirs in one step, and in the end none of the numbers is stored. -/
theorem critbit_passes {Tid : Type} [DecidableEq Tid] {root : Addr} {o : Option Addr} {h : Heap}
    (e : critbitNew ∅ o = .ok (root, h)) {mem : Heap → Option Addr × Option Addr}
    (hmem : Granting root mem) {rand : Nat → Nat} {iter : Int} (hiter : iter ≤ 2147483647)
    (hrand : Set.InjOn (fillRand rand) (Set.Ico 1 (1 + rounds iter))) :
    ∃ h₁ h₂ h₃ h₄ m₄, setRand (critbit root mem) rand iter h = .ok (some h₁) ∧
      getRand (critbit root mem) rand iter h₁ = .ok (some h₂) ∧
      cleanupRand (critbit root mem) rand iter h₂ = .ok (some h₃) ∧
      set (critbit root mem) iter h₃ = .ok (some h₄) ∧ Reached root h₄ m₄ ∧
      (∀ i : Nat, 1 ≤ i → i < iter → m₄ (decimal i) = some (UInt64.ofNat i)) ∧
      (∀ k v, m₄ k = some v → v = UInt64.ofNat (number k)) ∧
      ∀ s : Threads Tid, ThreadRun root (fun k => UInt64.ofNat (number k)) ⟨h₄, fun _ => none⟩ s →
        (∀ t, s.pending t = none) →
        ∃ h₅ m, cleanup (critbit root mem) iter s.heap = .ok (some h₅) ∧ Reached root h₅ m ∧
          ∀ i : Nat, 1 ≤ i → i < iter → m (decimal i) = none := by
  have hA := critbit_isMap hmem (rounds iter)
  obtain ⟨h₁, h₂, h₃, e₁, e₂, e₃, hr₃⟩ := rand_passes hA (.new e) hiter (Nat.le_refl _) hrand
  have hshort : ∀ j, 1 ≤ j → j < 1 + rounds iter → Short (decimal j) :=
    fun j _ hj => short_decimal (by unfold rounds at hj; omega)
  obtain ⟨h₄, m₄, e₄, hr₄, hset⟩ := setLoop_spec hA hr₃ decimal_injective.injOn hshort
    (fun _ _ _ => rfl) (by rw [ncard_empty]; omega)
  -- every key that is stored now has its own number
  have hv : ∀ k v, m₄ k = some v → v = UInt64.ofNat (number k) := by
    intro k v hk
    by_cases hj : ∃ j, 1 ≤ j ∧ j < 1 + rounds iter ∧ decimal j = k
    · obtain ⟨j, h1, hlt, rfl⟩ := hj
      rw [hset.keys j h1 hlt, Option.some.injEq] at hk
      rw [number_decimal, hk]
    · rw [hset.other k fun j h1 hlt he => hj ⟨j, h1, hlt, he⟩] at hk
      cases hk
  refine ⟨h₁, h₂, h₃, h₄, m₄, e₁, e₂, e₃, e₄, hr₄, fun i h1 hlt => hset.keys i h1 (by unfold rounds; omega),
    hv, fun s hrun hdone => ?_⟩
  obtain ⟨m, hr, C⟩ := covered_run hr₄ hv hrun
  have hb : ∀ j, 1 ≤ j → j < 1 + rounds iter → m (decimal j) ≠ none := by
    intro j h1 hlt
    have h4 : m₄ (decimal j) ≠ none := by
      rw [hset.keys j h1 hlt]
      exact Option.some_ne_none _
    refine (C.cover _ h4).resolve_right fun ⟨t, ht⟩ => ?_
    rw [hdone t] at ht
    cases ht
  obtain ⟨h₅, m₅, e₅, hr₅, hclean⟩ := cleanupLoop_spec hA hr true decimal_injective.injOn hb
  exact ⟨h₅, m₅, e₅, hr₅, fun i h1 hlt => hclean.keys i h1 (by unfold rounds; omega)⟩

/-- two different strings -/
theorem fillRand_id_injOn : Set.InjOn (fillRand id) (Set.Ico 1 (1 + rounds 3)) := by
  have hfirst : ∀ n : Nat, 1 ≤ n → n < 3 →
      (fillRand id n).bytes.head? = some (if n = 1 then 128 else 138) := by
    intro n h1 h3
    interval_cases n <;> decide
  have h3 : 1 + rounds 3 = 3 := rfl
  intro i hi j hj hij
  rw [h3] at hi hj
  obtain ⟨hi1, hi3⟩ := Set.mem_Ico.mp hi
  obtain ⟨hj1, hj3⟩ := Set.mem_Ico.mp hj
  have h := hfirst i hi1 hi3
  rw [hij, hfirst j hj1 hj3] at h
  interval_cases i <;> interval_cases j <;> first | rfl | cases h

/-- two numbers, and two threads whose rounds on the first one overlap; a lookup follows -/
theorem critbit_passes_two : ∃ mem h h₁ h₂ h₃ h₄ h₅ m p₁ p₂, Granting 0 mem ∧
    ThreadStep 0 (fun k => UInt64.ofNat (number k)) (⟨h, fun _ => none⟩ : Threads Bool) ⟨h₁, p₁⟩ ∧
    ThreadStep 0 (fun k => UInt64.ofNat (number k)) ⟨h₁, p₁⟩ ⟨h₂, p₂⟩ ∧
    p₂ true = some (decimal 1) ∧ p₂ false = some (decimal 1) ∧
    ThreadStep 0 (fun k => UInt64.ofNat (number k)) ⟨h₂, p₂⟩ ⟨h₃, p₁⟩ ∧
    ThreadStep 0 (fun k => UInt64.ofNat (number k)) ⟨h₃, p₁⟩ ⟨h₄, fun _ => none⟩ ∧
    ThreadStep 0 (fun k => UInt64.ofNat (number k)) (⟨h₄, fun _ => none⟩ : Threads Bool) ⟨h₄, fun _ => none⟩ ∧
    cleanup (critbit 0 mem) 3 h₄ = .ok (some h₅) ∧ Reached 0 h₅ m ∧ m (decimal 1) = none ∧
    m (decimal 2) = none := by
  obtain ⟨mem, hmem⟩ := exists_granting 0
  obtain ⟨-, -, -, h, m, -, -, -, -, hr, hset, hv, hrun⟩ :=
    @critbit_passes Bool _ 0 _ _ (critbitNew_fresh 0) mem hmem id 3 (by decide) fillRand_id_injOn
  obtain ⟨h₁, h₂, h₃, h₄, p₁, p₂, s₁, s₂, ht, hu, s₃, s₄⟩ :=
    exists_overlap hr hv (t := true) (u := false) (by decide) (k := decimal 1) (by decide)
  have hthreads := (((Relation.ReflTransGen.single s₁).tail s₂).tail s₃).tail s₄
  obtain ⟨m₄, hr₄, C⟩ := covered_run hr hv hthreads
  have hb : m₄ (decimal 2) ≠ none :=
    (C.cover (decimal 2) (by rw [hset 2 (by decide) (by decide)]; nofun)).resolve_right
      fun ⟨t, ht⟩ => by cases ht
  have hfind : ThreadStep 0 (fun k => UInt64.ofNat (number k)) (⟨h₄, fun _ => none⟩ : Threads Bool)
      ⟨h₄, fun _ => none⟩ := exists_find hr₄ (t := true) rfl hb
  obtain ⟨h₅, m₅, e, hr₅, hm⟩ := hrun _ (hthreads.tail hfind) fun _ => rfl
  exact ⟨mem, h, h₁, h₂, h₃, h₄, h₅, m₅, p₁, p₂, hmem, s₁, s₂, ht, hu, s₃, s₄, hfind, e, hr₅,
    hm 1 (by decide) (by decide), hm 2 (by decide) (by decide)⟩

/-- **The drivers on the dict**: none of them calls `exit`, and in the end the dict is empty. -/
theorem redisdict_passes {mem : DictMem} (hmem : mem.Grants) {rand : Nat → Nat} {iter : Int}
    (hiter : iter ≤ 536870913) (hrand : Set.InjOn (fillRand rand) (Set.Ico 1 (1 + rounds iter))) :
    ∃ d d₁ d₂ d₃ d₄ d₅ d₆, Redisdict.init mem = .ok d ∧
      setRand (redisdict mem) rand iter d = .ok (some d₁) ∧
      getRand (redisdict mem) rand iter d₁ = .ok (some d₂) ∧
      cleanupRand (redisdict mem) rand iter d₂ = .ok (some d₃) ∧
      set (redisdict mem) iter d₃ = .ok (some d₄) ∧ get (redisdict mem) iter d₄ = .ok (some d₅) ∧
      cleanup (redisdict mem) iter d₅ = .ok (some d₆) ∧ d₆.count = 0 := by
  have hinit : DictIs dictInit Map.empty := init_model
  have hcap : rounds iter ≤ 536870912 := by
    unfold rounds
    omega
  obtain ⟨d₁, d₂, d₃, e₁, e₂, e₃, hd₃⟩ :=
    rand_passes (redisdict_isMap hmem) hinit (by omega) hcap hrand
  obtain ⟨d₄, d₅, d₆, e₄, e₅, e₆, hd₆⟩ := decimal_passes (redisdict_isMap hmem) hd₃ (by omega) hcap
  refine ⟨dictInit, d₁, d₂, d₃, d₄, d₅, d₆, create_granted hmem, e₁, e₂, e₃, e₄, e₅, e₆, ?_⟩
  rw [hd₆.count_eq]
  exact ncard_empty

theorem redisdict_passes_two : ∃ d d₁ d₂ d₃ d₄ d₅ d₆ : Dict Key Val,
    Redisdict.init .all = .ok d ∧
    setRand (redisdict .all) id 3 d = .ok (some d₁) ∧
    getRand (redisdict .all) id 3 d₁ = .ok (some d₂) ∧
    cleanupRand (redisdict .all) id 3 d₂ = .ok (some d₃) ∧
    set (redisdict .all) 3 d₃ = .ok (some d₄) ∧
    get (redisdict .all) 3 d₄ = .ok (some d₅) ∧
    cleanup (redisdict .all) 3 d₅ = .ok (some d₆) ∧ d₆.count = 0 :=
  redisdict_passes grants_all (by decide) fillRand_id_injOn

end Critbit.Bench
