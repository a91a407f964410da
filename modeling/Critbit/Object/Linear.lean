import Critbit.Object.Trace
import Mathlib.Data.Set.Finite.Basic
import Mathlib.Data.Set.Finite.Lemmas
import Mathlib.Logic.Function.Basic

/-!
# Linearizable objects

An object has updates and lookups.  Threads call them, and see the answer when a call returns.

* `Atomic`                 each call takes effect in one step, at some moment between the call and the
                           return: its traces are the linearizable histories;
* `Window`                 a lookup may give any answer that was right at some moment since it began;
* `Window.trace_atomic`    it is linearizable still: the moment of a lookup is chosen in hindsight.
-/

namespace Obj

/-! ## histories -/

/-- what an update may answer and do to the state, and what a lookup answers -/
structure Object (σ U Q A : Type*) where
  upd : U → σ → A → σ → Prop
  ans : Q → σ → A

inductive Op (U Q : Type*) where
  | upd (u : U)
  | look (q : Q)
deriving DecidableEq

/-- what is seen of a call -/
inductive Event (Tid U Q A : Type*) where
  | call (t : Tid) (op : Op U Q)
  | ret (t : Tid) (a : A)
deriving DecidableEq

/-- where a thread is in its call -/
inductive Stage (U Q A : Type*) where
  | idle
  | called (op : Op U Q)
  | done (a : A)

/-- the same; a lookup that has begun has collected the answers that were right since -/
inductive View (U Q A : Type*) where
  | idle
  | called (op : Op U Q)
  | looking (q : Q) (as : Set A)
  | done (a : A)

/-- the state of the object, and of each thread -/
structure Config (Tid σ S : Type*) where
  state : σ
  pc : Tid → S

variable {Tid σ U Q A S : Type*} {l : List (Event Tid U Q A)}

section
variable [DecidableEq Tid]

def Config.goto (c : Config Tid σ S) (t : Tid) (p : S) : Config Tid σ S :=
  { c with pc := Function.update c.pc t p }

/-! ## the atomic object -/

inductive Atomic (O : Object σ U Q A) (c : Config Tid σ (Stage U Q A)) :
    Option (Event Tid U Q A) → Config Tid σ (Stage U Q A) → Prop
  | call {t : Tid} (op : Op U Q) (hpc : c.pc t = .idle) :
      Atomic O c (some (.call t op)) (c.goto t (.called op))
  | upd {t : Tid} {u : U} {a : A} {s : σ} (hpc : c.pc t = .called (.upd u))
      (hu : O.upd u c.state a s) : Atomic O c none (({ c with state := s } : Config ..).goto t (.done a))
  | look {t : Tid} {q : Q} (hpc : c.pc t = .called (.look q)) :
      Atomic O c none (c.goto t (.done (O.ans q c.state)))
  | ret {t : Tid} {a : A} (hpc : c.pc t = .done a) :
      Atomic O c (some (.ret t a)) (c.goto t .idle)

/-! ## lookups that take time -/

/-- an update has led to the state `s` -/
def View.see (O : Object σ U Q A) (s : σ) : View U Q A → View U Q A
  | .looking q as => .looking q (insert (O.ans q s) as)
  | v => v

inductive Window (O : Object σ U Q A) (c : Config Tid σ (View U Q A)) :
    Option (Event Tid U Q A) → Config Tid σ (View U Q A) → Prop
  | call {t : Tid} (op : Op U Q) (hpc : c.pc t = .idle) :
      Window O c (some (.call t op)) (c.goto t (.called op))
  | upd {t : Tid} {u : U} {a : A} {s : σ} (hpc : c.pc t = .called (.upd u))
      (hu : O.upd u c.state a s) :
      Window O c none ((⟨s, fun t => (c.pc t).see O s⟩ : Config ..).goto t (.done a))
  | begin {t : Tid} {q : Q} (hpc : c.pc t = .called (.look q)) :
      Window O c none (c.goto t (.looking q {O.ans q c.state}))
  | answer {t : Tid} {q : Q} {as : Set A} {a : A} (hpc : c.pc t = .looking q as) (ha : a ∈ as) :
      Window O c none (c.goto t (.done a))
  | ret {t : Tid} {a : A} (hpc : c.pc t = .done a) :
      Window O c (some (.ret t a)) (c.goto t .idle)

end

/-! ## hindsight -/

/-- a lookup that collects answers has taken effect already, with one of them, or has not -/
inductive View.Is : View U Q A → Stage U Q A → Prop
  | idle : View.Is .idle .idle
  | called (op : Op U Q) : View.Is (.called op) (.called op)
  | ahead (q : Q) (as : Set A) : View.Is (.looking q as) (.called (.look q))
  | hit {q : Q} {as : Set A} {a : A} (ha : a ∈ as) : View.Is (.looking q as) (.done a)
  | done (a : A) : View.Is (.done a) (.done a)

structure Hindsight (w : Config Tid σ (View U Q A)) (c : Config Tid σ (Stage U Q A)) : Prop where
  state : c.state = w.state
  pc : ∀ t, (w.pc t).Is (c.pc t)
  finite : {t | w.pc t ≠ .idle}.Finite

variable {O : Object σ U Q A} {w w' : Config Tid σ (View U Q A)} {c c' : Config Tid σ (Stage U Q A)}

/-- there is always an atomic object that fits -/
theorem View.exists_is (v : View U Q A) : ∃ p, v.Is p := by
  cases v with
  | idle => exact ⟨_, .idle⟩
  | called op => exact ⟨_, .called op⟩
  | looking q as => exact ⟨_, .ahead q as⟩
  | done a => exact ⟨_, .done a⟩

/-- what fits after an update fitted before it, or is a lookup that takes effect right after it -/
theorem View.Is.before {s : σ} {v : View U Q A} {p : Stage U Q A} (h : (v.see O s).Is p) :
    ∃ p', v.Is p' ∧ (p = p' ∨ v ≠ .idle ∧ ∃ q, p' = .called (.look q) ∧ p = .done (O.ans q s)) := by
  cases v with
  | looking q as =>
    cases h with
    | ahead => exact ⟨_, .ahead q as, .inl rfl⟩
    | hit ha =>
      rcases Set.mem_insert_iff.mp ha with rfl | ha
      · exact ⟨_, .ahead q as, .inr ⟨nofun, q, rfl, rfl⟩⟩
      · exact ⟨_, .hit ha, .inl rfl⟩
  | idle => exact ⟨p, h, .inl rfl⟩
  | called op => exact ⟨p, h, .inl rfl⟩
  | done a => exact ⟨p, h, .inl rfl⟩

theorem View.see_idle {s : σ} {v : View U Q A} : v.see O s = .idle ↔ v = .idle := by
  cases v with
  | looking q as => exact iff_of_false nofun nofun
  | idle => exact Iff.rfl
  | called op => exact Iff.rfl
  | done a => exact Iff.rfl

section
variable [DecidableEq Tid]

theorem Config.goto_self (c : Config Tid σ S) (t : Tid) (p : S) : (c.goto t p).pc t = p :=
  Function.update_self ..

theorem Config.goto_of_ne (c : Config Tid σ S) {t t' : Tid} (hne : t' ≠ t) (p : S) :
    (c.goto t p).pc t' = c.pc t' := Function.update_of_ne hne ..

theorem Config.goto_goto (c : Config Tid σ S) (t : Tid) (p p' : S) :
    (c.goto t p).goto t p' = c.goto t p' := by
  unfold goto
  rw [Function.update_idem]

theorem Config.goto_eq (c : Config Tid σ S) {t : Tid} {p : S} (h : c.pc t = p) : c.goto t p = c := by
  unfold goto
  rw [← h, Function.update_eq_self]

/-- lookups of finitely many threads, one after another -/
theorem Atomic.looks (s : Finset Tid) (hstate : c'.state = c.state)
    (hin : ∀ t ∈ s, ∃ q, c.pc t = .called (.look q) ∧ c'.pc t = .done (O.ans q c.state))
    (hout : ∀ t, t ∉ s → c'.pc t = c.pc t) : Trace (Atomic O) c [] c' := by
  induction s using Finset.induction_on generalizing c with
  | empty =>
    obtain rfl : c' = c := by
      cases c
      cases c'
      cases hstate
      congr
      exact funext fun t => hout t (Finset.notMem_empty t)
    exact .refl
  | @insert t s ht ih =>
    obtain ⟨q, hq, ha⟩ := hin t (Finset.mem_insert_self t s)
    refine Trace.head_silent (o := none) (.look hq) (ih hstate (fun t' ht' => ?_) fun t' ht' => ?_)
    · have hne : t' ≠ t := fun e => ht (e ▸ ht')
      rw [Config.goto_of_ne _ hne]
      exact hin t' (Finset.mem_insert_of_mem ht')
    · by_cases e : t' = t
      · subst e
        rw [Config.goto_self, ha]
      · rw [Config.goto_of_ne _ e]
        exact hout t' fun h => (Finset.mem_insert.mp h).elim e ht'

theorem Hindsight.finite_back {t : Tid} {v : View U Q A} (h : {t' | (w.goto t v).pc t' ≠ .idle}.Finite) :
    {t' | w.pc t' ≠ .idle}.Finite := by
  refine (h.insert t).subset fun t' ht' => ?_
  by_cases e : t' = t
  · exact .inl e
  · right
    show (w.goto t v).pc t' ≠ .idle
    rwa [Config.goto_of_ne _ e]

/-- the step of one thread, which the atomic object makes too -/
theorem Hindsight.back {t : Tid} {v : View U Q A} (H : Hindsight (w.goto t v) c') (p : Stage U Q A)
    (h : (w.pc t).Is p) : Hindsight w (c'.goto t p) where
  state := H.state
  pc t' := by
    by_cases e : t' = t
    · subst e
      rwa [Config.goto_self]
    · have h' := H.pc t'
      rw [Config.goto_of_ne _ e] at h' ⊢
      exact h'
  finite := Hindsight.finite_back H.finite

/-- **One step, backwards.** -/
theorem Hindsight.step {o : Option (Event Tid U Q A)} (H : Hindsight w' c') (h : Window O w o w') :
    ∃ c, Hindsight w c ∧ Trace (Atomic O) c o.toList c' := by
  cases h with
  | @call t op hpc =>
    have hp := H.pc t
    rw [Config.goto_self] at hp
    cases e : c'.pc t <;> rw [e] at hp <;> cases hp
    refine ⟨c'.goto t .idle, H.back _ (hpc ▸ .idle), ?_⟩
    have h1 := Trace.single (Atomic.call (O := O) op (c'.goto_self t .idle))
    rwa [Config.goto_goto, Config.goto_eq _ e] at h1
  | @begin t q hpc =>
    refine ⟨c'.goto t (.called (.look q)), H.back _ (hpc ▸ .called _), ?_⟩
    have hp := H.pc t
    rw [Config.goto_self] at hp
    cases e : c'.pc t <;> rw [e] at hp <;> cases hp
    · rw [Config.goto_eq _ e]
      exact .refl
    · rename_i ha
      have hd : c'.pc t = .done (O.ans q (c'.goto t (.called (.look q))).state) := by
        rw [e, Set.mem_singleton_iff.mp ha]
        exact congrArg _ (congrArg _ H.state.symm)
      have h1 := Trace.single (Atomic.look (O := O) (c'.goto_self t (.called (.look q))))
      rwa [Config.goto_goto, Config.goto_eq _ hd] at h1
  | @answer t q as a hpc ha =>
    have hp := H.pc t
    rw [Config.goto_self] at hp
    cases e : c'.pc t <;> rw [e] at hp <;> cases hp
    refine ⟨c', ?_, .refl⟩
    have h1 := H.back (.done a) (hpc ▸ .hit ha)
    rwa [Config.goto_eq _ e] at h1
  | @ret t a hpc =>
    have hp := H.pc t
    rw [Config.goto_self] at hp
    cases e : c'.pc t <;> rw [e] at hp <;> cases hp
    refine ⟨c'.goto t (.done a), H.back _ (hpc ▸ .done a), ?_⟩
    have h1 := Trace.single (Atomic.ret (O := O) (c'.goto_self t (.done a)))
    rwa [Config.goto_goto, Config.goto_eq _ e] at h1
  | @upd t u a s hpc hu =>
    have hst : c'.state = s := H.state
    have hself : c'.pc t = .done a := by
      have hp := H.pc t
      rw [Config.goto_self] at hp
      cases e : c'.pc t <;> rw [e] at hp <;> cases hp
      rfl
    have hother : ∀ t', t' ≠ t → ((w.pc t').see O s).Is (c'.pc t') := fun t' hne => by
      have hp := H.pc t'
      rwa [Config.goto_of_ne _ hne] at hp
    -- some lookups take effect right after the update
    have hex : ∀ t', ∃ p, (w.pc t').Is p ∧ (t' = t → p = .called (.upd u)) ∧ (t' ≠ t → c'.pc t' = p ∨
        w.pc t' ≠ .idle ∧ ∃ q, p = .called (.look q) ∧ c'.pc t' = .done (O.ans q s)) := by
      intro t'
      by_cases e : t' = t
      · subst e
        exact ⟨_, hpc ▸ .called _, fun _ => rfl, fun hne => absurd rfl hne⟩
      · obtain ⟨p, hp, hcase⟩ := (hother t' e).before
        exact ⟨p, hp, fun h => absurd h e, fun _ => hcase⟩
    choose f hf hfself hfother using hex
    have hbusy : {t' | w.pc t' ≠ .idle}.Finite := by
      refine (H.finite.insert t).subset fun t' ht' => ?_
      by_cases e : t' = t
      · exact .inl e
      · right
        show (Config.goto (⟨s, fun t => (w.pc t).see O s⟩ : Config ..) t (View.done a)).pc t' ≠ .idle
        rw [Config.goto_of_ne _ e]
        exact fun h => ht' (View.see_idle.mp h)
    have hlate : {t' | t' ≠ t ∧ c'.pc t' ≠ f t'}.Finite := hbusy.subset fun t' ht' =>
      ((hfother t' ht'.1).resolve_left ht'.2).1
    refine ⟨⟨w.state, f⟩, ⟨rfl, hf, hbusy⟩, ?_⟩
    refine Trace.head_silent (o := none) (.upd (hfself t rfl) hu) (Atomic.looks hlate.toFinset hst ?_ ?_)
    · intro t' ht'
      obtain ⟨hne, hd⟩ := hlate.mem_toFinset.mp ht'
      rw [Config.goto_of_ne _ hne]
      exact ((hfother t' hne).resolve_left hd).2
    · intro t' ht'
      by_cases e : t' = t
      · subst e
        rw [Config.goto_self, hself]
      · rw [Config.goto_of_ne _ e]
        exact by_contra fun hd => ht' (hlate.mem_toFinset.mpr ⟨e, hd⟩)

theorem Window.finite {o : Option (Event Tid U Q A)} (h : Window O w o w')
    (hf : {t | w.pc t ≠ .idle}.Finite) : {t | w'.pc t ≠ .idle}.Finite := by
  have hgoto : ∀ t v, {t' | (w.goto t v).pc t' ≠ .idle}.Finite := fun t v => by
    refine (hf.insert t).subset fun t' (ht' : (w.goto t v).pc t' ≠ .idle) => ?_
    by_cases e : t' = t
    · exact .inl e
    · right
      rwa [Config.goto_of_ne _ e] at ht'
  cases h with
  | @upd t u a s hpc hu =>
    refine (hf.insert t).subset fun t' ht' => ?_
    by_cases e : t' = t
    · exact .inl e
    · refine .inr fun h => ht' ?_
      rw [Config.goto_of_ne _ e]
      exact View.see_idle.mpr h
  | call => exact hgoto _ _
  | begin => exact hgoto _ _
  | answer => exact hgoto _ _
  | ret => exact hgoto _ _

/-- **A lookup that answers from its time is linearizable**, and the states agree in the end. -/
theorem Window.trace_atomic {s : σ} (h : Trace (Window O) ⟨s, fun _ => .idle⟩ l w) :
    ∃ c, Trace (Atomic O) ⟨s, fun _ => .idle⟩ l c ∧ c.state = w.state := by
  have hf : {t | w.pc t ≠ .idle}.Finite :=
    h.invariant (P := fun w : Config Tid σ (View U Q A) => {t | w.pc t ≠ .idle}.Finite)
      (by simp) fun _ _ _ hf hs => hs.finite hf
  choose f hfit using fun t => (w.pc t).exists_is
  obtain ⟨⟨s', p⟩, H, htr⟩ : ∃ c, Hindsight _ c ∧ Trace (Atomic O) c l ⟨w.state, f⟩ :=
    h.simulate_back (R := Hindsight) (fun _ _ _ _ H hs => H.step hs) ⟨rfl, hfit, hf⟩
  -- at the start there is only one that fits
  obtain rfl : s' = s := H.state
  obtain rfl : p = fun _ => .idle := by
    funext t
    have hp := H.pc t
    cases e : p t <;> rw [show (⟨s', p⟩ : Config ..).pc t = p t from rfl, e] at hp <;> cases hp
  exact ⟨_, htr, rfl⟩

end

end Obj
