import Mathlib.Data.Option.Basic
import Mathlib.Tactic.Common

/-!
# Traces of labelled steps

A system is a relation `step s o s'` where `o` is what is seen of the step, if anything is.

* `Trace`                    what is seen on a run;
* `Trace.simulate`           a forward simulation: the other system shows the same, from the start on;
* `Trace.simulate_back`      a backward simulation: it shows the same, chosen from the end back.
-/

namespace Obj
variable {σ τ L : Type*}

/-- the labels on a run from `s` -/
inductive Trace (step : σ → Option L → σ → Prop) (s : σ) : List L → σ → Prop
  | refl : Trace step s [] s
  | tail {l : List L} {o : Option L} {s' s'' : σ} (h : Trace step s l s') (hs : step s' o s'') :
      Trace step s (l ++ o.toList) s''

namespace Trace
variable {step : σ → Option L → σ → Prop} {step' : τ → Option L → τ → Prop} {s s' s'' : σ}
  {l l' : List L} {o : Option L}

theorem single (hs : step s o s') : Trace step s o.toList s' := .tail .refl hs

theorem trans (h : Trace step s l s') (h' : Trace step s' l' s'') :
    Trace step s (l ++ l') s'' := by
  induction h' with
  | refl =>
    rw [List.append_nil]
    exact h
  | tail _ hs ih =>
    rw [← List.append_assoc]
    exact ih.tail hs

theorem head (hs : step s o s') (h : Trace step s' l s'') : Trace step s (o.toList ++ l) s'' :=
  (single hs).trans h

/-- a step that is seen, and others that are not -/
theorem head_silent (hs : step s o s') (h : Trace step s' [] s'') :
    Trace step s o.toList s'' := by
  have h' := head hs h
  rwa [List.append_nil] at h'

theorem invariant {P : σ → Prop} (h : Trace step s l s') (hs : P s)
    (hstep : ∀ s o s', P s → step s o s' → P s') : P s' := by
  induction h with
  | refl => exact hs
  | tail _ h1 ih => exact hstep _ _ _ ih h1

/-- **Forward simulation.** -/
theorem simulate {R : σ → τ → Prop}
    (hR : ∀ s o s' t, R s t → step s o s' → ∃ t', Trace step' t o.toList t' ∧ R s' t')
    (h : Trace step s l s') {t : τ} (ht : R s t) : ∃ t', Trace step' t l t' ∧ R s' t' := by
  induction h with
  | refl => exact ⟨t, .refl, ht⟩
  | tail _ hs ih =>
    obtain ⟨t₁, h₁, ht₁⟩ := ih
    obtain ⟨t₂, h₂, ht₂⟩ := hR _ _ _ _ ht₁ hs
    exact ⟨t₂, h₁.trans h₂, ht₂⟩

/-- **Backward simulation.** -/
theorem simulate_back {R : σ → τ → Prop}
    (hR : ∀ s o s' t', R s' t' → step s o s' → ∃ t, R s t ∧ Trace step' t o.toList t')
    (h : Trace step s l s') {t' : τ} (ht : R s' t') : ∃ t, R s t ∧ Trace step' t l t' := by
  induction h generalizing t' with
  | refl => exact ⟨t', ht, .refl⟩
  | tail _ hs ih =>
    obtain ⟨t₁, ht₁, h₁⟩ := hR _ _ _ _ ht hs
    obtain ⟨t, hst, h⟩ := ih ht₁
    exact ⟨t, hst, h.trans h₁⟩

end Trace

end Obj
