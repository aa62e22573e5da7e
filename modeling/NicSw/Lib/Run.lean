/-
Rules for loops and runs: what every step keeps, a whole run keeps.
-/
import Mathlib.Logic.Relation

namespace NicSw

variable {σ : Type*}

/-! ### Reachable states -/

/-- The states that steps lead to from a start. -/
inductive Reachable (start : σ → Prop) (step : σ → σ → Prop) : σ → Prop
  | start {s : σ} : start s → Reachable start step s
  | step {s s' : σ} : Reachable start step s → step s s' → Reachable start step s'

/-- **Invariant rule.** -/
theorem Reachable.invariant {start : σ → Prop} {step : σ → σ → Prop} {I : σ → Prop} {s : σ}
    (h : Reachable start step s) (hstart : ∀ s, start s → I s)
    (hstep : ∀ s s', I s → step s s' → I s') : I s := by
  induction h with
  | start h0 => exact hstart _ h0
  | step _ hs ih => exact hstep _ _ ih hs

/-- What every step keeps, steps keep. -/
theorem steps_keep {step : σ → σ → Prop} {I : σ → Prop} (hstep : ∀ s s', step s s' → I s → I s')
    {s s' : σ} (h : Relation.ReflTransGen step s s') (hs : I s) : I s' := by
  induction h with
  | refl => exact hs
  | tail _ hlast ih => exact hstep _ _ hlast ih

/-- A run that is given by what happens in it. -/
theorem Reachable.run {α : Type*} {start : σ → Prop} {step : σ → σ → Prop} {next : σ → α → Option σ}
    (hnext : ∀ s x s', next s x = some s' → step s s') {s s' : σ} {xs : List α}
    (h : Reachable start step s) (hrun : xs.foldlM next s = some s') : Reachable start step s' := by
  induction xs generalizing s with
  | nil =>
    cases hrun
    exact h
  | cons x xs ih =>
    obtain ⟨t, ht, hrest⟩ := Option.bind_eq_some_iff.mp hrun
    exact ih (.step h (hnext s x t ht)) hrest

end NicSw
