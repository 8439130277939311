import Mathlib.Data.Nat.Init
import Mathlib.Logic.Relation

/-!
# Transition systems

What holds along the runs of a system whose parties take their steps in any order: an invariant
is what every step keeps, and every run comes to an end when a measure falls with every step.

`Traces` are runs of which the labels of the steps are seen; one system simulates another when it
has, from related states, a step with the same label for every step (`Traces.simulated`).
-/

set_option autoImplicit false

namespace LowLevel.Library

open Relation

variable {σ : Type} {step : σ → σ → Prop} {I Q R : σ → Prop} {s s' : σ}

/-- Every run from the state comes to an end, and to one where `Q` holds. -/
inductive EndsIn (step : σ → σ → Prop) (Q : σ → Prop) : σ → Prop where
  | intro {s : σ} (next : ∀ s', step s s' → EndsIn step Q s')
      (final : (∀ s', ¬ step s s') → Q s) : EndsIn step Q s

/-- **An invariant** holds in every state that is reached. -/
theorem invariant_of_steps (hstep : ∀ s s', I s → step s s' → I s') (hI : I s)
    (hrun : ReflTransGen step s s') : I s' := by
  induction hrun with
  | refl => exact hI
  | tail _ hlast ih => exact hstep _ _ ih hlast

/-- **A measure** that falls with every step: a run is as long as it at most, and where no step
is left the invariant tells what has been reached. -/
theorem endsIn_of_measure (μ : σ → ℕ) (hstep : ∀ s s', I s → step s s' → I s')
    (hfalls : ∀ s s', I s → step s s' → μ s' < μ s)
    (hfinal : ∀ s, I s → (∀ s', ¬ step s s') → Q s) (hI : I s) : EndsIn step Q s := by
  induction h : μ s using Nat.strong_induction_on generalizing s with
  | _ n ih =>
      refine .intro (fun s' hs => ?_) (hfinal s hI)
      have hless := hfalls s s' hI hs
      rw [h] at hless
      exact ih (μ s') hless (hstep s s' hI hs) rfl

namespace EndsIn

theorem mono (h : EndsIn step Q s) (hqr : ∀ s, Q s → R s) : EndsIn step R s := by
  induction h with
  | intro _ hfinal ih => exact .intro ih fun hstuck => hqr _ (hfinal hstuck)

/-- It is so from every state on the way. -/
theorem of_steps (h : EndsIn step Q s) (hrun : ReflTransGen step s s') : EndsIn step Q s' := by
  induction hrun with
  | refl => exact h
  | tail _ hlast ih =>
      cases ih with
      | intro hnext _ => exact hnext _ hlast

/-- What has been reached where a run has ended. -/
theorem result (h : EndsIn step Q s) (hrun : ReflTransGen step s s')
    (hstuck : ∀ s'', ¬ step s' s'') : Q s' := by
  cases h.of_steps hrun with
  | intro _ hfinal => exact hfinal hstuck

end EndsIn

/-! ## Steps that are seen -/

section Labelled

variable {τ ℓ : Type}

/-- A run, with the labels of its steps. -/
inductive Traces (step : σ → ℓ → σ → Prop) : σ → List ℓ → σ → Prop where
  | done (s : σ) : Traces step s [] s
  | step {s s₁ s' : σ} {l : ℓ} {ls : List ℓ} (hstep : step s l s₁) (hrest : Traces step s₁ ls s') :
      Traces step s (l :: ls) s'

variable {step : σ → ℓ → σ → Prop} {step' : τ → ℓ → τ → Prop} {R : σ → τ → Prop} {t : τ}
  {ls : List ℓ}

/-- **Simulation**: what is seen of one system can be seen of the other. -/
theorem Traces.simulated
    (hsim : ∀ s l s' t, R s t → step s l s' → ∃ t', step' t l t' ∧ R s' t')
    (hrun : Traces step s ls s') (hR : R s t) : ∃ t', Traces step' t ls t' ∧ R s' t' := by
  induction hrun generalizing t with
  | done s => exact ⟨t, .done t, hR⟩
  | step hstep _ ih =>
      obtain ⟨t₁, hstep', hR₁⟩ := hsim _ _ _ t hR hstep
      obtain ⟨t', hrest', hR'⟩ := ih hR₁
      exact ⟨t', .step hstep' hrest', hR'⟩

end Labelled

end LowLevel.Library
