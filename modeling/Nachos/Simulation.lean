import Mathlib.Data.List.Forall2

/-! Labelled steps and their runs. Where every step of one system is a step of the other with the
same label, between states that correspond, every run is a run of the other with the same
labels. -/
namespace Simulation

variable {σ τ ι : Type*}

inductive Run (step : σ → ι → σ → Prop) : σ → List ι → σ → Prop
  | nil (s : σ) : Run step s [] s
  | cons {s s₁ s₂ : σ} {l : ι} {ls : List ι} :
      step s l s₁ → Run step s₁ ls s₂ → Run step s (l :: ls) s₂

variable {step : σ → ι → σ → Prop} {step' : τ → ι → τ → Prop} {s s' : σ} {t : τ} {ls : List ι}

theorem Run.simulate {R : σ → τ → Prop} (h : Run step s ls s') (hR : R s t)
    (hstep : ∀ s t l s', R s t → step s l s' → ∃ t', step' t l t' ∧ R s' t') :
    ∃ t', Run step' t ls t' ∧ R s' t' := by
  induction h generalizing t with
  | nil s => exact ⟨t, .nil t, hR⟩
  | cons hfirst _ ih =>
    obtain ⟨t₁, ht₁, hR₁⟩ := hstep _ _ _ _ hR hfirst
    obtain ⟨t₂, hrun, hR₂⟩ := ih hR₁
    exact ⟨t₂, .cons ht₁ hrun, hR₂⟩

theorem forall₂_set {R : σ → τ → Prop} {l : List σ} {l' : List τ} (h : List.Forall₂ R l l') {a : σ}
    {b : τ} (hab : R a b) (i : ℕ) : List.Forall₂ R (l.set i a) (l'.set i b) := by
  induction h generalizing i with
  | nil => exact .nil
  | cons hd htl ih =>
    cases i with
    | zero => exact .cons hab htl
    | succ i => exact .cons hd (ih i)

end Simulation
