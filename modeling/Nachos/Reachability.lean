import Mathlib.Logic.Relation

/-! Reachable states of a transition relation and the invariant rule. `Reachable Init Step`
holds of the states that some finite run from an initial state ends in. -/
namespace Nachos

variable {σ : Type*} {Init Init' : σ → Prop} {Step Step' : σ → σ → Prop}

inductive Reachable (Init : σ → Prop) (Step : σ → σ → Prop) : σ → Prop
  | init {s : σ} (h : Init s) : Reachable Init Step s
  | step {s s' : σ} (hr : Reachable Init Step s) (h : Step s s') : Reachable Init Step s'

/-- What holds at the start and survives every step holds in every reachable state. -/
theorem Reachable.invariant {P : σ → Prop} (h₀ : ∀ s, Init s → P s)
    (hs : ∀ s s', P s → Step s s' → P s') {s : σ} (h : Reachable Init Step s) : P s := by
  induction h with
  | init h => exact h₀ _ h
  | step _ h ih => exact hs _ _ ih h

/-- The same with an invariant already known of the reachable states. -/
theorem Reachable.invariant_of {P Q : σ → Prop}
    (hq : ∀ {s}, Reachable Init Step s → Q s) (h₀ : ∀ s, Init s → P s)
    (hs : ∀ s s', Q s → P s → Step s s' → P s') {s : σ} (h : Reachable Init Step s) : P s := by
  induction h with
  | init h => exact h₀ _ h
  | step hr h ih => exact hs _ _ (hq hr) ih h

theorem Reachable.mono (hi : ∀ s, Init s → Init' s) (hs : ∀ s s', Step s s' → Step' s s')
    {s : σ} (h : Reachable Init Step s) : Reachable Init' Step' s := by
  induction h with
  | init h => exact .init (hi _ h)
  | step _ h ih => exact .step ih (hs _ _ h)

theorem Reachable.of_foldlM_mem {α : Type*} {step : σ → α → Option σ} {s s' : σ} {l : List α}
    (hs : ∀ s s', ∀ a ∈ l, step s a = some s' → Step s s') (hr : Reachable Init Step s)
    (h : l.foldlM step s = some s') : Reachable Init Step s' := by
  induction l generalizing s with
  | nil =>
    obtain rfl := Option.some.inj h
    exact hr
  | cons a l ih =>
    obtain ⟨u, hu, h⟩ := Option.bind_eq_some_iff.mp h
    exact ih (fun s s' b hb => hs s s' b (List.mem_cons_of_mem a hb))
      (hr.step (hs s u a List.mem_cons_self hu)) h

theorem Reachable.of_foldlM {α : Type*} {step : σ → α → Option σ}
    (hs : ∀ s a s', step s a = some s' → Step s s') {s s' : σ} {l : List α}
    (hr : Reachable Init Step s) (h : l.foldlM step s = some s') : Reachable Init Step s' :=
  hr.of_foldlM_mem (fun s s' a _ => hs s a s') h

theorem foldlM_split {α : Type*} {step : σ → α → Option σ} {s s' : σ} {a : α} {l l' : List α}
    (h : (l ++ a :: l').foldlM step s = some s') :
    ∃ s₁ s₂, l.foldlM step s = some s₁ ∧ step s₁ a = some s₂ ∧ l'.foldlM step s₂ = some s' := by
  rw [List.foldlM_append] at h
  obtain ⟨s₁, h₁, h⟩ := Option.bind_eq_some_iff.mp h
  obtain ⟨s₂, h₂, h⟩ := Option.bind_eq_some_iff.mp h
  exact ⟨s₁, s₂, h₁, h₂, h⟩

/-- What survives every admitted input survives the run. -/
theorem foldlM_invariant {α : Type*} {step : σ → α → Option σ} {P : σ → Prop} {s s' : σ}
    {l : List α} (hs : ∀ s s', ∀ a ∈ l, P s → step s a = some s' → P s') (h₀ : P s)
    (h : l.foldlM step s = some s') : P s' := by
  induction l generalizing s with
  | nil =>
    obtain rfl := Option.some.inj h
    exact h₀
  | cons a l ih =>
    obtain ⟨u, hu, h⟩ := Option.bind_eq_some_iff.mp h
    exact ih (fun s s' b hb => hs s s' b (List.mem_cons_of_mem a hb))
      (hs s u a List.mem_cons_self h₀ hu) h

end Nachos
