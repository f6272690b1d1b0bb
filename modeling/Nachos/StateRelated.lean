import Nachos.StatePost

/-! Two stateful computations side by side. `Related R x y s t` says that `x` from `s` and `y` from
`t` end in the same way, with one value or one error, and leave states that are again in `R`. The
rules follow the syntax of `do` blocks. -/
namespace EStateM

variable {ε σ τ α β : Type}

def Related (R : σ → τ → Prop) (x : EStateM ε σ α) (y : EStateM ε τ α) (s : σ) (t : τ) : Prop :=
  match x s, y t with
  | .ok a s', .ok b t' => a = b ∧ R s' t'
  | .error e s', .error e' t' => e = e' ∧ R s' t'
  | _, _ => False

def Respects (R : σ → τ → Prop) (x : EStateM ε σ α) (y : EStateM ε τ α) : Prop :=
  ∀ s t, R s t → Related R x y s t

variable {R : σ → τ → Prop} {x : EStateM ε σ α} {y : EStateM ε τ α} {s : σ} {t : τ}

theorem related_ok {a : α} {s' : σ} {t' : τ} (hx : x s = .ok a s') (hy : y t = .ok a t')
    (h : R s' t') : Related R x y s t := by
  unfold Related
  rw [hx, hy]
  exact ⟨rfl, h⟩

theorem related_error {e : ε} {s' : σ} {t' : τ} (hx : x s = .error e s') (hy : y t = .error e t')
    (h : R s' t') : Related R x y s t := by
  unfold Related
  rw [hx, hy]
  exact ⟨rfl, h⟩

theorem Related.cases (h : Related R x y s t) :
    (∃ a s' t', x s = .ok a s' ∧ y t = .ok a t' ∧ R s' t') ∨
      ∃ e s' t', x s = .error e s' ∧ y t = .error e t' ∧ R s' t' := by
  unfold Related at h
  cases hx : x s with
  | ok a s' =>
    cases hy : y t with
    | ok b t' =>
      rw [hx, hy] at h
      obtain ⟨rfl, hR⟩ := h
      exact .inl ⟨a, s', t', rfl, rfl, hR⟩
    | error e' t' =>
      rw [hx, hy] at h
      exact h.elim
  | error e s' =>
    cases hy : y t with
    | ok b t' =>
      rw [hx, hy] at h
      exact h.elim
    | error e' t' =>
      rw [hx, hy] at h
      obtain ⟨rfl, hR⟩ := h
      exact .inr ⟨e, s', t', rfl, rfl, hR⟩

theorem Related.bind {f : α → EStateM ε σ β} {g : α → EStateM ε τ β} (h : Related R x y s t)
    (hf : ∀ a, Respects R (f a) (g a)) : Related R (x >>= f) (y >>= g) s t := by
  obtain ⟨a, s', t', hx, hy, hR⟩ | ⟨e, s', t', hx, hy, hR⟩ := h.cases
  · have hfg := hf a s' t' hR
    unfold Related at hfg ⊢
    rw [apply_bind, apply_bind, hx, hy]
    exact hfg
  · refine related_error (e := e) ?_ ?_ hR
    · rw [apply_bind, hx]
    · rw [apply_bind, hy]

theorem Respects.bind {f : α → EStateM ε σ β} {g : α → EStateM ε τ β} (h : Respects R x y)
    (hf : ∀ a, Respects R (f a) (g a)) : Respects R (x >>= f) (y >>= g) :=
  fun s t hR => (h s t hR).bind hf

theorem respects_pure (a : α) :
    Respects R (Pure.pure a : EStateM ε σ α) (Pure.pure a : EStateM ε τ α) :=
  fun _ _ hR => related_ok rfl rfl hR

theorem respects_throw (e : ε) :
    Respects R (MonadExcept.throw e : EStateM ε σ α) (MonadExcept.throw e : EStateM ε τ α) :=
  fun _ _ hR => related_error rfl rfl hR

theorem Respects.ite {c : Prop} [Decidable c] {x' : EStateM ε σ α} {y' : EStateM ε τ α}
    (h : Respects R x y) (h' : Respects R x' y') :
    Respects R (if c then x else x') (if c then y else y') := by
  split_ifs
  · exact h
  · exact h'

end EStateM
