import Mathlib.Tactic

/-! Postconditions of stateful computations with errors. `Post x s Q E` says what a run of
`x` from `s` leaves behind: `Q` of the value and the state when it returns, `E` of the
error and the state when it throws. The rules follow the syntax of `do` blocks. The `apply`
lemmas run a block on a given state instead. At the end, blocks without a state. -/
namespace EStateM

variable {ε σ α β : Type}

def Post (x : EStateM ε σ α) (s : σ) (Q : α → σ → Prop) (E : ε → σ → Prop) : Prop :=
  match x s with
  | .ok a s' => Q a s'
  | .error e s' => E e s'

@[simp] theorem apply_bind (x : EStateM ε σ α) (f : α → EStateM ε σ β) (s : σ) :
    (x >>= f) s = match x s with
      | .ok a s' => f a s'
      | .error e s' => .error e s' := rfl

@[simp] theorem apply_pure (a : α) (s : σ) : (Pure.pure a : EStateM ε σ α) s = .ok a s := rfl

@[simp] theorem apply_throw (e : ε) (s : σ) :
    (MonadExcept.throw e : EStateM ε σ α) s = .error e s := rfl

@[simp] theorem apply_get (s : σ) : (MonadState.get : EStateM ε σ σ) s = .ok s s := rfl

@[simp] theorem apply_set (s s' : σ) :
    (MonadStateOf.set s' : EStateM ε σ PUnit) s = .ok ⟨⟩ s' := rfl

@[simp] theorem apply_modify (f : σ → σ) (s : σ) :
    (modify f : EStateM ε σ PUnit) s = .ok ⟨⟩ (f s) := rfl

@[simp] theorem apply_ite (c : Prop) [Decidable c] (x y : EStateM ε σ α) (s : σ) :
    (if c then x else y) s = if c then x s else y s := by
  split_ifs <;> rfl

theorem bind_eq_ok {x : EStateM ε σ α} {f : α → EStateM ε σ β} {s s' : σ} {b : β}
    (h : (x >>= f) s = .ok b s') : ∃ a s₁, x s = .ok a s₁ ∧ f a s₁ = .ok b s' := by
  rw [apply_bind] at h
  cases hx : x s with
  | ok a s₁ => exact ⟨a, s₁, rfl, by rw [hx] at h; exact h⟩
  | error e s₁ => rw [hx] at h; cases h

theorem Post.mono {x : EStateM ε σ α} {s : σ} {Q Q' : α → σ → Prop} {E : ε → σ → Prop}
    (h : Post x s Q E) (hq : ∀ a s', Q a s' → Q' a s') : Post x s Q' E := by
  unfold Post at h ⊢
  cases hx : x s with
  | ok a s' => rw [hx] at h; exact hq a s' h
  | error e s' => rw [hx] at h; exact h

theorem Post.bind {x : EStateM ε σ α} {f : α → EStateM ε σ β} {s : σ}
    {R : α → σ → Prop} {Q : β → σ → Prop} {E : ε → σ → Prop}
    (hx : Post x s R E) (hf : ∀ a s', R a s' → Post (f a) s' Q E) : Post (x >>= f) s Q E := by
  unfold Post at hx ⊢
  simp only [Bind.bind, EStateM.bind]
  cases h : x s with
  | ok a s' => rw [h] at hx; exact hf a s' hx
  | error e s' => rw [h] at hx; exact hx

theorem Post.pure {a : α} {s : σ} {Q : α → σ → Prop} {E : ε → σ → Prop} (h : Q a s) :
    Post (Pure.pure a : EStateM ε σ α) s Q E := h

theorem Post.throw {e : ε} {s : σ} {Q : α → σ → Prop} {E : ε → σ → Prop} (h : E e s) :
    Post (MonadExcept.throw e : EStateM ε σ α) s Q E := h

theorem Post.set {s s' : σ} {Q : PUnit → σ → Prop} {E : ε → σ → Prop} (h : Q ⟨⟩ s') :
    Post (MonadStateOf.set s' : EStateM ε σ PUnit) s Q E := h

theorem Post.ite {c : Prop} [Decidable c] {x y : EStateM ε σ α} {s : σ} {Q : α → σ → Prop}
    {E : ε → σ → Prop} (hx : c → Post x s Q E) (hy : ¬c → Post y s Q E) :
    Post (if c then x else y) s Q E := by
  split_ifs with h
  · exact hx h
  · exact hy h

end EStateM

namespace Nachos

theorem toOption_eq_some {ε α : Type*} {x : Except ε α} {a : α} (h : x.toOption = some a) :
    x = .ok a := by
  cases x with
  | error e => cases h
  | ok b => rw [Option.some.inj h]

theorem except_bind_eq_ok {ε α β : Type} {x : Except ε α} {f : α → Except ε β} {b : β}
    (h : x >>= f = .ok b) : ∃ a, x = .ok a ∧ f a = .ok b := by
  cases x with
  | error e => cases h
  | ok a => exact ⟨a, rfl, h⟩

end Nachos
