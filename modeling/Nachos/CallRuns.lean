import Mathlib.Logic.Basic

/-! Sequences of calls on an object, each with an answer, and their simulation by a plain object.
The relation between the two may look at the calls that are still to come, so it can carry what a
sequence promises. -/
namespace Nachos.CallRuns

universe u v w
variable {m : Type u → Type v} {σ τ α : Type u} {ι : Type w}

def run [Monad m] (call : σ → ι → m (σ × α)) : List ι → σ → m (σ × List α)
  | [], s => return (s, [])
  | c :: cs, s => do
    let (s, a) ← call s c
    let (s, as) ← run call cs s
    return (s, a :: as)

def plainRun (call : τ → ι → τ × α) : List ι → τ → τ × List α
  | [], t => (t, [])
  | c :: cs, t =>
    let (t, a) := call t c
    let (t, as) := plainRun call cs t
    (t, a :: as)

/-- Where every call gives the answer of the plain object, so does every sequence. -/
theorem run_simulates [Monad m] [LawfulMonad m] (call : σ → ι → m (σ × α))
    (plain : τ → ι → τ × α) (R : List ι → σ → τ → Prop)
    (hcall : ∀ c cs s t, R (c :: cs) s t →
      ∃ s', call s c = pure (s', (plain t c).2) ∧ R cs s' (plain t c).1)
    {cs : List ι} {s : σ} {t : τ} (h : R cs s t) :
    ∃ s', run call cs s = pure (s', (plainRun plain cs t).2) ∧
      R [] s' (plainRun plain cs t).1 := by
  induction cs generalizing s t with
  | nil => exact ⟨s, rfl, h⟩
  | cons c cs ih =>
    obtain ⟨s₁, hstep, h₁⟩ := hcall c cs s t h
    obtain ⟨s₂, hrun, h₂⟩ := ih h₁
    refine ⟨s₂, ?_, h₂⟩
    rw [run, hstep, pure_bind]
    simp only [hrun, pure_bind]
    rfl

/-- Two objects that give every call of the kind `P` one answer, or fail together. -/
theorem run_related {σ τ α ε : Type} {call : σ → ι → Except ε (σ × α)}
    {call' : τ → ι → Except ε (τ × α)} {R : σ → τ → Prop} {P : ι → Prop}
    (hcall : ∀ c s t, P c → R s t → (∃ e, call s c = .error e ∧ call' t c = .error e) ∨
      ∃ s' t' a, call s c = .ok (s', a) ∧ call' t c = .ok (t', a) ∧ R s' t')
    {cs : List ι} (hcs : ∀ c ∈ cs, P c) {s : σ} {t : τ} (h : R s t) :
    (∃ e, run call cs s = .error e ∧ run call' cs t = .error e) ∨
      ∃ s' t' as, run call cs s = .ok (s', as) ∧ run call' cs t = .ok (t', as) ∧ R s' t' := by
  induction cs generalizing s t with
  | nil => exact .inr ⟨s, t, [], rfl, rfl, h⟩
  | cons c cs ih =>
    obtain ⟨e, hs, ht⟩ | ⟨s₁, t₁, a, hs, ht, h₁⟩ := hcall c s t (hcs c List.mem_cons_self) h
    · refine .inl ⟨e, ?_, ?_⟩
      · rw [run, hs]
        rfl
      · rw [run, ht]
        rfl
    · obtain ⟨e, hs', ht'⟩ | ⟨s₂, t₂, as, hs', ht', h₂⟩ :=
        ih (fun b hb => hcs b (List.mem_cons_of_mem c hb)) h₁
      · refine .inl ⟨e, ?_, ?_⟩
        · simp only [run, hs, bind, Except.bind, hs']
        · simp only [run, ht, bind, Except.bind, ht']
      · refine .inr ⟨s₂, t₂, a :: as, ?_, ?_, h₂⟩
        · simp only [run, hs, bind, Except.bind, hs']
          rfl
        · simp only [run, ht, bind, Except.bind, ht']
          rfl

theorem plainRun_map {κ : Type*} (call : τ → ι → τ × α) (f : κ → ι) (cs : List κ) (t : τ) :
    plainRun (fun t c => call t (f c)) cs t = plainRun call (cs.map f) t := by
  induction cs generalizing t with
  | nil => rfl
  | cons c cs ih =>
    rw [plainRun, List.map_cons, plainRun]
    simp only [ih]

end Nachos.CallRuns
