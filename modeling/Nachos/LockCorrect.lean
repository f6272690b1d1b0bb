import Nachos.Lock
import Nachos.Reachability

/-! Threads that call `Acquire` and `Release` on one lock (`synch.cc`) in any order. A switch
may come between any two statements; the bodies of `P` and `V` run with interrupts off and are
one step. A failing `ASSERT` stops the machine. `holding` and the flag of `releaseAssert` are
not in the source and no step reads them: a thread is `holding` from the return of its
`Acquire` to the start of its next `Release`, and the flag says whether it was when it
called. -/
namespace Nachos.LockRun
open Lock

inductive Pc where
  | user
  | acquireP
  | acquireSet
  | releaseAssert (held : Bool)
  | releaseClear
  | releaseUnlock
  deriving DecidableEq, Repr

inductive Call where
  | acquire
  | release

structure State (T : Type) where
  lock : Lock T
  pc : T → Pc
  holding : T → Bool
  aborted : Bool

def State.new (T : Type) : State T where
  lock := Lock.new T
  pc := fun _ => .user
  holding := fun _ => false
  aborted := false

variable {T : Type} [DecidableEq T]

def State.goto (s : State T) (t : T) (p : Pc) (holding : Bool) (lock : Lock T) : State T :=
  { s with
    lock := lock
    pc := Function.update s.pc t p
    holding := Function.update s.holding t holding }

def State.exec (s : State T) (t : T) (call : Call) : Option (State T) :=
  match s.pc t with
  | .user => match call with
    | .acquire => some (s.goto t .acquireP (s.holding t) s.lock)
    | .release => some (s.goto t (.releaseAssert (s.holding t)) false s.lock)
  | .acquireP => match s.lock.mutex.p t with
    | none => none
    | some (mutex, false) => some (s.goto t .acquireP (s.holding t) { s.lock with mutex := mutex })
    | some (mutex, true) => some (s.goto t .acquireSet false { s.lock with mutex := mutex })
  | .acquireSet => some (s.goto t .user true { s.lock with lockHolder := some t })
  | .releaseAssert _ =>
    if s.lock.isHeldByCurrentThread t then some (s.goto t .releaseClear false s.lock)
    else some { s with aborted := true }
  | .releaseClear => some (s.goto t .releaseUnlock false { s.lock with lockHolder := none })
  | .releaseUnlock => some (s.goto t .user false { s.lock with mutex := s.lock.mutex.v })

def State.step (s : State T) (e : T × Call) : Option (State T) :=
  if s.aborted then none else s.exec e.1 e.2

def Step (s s' : State T) : Prop := ∃ e, s.step e = some s'

/-- The phase of a thread in its use of the lock. A holder that calls `Acquire` again sleeps
in `P` with the lock still held. -/
def Pc.phase (p : Pc) (holding : Bool) : Phase :=
  match p with
  | .user | .acquireP => if holding then .held else .outside
  | .acquireSet => .taken
  | .releaseAssert held => if held then .held else .outside
  | .releaseClear => .held
  | .releaseUnlock => .unlocking

def State.phase (s : State T) (t : T) : Phase := (s.pc t).phase (s.holding t)

structure Inv (s : State T) : Prop where
  lock : s.lock.Inv s.phase
  holding : ∀ t, s.holding t = true → s.pc t = .user ∨ s.pc t = .acquireP

theorem phase_goto (s : State T) (t : T) (p : Pc) (b : Bool) (l : Lock T) :
    (s.goto t p b l).phase = Function.update s.phase t (p.phase b) := by
  funext u
  by_cases hu : u = t
  · subst hu
    simp [State.phase, State.goto]
  · simp [State.phase, State.goto, hu]

theorem Inv.goto {s : State T} {t : T} {p : Pc} {b : Bool} {l : Lock T} (h : Inv s)
    (hm : Move t (s.phase t) (p.phase b) s.lock l)
    (hb : b = true → p = .user ∨ p = .acquireP) : Inv (s.goto t p b l) where
  lock := by
    rw [phase_goto]
    exact h.lock.move hm
  holding u hu := by
    by_cases hut : u = t
    · subst hut
      simpa [State.goto] using hb (by simpa [State.goto] using hu)
    · simp only [State.goto, Function.update_of_ne hut] at hu ⊢
      exact h.holding u hu

theorem Inv.exec {s s' : State T} {t : T} {call : Call} (h : Inv s)
    (hs : s.exec t call = some s') : Inv s' := by
  unfold State.exec at hs
  split at hs
  case h_1 hpc =>
    cases call with
    | acquire =>
      obtain rfl := Option.some.inj hs
      refine h.goto ?_ (fun _ => .inr rfl)
      have : s.phase t = Pc.acquireP.phase (s.holding t) := by rw [State.phase, hpc]; rfl
      rw [this]
      exact .stay _ _
    | release =>
      obtain rfl := Option.some.inj hs
      refine h.goto ?_ nofun
      have : s.phase t = (Pc.releaseAssert (s.holding t)).phase false := by
        rw [State.phase, hpc]; rfl
      rw [this]
      exact .stay _ _
  case h_2 hpc =>
    cases hp : s.lock.mutex.p t with
    | none => simp [hp] at hs
    | some r =>
      obtain ⟨mutex, b⟩ := r
      obtain ⟨-, ⟨-, rfl, rfl⟩ | ⟨hv, rfl, rfl⟩⟩ := Semaphore.p_eq_some hp
      · simp only [hp, Option.some.injEq] at hs
        subst hs
        refine h.goto ?_ (fun _ => .inr rfl)
        rw [State.phase, hpc]
        exact .block _ _ _
      · simp only [hp, Option.some.injEq] at hs
        subst hs
        exact h.goto (.lock _ _ hv) nofun
  case h_3 hpc =>
    obtain rfl := Option.some.inj hs
    refine h.goto ?_ (fun _ => .inl rfl)
    rw [State.phase, hpc]
    exact .hold _
  case h_4 hpc =>
    split_ifs at hs with hheld
    · obtain rfl := Option.some.inj hs
      refine h.goto ?_ nofun
      rw [(h.lock.holder_iff t).mp (of_decide_eq_true hheld)]
      exact .stay _ _
    · obtain rfl := Option.some.inj hs
      exact ⟨h.lock, h.holding⟩
  case h_5 hpc =>
    obtain rfl := Option.some.inj hs
    refine h.goto ?_ nofun
    rw [State.phase, hpc]
    exact .release _
  case h_6 hpc =>
    obtain rfl := Option.some.inj hs
    refine h.goto ?_ nofun
    rw [State.phase, hpc]
    exact .unlock _

theorem reachable_inv {s : State T} (h : Reachable (· = State.new T) Step s) : Inv s := by
  refine Reachable.invariant ?_ ?_ h
  · rintro _ rfl
    exact ⟨Lock.new_inv, nofun⟩
  · rintro s s' hi ⟨e, hs⟩
    unfold State.step at hs
    split_ifs at hs
    exact hi.exec hs

omit [DecidableEq T] in
theorem Inv.holding_held {s : State T} {t : T} (h : Inv s) (ht : s.holding t = true) :
    s.phase t = .held := by
  obtain hpc | hpc := h.holding t ht <;> simp [State.phase, Pc.phase, hpc, ht]

theorem Inv.isHeld_user {s : State T} {t : T} (h : Inv s) (hpc : s.pc t = .user) :
    s.lock.isHeldByCurrentThread t = s.holding t := by
  have hiff := h.lock.holder_iff t
  rw [State.phase, hpc] at hiff
  cases hb : s.holding t with
  | false =>
    have hne : s.lock.lockHolder ≠ some t := by simp [hiff, Pc.phase, hb]
    simp [Lock.isHeldByCurrentThread, hne]
  | true =>
    have heq : s.lock.lockHolder = some t := by simp [hiff, Pc.phase, hb]
    simp [Lock.isHeldByCurrentThread, heq]

theorem Inv.isHeld_release {s : State T} {t : T} (h : Inv s)
    (hpc : s.pc t = .releaseAssert false) : s.lock.isHeldByCurrentThread t = false := by
  have hiff := h.lock.holder_iff t
  rw [State.phase, hpc] at hiff
  have hne : s.lock.lockHolder ≠ some t := by simp [hiff, Pc.phase]
  simp [Lock.isHeldByCurrentThread, hne]

/-- In every state reached, at most one thread is past `Acquire` and has not started `Release`;
a thread outside of the lock finds `isHeldByCurrentThread` true exactly when it is that one; and
a thread that calls `Release` without holding the lock comes to the `ASSERT` with the lock as it
was, where its next statement fails and leaves the lock as it is. -/
theorem lock_correct {s : State T} (h : Reachable (· = State.new T) Step s) :
    (∀ t u, s.holding t = true → s.holding u = true → t = u) ∧
      (∀ t, s.pc t = .user → s.lock.isHeldByCurrentThread t = s.holding t) ∧
      (∀ t s', s.pc t = .user → s.holding t = false → s.step (t, .release) = some s' →
        s'.lock = s.lock ∧ s'.pc t = .releaseAssert false) ∧
      (∀ t call, s.pc t = .releaseAssert false → s.aborted = false →
        s.step (t, call) = some { s with aborted := true }) := by
  have hi := reachable_inv h
  refine ⟨?_, fun t => hi.isHeld_user, ?_, ?_⟩
  · intro t u ht hu
    exact hi.lock.owner_unique t u (by simp [hi.holding_held ht]) (by simp [hi.holding_held hu])
  · intro t s' hpc hb hs
    unfold State.step at hs
    split_ifs at hs
    simp only [State.exec, hpc, hb, Option.some.injEq] at hs
    subst hs
    simp [State.goto]
  · intro t call hpc ha
    simp [State.step, ha, State.exec, hpc, hi.isHeld_release hpc]

/-- Thread 0 holds the lock and thread 1 has called `Release`. -/
theorem strayRelease_aborts : ∃ s : State ℕ, Reachable (· = State.new ℕ) Step s ∧
    s.holding 0 = true ∧ s.lock = ⟨⟨0, []⟩, some 0⟩ ∧
      s.step (1, .release) = some { s with aborted := true } := by
  have hrun : ([(0, .acquire), (0, .acquire), (0, .acquire), (1, .release)].foldlM State.step
      (State.new ℕ)).any (fun s : State ℕ => s.holding 0 = true ∧ s.lock = ⟨⟨0, []⟩, some 0⟩ ∧
        s.pc 1 = .releaseAssert false ∧ s.aborted = false) = true := by decide
  obtain ⟨s, hs, hb⟩ := (Option.any_eq_true _ _).mp hrun
  obtain ⟨h0, hl, hpc, ha⟩ := of_decide_eq_true hb
  have hr : Reachable (· = State.new ℕ) Step s :=
    Reachable.of_foldlM (fun _ e _ h => ⟨e, h⟩) (.init rfl) hs
  exact ⟨s, hr, h0, hl, (lock_correct hr).2.2.2 1 .release hpc ha⟩

end Nachos.LockRun
