import Nachos.Reachability
import Nachos.Semaphore

/-! The synchronized list (`synchlist.h`) over `Lock`, `Condition` and `Semaphore`
(`synch.cc`). A thread is switched out between any two steps below. A step is one statement of the
source, but the `ASSERT` of `Signal`, `Wait` and `Release` goes with the statement behind it, and
in `Wait` so does `new Semaphore`: nothing changes `lockHolder` under the thread that holds the
lock, and the new semaphore is its own. The body of `P` and of `V` is one step because it runs with
interrupts off. Every thread has at most one waiter semaphore alive, so waiters are named
by the thread that made them. `acquisitions`, `turn`, `appended`, `removed` and `returned` are
not in the source: they number the acquisitions of the lock, and log the list operations
and the results of `Remove` with the number of the acquisition they run under. -/
namespace Nachos.SynchList

inductive Pc (T Item : Type) where
  | idle
  | appendAcquire (item : Item)
  | appendHold (item : Item)
  | appendList (item : Item)
  | appendSignal
  | appendDequeue
  | appendWake (waiter : T)
  | appendRelease
  | appendUnlock
  | removeAcquire
  | removeHold
  | removeTest
  | waitEnqueue
  | waitRelease
  | waitUnlock
  | waitSleep
  | waitAcquire
  | waitHold
  | removeTake
  | removeRelease (item : Item)
  | removeUnlock (item : Item)
  | aborted

structure State (T Item : Type) where
  pc : T → Pc T Item
  mutex : Semaphore T
  lockHolder : Option T
  waitQueue : List T
  waiter : T → Semaphore T
  list : List Item
  acquisitions : ℕ
  turn : T → ℕ
  appended : List (ℕ × Item)
  removed : List (ℕ × Item)
  returned : List (ℕ × Item)

def State.new {T Item : Type} : State T Item where
  pc := fun _ => .idle
  mutex := ⟨1, []⟩
  lockHolder := none
  waitQueue := []
  waiter := fun _ => ⟨0, []⟩
  list := []
  acquisitions := 0
  turn := fun _ => 0
  appended := []
  removed := []
  returned := []

inductive Call (Item : Type) where
  | append (item : Item)
  | remove

variable {T Item : Type} [DecidableEq T] [Inhabited Item]

def State.goto (s : State T Item) (t : T) (p : Pc T Item) : State T Item :=
  { s with pc := Function.update s.pc t p }

def State.acquire (s : State T Item) (t : T) (p : Pc T Item) : Option (State T Item) :=
  match s.mutex.p t with
  | none => none
  | some (mutex, false) => some { s with mutex := mutex }
  | some (mutex, true) =>
    some ({ s with
      mutex := mutex
      acquisitions := s.acquisitions + 1
      turn := Function.update s.turn t s.acquisitions }.goto t p)

def State.assertHeld (s : State T Item) (t : T) (s' : State T Item) : State T Item :=
  if s.lockHolder = some t then s' else s.goto t .aborted

def State.step (s : State T Item) (t : T) (call : Call Item) : Option (State T Item) :=
  match s.pc t with
  | .idle => match call with
    | .append item => some (s.goto t (.appendAcquire item))
    | .remove => some (s.goto t .removeAcquire)
  | .appendAcquire item => s.acquire t (.appendHold item)
  | .appendHold item => some ({ s with lockHolder := some t }.goto t (.appendList item))
  | .appendList item =>
    some ({ s with
      list := s.list ++ [item]
      appended := s.appended ++ [(s.turn t, item)] }.goto t .appendSignal)
  | .appendSignal =>
    some (s.assertHeld t (s.goto t
      (if s.waitQueue.isEmpty then .appendRelease else .appendDequeue)))
  | .appendDequeue =>
    match s.waitQueue with
    | [] => some (s.goto t .aborted)
    | w :: ws => some ({ s with waitQueue := ws }.goto t (.appendWake w))
  | .appendWake w =>
    some ({ s with waiter := Function.update s.waiter w (s.waiter w).v }.goto t .appendRelease)
  | .appendRelease => some (s.assertHeld t ({ s with lockHolder := none }.goto t .appendUnlock))
  | .appendUnlock => some ({ s with mutex := s.mutex.v }.goto t .idle)
  | .removeAcquire => s.acquire t .removeHold
  | .removeHold => some ({ s with lockHolder := some t }.goto t .removeTest)
  | .removeTest => some (s.goto t (if s.list.isEmpty then .waitEnqueue else .removeTake))
  | .waitEnqueue =>
    some (s.assertHeld t ({ s with
      waiter := Function.update s.waiter t ⟨0, []⟩
      waitQueue := s.waitQueue ++ [t] }.goto t .waitRelease))
  | .waitRelease => some (s.assertHeld t ({ s with lockHolder := none }.goto t .waitUnlock))
  | .waitUnlock => some ({ s with mutex := s.mutex.v }.goto t .waitSleep)
  | .waitSleep =>
    match (s.waiter t).p t with
    | none => none
    | some (waiter, false) => some { s with waiter := Function.update s.waiter t waiter }
    | some (waiter, true) =>
      some ({ s with waiter := Function.update s.waiter t waiter }.goto t .waitAcquire)
  | .waitAcquire => s.acquire t .waitHold
  | .waitHold => some ({ s with lockHolder := some t }.goto t .removeTest)
  | .removeTake =>
    some ({ s with
      list := s.list.tail
      removed := s.removed ++ [(s.turn t, s.list.headD default)] }.goto t
        (.removeRelease (s.list.headD default)))
  | .removeRelease item =>
    some (s.assertHeld t ({ s with lockHolder := none }.goto t (.removeUnlock item)))
  | .removeUnlock item =>
    some ({ s with
      mutex := s.mutex.v
      returned := s.returned ++ [(s.turn t, item)] }.goto t .idle)
  | .aborted => none

def Step (s s' : State T Item) : Prop := ∃ t call, s.step t call = some s'

def Init (s : State T Item) : Prop :=
  (∀ t, s.pc t = .idle) ∧ s.mutex = ⟨1, []⟩ ∧ s.lockHolder = none ∧ s.waitQueue = [] ∧
    s.list = [] ∧ s.appended = [] ∧ s.removed = [] ∧ s.returned = []

def Pc.owns : Pc T Item → Bool
  | .appendHold _ | .appendList _ | .appendSignal | .appendDequeue | .appendWake _
  | .appendRelease | .appendUnlock | .removeHold | .removeTest | .waitEnqueue | .waitRelease
  | .waitUnlock | .waitHold | .removeTake | .removeRelease _ | .removeUnlock _ => true
  | _ => false

def Pc.holds : Pc T Item → Bool
  | .appendList _ | .appendSignal | .appendDequeue | .appendWake _ | .appendRelease
  | .removeTest | .waitEnqueue | .waitRelease | .removeTake | .removeRelease _ => true
  | _ => false

/-- The thread has put its semaphore on the wait queue and not yet come through `P`. -/
def Pc.enqueued : Pc T Item → Bool
  | .waitRelease | .waitUnlock | .waitSleep => true
  | _ => false

/-- The thread has left the lock in `Wait` and not yet taken it again. -/
def Pc.pending : Pc T Item → Bool
  | .waitSleep | .waitAcquire => true
  | _ => false

inductive Move (s : State T Item) (t : T) : State T Item → Prop
  | callAppend (item : Item) (h : s.pc t = .idle) : Move s t (s.goto t (.appendAcquire item))
  | callRemove (h : s.pc t = .idle) : Move s t (s.goto t .removeAcquire)
  | block (queue : List T) : Move s t { s with mutex := { s.mutex with queue := queue } }
  | lock (p : Pc T Item) (hv : s.mutex.value ≠ 0)
      (h : (∃ item, s.pc t = .appendAcquire item ∧ p = .appendHold item) ∨
        (s.pc t = .removeAcquire ∧ p = .removeHold) ∨ (s.pc t = .waitAcquire ∧ p = .waitHold)) :
      Move s t ({ s with
        mutex := { s.mutex with value := s.mutex.value - 1 }
        acquisitions := s.acquisitions + 1
        turn := Function.update s.turn t s.acquisitions }.goto t p)
  | hold (p : Pc T Item)
      (h : (∃ item, s.pc t = .appendHold item ∧ p = .appendList item) ∨
        (s.pc t = .removeHold ∧ p = .removeTest) ∨ (s.pc t = .waitHold ∧ p = .removeTest)) :
      Move s t ({ s with lockHolder := some t }.goto t p)
  | append (item : Item) (h : s.pc t = .appendList item) :
      Move s t ({ s with
        list := s.list ++ [item]
        appended := s.appended ++ [(s.turn t, item)] }.goto t .appendSignal)
  | noSignal (h : s.pc t = .appendSignal) (hq : s.waitQueue = []) :
      Move s t (s.goto t .appendRelease)
  | signal (h : s.pc t = .appendSignal) (hq : s.waitQueue ≠ []) :
      Move s t (s.goto t .appendDequeue)
  | dequeue (w : T) (ws : List T) (h : s.pc t = .appendDequeue) (hq : s.waitQueue = w :: ws) :
      Move s t ({ s with waitQueue := ws }.goto t (.appendWake w))
  | wake (w : T) (h : s.pc t = .appendWake w) :
      Move s t ({ s with
        waiter := Function.update s.waiter w (s.waiter w).v }.goto t .appendRelease)
  | release (p : Pc T Item)
      (h : (s.pc t = .appendRelease ∧ p = .appendUnlock) ∨
        (s.pc t = .waitRelease ∧ p = .waitUnlock) ∨
        ∃ item, s.pc t = .removeRelease item ∧ p = .removeUnlock item) :
      Move s t ({ s with lockHolder := none }.goto t p)
  | unlock (p : Pc T Item)
      (h : (s.pc t = .appendUnlock ∧ p = .idle) ∨ (s.pc t = .waitUnlock ∧ p = .waitSleep)) :
      Move s t ({ s with mutex := s.mutex.v }.goto t p)
  | testEmpty (h : s.pc t = .removeTest) (hl : s.list = []) : Move s t (s.goto t .waitEnqueue)
  | testFull (h : s.pc t = .removeTest) (hl : s.list ≠ []) : Move s t (s.goto t .removeTake)
  | enqueue (h : s.pc t = .waitEnqueue) :
      Move s t ({ s with
        waiter := Function.update s.waiter t ⟨0, []⟩
        waitQueue := s.waitQueue ++ [t] }.goto t .waitRelease)
  | sleep (queue : List T) (h : s.pc t = .waitSleep) (hv : (s.waiter t).value = 0) :
      Move s t { s with waiter := Function.update s.waiter t { s.waiter t with queue := queue } }
  | resume (h : s.pc t = .waitSleep) (hv : (s.waiter t).value ≠ 0) :
      Move s t ({ s with
        waiter := Function.update s.waiter t
          { s.waiter t with value := (s.waiter t).value - 1 } }.goto t .waitAcquire)
  | take (h : s.pc t = .removeTake) :
      Move s t ({ s with
        list := s.list.tail
        removed := s.removed ++ [(s.turn t, s.list.headD default)] }.goto t
          (.removeRelease (s.list.headD default)))
  | finish (item : Item) (h : s.pc t = .removeUnlock item) :
      Move s t ({ s with
        mutex := s.mutex.v
        returned := s.returned ++ [(s.turn t, item)] }.goto t .idle)
  | abort (h : ((s.pc t).holds = true ∧ s.lockHolder ≠ some t) ∨
        (s.pc t = .appendDequeue ∧ s.waitQueue = [])) :
      Move s t (s.goto t .aborted)

theorem acquire_move {s s' : State T Item} {t : T} {p : Pc T Item}
    (h : s.acquire t p = some s')
    (hp : (∃ item, s.pc t = .appendAcquire item ∧ p = .appendHold item) ∨
      (s.pc t = .removeAcquire ∧ p = .removeHold) ∨ (s.pc t = .waitAcquire ∧ p = .waitHold)) :
    Move s t s' := by
  unfold State.acquire at h
  split at h
  · cases h
  · rename_i mutex hm
    obtain ⟨-, ⟨-, -, rfl⟩ | ⟨-, hb, -⟩⟩ := Semaphore.p_eq_some hm
    · obtain rfl := Option.some.inj h
      exact .block _
    · cases hb
  · rename_i mutex hm
    obtain ⟨-, ⟨-, hb, -⟩ | ⟨hv, -, rfl⟩⟩ := Semaphore.p_eq_some hm
    · cases hb
    · obtain rfl := Option.some.inj h
      exact .lock p hv hp

theorem assertHeld_move {s s' : State T Item} {t : T} (hh : (s.pc t).holds = true)
    (h : Move s t s') : Move s t (s.assertHeld t s') := by
  unfold State.assertHeld
  split_ifs with hl
  · exact h
  · exact .abort (.inl ⟨hh, hl⟩)

theorem step_move {s s' : State T Item} {t : T} {call : Call Item}
    (h : s.step t call = some s') : Move s t s' := by
  cases hpc : s.pc t <;> simp only [State.step, hpc] at h
  case idle =>
    cases call <;> obtain rfl := Option.some.inj h
    · exact .callAppend _ hpc
    · exact .callRemove hpc
  case appendAcquire item => exact acquire_move h (.inl ⟨item, hpc, rfl⟩)
  case removeAcquire => exact acquire_move h (.inr (.inl ⟨hpc, rfl⟩))
  case waitAcquire => exact acquire_move h (.inr (.inr ⟨hpc, rfl⟩))
  case appendDequeue =>
    split at h <;> obtain rfl := Option.some.inj h
    · exact .abort (.inr ⟨hpc, ‹_›⟩)
    · exact .dequeue _ _ hpc ‹_›
  case waitSleep =>
    split at h
    · cases h
    · rename_i waiter hm
      obtain ⟨-, ⟨hv, -, rfl⟩ | ⟨-, hb, -⟩⟩ := Semaphore.p_eq_some hm
      · obtain rfl := Option.some.inj h
        exact .sleep _ hpc hv
      · cases hb
    · rename_i waiter hm
      obtain ⟨-, ⟨-, hb, -⟩ | ⟨hv, -, rfl⟩⟩ := Semaphore.p_eq_some hm
      · cases hb
      · obtain rfl := Option.some.inj h
        exact .resume hpc hv
  case aborted => cases h
  all_goals obtain rfl := Option.some.inj h
  case appendHold item => exact .hold _ (.inl ⟨item, hpc, rfl⟩)
  case removeHold => exact .hold _ (.inr (.inl ⟨hpc, rfl⟩))
  case waitHold => exact .hold _ (.inr (.inr ⟨hpc, rfl⟩))
  case appendList item => exact .append _ hpc
  case appendSignal =>
    refine assertHeld_move (by rw [hpc]; rfl) ?_
    split_ifs with hq
    · exact .noSignal hpc (List.isEmpty_iff.mp hq)
    · exact .signal hpc (by simpa using hq)
  case appendWake w => exact .wake w hpc
  case appendRelease =>
    exact assertHeld_move (by rw [hpc]; rfl) (.release _ (.inl ⟨hpc, rfl⟩))
  case waitRelease =>
    exact assertHeld_move (by rw [hpc]; rfl) (.release _ (.inr (.inl ⟨hpc, rfl⟩)))
  case removeRelease item =>
    exact assertHeld_move (by rw [hpc]; rfl) (.release _ (.inr (.inr ⟨item, hpc, rfl⟩)))
  case appendUnlock => exact .unlock _ (.inl ⟨hpc, rfl⟩)
  case waitUnlock => exact .unlock _ (.inr ⟨hpc, rfl⟩)
  case removeTest =>
    split_ifs with hl
    · exact .testEmpty hpc (List.isEmpty_iff.mp hl)
    · exact .testFull hpc (by simpa using hl)
  case waitEnqueue => exact assertHeld_move (by rw [hpc]; rfl) (.enqueue hpc)
  case removeTake => exact .take hpc
  case removeUnlock item => exact .finish item hpc

def Pc.carried {T Item : Type} : Pc T Item → List Item
  | .appendAcquire item | .appendHold item | .appendList item => [item]
  | _ => []

omit [Inhabited Item] in
theorem acquire_appended {s s' : State T Item} {t : T} {p : Pc T Item}
    (h : s.acquire t p = some s') :
    s'.appended = s.appended ∧ (s'.pc t = s.pc t ∨ s'.pc t = p) := by
  unfold State.acquire at h
  split at h
  · cases h
  · obtain rfl := Option.some.inj h
    exact ⟨rfl, .inl rfl⟩
  · obtain rfl := Option.some.inj h
    exact ⟨rfl, .inr (by simp [State.goto])⟩

theorem step_carried {s s' : State T Item} {t : T} {call : Call Item}
    (h : s.step t call = some s') (hne : s.pc t ≠ .idle) :
    (s'.appended = s.appended ∧ (s'.pc t).carried = (s.pc t).carried) ∨
      ∃ item, s.pc t = .appendList item ∧ s'.appended = s.appended ++ [(s.turn t, item)] ∧
        (s'.pc t).carried = [] := by
  cases hpc : s.pc t <;> simp only [State.step, hpc] at h
  case idle => exact absurd hpc hne
  case aborted => cases h
  case appendAcquire | removeAcquire | waitAcquire =>
    obtain ⟨ha, hp | hp⟩ := acquire_appended h
    · exact .inl ⟨ha, by rw [hp, hpc]⟩
    · exact .inl ⟨ha, by rw [hp]; rfl⟩
  case appendDequeue =>
    split at h <;> obtain rfl := Option.some.inj h <;> simp [State.goto, Pc.carried]
  case waitSleep =>
    split at h
    · cases h
    · obtain rfl := Option.some.inj h
      simp [hpc]
    · obtain rfl := Option.some.inj h
      simp [State.goto, Pc.carried]
  case appendSignal | appendRelease | waitEnqueue | waitRelease | removeRelease =>
    obtain rfl := Option.some.inj h
    unfold State.assertHeld
    split_ifs <;> simp [State.goto, Pc.carried]
  case removeTest =>
    obtain rfl := Option.some.inj h
    split_ifs <;> simp [State.goto, Pc.carried]
  case appendList item =>
    obtain rfl := Option.some.inj h
    exact .inr ⟨item, rfl, by simp [State.goto, Pc.carried]⟩
  all_goals
    obtain rfl := Option.some.inj h
    simp [State.goto, Pc.carried]

theorem step_append_carried {s s' : State T Item} {t : T} {call : Call Item}
    (h : s.step t call = some s') (hne : s.pc t ≠ .idle) :
    s'.appended.map Prod.snd ++ (s'.pc t).carried =
      s.appended.map Prod.snd ++ (s.pc t).carried := by
  obtain ⟨ha, hc⟩ | ⟨item, hpc, ha, hc⟩ := step_carried h hne
  · rw [ha, hc]
  · rw [ha, hc, hpc]
    simp [Pc.carried]

theorem step_remove_carried {s s' : State T Item} {t : T} (h : s.step t .remove = some s')
    (hc : (s.pc t).carried = []) : s'.appended = s.appended ∧ (s'.pc t).carried = [] := by
  by_cases hpc : s.pc t = .idle
  · simp only [State.step, hpc, Option.some.injEq] at h
    subst h
    simp [State.goto, Pc.carried]
  · obtain ⟨ha, hc'⟩ | ⟨item, hpc, -⟩ := step_carried h hpc
    · exact ⟨ha, hc'.trans hc⟩
    · rw [hpc] at hc
      cases hc

theorem step_pc_other {s s' : State T Item} {t u : T} {call : Call Item}
    (h : s.step t call = some s') (hu : u ≠ t) : s'.pc u = s.pc u := by
  cases step_move h <;> simp [State.goto, hu]

end Nachos.SynchList
