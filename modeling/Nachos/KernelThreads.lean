import Nachos.Reachability
import Nachos.Semaphore

/-! Kernel threads, the ready list and the semaphores (`thread.cc`, `scheduler.cc`, `synch.cc`,
`Nachos_Exit` of `exception.cc`). Interrupts are enabled in the mode `user`, when a thread runs
its own code; each kernel operation runs with interrupts off and is one step up to the next
`SWITCH`. `SWITCH` starts a thread that has never run in `ThreadRoot`; any other thread goes on
after its own `SWITCH` in `Scheduler::Run`, deletes the thread to be destroyed, and returns into
`Yield` or into the loop of `P`. A sleeper with an empty ready list is in `Idle` until interrupt
handlers have done their `V`s. `cont` says where a thread goes on when it is dispatched, `log`
has the dispatches, the calls of `Finish` and the deletions; both are not in the source. -/
namespace Nachos.Kernel

/-- The state of a thread; `inP s` is in the loop of `P` on `s`. -/
inductive Cont (S : Type) where
  | unborn
  | fresh
  | running
  | yielded
  | inP (s : S)
  | finished
  | exited
  deriving DecidableEq, Repr

inductive Mode where
  | user
  | sleeping
  | idling
  deriving DecidableEq, Repr

inductive Event (T S : Type) where
  | run (t : T) (cont : Cont S)
  | finish (t : T) (previous : Option T)
  | delete (t currentThread : T)
  deriving DecidableEq, Repr

structure State (T S : Type) where
  currentThread : T
  readyList : List T
  sem : S → Semaphore T
  cont : T → Cont S
  mode : Mode
  threadToBeDestroyed : Option T
  log : List (Event T S)

variable {T S : Type}

structure Init (k : State T S) : Prop where
  main : k.cont k.currentThread = .running
  others : ∀ t, t ≠ k.currentThread → k.cont t = .unborn
  ready : k.readyList = []
  queues : ∀ s, (k.sem s).queue = []
  mode : k.mode = .user
  destroyed : k.threadToBeDestroyed = none
  log : k.log = []

namespace State

def reclaim (k : State T S) : State T S :=
  match k.threadToBeDestroyed with
  | none => k
  | some t =>
    { k with threadToBeDestroyed := none, log := k.log ++ [.delete t k.currentThread] }

variable [DecidableEq T] [DecidableEq S]

def setCont (k : State T S) (t : T) (c : Cont S) : State T S :=
  { k with cont := Function.update k.cont t c }

def setSem (k : State T S) (s : S) (sem : Semaphore T) : State T S :=
  { k with sem := Function.update k.sem s sem }

def v (k : State T S) (s : S) : State T S :=
  { k.setSem s (k.sem s).v with readyList := k.readyList ++ (k.sem s).queue.head?.toList }

def p (k : State T S) (s : S) : State T S :=
  if (k.sem s).value = 0 then
    { (k.setSem s { k.sem s with queue := (k.sem s).queue ++ [k.currentThread] }).setCont
        k.currentThread (.inP s) with mode := .sleeping }
  else
    { (k.setSem s { k.sem s with value := (k.sem s).value - 1 }).setCont
        k.currentThread .running with mode := .user }

/-- `Scheduler::Run` up to the point where the next thread enables interrupts or sleeps. -/
def run (k : State T S) (nextThread : T) : State T S :=
  let k' := { k with
    currentThread := nextThread
    log := k.log ++ [Event.run nextThread (k.cont nextThread)] }
  match k.cont nextThread with
  | .fresh => { k'.setCont nextThread .running with mode := .user }
  | .inP s => k'.reclaim.p s
  | _ => { k'.reclaim.setCont nextThread .running with mode := .user }

def finish (k : State T S) : State T S :=
  { k.setCont k.currentThread .finished with
    mode := .sleeping
    threadToBeDestroyed := some k.currentThread
    log := k.log ++ [.finish k.currentThread k.threadToBeDestroyed] }

end State

inductive Input (T S : Type) where
  | fork (t : T)
  | yield
  | p (s : S)
  | v (s : S)
  | finish
  | exit (joiners : List S)
  | next
  deriving DecidableEq, Repr

variable [DecidableEq T] [DecidableEq S]

/-- What the current thread does next; in `user` mode a `V` may also come from an interrupt
handler. -/
def State.step (k : State T S) (i : Input T S) : Option (State T S) :=
  match k.mode with
  | .user => match i with
    | .fork t =>
      if k.cont t = .unborn then
        some { k.setCont t .fresh with readyList := k.readyList ++ [t] }
      else none
    | .yield => match k.readyList with
      | [] => some k
      | nextThread :: rest =>
        some ({ k.setCont k.currentThread .yielded with
          readyList := rest ++ [k.currentThread] }.run nextThread)
    | .p s => some (k.p s)
    | .v s => some (k.v s)
    | .finish => some k.finish
    | .exit joiners =>
      match (joiners.foldl State.v k).readyList with
      | [] => some (joiners.foldl State.v k).finish
      | nextThread :: rest =>
        some ({ (joiners.foldl State.v k).setCont k.currentThread .exited with
          readyList := rest }.run nextThread)
    | .next => none
  | .sleeping => match i with
    | .next => match k.readyList with
      | [] => some { k with mode := .idling }
      | nextThread :: rest => some ({ k with readyList := rest }.run nextThread)
    | _ => none
  | .idling => match i with
    | .v s => some (k.v s)
    | .next => some { k with mode := .sleeping }
    | _ => none

def Step (k k' : State T S) : Prop := ∃ i, k.step i = some k'

inductive Move (k : State T S) : State T S → Prop
  | fork (t : T) (hm : k.mode = .user) (ht : k.cont t = .unborn) :
    Move k { k.setCont t .fresh with readyList := k.readyList ++ [t] }
  | stay : Move k k
  | yield (nextThread : T) (rest : List T) (hm : k.mode = .user)
      (hr : k.readyList = nextThread :: rest) :
    Move k ({ k.setCont k.currentThread .yielded with
      readyList := rest ++ [k.currentThread] }.run nextThread)
  | p (s : S) (hm : k.mode = .user) : Move k (k.p s)
  | v (s : S) : Move k (k.v s)
  | finish (joiners : List S) (hm : k.mode = .user) : Move k (joiners.foldl State.v k).finish
  | exit (joiners : List S) (nextThread : T) (rest : List T) (hm : k.mode = .user)
      (hr : (joiners.foldl State.v k).readyList = nextThread :: rest) :
    Move k ({ (joiners.foldl State.v k).setCont k.currentThread .exited with
      readyList := rest }.run nextThread)
  | idle (mode : Mode) (hm : k.mode ≠ .user) (hmode : mode ≠ .user) :
    Move k { k with mode := mode }
  | wake (nextThread : T) (rest : List T) (hm : k.mode ≠ .user)
      (hr : k.readyList = nextThread :: rest) :
    Move k ({ k with readyList := rest }.run nextThread)

theorem Move.of_user {k k' : State T S} {i : Input T S} (hm : k.mode = .user)
    (h : k.step i = some k') : Move k k' := by
  simp only [State.step, hm] at h
  cases i with
  | fork t =>
    dsimp only at h
    split_ifs at h with ht
    obtain rfl := Option.some.inj h
    exact .fork t hm ht
  | yield =>
    dsimp only at h
    split at h
    · obtain rfl := Option.some.inj h
      exact .stay
    · rename_i nextThread rest hr
      obtain rfl := Option.some.inj h
      exact .yield nextThread rest hm hr
  | p s =>
    obtain rfl := Option.some.inj h
    exact .p s hm
  | v s =>
    obtain rfl := Option.some.inj h
    exact .v s
  | finish =>
    obtain rfl := Option.some.inj h
    exact .finish [] hm
  | exit joiners =>
    dsimp only at h
    split at h
    · obtain rfl := Option.some.inj h
      exact .finish joiners hm
    · rename_i nextThread rest hr
      obtain rfl := Option.some.inj h
      exact .exit joiners nextThread rest hm hr
  | next => cases h

theorem Move.of_step {k k' : State T S} (h : Step k k') : Move k k' := by
  obtain ⟨i, h⟩ := h
  by_cases hm : k.mode = .user
  · exact .of_user hm h
  · unfold State.step at h
    split at h
    · contradiction
    · split at h
      · split at h
        · obtain rfl := Option.some.inj h
          exact .idle .idling hm (by simp)
        · rename_i nextThread rest hr
          obtain rfl := Option.some.inj h
          exact .wake nextThread rest hm hr
      · cases h
    · split at h
      · obtain rfl := Option.some.inj h
        exact .v _
      · obtain rfl := Option.some.inj h
        exact .idle .sleeping hm (by simp)
      · cases h

end Nachos.Kernel
