import Nachos.Condition
import Nachos.Lock
import Nachos.Reachability

/-! The dining philosophers (`dinningph.cc`), a monitor of one lock and five conditions, and the
five threads that use it (`Philo` in `threadtest.cc`; thread `who` has seat `who`). A switch may
come between any two statements, so the calls of `Yield` are no steps of their own; the bodies of
`P` and `V` run with interrupts off and are one step. The statements of `Acquire`, `Release` and
`test` carry the place that they were called from. `meals` and the `start` of a `Signal` are not
in the source: they count the calls of `pickup` that have returned, and name the queue that the
call has found. -/
namespace Nachos.DinningPh

abbrev Seat := Fin 5

instance neZeroSeats : NeZero 5 := ⟨by decide⟩

inductive Activity where
  | thinking
  | hungry
  | eating
  deriving DecidableEq, Repr

inductive Site where
  | pickup
  | putdown
  | wait (waiter : ℕ)
  deriving DecidableEq, Repr

/-- Where `test` is called: in `pickup`, or for one of the neighbours in `putdown`. -/
inductive Check where
  | own
  | left
  | right
  deriving DecidableEq, Repr

def Check.seat (who : Seat) : Check → Seat
  | .own => who
  | .left => who + 4
  | .right => who + 1

inductive Pc where
  | philo
  | acquireP (site : Site)
  | acquireSet (site : Site)
  | setHungry
  | testIf (check : Check)
  | setEating (check : Check)
  | signalAssert (check : Check) (start : List ℕ)
  | signalTest (check : Check) (start : List ℕ)
  | signalRemove (check : Check) (start : List ℕ)
  | signalV (check : Check) (start : List ℕ) (waiter : ℕ)
  | ifHungry
  | waitAssert
  | waitNew
  | waitAppend (waiter : ℕ)
  | waitP (waiter : ℕ)
  | waitDelete (waiter : ℕ)
  | releaseAssert (site : Site)
  | releaseClear (site : Site)
  | releaseUnlock (site : Site)
  | eat
  | setThinking
  | finished
  deriving DecidableEq, Repr

structure State where
  lock : Lock Seat
  self : Seat → Condition Seat
  state : Seat → Activity
  pc : Seat → Pc
  rounds : Seat → ℕ
  meals : Seat → ℕ
  aborted : Bool

def State.new (rounds : ℕ) : State where
  lock := Lock.new Seat
  self := fun _ => Condition.new Seat
  state := fun _ => .thinking
  pc := fun _ => .philo
  rounds := fun _ => rounds
  meals := fun _ => 0
  aborted := false

namespace State

def goto (s : State) (t : Seat) (p : Pc) : State := { s with pc := Function.update s.pc t p }

def setState (s : State) (i : Seat) (a : Activity) : State :=
  { s with state := Function.update s.state i a }

def setSelf (s : State) (i : Seat) (c : Condition Seat) : State :=
  { s with self := Function.update s.self i c }

def setLock (s : State) (l : Lock Seat) : State := { s with lock := l }

def assertHeld (s : State) (t : Seat) (p : Pc) : State :=
  if s.lock.isHeldByCurrentThread t then s.goto t p else { s with aborted := true }

def mayEat (s : State) (i : Seat) : Bool :=
  s.state (i + 4) ≠ .eating && s.state i = .hungry && s.state (i + 1) ≠ .eating

end State

def signal (start : List ℕ) : Condition.Call := ⟨false, start, []⟩

def acquired : Site → Pc
  | .pickup => .setHungry
  | .putdown => .setThinking
  | .wait w => .waitDelete w

def released : Site → Pc
  | .pickup => .eat
  | .putdown => .philo
  | .wait w => .waitP w

def tested : Check → Pc
  | .own => .ifHungry
  | .left => .testIf .right
  | .right => .releaseAssert .putdown

def State.exec (s : State) (t : Seat) : Option State :=
  match s.pc t with
  | .philo => match s.rounds t with
    | 0 => some (s.goto t .finished)
    | k + 1 =>
      some ({ s with rounds := Function.update s.rounds t k }.goto t (.acquireP .pickup))
  | .acquireP site => match s.lock.mutex.p t with
    | none => none
    | some (mutex, false) => some (s.setLock { s.lock with mutex := mutex })
    | some (mutex, true) =>
      some ((s.setLock { s.lock with mutex := mutex }).goto t (.acquireSet site))
  | .acquireSet site =>
    some ((s.setLock { s.lock with lockHolder := some t }).goto t (acquired site))
  | .setHungry => some ((s.setState t .hungry).goto t (.testIf .own))
  | .testIf check =>
    some (s.goto t (if s.mayEat (check.seat t) then .setEating check else tested check))
  | .setEating check =>
    some ((s.setState (check.seat t) .eating).goto t
      (.signalAssert check (s.self (check.seat t)).waitQueue))
  | .signalAssert check start => some (s.assertHeld t (.signalTest check start))
  | .signalTest check start =>
    if (s.self (check.seat t)).waitQueue = [] then
      some ((s.setSelf (check.seat t) ((s.self (check.seat t)).complete (signal start))).goto t
        (tested check))
    else some (s.goto t (.signalRemove check start))
  | .signalRemove check start => match (s.self (check.seat t)).waitQueue with
    | [] => some { s with aborted := true }
    | w :: ws =>
      some ((s.setSelf (check.seat t) ((s.self (check.seat t)).remove t w ws)).goto t
        (.signalV check start w))
  | .signalV check start w =>
    some ((s.setSelf (check.seat t)
      (((s.self (check.seat t)).wake w).complete ((signal start).release w))).goto t (tested check))
  | .ifHungry =>
    some (s.goto t (if s.state t = .hungry then .waitAssert else .releaseAssert .pickup))
  | .waitAssert => some (s.assertHeld t .waitNew)
  | .waitNew =>
    some ((s.setSelf t ((s.self t).newWaiter t)).goto t (.waitAppend (s.self t).next))
  | .waitAppend w =>
    some ((s.setSelf t ((s.self t).append w)).goto t (.releaseAssert (.wait w)))
  | .waitP w => match ((s.self t).waiter w).p t with
    | none => none
    | some (sem, false) => some (s.setSelf t ((s.self t).setWaiter w sem))
    | some (sem, true) =>
      some ((s.setSelf t ((s.self t).setWaiter w sem)).goto t (.acquireP (.wait w)))
  | .waitDelete w =>
    some ((s.setSelf t ((s.self t).returned t w s.lock.lockHolder)).goto t
      (.releaseAssert .pickup))
  | .releaseAssert site => some (s.assertHeld t (.releaseClear site))
  | .releaseClear site =>
    some ((s.setLock { s.lock with lockHolder := none }).goto t (.releaseUnlock site))
  | .releaseUnlock site =>
    some ({ s with
      lock := { s.lock with mutex := s.lock.mutex.v }
      meals := if site = Site.pickup then Function.update s.meals t (s.meals t + 1)
        else s.meals }.goto t (released site))
  | .eat => some (s.goto t (.acquireP .putdown))
  | .setThinking => some ((s.setState t .thinking).goto t (.testIf .left))
  | .finished => none

def State.step (s : State) (t : Seat) : Option State := if s.aborted then none else s.exec t

def Step (s s' : State) : Prop := ∃ t, s.step t = some s'

def Pc.phase : Pc → Lock.Phase
  | .philo | .finished | .eat | .acquireP _ | .waitP _ => .outside
  | .acquireSet _ => .taken
  | .releaseUnlock _ => .unlocking
  | _ => .held

def Pc.stage : Pc → Condition.Stage
  | .waitAppend w => .fresh w
  | .releaseAssert (.wait w) | .releaseClear (.wait w) | .releaseUnlock (.wait w) | .waitP w =>
    .queued w
  | .acquireP (.wait w) | .acquireSet (.wait w) | .waitDelete w => .passed w
  | .signalAssert _ start | .signalTest _ start | .signalRemove _ start =>
    .signalling (signal start)
  | .signalV _ start w => .waking (signal start) w
  | _ => .idle

def Pc.seat (who : Seat) : Pc → Seat
  | .signalAssert check _ | .signalTest check _ | .signalRemove check _ | .signalV check _ _ =>
    check.seat who
  | _ => who

def Pc.stageAt (who : Seat) (p : Pc) (i : Seat) : Condition.Stage :=
  if p.seat who = i then p.stage else .idle

/-- What a thread can do: one constructor for each outcome of a statement. -/
inductive Move (s : State) (t : Seat) : State → Prop
  | done (h : s.pc t = .philo) (hr : s.rounds t = 0) : Move s t (s.goto t .finished)
  | round (k : ℕ) (h : s.pc t = .philo) (hr : s.rounds t = k + 1) :
      Move s t ({ s with rounds := Function.update s.rounds t k }.goto t (.acquireP .pickup))
  | block (site : Site) (h : s.pc t = .acquireP site) (hq : t ∉ s.lock.mutex.queue)
      (hv : s.lock.mutex.value = 0) :
      Move s t (s.setLock { s.lock with
        mutex := { s.lock.mutex with queue := s.lock.mutex.queue ++ [t] } })
  | pass (site : Site) (h : s.pc t = .acquireP site) (hq : t ∉ s.lock.mutex.queue)
      (hv : s.lock.mutex.value ≠ 0) :
      Move s t ((s.setLock { s.lock with
        mutex := { s.lock.mutex with value := s.lock.mutex.value - 1 } }).goto t
          (.acquireSet site))
  | hold (site : Site) (h : s.pc t = .acquireSet site) :
      Move s t ((s.setLock { s.lock with lockHolder := some t }).goto t (acquired site))
  | setHungry (h : s.pc t = .setHungry) : Move s t ((s.setState t .hungry).goto t (.testIf .own))
  | allow (check : Check) (h : s.pc t = .testIf check) (hm : s.mayEat (check.seat t) = true) :
      Move s t (s.goto t (.setEating check))
  | refuse (check : Check) (h : s.pc t = .testIf check) (hm : s.mayEat (check.seat t) = false) :
      Move s t (s.goto t (tested check))
  | setEating (check : Check) (h : s.pc t = .setEating check) :
      Move s t ((s.setState (check.seat t) .eating).goto t
        (.signalAssert check (s.self (check.seat t)).waitQueue))
  | asserted (p q : Pc) (h : s.pc t = q) (hp : (∃ check start, q = .signalAssert check start ∧
        p = .signalTest check start) ∨ (q = .waitAssert ∧ p = .waitNew) ∨
        ∃ site, q = .releaseAssert site ∧ p = .releaseClear site) : Move s t (s.goto t p)
  | noWaiter (check : Check) (start : List ℕ) (h : s.pc t = .signalTest check start)
      (hq : (s.self (check.seat t)).waitQueue = []) :
      Move s t ((s.setSelf (check.seat t) ((s.self (check.seat t)).complete (signal start))).goto t
        (tested check))
  | waiter (check : Check) (start : List ℕ) (h : s.pc t = .signalTest check start)
      (hq : (s.self (check.seat t)).waitQueue ≠ []) :
      Move s t (s.goto t (.signalRemove check start))
  | remove (check : Check) (start : List ℕ) (w : ℕ) (ws : List ℕ)
      (h : s.pc t = .signalRemove check start) (hq : (s.self (check.seat t)).waitQueue = w :: ws) :
      Move s t ((s.setSelf (check.seat t) ((s.self (check.seat t)).remove t w ws)).goto t
        (.signalV check start w))
  | wake (check : Check) (start : List ℕ) (w : ℕ) (h : s.pc t = .signalV check start w) :
      Move s t ((s.setSelf (check.seat t)
        (((s.self (check.seat t)).wake w).complete ((signal start).release w))).goto t
          (tested check))
  | mustWait (h : s.pc t = .ifHungry) (hs : s.state t = .hungry) : Move s t (s.goto t .waitAssert)
  | served (h : s.pc t = .ifHungry) (hs : s.state t ≠ .hungry) :
      Move s t (s.goto t (.releaseAssert .pickup))
  | newWaiter (h : s.pc t = .waitNew) :
      Move s t ((s.setSelf t ((s.self t).newWaiter t)).goto t (.waitAppend (s.self t).next))
  | append (w : ℕ) (h : s.pc t = .waitAppend w) :
      Move s t ((s.setSelf t ((s.self t).append w)).goto t (.releaseAssert (.wait w)))
  | sleep (w : ℕ) (h : s.pc t = .waitP w) (hq : t ∉ ((s.self t).waiter w).queue)
      (hv : ((s.self t).waiter w).value = 0) :
      Move s t (s.setSelf t ((s.self t).setWaiter w
        { (s.self t).waiter w with queue := ((s.self t).waiter w).queue ++ [t] }))
  | resume (w : ℕ) (h : s.pc t = .waitP w) (hq : t ∉ ((s.self t).waiter w).queue)
      (hv : ((s.self t).waiter w).value ≠ 0) :
      Move s t ((s.setSelf t ((s.self t).setWaiter w
        { (s.self t).waiter w with value := ((s.self t).waiter w).value - 1 })).goto t
          (.acquireP (.wait w)))
  | delete (w : ℕ) (h : s.pc t = .waitDelete w) :
      Move s t ((s.setSelf t ((s.self t).returned t w s.lock.lockHolder)).goto t
        (.releaseAssert .pickup))
  | clear (site : Site) (h : s.pc t = .releaseClear site) :
      Move s t ((s.setLock { s.lock with lockHolder := none }).goto t (.releaseUnlock site))
  | unlock (site : Site) (h : s.pc t = .releaseUnlock site) :
      Move s t ({ s with
        lock := { s.lock with mutex := s.lock.mutex.v }
        meals := if site = Site.pickup then Function.update s.meals t (s.meals t + 1)
          else s.meals }.goto t (released site))
  | eat (h : s.pc t = .eat) : Move s t (s.goto t (.acquireP .putdown))
  | setThinking (h : s.pc t = .setThinking) :
      Move s t ((s.setState t .thinking).goto t (.testIf .left))
  | abort (h : ((s.pc t).phase = .held ∧ s.lock.lockHolder ≠ some t) ∨
        ∃ check start, s.pc t = .signalRemove check start ∧
          (s.self (check.seat t)).waitQueue = []) :
      Move s t { s with aborted := true }

variable {s s' : State} {t : Seat}

theorem assertHeld_move {p q : Pc} (h : s.pc t = q) (hq : q.phase = .held)
    (hp : (∃ check start, q = .signalAssert check start ∧ p = .signalTest check start) ∨
      (q = .waitAssert ∧ p = .waitNew) ∨ ∃ site, q = .releaseAssert site ∧
        p = .releaseClear site) : Move s t (s.assertHeld t p) := by
  unfold State.assertHeld
  split_ifs with hl
  · exact .asserted p q h hp
  · exact .abort (.inl ⟨h ▸ hq, fun heq => hl (decide_eq_true heq)⟩)

theorem exec_move (hs : s.exec t = some s') : Move s t s' := by
  cases hpc : s.pc t <;> simp only [State.exec, hpc] at hs
  case philo =>
    split at hs <;> obtain rfl := Option.some.inj hs
    · exact .done hpc ‹_›
    · exact .round _ hpc ‹_›
  case acquireP site =>
    split at hs
    · cases hs
    · rename_i mutex hm
      obtain ⟨hq, ⟨hv, -, rfl⟩ | ⟨-, hb, -⟩⟩ := Semaphore.p_eq_some hm
      · obtain rfl := Option.some.inj hs
        exact .block site hpc hq hv
      · cases hb
    · rename_i mutex hm
      obtain ⟨hq, ⟨-, hb, -⟩ | ⟨hv, -, rfl⟩⟩ := Semaphore.p_eq_some hm
      · cases hb
      · obtain rfl := Option.some.inj hs
        exact .pass site hpc hq hv
  case signalTest check start =>
    split_ifs at hs with hq <;> obtain rfl := Option.some.inj hs
    · exact .noWaiter check start hpc hq
    · exact .waiter check start hpc hq
  case signalRemove check start =>
    split at hs <;> obtain rfl := Option.some.inj hs
    · exact .abort (.inr ⟨check, start, hpc, ‹_›⟩)
    · exact .remove check start _ _ hpc ‹_›
  case waitP w =>
    split at hs
    · cases hs
    · rename_i sem hm
      obtain ⟨hq, ⟨hv, -, rfl⟩ | ⟨-, hb, -⟩⟩ := Semaphore.p_eq_some hm
      · obtain rfl := Option.some.inj hs
        exact .sleep w hpc hq hv
      · cases hb
    · rename_i sem hm
      obtain ⟨hq, ⟨-, hb, -⟩ | ⟨hv, -, rfl⟩⟩ := Semaphore.p_eq_some hm
      · cases hb
      · obtain rfl := Option.some.inj hs
        exact .resume w hpc hq hv
  case finished => cases hs
  all_goals obtain rfl := Option.some.inj hs
  case acquireSet site => exact .hold site hpc
  case setHungry => exact .setHungry hpc
  case testIf check =>
    split_ifs with hm
    · exact .allow check hpc hm
    · exact .refuse check hpc (by simpa using hm)
  case setEating check => exact .setEating check hpc
  case signalAssert check start => exact assertHeld_move hpc rfl (.inl ⟨check, start, rfl, rfl⟩)
  case signalV check start w => exact .wake check start w hpc
  case ifHungry =>
    split_ifs with hh
    · exact .mustWait hpc hh
    · exact .served hpc hh
  case waitAssert => exact assertHeld_move hpc rfl (.inr (.inl ⟨rfl, rfl⟩))
  case waitNew => exact .newWaiter hpc
  case waitAppend w => exact .append w hpc
  case waitDelete w => exact .delete w hpc
  case releaseAssert site => exact assertHeld_move hpc rfl (.inr (.inr ⟨site, rfl, rfl⟩))
  case releaseClear site => exact .clear site hpc
  case releaseUnlock site => exact .unlock site hpc
  case eat => exact .eat hpc
  case setThinking => exact .setThinking hpc

@[simp] theorem Pc.stageAt_seat (p : Pc) (who : Seat) : p.stageAt who (p.seat who) = p.stage :=
  if_pos rfl

theorem Pc.stageAt_of_ne {p : Pc} {who i : Seat} (h : i ≠ p.seat who) : p.stageAt who i = .idle :=
  if_neg (Ne.symm h)

theorem Pc.stageAt_of_idle {p : Pc} (h : p.stage = .idle) (who i : Seat) :
    p.stageAt who i = .idle := by
  rw [Pc.stageAt, h, ite_self]

@[simp] theorem tested_stage (check : Check) : (tested check).stage = .idle := by
  cases check <;> rfl

@[simp] theorem tested_phase (check : Check) : (tested check).phase = .held := by
  cases check <;> rfl

theorem tested_ne_remove (check check' : Check) (start : List ℕ) :
    tested check ≠ .signalRemove check' start := by
  cases check <;> simp [tested]

theorem Pc.held_of_exclusive {p : Pc} {who i : Seat} (h : (p.stageAt who i).exclusive = true) :
    p.phase = .held := by
  unfold Pc.stageAt at h
  split_ifs at h
  · unfold Pc.stage at h
    split at h <;> first | rfl | cases h
  · cases h

/-- The lock and the conditions are in order, the queue that a thread is about to take a waiter
from has one, and no `ASSERT` has failed. -/
structure Inv (s : State) : Prop where
  lock : s.lock.Inv fun t => (s.pc t).phase
  cond : ∀ i, (s.self i).Inv fun t => (s.pc t).stageAt t i
  nonempty : ∀ t check start, s.pc t = .signalRemove check start →
    (s.self (check.seat t)).waitQueue ≠ []
  running : s.aborted = false

theorem new_inv (n : ℕ) : Inv (State.new n) where
  lock := Lock.new_inv
  cond i := by
    have hidle : (fun t => Pc.philo.stageAt t i) = fun _ => .idle := by
      funext t
      simp [Pc.stageAt, Pc.stage]
    change (Condition.new Seat).Inv (fun t => Pc.philo.stageAt t i)
    rw [hidle]
    exact Condition.new_inv
  nonempty := by simp [State.new]
  running := rfl

namespace Inv

theorem alone (h : Inv s) (ht : (s.pc t).phase ≠ .outside) {u : Seat} (hu : u ≠ t) :
    (s.pc u).phase = .outside := h.lock.outside_of_ne ht hu

theorem goto (h : Inv s) {p : Pc} {l : Lock Seat} {j : Seat} {c : Condition Seat}
    (hlock : s'.lock = l) (hself : s'.self = Function.update s.self j c)
    (hpc : s'.pc = Function.update s.pc t p) (ha : s'.aborted = s.aborted)
    (hl : Lock.Move t (s.pc t).phase p.phase s.lock l)
    (hc : Condition.Move t (s.self j) ((s.pc t).stageAt t j) (p.stageAt t j) c)
    (hj : ∀ i, i ≠ j → p.stageAt t i = (s.pc t).stageAt t i)
    (hx : ((s.pc t).stageAt t j).exclusive = true ∨ (p.stageAt t j).exclusive = true →
      (s.pc t).phase = .held)
    (hq : c.waitQueue = (s.self j).waitQueue ∨ (s.pc t).phase = .held)
    (hp : ∀ check start, p = .signalRemove check start →
      (Function.update s.self j c (check.seat t)).waitQueue ≠ []) : Inv s' := by
  have hphase : (fun u => (Function.update s.pc t p u).phase) =
      Function.update (fun u => (s.pc u).phase) t p.phase := by
    funext u
    exact Function.apply_update (fun _ => Pc.phase) s.pc t p u
  have hstage : ∀ i, (fun u => (Function.update s.pc t p u).stageAt u i) =
      Function.update (fun u => (s.pc u).stageAt u i) t (p.stageAt t i) := by
    intro i
    funext u
    exact Function.apply_update (fun v q => q.stageAt v i) s.pc t p u
  have halone : (s.pc t).phase = .held → ∀ i u, u ≠ t →
      ((s.pc u).stageAt u i).exclusive = false := by
    intro hheld i u hu
    by_contra hux
    have hu' := Pc.held_of_exclusive (by simpa using hux)
    exact hu (h.lock.owner_unique u t (by simp [hu']) (by simp [hheld]))
  constructor
  case lock =>
    rw [hlock, hpc, hphase]
    exact h.lock.move hl
  case cond =>
    intro i
    rw [hself, hpc, hstage]
    by_cases hi : i = j
    · subst hi
      rw [Function.update_self]
      exact (h.cond i).move hc fun he => halone (hx he) i
    · rw [Function.update_of_ne hi, hj i hi]
      exact (h.cond i).move (.stay _) fun he => halone
        (Pc.held_of_exclusive (he.elim id id)) i
  case nonempty =>
    intro u check start hu
    rw [hself]
    rw [hpc] at hu
    by_cases hut : u = t
    · subst hut
      exact hp check start (by simpa using hu)
    · rw [Function.update_of_ne hut] at hu
      by_cases hi : check.seat u = j
      · obtain hq | hq := hq
        · rw [hi, Function.update_self, hq, ← hi]
          exact h.nonempty u check start hu
        · have hout := h.alone (by simp [hq]) hut
          rw [hu] at hout
          cases hout
      · rw [Function.update_of_ne hi]
        exact h.nonempty u check start hu
  case running => rw [ha, h.running]

theorem goto_lock (h : Inv s) {p : Pc} {l : Lock Seat} (hlock : s'.lock = l)
    (hself : s'.self = s.self) (hpc : s'.pc = Function.update s.pc t p)
    (ha : s'.aborted = s.aborted) (hl : Lock.Move t (s.pc t).phase p.phase s.lock l)
    (hj : ∀ i, p.stageAt t i = (s.pc t).stageAt t i)
    (hp : ∀ check start, p = .signalRemove check start →
      (s.self (check.seat t)).waitQueue ≠ []) : Inv s' := by
  refine h.goto (j := t) hlock (hself.trans (Function.update_eq_self t s.self).symm) hpc ha hl
    ?_ (fun i _ => hj i) ?_ (.inl rfl) ?_
  · rw [hj t]
    exact .stay _
  · intro he
    rw [hj t, or_self] at he
    exact Pc.held_of_exclusive he
  · simpa only [Function.update_eq_self] using hp

theorem goto_cond (h : Inv s) {p : Pc} {j : Seat} {c : Condition Seat}
    (hlock : s'.lock = s.lock) (hself : s'.self = Function.update s.self j c)
    (hpc : s'.pc = Function.update s.pc t p) (ha : s'.aborted = s.aborted)
    (ht : (s.pc t).phase = .held) (hheld : p.phase = .held)
    (hc : Condition.Move t (s.self j) ((s.pc t).stageAt t j) (p.stageAt t j) c)
    (hj : ∀ i, i ≠ j → p.stageAt t i = (s.pc t).stageAt t i)
    (hp : ∀ check start, p ≠ .signalRemove check start) : Inv s' := by
  refine h.goto hlock hself hpc ha ?_ hc hj (fun _ => ht) (.inr ht)
    fun check start hk => absurd hk (hp check start)
  rw [ht, hheld]
  exact .stay _ _

theorem goto_seat (h : Inv s) {p : Pc} {c : Condition Seat} (hlock : s'.lock = s.lock)
    (hself : s'.self = Function.update s.self ((s.pc t).seat t) c)
    (hpc : s'.pc = Function.update s.pc t p) (ha : s'.aborted = s.aborted)
    (ht : (s.pc t).phase = .held) (hheld : p.phase = .held)
    (hseat : p.stage = .idle ∨ p.seat t = (s.pc t).seat t)
    (hc : Condition.Move t (s.self ((s.pc t).seat t)) (s.pc t).stage p.stage c)
    (hp : ∀ check start, p ≠ .signalRemove check start) : Inv s' := by
  refine h.goto_cond hlock hself hpc ha ht hheld ?_ ?_ hp
  · obtain hidle | hseat := hseat
    · rw [Pc.stageAt_seat, Pc.stageAt_of_idle hidle, ← hidle]
      exact hc
    · rw [Pc.stageAt_seat, ← hseat, Pc.stageAt_seat, hseat]
      exact hc
  · intro i hi
    rw [Pc.stageAt_of_ne hi]
    obtain hidle | hseat := hseat
    · exact Pc.stageAt_of_idle hidle t i
    · exact Pc.stageAt_of_ne (hseat ▸ hi)

theorem goto_plain (h : Inv s) {p q : Pc} (hlock : s'.lock = s.lock) (hself : s'.self = s.self)
    (hpc : s'.pc = Function.update s.pc t p) (ha : s'.aborted = s.aborted) (hq : s.pc t = q)
    (hphase : p.phase = q.phase) (hstage : p.stage = q.stage)
    (hseat : p.stage = .idle ∨ p.seat t = q.seat t)
    (hp : ∀ check start, p = .signalRemove check start →
      (s.self (check.seat t)).waitQueue ≠ []) : Inv s' := by
  subst hq
  refine h.goto_lock hlock hself hpc ha ?_ (fun i => ?_) hp
  · rw [hphase]
    exact .stay _ _
  · obtain hidle | hseat := hseat
    · rw [Pc.stageAt_of_idle hidle, Pc.stageAt_of_idle (hstage ▸ hidle)]
    · rw [Pc.stageAt, Pc.stageAt, hseat, hstage]

theorem holder (h : Inv s) (ht : (s.pc t).phase = .held) : s.lock.lockHolder = some t :=
  (h.lock.holder_iff t).mpr ht

/-- Every statement keeps the invariant. -/
theorem move (h : Inv s) (hm : Move s t s') : Inv s' := by
  cases hm with
  | done hpc hr => exact h.goto_plain rfl rfl rfl rfl hpc rfl rfl (.inl rfl) (by simp)
  | round k hpc hr => exact h.goto_plain rfl rfl rfl rfl hpc rfl rfl (.inl rfl) (by simp)
  | block site hpc hq hv =>
    refine h.goto_lock (p := s.pc t) rfl rfl (Function.update_eq_self t s.pc).symm rfl
      (.block _ _ _) (fun _ => rfl) ?_
    rw [hpc]
    simp
  | pass site hpc hq hv =>
    refine h.goto_lock rfl rfl rfl rfl (.lock _ _ hv) (fun i => ?_) (by simp)
    rw [hpc]
    cases site <;> rfl
  | hold site hpc =>
    refine h.goto_lock rfl rfl rfl rfl ?_ (fun i => ?_) ?_
    · rw [hpc]
      cases site <;> exact .hold _
    · rw [hpc]
      cases site <;> rfl
    · cases site <;> simp [acquired]
  | setHungry hpc => exact h.goto_plain rfl rfl rfl rfl hpc rfl rfl (.inl rfl) (by simp)
  | allow check hpc hm => exact h.goto_plain rfl rfl rfl rfl hpc rfl rfl (.inl rfl) (by simp)
  | refuse check hpc hm =>
    exact h.goto_plain rfl rfl rfl rfl hpc (tested_phase check) (tested_stage check)
      (.inl (tested_stage check))
      fun check' start hk => absurd hk (tested_ne_remove check check' start)
  | setEating check hpc =>
    refine h.goto_cond (j := check.seat t) rfl (Function.update_eq_self _ s.self).symm rfl rfl
      (by rw [hpc]; rfl) rfl ?_ (fun i hi => ?_) (by simp)
    · rw [hpc]
      rw [Pc.stageAt_of_idle (p := .setEating check) rfl]
      simp only [Pc.stageAt, Pc.seat, Pc.stage, if_pos]
      exact .call false
    · rw [hpc]
      rw [Pc.stageAt_of_idle (p := .setEating check) rfl]
      exact if_neg (Ne.symm hi)
  | asserted p q hpc hp =>
    obtain ⟨check, start, rfl, rfl⟩ | ⟨rfl, rfl⟩ | ⟨site, rfl, rfl⟩ := hp
    · exact h.goto_plain rfl rfl rfl rfl hpc rfl rfl (.inr rfl) (by simp)
    · exact h.goto_plain rfl rfl rfl rfl hpc rfl rfl (.inl rfl) (by simp)
    · refine h.goto_plain rfl rfl rfl rfl hpc rfl ?_ (.inr rfl) (by simp)
      cases site <;> rfl
  | noWaiter check start hpc hq =>
    refine h.goto_seat (p := tested check) (c := (s.self (check.seat t)).complete (signal start))
      rfl ?_ rfl rfl (by rw [hpc]; rfl) (tested_phase check) (.inl (tested_stage check)) ?_
      fun check' => tested_ne_remove check check'
    · rw [hpc]
      rfl
    · rw [hpc, tested_stage]
      exact .complete _ hq
  | waiter check start hpc hq =>
    refine h.goto_plain rfl rfl rfl rfl hpc rfl rfl (.inr rfl) fun check' start' hk => ?_
    obtain ⟨rfl, rfl⟩ := Pc.signalRemove.inj hk
    exact hq
  | remove check start w ws hpc hq =>
    refine h.goto_seat (p := .signalV check start w) (c := (s.self (check.seat t)).remove t w ws)
      rfl ?_ rfl rfl (by rw [hpc]; rfl) rfl (.inr (by rw [hpc]; rfl)) ?_ (by simp)
    · rw [hpc]
      rfl
    · rw [hpc]
      exact .remove _ w ws hq
  | wake check start w hpc =>
    refine h.goto_seat (p := tested check)
      (c := ((s.self (check.seat t)).wake w).complete ((signal start).release w)) rfl ?_ rfl rfl
      (by rw [hpc]; rfl) (tested_phase check) (.inl (tested_stage check)) ?_
      fun check' => tested_ne_remove check check'
    · rw [hpc]
      rfl
    · rw [hpc, tested_stage]
      exact .wakeOne _ w rfl
  | mustWait hpc hs => exact h.goto_plain rfl rfl rfl rfl hpc rfl rfl (.inl rfl) (by simp)
  | served hpc hs => exact h.goto_plain rfl rfl rfl rfl hpc rfl rfl (.inl rfl) (by simp)
  | newWaiter hpc =>
    refine h.goto_seat (p := .waitAppend (s.self t).next) (c := (s.self t).newWaiter t) rfl ?_ rfl
      rfl (by rw [hpc]; rfl) rfl (.inr (by rw [hpc]; rfl)) ?_ (by simp)
    · rw [hpc]
      rfl
    · rw [hpc]
      exact .create
  | append w hpc =>
    refine h.goto_seat (p := .releaseAssert (.wait w)) (c := (s.self t).append w) rfl ?_ rfl rfl
      (by rw [hpc]; rfl) rfl (.inr (by rw [hpc]; rfl)) ?_ (by simp)
    · rw [hpc]
      rfl
    · rw [hpc]
      exact .append w
  | sleep w hpc hq hv =>
    refine h.goto (p := s.pc t) (j := t) rfl rfl (Function.update_eq_self t s.pc).symm rfl
      (.stay _ _) ?_ (fun _ _ => rfl) ?_ (.inl rfl) ?_ <;> rw [hpc]
    · simp only [Pc.stageAt, Pc.seat, Pc.stage, if_pos]
      exact .sleep w hq hv
    · simp [Pc.stageAt, Pc.seat, Pc.stage, Condition.Stage.exclusive]
    · simp
  | resume w hpc hq hv =>
    refine h.goto (j := t) rfl rfl rfl rfl ?_ ?_ (fun i hi => ?_) ?_ (.inl rfl) (by simp) <;>
      rw [hpc]
    · exact .stay _ _
    · simp only [Pc.stageAt, Pc.seat, Pc.stage, if_pos]
      exact .pass w hv
    · simp [Pc.stageAt, Pc.seat, Ne.symm hi]
    · simp [Pc.stageAt, Pc.seat, Pc.stage, Condition.Stage.exclusive]
  | delete w hpc =>
    have hheld : (s.pc t).phase = .held := by
      rw [hpc]
      rfl
    refine h.goto_seat (p := .releaseAssert .pickup)
      (c := (s.self t).returned t w s.lock.lockHolder) rfl ?_ rfl rfl hheld rfl (.inl rfl) ?_
      (by simp)
    · rw [hpc]
      rfl
    · rw [hpc, h.holder hheld]
      exact .finish w
  | clear site hpc =>
    refine h.goto_lock rfl rfl rfl rfl ?_ (fun i => ?_) (by simp)
    · rw [hpc]
      exact .release _
    · rw [hpc]
      cases site <;> rfl
  | unlock site hpc =>
    refine h.goto_lock rfl rfl rfl rfl ?_ (fun i => ?_) ?_
    · rw [hpc]
      cases site <;> exact .unlock _
    · rw [hpc]
      cases site <;> rfl
    · cases site <;> simp [released]
  | eat hpc => exact h.goto_plain rfl rfl rfl rfl hpc rfl rfl (.inl rfl) (by simp)
  | setThinking hpc => exact h.goto_plain rfl rfl rfl rfl hpc rfl rfl (.inl rfl) (by simp)
  | abort ha =>
    obtain ⟨hheld, hne⟩ | ⟨check, start, hpc, hq⟩ := ha
    · exact absurd (h.holder hheld) hne
    · exact absurd hq (h.nonempty t check start hpc)

end Inv

theorem reachable_inv {n : ℕ} (h : Reachable (· = State.new n) Step s) : Inv s := by
  refine Reachable.invariant ?_ ?_ h
  · rintro _ rfl
    exact new_inv n
  · rintro s s' hi ⟨t, hs⟩
    unfold State.step at hs
    split_ifs at hs
    exact hi.move (exec_move hs)

end Nachos.DinningPh
