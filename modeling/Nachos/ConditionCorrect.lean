import Nachos.Condition
import Nachos.Lock
import Nachos.Reachability

/-! Threads that share one lock and one condition (`synch.cc`) in any order. A switch may come
between any two statements; the bodies of `P` and `V` run with interrupts off and are one step.
A thread calls `Wait`, `Signal`, `Broadcast` and `Release` only with the lock held, which is the
flag of `user` and of no step's concern otherwise. The statements of `Acquire` and `Release`
carry the waiter when they run inside `Wait`. -/
namespace Nachos.ConditionRun
open Condition

inductive Pc where
  | user (held : Bool)
  | acquireP (waiter : Option ℕ) (held : Bool)
  | acquireSet (waiter : Option ℕ)
  | releaseAssert (waiter : Option ℕ)
  | releaseClear (waiter : Option ℕ)
  | releaseUnlock (waiter : Option ℕ)
  | waitAssert
  | waitNew
  | waitAppend (waiter : ℕ)
  | waitP (waiter : ℕ)
  | waitDelete (waiter : ℕ)
  | signalAssert (call : Condition.Call)
  | signalTest (call : Condition.Call)
  | signalRemove (call : Condition.Call)
  | signalV (call : Condition.Call) (waiter : ℕ)
  | broadcastTest (call : Condition.Call)
  deriving DecidableEq, Repr

inductive Call where
  | acquire
  | release
  | wait
  | signal
  | broadcast

structure State (T : Type) where
  lock : Lock T
  cond : Condition T
  pc : T → Pc
  aborted : Bool

def State.new (T : Type) : State T where
  lock := Lock.new T
  cond := Condition.new T
  pc := fun _ => .user false
  aborted := false

variable {T : Type} [DecidableEq T]

def State.goto (s : State T) (t : T) (p : Pc) (lock : Lock T) (cond : Condition T) : State T :=
  { s with lock := lock, cond := cond, pc := Function.update s.pc t p }

def State.assertHeld (s : State T) (t : T) (p : Pc) : State T :=
  if s.lock.isHeldByCurrentThread t then s.goto t p s.lock s.cond else { s with aborted := true }

def acquired : Option ℕ → Pc
  | none => .user true
  | some w => .waitDelete w

def released : Option ℕ → Pc
  | none => .user false
  | some w => .waitP w

def State.exec (s : State T) (t : T) (call : Call) : Option (State T) :=
  match s.pc t with
  | .user held => match held, call with
    | _, .acquire => some (s.goto t (.acquireP none held) s.lock s.cond)
    | false, _ => none
    | true, .release => some (s.goto t (.releaseAssert none) s.lock s.cond)
    | true, .wait => some (s.goto t .waitAssert s.lock s.cond)
    | true, .signal =>
      some (s.goto t (.signalAssert ⟨false, s.cond.waitQueue, []⟩) s.lock s.cond)
    | true, .broadcast =>
      some (s.goto t (.broadcastTest ⟨true, s.cond.waitQueue, []⟩) s.lock s.cond)
  | .acquireP w held => match s.lock.mutex.p t with
    | none => none
    | some (mutex, false) =>
      some (s.goto t (.acquireP w held) { s.lock with mutex := mutex } s.cond)
    | some (mutex, true) => some (s.goto t (.acquireSet w) { s.lock with mutex := mutex } s.cond)
  | .acquireSet w => some (s.goto t (acquired w) { s.lock with lockHolder := some t } s.cond)
  | .releaseAssert w => some (s.assertHeld t (.releaseClear w))
  | .releaseClear w => some (s.goto t (.releaseUnlock w) { s.lock with lockHolder := none } s.cond)
  | .releaseUnlock w =>
    some (s.goto t (released w) { s.lock with mutex := s.lock.mutex.v } s.cond)
  | .waitAssert => some (s.assertHeld t .waitNew)
  | .waitNew => some (s.goto t (.waitAppend s.cond.next) s.lock (s.cond.newWaiter t))
  | .waitAppend w => some (s.goto t (.releaseAssert (some w)) s.lock (s.cond.append w))
  | .waitP w => match (s.cond.waiter w).p t with
    | none => none
    | some (sem, false) => some (s.goto t (.waitP w) s.lock (s.cond.setWaiter w sem))
    | some (sem, true) =>
      some (s.goto t (.acquireP (some w) false) s.lock (s.cond.setWaiter w sem))
  | .waitDelete w =>
    some (s.goto t (.user true) s.lock (s.cond.returned t w s.lock.lockHolder))
  | .signalAssert k => some (s.assertHeld t (.signalTest k))
  | .signalTest k =>
    if s.cond.waitQueue = [] then
      if k.broadcast then some (s.goto t (.broadcastTest k) s.lock s.cond)
      else some (s.goto t (.user true) s.lock (s.cond.complete k))
    else some (s.goto t (.signalRemove k) s.lock s.cond)
  | .signalRemove k => match s.cond.waitQueue with
    | [] => some { s with aborted := true }
    | w :: ws => some (s.goto t (.signalV k w) s.lock (s.cond.remove t w ws))
  | .signalV k w =>
    if k.broadcast then some (s.goto t (.broadcastTest (k.release w)) s.lock (s.cond.wake w))
    else some (s.goto t (.user true) s.lock ((s.cond.wake w).complete (k.release w)))
  | .broadcastTest k =>
    if s.cond.waitQueue = [] then some (s.goto t (.user true) s.lock (s.cond.complete k))
    else some (s.goto t (.signalAssert k) s.lock s.cond)

def State.step (s : State T) (e : T × Call) : Option (State T) :=
  if s.aborted then none else s.exec e.1 e.2

def Step (s s' : State T) : Prop := ∃ e, s.step e = some s'

def Pc.phase : Pc → Lock.Phase
  | .user held | .acquireP _ held => if held then .held else .outside
  | .acquireSet _ => .taken
  | .releaseUnlock _ => .unlocking
  | .waitP _ => .outside
  | _ => .held

def Pc.stage : Pc → Stage
  | .waitAppend w => .fresh w
  | .releaseAssert (some w) | .releaseClear (some w) | .releaseUnlock (some w) | .waitP w =>
    .queued w
  | .acquireP (some w) _ | .acquireSet (some w) | .waitDelete w => .passed w
  | .signalAssert k | .signalTest k | .signalRemove k | .broadcastTest k => .signalling k
  | .signalV k w => .waking k w
  | _ => .idle

theorem Pc.held_of_exclusive (p : Pc) (h : p.stage.exclusive = true) : p.phase = .held := by
  unfold Pc.stage at h
  split at h <;> first | rfl | cases h

theorem Pc.waitAppend_of_fresh {p : Pc} {w : ℕ} (h : p.stage = .fresh w) : p = .waitAppend w := by
  unfold Pc.stage at h
  split at h <;> cases h
  rfl

theorem Pc.signalV_of_waking {p : Pc} {k : Condition.Call} {w : ℕ}
    (h : p.stage = .waking k w) : p = .signalV k w := by
  unfold Pc.stage at h
  split at h <;> cases h
  rfl

structure Inv (s : State T) : Prop where
  lock : s.lock.Inv fun t => (s.pc t).phase
  cond : s.cond.Inv fun t => (s.pc t).stage
  nonempty : ∀ t k, s.pc t = .signalRemove k → s.cond.waitQueue ≠ []
  running : s.aborted = false

variable {s s' : State T} {t : T}

theorem Inv.goto {p : Pc} {l : Lock T} {c : Condition T} (h : Inv s)
    (hl : Lock.Move t (s.pc t).phase p.phase s.lock l)
    (hc : Condition.Move t s.cond (s.pc t).stage p.stage c)
    (hx : (s.pc t).stage.exclusive = true ∨ p.stage.exclusive = true → (s.pc t).phase = .held)
    (hq : c.waitQueue = s.cond.waitQueue ∨ (s.pc t).stage.exclusive = true)
    (hp : ∀ k, p = .signalRemove k → c.waitQueue ≠ []) : Inv (s.goto t p l c) := by
  have halone : (s.pc t).phase = .held → ∀ u, u ≠ t → (s.pc u).stage.exclusive = false := by
    intro hheld u hu
    by_contra hux
    have hu' := Pc.held_of_exclusive _ (by simpa using hux)
    exact hu (h.lock.owner_unique u t (by simp [hu']) (by simp [hheld]))
  have hphase : (fun u => (Function.update s.pc t p u).phase) =
      Function.update (fun u => (s.pc u).phase) t p.phase := by
    funext u
    exact Function.apply_update (fun _ => Pc.phase) s.pc t p u
  have hstage : (fun u => (Function.update s.pc t p u).stage) =
      Function.update (fun u => (s.pc u).stage) t p.stage := by
    funext u
    exact Function.apply_update (fun _ => Pc.stage) s.pc t p u
  constructor
  case lock =>
    simp only [State.goto]
    rw [hphase]
    exact h.lock.move hl
  case cond =>
    simp only [State.goto]
    rw [hstage]
    exact h.cond.move hc fun he => halone (hx he)
  case nonempty =>
    intro u k hu
    by_cases hut : u = t
    · rw [hut] at hu
      exact hp k (by simpa [State.goto] using hu)
    · simp only [State.goto, Function.update_of_ne hut] at hu ⊢
      obtain hq | hq := hq
      · rw [hq]
        exact h.nonempty u k hu
      · have := halone (hx (.inl hq)) u hut
        simp [hu, Pc.stage, Stage.exclusive] at this
  case running => exact h.running

theorem Inv.goto_lock {p : Pc} {l : Lock T} (h : Inv s)
    (hl : Lock.Move t (s.pc t).phase p.phase s.lock l) (hst : p.stage = (s.pc t).stage)
    (hx : p.stage.exclusive = true → (s.pc t).phase = .held)
    (hp : ∀ k, p = .signalRemove k → s.cond.waitQueue ≠ []) : Inv (s.goto t p l s.cond) := by
  refine h.goto hl ?_ (fun he => hx ?_) (.inl rfl) hp
  · rw [hst]
    exact .stay _
  · obtain he | he := he
    · rw [hst]
      exact he
    · exact he

/-- The `ASSERT` of a thread that holds the lock does not fail. -/
theorem Inv.assertHeld {p : Pc} (h : Inv s) (ht : (s.pc t).phase = .held) (hp : p.phase = .held)
    (hst : p.stage = (s.pc t).stage) (hr : ∀ k, p ≠ .signalRemove k) : Inv (s.assertHeld t p) := by
  have hheld : s.lock.isHeldByCurrentThread t = true :=
    decide_eq_true ((h.lock.holder_iff t).mpr ht)
  rw [State.assertHeld, if_pos hheld]
  refine h.goto_lock ?_ hst (fun _ => ht) (fun k hk => absurd hk (hr k))
  rw [ht, hp]
  exact .stay _ _

theorem Inv.goto_cond {p : Pc} {c : Condition T} (h : Inv s) (ht : (s.pc t).phase = .held)
    (hp : p.phase = .held) (hc : Condition.Move t s.cond (s.pc t).stage p.stage c)
    (hq : c.waitQueue = s.cond.waitQueue ∨ (s.pc t).stage.exclusive = true)
    (hr : ∀ k, p = .signalRemove k → c.waitQueue ≠ []) : Inv (s.goto t p s.lock c) := by
  refine h.goto ?_ hc (fun _ => ht) hq hr
  rw [ht, hp]
  exact .stay _ _

theorem Inv.call {held : Bool} {call : Call} (h : Inv s) (hpc : s.pc t = .user held)
    (hs : s.exec t call = some s') : Inv s' := by
  cases call with
  | acquire =>
    simp only [State.exec, hpc, Option.some.injEq] at hs
    subst hs
    refine h.goto_lock ?_ (by rw [hpc]; rfl) nofun nofun
    rw [hpc]
    exact .stay _ _
  | release =>
    cases held with
    | false => simp [State.exec, hpc] at hs
    | true =>
      simp only [State.exec, hpc, Option.some.injEq] at hs
      subst hs
      refine h.goto_cond (by rw [hpc]; rfl) rfl ?_ (.inl rfl) nofun
      rw [hpc]
      exact .stay _
  | wait =>
    cases held with
    | false => simp [State.exec, hpc] at hs
    | true =>
      simp only [State.exec, hpc, Option.some.injEq] at hs
      subst hs
      refine h.goto_cond (by rw [hpc]; rfl) rfl ?_ (.inl rfl) nofun
      rw [hpc]
      exact .stay _
  | signal =>
    cases held with
    | false => simp [State.exec, hpc] at hs
    | true =>
      simp only [State.exec, hpc, Option.some.injEq] at hs
      subst hs
      refine h.goto_cond (by rw [hpc]; rfl) rfl ?_ (.inl rfl) nofun
      rw [hpc]
      exact .call false
  | broadcast =>
    cases held with
    | false => simp [State.exec, hpc] at hs
    | true =>
      simp only [State.exec, hpc, Option.some.injEq] at hs
      subst hs
      refine h.goto_cond (by rw [hpc]; rfl) rfl ?_ (.inl rfl) nofun
      rw [hpc]
      exact .call true

theorem Inv.exec_acquireP {w : Option ℕ} {held : Bool} {call : Call} (h : Inv s)
    (hpc : s.pc t = .acquireP w held) (hs : s.exec t call = some s') : Inv s' := by
  simp only [State.exec, hpc] at hs
  cases hp : s.lock.mutex.p t with
  | none => simp [hp] at hs
  | some r =>
    obtain ⟨mutex, b⟩ := r
    obtain ⟨-, ⟨-, rfl, rfl⟩ | ⟨hv, rfl, rfl⟩⟩ := Semaphore.p_eq_some hp
    · simp only [hp, Option.some.injEq] at hs
      subst hs
      refine h.goto_lock ?_ (by rw [hpc]) ?_ nofun
      · rw [hpc]
        exact .block _ _ _
      · cases w <;> exact nofun
    · simp only [hp, Option.some.injEq] at hs
      subst hs
      refine h.goto_lock (.lock _ _ hv) ?_ ?_ nofun
      · rw [hpc]
        cases w <;> rfl
      · cases w <;> exact nofun

theorem Inv.exec_lock {call : Call} (h : Inv s) (hs : s.exec t call = some s') {w : Option ℕ}
    (hpc : s.pc t = .acquireSet w ∨ s.pc t = .releaseAssert w ∨ s.pc t = .releaseClear w ∨
      s.pc t = .releaseUnlock w) : Inv s' := by
  obtain hpc | hpc | hpc | hpc := hpc
  all_goals
    simp only [State.exec, hpc, Option.some.injEq] at hs
    subst hs
  · refine h.goto_lock ?_ ?_ ?_ ?_
    · rw [hpc]
      cases w <;> exact .hold _
    · rw [hpc]
      cases w <;> rfl
    · cases w <;> exact nofun
    · cases w <;> exact nofun
  · refine h.assertHeld (by rw [hpc]; rfl) rfl ?_ nofun
    rw [hpc]
    cases w <;> rfl
  · refine h.goto_lock ?_ ?_ ?_ nofun
    · rw [hpc]
      exact .release _
    · rw [hpc]
      cases w <;> rfl
    · cases w <;> exact nofun
  · refine h.goto_lock ?_ ?_ ?_ ?_
    · rw [hpc]
      cases w <;> exact .unlock _
    · rw [hpc]
      cases w <;> rfl
    · cases w <;> exact nofun
    · cases w <;> exact nofun

theorem Inv.exec_waitP {w : ℕ} {call : Call} (h : Inv s) (hpc : s.pc t = .waitP w)
    (hs : s.exec t call = some s') : Inv s' := by
  simp only [State.exec, hpc] at hs
  cases hp : (s.cond.waiter w).p t with
  | none => simp [hp] at hs
  | some r =>
    obtain ⟨sem, b⟩ := r
    obtain ⟨hn, ⟨hv, rfl, rfl⟩ | ⟨hv, rfl, rfl⟩⟩ := Semaphore.p_eq_some hp
    · simp only [hp, Option.some.injEq] at hs
      subst hs
      refine h.goto ?_ ?_ ?_ (.inl rfl) (fun k hk => by cases hk) <;> rw [hpc]
      · exact .stay _ _
      · exact .sleep w hn hv
      · simp [Pc.stage, Stage.exclusive]
    · simp only [hp, Option.some.injEq] at hs
      subst hs
      refine h.goto ?_ ?_ ?_ (.inl rfl) (fun k hk => by cases hk) <;> rw [hpc]
      · exact .stay _ _
      · exact .pass w hv
      · simp [Pc.stage, Stage.exclusive]

theorem Inv.exec_wait {call : Call} (h : Inv s) (hs : s.exec t call = some s') {w : ℕ}
    (hpc : s.pc t = .waitAssert ∨ s.pc t = .waitNew ∨ s.pc t = .waitAppend w ∨
      s.pc t = .waitDelete w) : Inv s' := by
  obtain hpc | hpc | hpc | hpc := hpc
  all_goals
    simp only [State.exec, hpc, Option.some.injEq] at hs
    subst hs
    have hheld : (s.pc t).phase = .held := by rw [hpc]; rfl
  · exact h.assertHeld hheld rfl (by rw [hpc]; rfl) nofun
  · refine h.goto_cond hheld rfl ?_ (.inl rfl) nofun
    rw [hpc]
    exact .create
  · refine h.goto_cond hheld rfl ?_ (.inr (by rw [hpc]; rfl)) nofun
    rw [hpc]
    exact .append w
  · refine h.goto_cond hheld rfl ?_ (.inl rfl) nofun
    rw [hpc, (h.lock.holder_iff t).mpr hheld]
    exact .finish w

theorem Inv.exec_signalTest {k : Condition.Call} {call : Call} (h : Inv s)
    (hpc : s.pc t = .signalTest k) (hs : s.exec t call = some s') : Inv s' := by
  have hheld : (s.pc t).phase = .held := by rw [hpc]; rfl
  simp only [State.exec, hpc] at hs
  split_ifs at hs with hq hb <;> (obtain rfl := Option.some.inj hs)
  · refine h.goto_cond hheld rfl ?_ (.inl rfl) nofun
    rw [hpc]
    exact .stay _
  · refine h.goto_cond hheld rfl ?_ (.inl rfl) nofun
    rw [hpc]
    exact .complete k hq
  · refine h.goto_cond hheld rfl ?_ (.inl rfl) (fun _ _ => hq)
    rw [hpc]
    exact .stay _

theorem Inv.exec_signalRemove {k : Condition.Call} {call : Call} (h : Inv s)
    (hpc : s.pc t = .signalRemove k) (hs : s.exec t call = some s') : Inv s' := by
  simp only [State.exec, hpc] at hs
  cases hq : s.cond.waitQueue with
  | nil => exact absurd hq (h.nonempty t k hpc)
  | cons w ws =>
    simp only [hq, Option.some.injEq] at hs
    subst hs
    refine h.goto_cond (by rw [hpc]; rfl) rfl ?_ (.inr (by rw [hpc]; rfl)) nofun
    rw [hpc]
    exact .remove k w ws hq

theorem Inv.exec_signalV {k : Condition.Call} {w : ℕ} {call : Call} (h : Inv s)
    (hpc : s.pc t = .signalV k w) (hs : s.exec t call = some s') : Inv s' := by
  simp only [State.exec, hpc] at hs
  split_ifs at hs with hb <;> (obtain rfl := Option.some.inj hs)
  · refine h.goto_cond (by rw [hpc]; rfl) rfl ?_ (.inl rfl) nofun
    rw [hpc]
    exact .wake k w hb
  · refine h.goto_cond (by rw [hpc]; rfl) rfl ?_ (.inl rfl) nofun
    rw [hpc]
    exact .wakeOne k w (by simpa using hb)

theorem Inv.exec_broadcastTest {k : Condition.Call} {call : Call} (h : Inv s)
    (hpc : s.pc t = .broadcastTest k) (hs : s.exec t call = some s') : Inv s' := by
  simp only [State.exec, hpc] at hs
  split_ifs at hs with hq <;> (obtain rfl := Option.some.inj hs)
  · refine h.goto_cond (by rw [hpc]; rfl) rfl ?_ (.inl rfl) nofun
    rw [hpc]
    exact .complete k hq
  · refine h.goto_cond (by rw [hpc]; rfl) rfl ?_ (.inl rfl) nofun
    rw [hpc]
    exact .stay _

theorem Inv.exec {call : Call} (h : Inv s) (hs : s.exec t call = some s') : Inv s' := by
  cases hpc : s.pc t with
  | user held => exact h.call hpc hs
  | acquireP w held => exact h.exec_acquireP hpc hs
  | acquireSet w => exact h.exec_lock hs (.inl hpc)
  | releaseAssert w => exact h.exec_lock hs (.inr (.inl hpc))
  | releaseClear w => exact h.exec_lock hs (.inr (.inr (.inl hpc)))
  | releaseUnlock w => exact h.exec_lock hs (.inr (.inr (.inr hpc)))
  | waitAssert => exact h.exec_wait (w := 0) hs (.inl hpc)
  | waitNew => exact h.exec_wait (w := 0) hs (.inr (.inl hpc))
  | waitAppend w => exact h.exec_wait hs (.inr (.inr (.inl hpc)))
  | waitP w => exact h.exec_waitP hpc hs
  | waitDelete w => exact h.exec_wait hs (.inr (.inr (.inr hpc)))
  | signalAssert k =>
    simp only [State.exec, hpc, Option.some.injEq] at hs
    subst hs
    exact h.assertHeld (by rw [hpc]; rfl) rfl (by rw [hpc]; rfl) nofun
  | signalTest k => exact h.exec_signalTest hpc hs
  | signalRemove k => exact h.exec_signalRemove hpc hs
  | signalV k w => exact h.exec_signalV hpc hs
  | broadcastTest k => exact h.exec_broadcastTest hpc hs

omit [DecidableEq T] in
theorem new_inv : Inv (State.new T) := ⟨Lock.new_inv, Condition.new_inv, nofun, rfl⟩

theorem reachable_inv (h : Reachable (· = State.new T) Step s) : Inv s := by
  refine Reachable.invariant ?_ ?_ h
  · rintro _ rfl
    exact new_inv
  · rintro s s' hi ⟨e, hs⟩
    unfold State.step at hs
    split_ifs at hs
    exact hi.exec hs

def Pc.waiter (p : Pc) : Option ℕ := p.stage.waiter

omit [DecidableEq T] in
/-- Where the one `V` of a waiter is that has left the wait queue or is still to join it: done,
in the hands of the `Signal` that removed the waiter, or still to be earned. -/
theorem Inv.received {w : ℕ} (h : Inv s) (ht : (s.pc t).waiter = some w)
    (hw : w ∉ s.cond.waitQueue) :
    s.cond.received w = 1 ∨ (s.cond.received w = 0 ∧ ∃ u k, s.pc u = .signalV k w) ∨
      (s.cond.received w = 0 ∧ s.pc t = .waitAppend w) := by
  cases hst : (s.pc t).stage with
  | idle => simp [Pc.waiter, hst, Stage.waiter] at ht
  | signalling k => simp [Pc.waiter, hst, Stage.waiter] at ht
  | waking k x => simp [Pc.waiter, hst, Stage.waiter] at ht
  | passed x =>
    obtain rfl : x = w := by simpa [Pc.waiter, hst, Stage.waiter] using ht
    exact .inl (h.cond.waiters.passed t x hst)
  | fresh x =>
    obtain rfl : x = w := by simpa [Pc.waiter, hst, Stage.waiter] using ht
    exact .inr (.inr ⟨(h.cond.waiters.fresh t x hst).2.1, Pc.waitAppend_of_fresh hst⟩)
  | queued x =>
    obtain rfl : x = w := by simpa [Pc.waiter, hst, Stage.waiter] using ht
    obtain hq | hr | ⟨u, k, hu⟩ := h.cond.waiters.queued t x hst
    · exact absurd hq hw
    · exact .inl hr
    · exact .inr (.inl ⟨(h.cond.waiters.waking u k x hu).2.1, u, k, Pc.signalV_of_waking hu⟩)

omit [DecidableEq T] in
/-- A thread whose waiter has its `V` gets through `P` at its next step. -/
theorem Inv.not_lost {w : ℕ} (h : Inv s) (ht : s.pc t = .waitP w) (hr : s.cond.received w = 1) :
    s.cond.waiter w = ⟨1, []⟩ := by
  have hst : (s.pc t).stage = .queued w := by rw [ht]; rfl
  obtain ⟨h0, -⟩ | ⟨-, hw⟩ := h.cond.waiters.sleeper t w hst
  · omega
  · exact hw

/-- In every run the `ASSERT`s hold; a thread returns from `Wait` with the lock held and after a
`Signal` took its waiter off the queue, which it did after the thread had entered; a `Signal` has
released the first waiter in the order of their calls, a `Broadcast` all it found; and a waiter
off the queue has had its one `V`, which its thread will find, except while the thread that
removed it is about to do that `V`, or its own thread is about to put it on the queue. -/
theorem condition_correct (h : Reachable (· = State.new T) Step s) :
    s.aborted = false ∧
      (∀ t w o, .returned t w o ∈ s.cond.log → o = some t ∧
        ∃ u, [Event.entered t w, .removed u w, .returned t w o].Sublist s.cond.log) ∧
      (∀ k ∈ s.cond.completed, k.start.Pairwise (· < ·) ∧
        k.released = if k.broadcast then k.start else k.start.take 1) ∧
      (∀ t w, (s.pc t).waiter = some w → w ∉ s.cond.waitQueue →
        s.cond.received w = 1 ∨ (s.cond.received w = 0 ∧ ∃ u k, s.pc u = .signalV k w) ∨
          (s.cond.received w = 0 ∧ s.pc t = .waitAppend w)) ∧
      (∀ t w, s.pc t = .waitP w → s.cond.received w = 1 → s.cond.waiter w = ⟨1, []⟩) := by
  have hi := reachable_inv h
  exact ⟨hi.running, hi.cond.logged.returned, hi.cond.calls.completed,
    fun _ _ => hi.received, fun _ _ => hi.not_lost⟩

theorem reachable_of_run {l : List (T × Call)} (h : l.foldlM State.step (State.new T) = some s) :
    Reachable (· = State.new T) Step s :=
  Reachable.of_foldlM (fun _ e _ h => ⟨e, h⟩) (.init rfl) h

/-- Thread 0 waits, and thread 1 has taken its waiter off the queue. -/
def removedRun : List (ℕ × Call) :=
  List.replicate 3 (0, .acquire) ++ List.replicate 7 (0, .wait) ++
    List.replicate 3 (1, .acquire) ++ List.replicate 4 (1, .signal)

/-- Between `Remove` and `V` the waiter is off the queue and has no `V` yet. -/
theorem removedRun_not_received : ¬ ∀ (s : State ℕ) (t w : ℕ),
    Reachable (· = State.new ℕ) Step s → (s.pc t).waiter = some w → w ∉ s.cond.waitQueue →
      s.cond.received w = 1 := by
  have hrun : (removedRun.foldlM State.step (State.new ℕ)).any (fun s : State ℕ =>
      (s.pc 0).waiter = some 0 ∧ s.cond.waitQueue = [] ∧ s.cond.received 0 = 0) = true := by
    decide
  obtain ⟨s, hs, hb⟩ := (Option.any_eq_true _ _).mp hrun
  obtain ⟨hw, hq, hr⟩ := of_decide_eq_true hb
  intro hall
  have := hall s 0 0 (reachable_of_run hs) hw (by simp [hq])
  omega

def returnedRun : List (ℕ × Call) :=
  removedRun ++ [(1, .signal)] ++ List.replicate 4 (1, .release) ++ List.replicate 4 (0, .wait)

theorem returnedRun_ordered : ∃ s : State ℕ, Reachable (· = State.new ℕ) Step s ∧
    s.cond.completed = [⟨false, [0], [0]⟩] ∧ .returned 0 0 (some 0) ∈ s.cond.log ∧
      ∃ u, [Event.entered 0 0, .removed u 0, .returned 0 0 (some 0)].Sublist s.cond.log := by
  have hrun : (returnedRun.foldlM State.step (State.new ℕ)).any (fun s : State ℕ =>
      s.cond.completed = [⟨false, [0], [0]⟩] ∧ .returned 0 0 (some 0) ∈ s.cond.log) = true := by
    decide
  obtain ⟨s, hs, hb⟩ := (Option.any_eq_true _ _).mp hrun
  obtain ⟨hc, hl⟩ := of_decide_eq_true hb
  have hr := reachable_of_run hs
  exact ⟨s, hr, hc, hl, ((condition_correct hr).2.1 0 0 (some 0) hl).2⟩

end Nachos.ConditionRun
