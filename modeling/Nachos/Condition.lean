import Nachos.Semaphore

/-! Condition variables (`synch.cc`) and what is true of one between any two steps of the
threads that use it. A waiter semaphore is named by the number of `Wait` calls before the one
that made it. A call of `Wait` goes from `fresh` (semaphore made) over `queued` (on the wait
queue, or taken off it) to `passed` (through `P`); a call of `Signal` or `Broadcast` is
`signalling`, and `waking` between `Remove` and `V`. `received`, `log` and `completed` are not
in the source: they count the `V` of each waiter, order the events of the waiters, and record
for each finished call the wait queue it found and the waiters it released. -/
namespace Nachos

namespace Condition

structure Call where
  broadcast : Bool
  start : List ℕ
  released : List ℕ
  deriving DecidableEq, Repr

inductive Event (T : Type) where
  | entered (t : T) (waiter : ℕ)
  | removed (t : T) (waiter : ℕ)
  | returned (t : T) (waiter : ℕ) (lockHolder : Option T)
  deriving DecidableEq, Repr

inductive Stage where
  | idle
  | fresh (waiter : ℕ)
  | queued (waiter : ℕ)
  | passed (waiter : ℕ)
  | signalling (call : Call)
  | waking (call : Call) (waiter : ℕ)
  deriving DecidableEq, Repr

def Stage.waiter : Stage → Option ℕ
  | .fresh w | .queued w | .passed w => some w
  | _ => none

/-- The stages in which the lock is held from one step to the next. -/
def Stage.exclusive : Stage → Bool
  | .fresh _ | .signalling _ | .waking _ _ => true
  | _ => false

def Call.release (c : Call) (w : ℕ) : Call := { c with released := c.released ++ [w] }

end Condition

open Condition

structure Condition (T : Type) where
  waitQueue : List ℕ
  waiter : ℕ → Semaphore T
  next : ℕ
  received : ℕ → ℕ
  log : List (Event T)
  completed : List Call

namespace Condition
variable {T : Type}

def new (T : Type) : Condition T where
  waitQueue := []
  waiter := fun _ => ⟨0, []⟩
  next := 0
  received := fun _ => 0
  log := []
  completed := []

def newWaiter (c : Condition T) (t : T) : Condition T :=
  { c with
    waiter := Function.update c.waiter c.next ⟨0, []⟩
    received := Function.update c.received c.next 0
    next := c.next + 1
    log := c.log ++ [.entered t c.next] }

def append (c : Condition T) (w : ℕ) : Condition T := { c with waitQueue := c.waitQueue ++ [w] }

def setWaiter (c : Condition T) (w : ℕ) (sem : Semaphore T) : Condition T :=
  { c with waiter := Function.update c.waiter w sem }

def returned (c : Condition T) (t : T) (w : ℕ) (lockHolder : Option T) : Condition T :=
  { c with log := c.log ++ [.returned t w lockHolder] }

def remove (c : Condition T) (t : T) (w : ℕ) (queue : List ℕ) : Condition T :=
  { c with waitQueue := queue, log := c.log ++ [.removed t w] }

def wake (c : Condition T) (w : ℕ) : Condition T :=
  { c with
    waiter := Function.update c.waiter w (c.waiter w).v
    received := Function.update c.received w (c.received w + 1) }

def complete (c : Condition T) (call : Call) : Condition T :=
  { c with completed := c.completed ++ [call] }

/-- What a step of thread `t` does to its stage and to the condition. -/
inductive Move (t : T) (c : Condition T) : Stage → Stage → Condition T → Prop
  | stay (p : Stage) : Move t c p p c
  | create : Move t c .idle (.fresh c.next) (c.newWaiter t)
  | append (w : ℕ) : Move t c (.fresh w) (.queued w) (c.append w)
  | sleep (w : ℕ) (hq : t ∉ (c.waiter w).queue) (hv : (c.waiter w).value = 0) :
      Move t c (.queued w) (.queued w)
        (c.setWaiter w { c.waiter w with queue := (c.waiter w).queue ++ [t] })
  | pass (w : ℕ) (hv : (c.waiter w).value ≠ 0) :
      Move t c (.queued w) (.passed w)
        (c.setWaiter w { c.waiter w with value := (c.waiter w).value - 1 })
  | finish (w : ℕ) : Move t c (.passed w) .idle (c.returned t w (some t))
  | call (broadcast : Bool) : Move t c .idle (.signalling ⟨broadcast, c.waitQueue, []⟩) c
  | remove (k : Call) (w : ℕ) (ws : List ℕ) (hq : c.waitQueue = w :: ws) :
      Move t c (.signalling k) (.waking k w) (c.remove t w ws)
  | wake (k : Call) (w : ℕ) (hb : k.broadcast = true) :
      Move t c (.waking k w) (.signalling (k.release w)) (c.wake w)
  | wakeOne (k : Call) (w : ℕ) (hb : k.broadcast = false) :
      Move t c (.waking k w) .idle ((c.wake w).complete (k.release w))
  | complete (k : Call) (hq : c.waitQueue = []) :
      Move t c (.signalling k) .idle (c.complete k)

structure Waiters (stage : T → Stage) (c : Condition T) : Prop where
  lt_next : ∀ t w, (stage t).waiter = some w → w < c.next
  unique : ∀ t u w, (stage t).waiter = some w → (stage u).waiter = some w → t = u
  sorted : c.waitQueue.Pairwise (· < ·)
  fresh : ∀ t w, stage t = .fresh w →
    (∀ x ∈ c.waitQueue, x < w) ∧ c.received w = 0 ∧ c.waiter w = ⟨0, []⟩
  mem : ∀ w ∈ c.waitQueue, c.received w = 0 ∧ ∃ t, stage t = .queued w
  sleeper : ∀ t w, stage t = .queued w →
    (c.received w = 0 ∧ (c.waiter w = ⟨0, []⟩ ∨ c.waiter w = ⟨0, [t]⟩)) ∨
      (c.received w = 1 ∧ c.waiter w = ⟨1, []⟩)
  queued : ∀ t w, stage t = .queued w →
    w ∈ c.waitQueue ∨ c.received w = 1 ∨ ∃ u k, stage u = .waking k w
  passed : ∀ t w, stage t = .passed w → c.received w = 1
  waking : ∀ t k w, stage t = .waking k w →
    w ∉ c.waitQueue ∧ c.received w = 0 ∧ ∃ u, stage u = .queued w

theorem new_waiters : Waiters (fun _ : T => .idle) (new T) := by
  constructor <;> simp [new, Stage.waiter]

variable {stage : T → Stage} {c c' : Condition T} {t : T}

namespace Waiters

theorem lt_of_queued (h : Waiters stage c) {u : T} {w : ℕ} (hu : stage u = .queued w) :
    w < c.next := h.lt_next u w (by rw [hu]; rfl)

theorem eq_of_queued (h : Waiters stage c) {u : T} {w : ℕ} (ht : stage t = .queued w)
    (hu : stage u = .queued w) : u = t :=
  h.unique u t w (by rw [hu]; rfl) (by rw [ht]; rfl)

theorem not_fresh_of_queued (h : Waiters stage c) {u : T} {w : ℕ} (ht : stage t = .queued w) :
    stage u ≠ .fresh w := by
  intro hu
  have hut : u = t := h.unique u t w (by rw [hu]; rfl) (by rw [ht]; rfl)
  rw [hut, ht] at hu
  cases hu

variable [DecidableEq T]

theorem create (h : Waiters stage c) (ht : stage t = .idle) :
    Waiters (Function.update stage t (.fresh c.next)) (c.newWaiter t) := by
  have hq := fun u w => h.lt_of_queued (u := u) (w := w)
  have hp : ∀ u w, stage u = .passed w → w < c.next :=
    fun u w hu => h.lt_next u w (by rw [hu]; rfl)
  obtain ⟨hlt, huniq, hsort, hfresh, hmem, hsleep, hqueued, hpassed, hwaking⟩ := h
  constructor <;> simp only [newWaiter, Function.update_apply]
  case queued =>
    intro u w hu
    have hut : u ≠ t := by rintro rfl; simp at hu
    rw [if_neg hut] at hu
    have hne : w ≠ c.next := (hq u w hu).ne
    obtain hw | hw | ⟨v, k, hv⟩ := hqueued u w hu
    · exact .inl hw
    · exact .inr (.inl (by rw [if_neg hne, hw]))
    · exact .inr (.inr ⟨v, k, by rw [if_neg (by rintro rfl; simp [ht] at hv), hv]⟩)
  all_goals grind [Stage.waiter]

theorem append (h : Waiters stage c) {w : ℕ} (ht : stage t = .fresh w)
    (hx : ∀ u, u ≠ t → (stage u).exclusive = false) :
    Waiters (Function.update stage t (.queued w)) (c.append w) := by
  obtain ⟨hlt, huniq, hsort, hfresh, hmem, hsleep, hqueued, hpassed, hwaking⟩ := h
  constructor <;> simp only [Condition.append, Function.update_apply]
  all_goals grind [Stage.waiter, Stage.exclusive]

omit [DecidableEq T] in
theorem sleep (h : Waiters stage c) {w : ℕ} (ht : stage t = .queued w)
    (hq : t ∉ (c.waiter w).queue) (hv : (c.waiter w).value = 0) :
    Waiters stage (c.setWaiter w { c.waiter w with queue := (c.waiter w).queue ++ [t] }) := by
  have heq := fun u => h.eq_of_queued ht (u := u)
  have hne := fun u => h.not_fresh_of_queued ht (u := u)
  obtain ⟨hlt, huniq, hsort, hfresh, hmem, hsleep, hqueued, hpassed, hwaking⟩ := h
  refine ⟨hlt, huniq, hsort, ?_, hmem, ?_, hqueued, hpassed, hwaking⟩
  all_goals simp only [setWaiter, Function.update_apply]
  all_goals grind [Stage.waiter]

theorem pass (h : Waiters stage c) {w : ℕ} (ht : stage t = .queued w)
    (hv : (c.waiter w).value ≠ 0) :
    Waiters (Function.update stage t (.passed w))
      (c.setWaiter w { c.waiter w with value := (c.waiter w).value - 1 }) := by
  have heq := fun u => h.eq_of_queued ht (u := u)
  obtain ⟨hlt, huniq, hsort, hfresh, hmem, hsleep, hqueued, hpassed, hwaking⟩ := h
  have hrec : c.received w = 1 := by grind
  constructor <;> simp only [setWaiter, Function.update_apply]
  all_goals grind [Stage.waiter]

theorem finish (h : Waiters stage c) {w : ℕ} (ht : stage t = .passed w) :
    Waiters (Function.update stage t .idle) (c.returned t w (some t)) := by
  obtain ⟨hlt, huniq, hsort, hfresh, hmem, hsleep, hqueued, hpassed, hwaking⟩ := h
  constructor <;> simp only [Condition.returned, Function.update_apply]
  all_goals grind [Stage.waiter]

theorem quiet (h : Waiters stage c) {p : Stage} (ht : (stage t).waiter = none)
    (htk : ∀ k x, stage t ≠ .waking k x) (hp : p.waiter = none) (hpk : ∀ k x, p ≠ .waking k x) :
    Waiters (Function.update stage t p) c := by
  obtain ⟨hlt, huniq, hsort, hfresh, hmem, hsleep, hqueued, hpassed, hwaking⟩ := h
  refine ⟨?_, ?_, hsort, ?_, ?_, ?_, ?_, ?_, ?_⟩ <;> simp only [Function.update_apply]
  all_goals grind [Stage.waiter]

theorem remove (h : Waiters stage c) {k : Call} {w : ℕ} {ws : List ℕ}
    (ht : stage t = .signalling k) (hq : c.waitQueue = w :: ws)
    (hx : ∀ u, u ≠ t → (stage u).exclusive = false) :
    Waiters (Function.update stage t (.waking k w)) (c.remove t w ws) := by
  obtain ⟨hlt, huniq, hsort, hfresh, hmem, hsleep, hqueued, hpassed, hwaking⟩ := h
  rw [hq, List.pairwise_cons] at hsort
  rw [hq] at hmem
  have hws : w ∉ ws := fun hw => absurd (hsort.1 w hw) (lt_irrefl w)
  constructor <;> simp only [Condition.remove, Function.update_apply]
  case queued =>
    intro u x hu
    have hut : u ≠ t := by rintro rfl; simp at hu
    rw [if_neg hut] at hu
    obtain hx' | hx' | ⟨v, k', hv⟩ := hqueued u x hu
    · obtain rfl | hx' := List.mem_cons.mp (hq ▸ hx')
      · exact .inr (.inr ⟨t, k, if_pos rfl⟩)
      · exact .inl hx'
    · exact .inr (.inl hx')
    · have := hx v (by rintro rfl; simp [ht] at hv)
      simp [hv, Stage.exclusive] at this
  all_goals grind [Stage.waiter, Stage.exclusive]

theorem wake (h : Waiters stage c) {k : Call} {w : ℕ} {p : Stage} (ht : stage t = .waking k w)
    (hx : ∀ u, u ≠ t → (stage u).exclusive = false) (hp : p.waiter = none)
    (hpk : ∀ k x, p ≠ .waking k x) : Waiters (Function.update stage t p) (c.wake w) := by
  obtain ⟨hnot, hrec, v, hv⟩ := h.waking t k w ht
  have heq := fun u => h.eq_of_queued hv (u := u)
  obtain ⟨hlt, huniq, hsort, hfresh, hmem, hsleep, hqueued, hpassed, hwaking⟩ := h
  have hother : ∀ u k x, stage u = .waking k x → u = t := by
    intro u k x hu
    by_contra hut
    have := hx u hut
    simp [hu, Stage.exclusive] at this
  have hwv : (c.waiter w).v = ⟨1, []⟩ := by
    obtain ⟨-, hs | hs⟩ | ⟨h1, -⟩ := hsleep v w hv
    · simp [hs, Semaphore.v]
    · simp [hs, Semaphore.v]
    · omega
  constructor <;> simp only [Condition.wake, Function.update_apply]
  all_goals grind [Stage.waiter, Stage.exclusive]

end Waiters

/-- A call that has released `k.released` so far and will find `queue`. -/
def Call.Follows (k : Call) (queue : List ℕ) : Prop :=
  k.released ++ queue = k.start ∧ k.start.Pairwise (· < ·) ∧ (k.broadcast = false → k.released = [])

/-- A finished `Broadcast` has released all it found, a finished `Signal` the first of them. -/
def Call.Done (k : Call) : Prop :=
  k.start.Pairwise (· < ·) ∧ k.released = if k.broadcast then k.start else k.start.take 1

structure Calls (stage : T → Stage) (c : Condition T) : Prop where
  signalling : ∀ t k, stage t = .signalling k → k.Follows c.waitQueue
  waking : ∀ t k w, stage t = .waking k w → k.Follows (w :: c.waitQueue)
  completed : ∀ k ∈ c.completed, k.Done

theorem new_calls : Calls (fun _ : T => .idle) (new T) := by
  constructor <;> simp [new]

theorem Call.Follows.release {k : Call} {w : ℕ} {queue : List ℕ} (h : k.Follows (w :: queue))
    (hb : k.broadcast = true) : (k.release w).Follows queue := by
  obtain ⟨heq, hsort, -⟩ := h
  refine ⟨?_, hsort, ?_⟩
  · simp [Call.release, ← heq]
  · intro hb'
    simp [Call.release, hb] at hb'

theorem Call.Follows.done_one {k : Call} {w : ℕ} {queue : List ℕ} (h : k.Follows (w :: queue))
    (hb : k.broadcast = false) : (k.release w).Done := by
  obtain ⟨heq, hsort, hnil⟩ := h
  refine ⟨hsort, ?_⟩
  rw [hnil hb, List.nil_append] at heq
  simp [Call.release, hb, hnil hb, ← heq]

theorem Call.Follows.done {k : Call} (h : k.Follows []) : k.Done := by
  obtain ⟨heq, hsort, hnil⟩ := h
  rw [List.append_nil] at heq
  refine ⟨hsort, ?_⟩
  cases hb : k.broadcast with
  | true => simp [heq]
  | false => simp [← heq, hnil hb]

structure Logged (stage : T → Stage) (c : Condition T) : Prop where
  entered : ∀ t w, (stage t).waiter = some w → .entered t w ∈ c.log
  removed : ∀ t w, stage t = .queued w ∨ stage t = .passed w → w ∉ c.waitQueue →
    ∃ u, [.entered t w, .removed u w].Sublist c.log
  returned : ∀ t w o, .returned t w o ∈ c.log →
    o = some t ∧ ∃ u, [.entered t w, .removed u w, .returned t w o].Sublist c.log

theorem new_logged : Logged (fun _ : T => .idle) (new T) := by
  constructor <;> simp [new, Stage.waiter]

theorem Waiters.not_mem_of_passed (h : Waiters stage c) {w : ℕ} (ht : stage t = .passed w) :
    w ∉ c.waitQueue := by
  intro hw
  have := (h.mem w hw).1
  rw [h.passed t w ht] at this
  cases this

section
variable [DecidableEq T]

namespace Calls

/-- A step of a thread that is in no call, before it and after it. -/
theorem quiet (h : Calls stage c) {p : Stage} (hp : ∀ k, p ≠ .signalling k)
    (hpw : ∀ k w, p ≠ .waking k w) (hq : c'.waitQueue = c.waitQueue)
    (hc : c'.completed = c.completed) : Calls (Function.update stage t p) c' := by
  refine ⟨?_, ?_, by rw [hc]; exact h.completed⟩
  · intro u k hu
    rw [hq]
    by_cases hut : u = t
    · rw [hut, Function.update_self] at hu
      exact absurd hu (hp k)
    · rw [Function.update_of_ne hut] at hu
      exact h.signalling u k hu
  · intro u k w hu
    rw [hq]
    by_cases hut : u = t
    · rw [hut, Function.update_self] at hu
      exact absurd hu (hpw k w)
    · rw [Function.update_of_ne hut] at hu
      exact h.waking u k w hu

theorem alone (hx : ∀ u, u ≠ t → (stage u).exclusive = false) {p : Stage}
    (hs : ∀ k, p = .signalling k → k.Follows c.waitQueue)
    (hw : ∀ k w, p = .waking k w → k.Follows (w :: c.waitQueue)) (hc : ∀ k ∈ c.completed, k.Done) :
    Calls (Function.update stage t p) c := by
  refine ⟨?_, ?_, hc⟩
  · intro u k hu
    by_cases hut : u = t
    · rw [hut, Function.update_self] at hu
      exact hs k hu
    · rw [Function.update_of_ne hut] at hu
      simpa [hu, Stage.exclusive] using hx u hut
  · intro u k w hu
    by_cases hut : u = t
    · rw [hut, Function.update_self] at hu
      exact hw k w hu
    · rw [Function.update_of_ne hut] at hu
      simpa [hu, Stage.exclusive] using hx u hut

omit [DecidableEq T] in
theorem mem_append {k : Call} (h : ∀ k ∈ c.completed, k.Done) (hk : k.Done) :
    ∀ k' ∈ c.completed ++ [k], k'.Done := by
  intro k' hk'
  obtain hk' | hk' := List.mem_append.mp hk'
  · exact h k' hk'
  · rw [List.mem_singleton.mp hk']
    exact hk

end Calls

namespace Logged

theorem step (h : Logged stage c) {p : Stage} (es : List (Event T)) (hlog : c'.log = c.log ++ es)
    (he : ∀ w, p.waiter = some w → (stage t).waiter = some w ∨ .entered t w ∈ es)
    (hr : ∀ w, p = .queued w ∨ p = .passed w → stage t = .queued w ∨ stage t = .passed w ∨
      w ∈ c'.waitQueue)
    (hq : ∀ x ∈ c.waitQueue, x ∉ c'.waitQueue → ∃ u, .removed u x ∈ es)
    (hret : ∀ u w o, .returned u w o ∈ es → o = some u ∧ es = [.returned u w o] ∧
      (stage u = .passed w ∧ w ∉ c.waitQueue)) :
    Logged (Function.update stage t p) c' := by
  have hsub : c.log.Sublist c'.log := by
    rw [hlog]
    exact List.sublist_append_left _ _
  have hentered : ∀ u w, (Function.update stage t p u).waiter = some w → .entered u w ∈ c'.log := by
    intro u w hu
    by_cases hut : u = t
    · subst hut
      rw [Function.update_self] at hu
      obtain hw | hw := he w hu
      · exact hsub.subset (h.entered u w hw)
      · rw [hlog]
        exact List.mem_append_right _ hw
    · rw [Function.update_of_ne hut] at hu
      exact hsub.subset (h.entered u w hu)
  have hremoved : ∀ u w, stage u = .queued w ∨ stage u = .passed w → w ∉ c'.waitQueue →
      ∃ v, [.entered u w, .removed v w].Sublist c'.log := by
    intro u w hu hw
    by_cases hwc : w ∈ c.waitQueue
    · obtain ⟨v, hv⟩ := hq w hwc hw
      have hent := h.entered u w (by obtain hu | hu := hu <;> (rw [hu]; rfl))
      refine ⟨v, ?_⟩
      rw [hlog]
      exact (List.singleton_sublist.mpr hent).append (List.singleton_sublist.mpr hv)
    · obtain ⟨v, hv⟩ := h.removed u w hu hwc
      exact ⟨v, hv.trans hsub⟩
  refine ⟨hentered, ?_, ?_⟩
  · intro u w hu hw
    by_cases hut : u = t
    · subst hut
      rw [Function.update_self] at hu
      obtain hr | hr | hr := hr w hu
      · exact hremoved u w (.inl hr) hw
      · exact hremoved u w (.inr hr) hw
      · exact absurd hr hw
    · rw [Function.update_of_ne hut] at hu
      exact hremoved u w hu hw
  · intro u w o ho
    rw [hlog] at ho
    obtain ho | ho := List.mem_append.mp ho
    · obtain ⟨hou, v, hv⟩ := h.returned u w o ho
      exact ⟨hou, v, hv.trans hsub⟩
    · obtain ⟨hou, hes, hpass, hw⟩ := hret u w o ho
      obtain ⟨v, hv⟩ := h.removed u w (.inr hpass) hw
      refine ⟨hou, v, ?_⟩
      rw [hlog, hes]
      exact hv.append (List.Sublist.refl [Event.returned u w o])

end Logged

/-- What holds of a condition whatever its threads do with the lock held. -/
structure Inv (stage : T → Stage) (c : Condition T) : Prop where
  waiters : Waiters stage c
  calls : Calls stage c
  logged : Logged stage c

omit [DecidableEq T] in
theorem new_inv : Inv (fun _ : T => .idle) (new T) := ⟨new_waiters, new_calls, new_logged⟩

namespace Inv

omit [DecidableEq T] in
theorem sleep (h : Inv stage c) {w : ℕ} (ht : stage t = .queued w)
    (hq : t ∉ (c.waiter w).queue) (hv : (c.waiter w).value = 0) :
    Inv stage (c.setWaiter w { c.waiter w with queue := (c.waiter w).queue ++ [t] }) where
  waiters := h.waiters.sleep ht hq hv
  calls := ⟨h.calls.signalling, h.calls.waking, h.calls.completed⟩
  logged := ⟨h.logged.entered, h.logged.removed, h.logged.returned⟩

theorem create (h : Inv stage c) (ht : stage t = .idle) :
    Inv (Function.update stage t (.fresh c.next)) (c.newWaiter t) where
  waiters := h.waiters.create ht
  calls := h.calls.quiet nofun nofun rfl rfl
  logged := by
    refine h.logged.step [.entered t c.next] rfl ?_ nofun (fun x hx hn => absurd hx hn) ?_
    · intro w hw
      obtain rfl := Option.some.inj hw
      exact .inr (List.mem_singleton_self _)
    · intro u w o ho
      simp at ho

theorem append (h : Inv stage c) {w : ℕ} (ht : stage t = .fresh w)
    (hx : ∀ u, u ≠ t → (stage u).exclusive = false) :
    Inv (Function.update stage t (.queued w)) (c.append w) where
  waiters := h.waiters.append ht hx
  calls := Calls.alone hx nofun nofun h.calls.completed
  logged := by
    refine h.logged.step [] (List.append_nil _).symm ?_ ?_ ?_ (fun _ _ _ h => nomatch h)
    · intro x hx
      rw [ht]
      exact .inl hx
    · intro x hx
      have : w = x := by simpa using hx
      subst this
      exact .inr (.inr (by simp [Condition.append]))
    · intro x hx hn
      exact absurd (List.mem_append_left _ hx) hn

theorem pass (h : Inv stage c) {w : ℕ} (ht : stage t = .queued w)
    (hv : (c.waiter w).value ≠ 0) :
    Inv (Function.update stage t (.passed w))
      (c.setWaiter w { c.waiter w with value := (c.waiter w).value - 1 }) where
  waiters := h.waiters.pass ht hv
  calls := h.calls.quiet nofun nofun rfl rfl
  logged := by
    refine h.logged.step [] (List.append_nil _).symm ?_ ?_ (fun x hx hn => absurd hx hn)
      (fun _ _ _ h => nomatch h)
    · intro x hx
      rw [ht]
      exact .inl hx
    · intro x hx
      have : w = x := by simpa using hx
      subst this
      exact .inl ht

theorem finish (h : Inv stage c) {w : ℕ} (ht : stage t = .passed w) :
    Inv (Function.update stage t .idle) (c.returned t w (some t)) where
  waiters := h.waiters.finish ht
  calls := h.calls.quiet nofun nofun rfl rfl
  logged := by
    refine h.logged.step [.returned t w (some t)] rfl nofun (by simp)
      (fun x hx hn => absurd hx hn) ?_
    intro u x o ho
    simp only [List.mem_singleton, Event.returned.injEq] at ho
    obtain ⟨rfl, rfl, rfl⟩ := ho
    exact ⟨rfl, rfl, ht, h.waiters.not_mem_of_passed ht⟩

theorem call (h : Inv stage c) (ht : stage t = .idle) (b : Bool)
    (hx : ∀ u, u ≠ t → (stage u).exclusive = false) :
    Inv (Function.update stage t (.signalling ⟨b, c.waitQueue, []⟩)) c where
  waiters := h.waiters.quiet (by rw [ht]; rfl) (by simp [ht]) rfl nofun
  calls := by
    refine Calls.alone hx ?_ nofun h.calls.completed
    intro k hk
    obtain rfl := Stage.signalling.inj hk
    exact ⟨rfl, h.waiters.sorted, fun _ => rfl⟩
  logged := h.logged.step [] (List.append_nil _).symm nofun (by simp)
    (fun x hx hn => absurd hx hn) (fun _ _ _ h => nomatch h)

theorem remove (h : Inv stage c) {k : Call} {w : ℕ} {ws : List ℕ} (ht : stage t = .signalling k)
    (hq : c.waitQueue = w :: ws) (hx : ∀ u, u ≠ t → (stage u).exclusive = false) :
    Inv (Function.update stage t (.waking k w)) (c.remove t w ws) where
  waiters := h.waiters.remove ht hq hx
  calls := by
    refine Calls.alone hx nofun ?_ h.calls.completed
    intro k' w' hk
    obtain ⟨rfl, rfl⟩ := Stage.waking.inj hk
    exact hq ▸ h.calls.signalling t k ht
  logged := by
    refine h.logged.step [.removed t w] rfl nofun (by simp) ?_ ?_
    · intro x hx hn
      obtain rfl | hx := List.mem_cons.mp (hq ▸ hx)
      · exact ⟨t, List.mem_singleton_self _⟩
      · exact absurd hx hn
    · intro u x o ho
      simp at ho

theorem wake (h : Inv stage c) {k : Call} {w : ℕ} (ht : stage t = .waking k w)
    (hb : k.broadcast = true) (hx : ∀ u, u ≠ t → (stage u).exclusive = false) :
    Inv (Function.update stage t (.signalling (k.release w))) (c.wake w) where
  waiters := h.waiters.wake ht hx rfl nofun
  calls := by
    refine Calls.alone hx ?_ nofun h.calls.completed
    intro k' hk
    obtain rfl := Stage.signalling.inj hk
    exact (h.calls.waking t k w ht).release hb
  logged := h.logged.step [] (List.append_nil _).symm nofun (by simp)
    (fun x hx hn => absurd hx hn) (fun _ _ _ h => nomatch h)

theorem wakeOne (h : Inv stage c) {k : Call} {w : ℕ} (ht : stage t = .waking k w)
    (hb : k.broadcast = false) (hx : ∀ u, u ≠ t → (stage u).exclusive = false) :
    Inv (Function.update stage t .idle) ((c.wake w).complete (k.release w)) where
  waiters := by
    obtain ⟨h1, h2, h3, h4, h5, h6, h7, h8, h9⟩ := h.waiters.wake ht hx (p := .idle) rfl nofun
    exact ⟨h1, h2, h3, h4, h5, h6, h7, h8, h9⟩
  calls := Calls.alone hx nofun nofun
    (Calls.mem_append h.calls.completed ((h.calls.waking t k w ht).done_one hb))
  logged := h.logged.step [] (List.append_nil _).symm nofun (by simp)
    (fun x hx hn => absurd hx hn) (fun _ _ _ h => nomatch h)

theorem complete (h : Inv stage c) {k : Call} (ht : stage t = .signalling k)
    (hq : c.waitQueue = []) (hx : ∀ u, u ≠ t → (stage u).exclusive = false) :
    Inv (Function.update stage t .idle) (c.complete k) where
  waiters := by
    obtain ⟨h1, h2, h3, h4, h5, h6, h7, h8, h9⟩ :=
      h.waiters.quiet (t := t) (p := .idle) (by rw [ht]; rfl) (by simp [ht]) rfl nofun
    exact ⟨h1, h2, h3, h4, h5, h6, h7, h8, h9⟩
  calls := Calls.alone hx nofun nofun
    (Calls.mem_append h.calls.completed (Call.Follows.done (hq ▸ h.calls.signalling t k ht)))
  logged := h.logged.step [] (List.append_nil _).symm nofun (by simp)
    (fun x hx hn => absurd hx hn) (fun _ _ _ h => nomatch h)

/-- Every step keeps the invariant, if it is exclusive wherever it needs the lock. -/
theorem move {p : Stage} (h : Inv stage c) (hm : Move t c (stage t) p c')
    (hx : (stage t).exclusive = true ∨ p.exclusive = true →
      ∀ u, u ≠ t → (stage u).exclusive = false) : Inv (Function.update stage t p) c' := by
  generalize hq : stage t = q at hm hx
  cases hm with
  | stay =>
    rw [← hq, Function.update_eq_self]
    exact h
  | create => exact h.create hq
  | append w => exact h.append hq (hx (.inl rfl))
  | sleep w hn hv =>
    rw [← hq, Function.update_eq_self]
    exact h.sleep hq hn hv
  | pass w hv => exact h.pass hq hv
  | finish w => exact h.finish hq
  | call b => exact h.call hq b (hx (.inr rfl))
  | remove k w ws hw => exact h.remove hq hw (hx (.inl rfl))
  | wake k w hb => exact h.wake hq hb (hx (.inl rfl))
  | wakeOne k w hb => exact h.wakeOne hq hb (hx (.inl rfl))
  | complete k hw => exact h.complete hq hw (hx (.inl rfl))

end Inv

end

end Condition

end Nachos
