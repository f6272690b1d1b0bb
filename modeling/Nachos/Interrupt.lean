import Mathlib.Tactic
import Nachos.KeyedInsert
import Nachos.Reachability

/-! Simulated interrupts and the clock (`interrupt.cc`, `List::SortedInsert` of `list.h`). Times
are integers, for runs in which the clock does not overflow. A round of a `while (CheckIfDue
(false))` loop is one step. A handler does a list of `Action`s; `V` in it finds the interrupts
off and leaves them off. The thread switch at the end of `OneTick` lets other threads take any
steps, and `status = old` after it, like the kernel's own changes of the status, is `setStatus`.
`id`, `next` and `fired` are not in the source: they number the interrupts in the order they were
scheduled and log the calls of their handlers. -/
namespace Nachos.Interrupt

inductive IntStatus where
  | intOff
  | intOn
  deriving DecidableEq, Repr

inductive MachineStatus where
  | idleMode
  | systemMode
  | userMode
  deriving DecidableEq, Repr

inductive IntType where
  | timerInt
  | diskInt
  | consoleWriteInt
  | consoleReadInt
  | networkSendInt
  | networkRecvInt
  deriving DecidableEq, Repr

structure PendingInterrupt where
  id : ℕ
  when : ℤ
  type : IntType
  deriving DecidableEq, Repr

abbrev userTick : ℤ := 1
abbrev systemTick : ℤ := 10

structure Firing where
  interrupt : PendingInterrupt
  totalTicks : ℤ
  level : IntStatus
  deriving DecidableEq, Repr

inductive Pc where
  | out
  | oneTick
  | idleFirst
  | idleRest
  | halted
  deriving DecidableEq, Repr

structure State where
  level : IntStatus
  pending : List PendingInterrupt
  inHandler : Bool
  yieldOnReturn : Bool
  status : MachineStatus
  totalTicks : ℤ
  idleTicks : ℤ
  systemTicks : ℤ
  userTicks : ℤ
  pc : Pc
  aborted : Bool
  next : ℕ
  fired : List Firing
  deriving DecidableEq, Repr

def State.new : State where
  level := .intOff
  pending := []
  inHandler := false
  yieldOnReturn := false
  status := .systemMode
  totalTicks := 0
  idleTicks := 0
  systemTicks := 0
  userTicks := 0
  pc := .out
  aborted := false
  next := 0
  fired := []

inductive Action where
  | schedule (fromNow : ℤ) (type : IntType)
  | yieldOnReturn
  | v
  deriving DecidableEq, Repr

def sortedInsert (toOccur : PendingInterrupt) (l : List PendingInterrupt) :
    List PendingInterrupt :=
  l.orderedInsert (fun a b => a.when < b.when) toOccur

namespace State

def schedule (s : State) (fromNow : ℤ) (type : IntType) : State :=
  if 0 < fromNow then
    { s with
      pending := sortedInsert ⟨s.next, s.totalTicks + fromNow, type⟩ s.pending
      next := s.next + 1 }
  else { s with aborted := true }

def act (s : State) (a : Action) : State :=
  if s.aborted then s
  else match a with
    | .schedule fromNow type => s.schedule fromNow type
    | .yieldOnReturn => { s with yieldOnReturn := true }
    | .v => s

def fire (s : State) (toOccur : PendingInterrupt) (acts : List Action) : State :=
  let s' := acts.foldl act { s with
    inHandler := true
    status := .systemMode
    fired := s.fired ++ [⟨toOccur, s.totalTicks, s.level⟩] }
  { s' with status := s.status, inHandler := false }

/-- `CheckIfDue` after the clock has been looked at. -/
def invoke (s : State) (toOccur : PendingInterrupt) (rest : List PendingInterrupt)
    (acts : List Action) : State × Bool :=
  if s.status = .idleMode ∧ toOccur.type = .timerInt ∧ rest = [] then
    ({ s with pending := sortedInsert toOccur rest }, false)
  else ({ s with pending := rest }.fire toOccur acts, true)

def checkIfDue (s : State) (advanceClock : Bool) (acts : List Action) : State × Bool :=
  if s.level = .intOff then
    match s.pending with
    | [] => (s, false)
    | toOccur :: rest =>
      if advanceClock = true ∧ toOccur.when > s.totalTicks then
        { s with
          idleTicks := s.idleTicks + (toOccur.when - s.totalTicks)
          totalTicks := toOccur.when }.invoke toOccur rest acts
      else if toOccur.when > s.totalTicks then
        ({ s with pending := sortedInsert toOccur rest }, false)
      else s.invoke toOccur rest acts
  else ({ s with aborted := true }, false)

def oneTick (s : State) : State :=
  if s.status = .systemMode then
    { s with
      totalTicks := s.totalTicks + systemTick
      systemTicks := s.systemTicks + systemTick
      level := .intOff
      pc := .oneTick }
  else
    { s with
      totalTicks := s.totalTicks + userTick
      userTicks := s.userTicks + userTick
      level := .intOff
      pc := .oneTick }

/-- The rest of `OneTick`, up to the thread switch if there is one. -/
def endTick (s : State) : State :=
  if s.yieldOnReturn then
    { s with level := .intOn, yieldOnReturn := false, status := .systemMode, pc := .out }
  else { s with level := .intOn, pc := .out }

def setLevel (s : State) (now : IntStatus) : State :=
  if now = .intOff ∨ s.inHandler = false then
    if now = .intOn ∧ s.level = .intOff then { s with level := now }.oneTick
    else { s with level := now }
  else { s with aborted := true }

end State

inductive Input where
  | schedule (fromNow : ℤ) (type : IntType)
  | setLevel (now : IntStatus)
  | oneTick
  | idle
  | setStatus (status : MachineStatus)
  | check (acts : List Action)
  deriving DecidableEq, Repr

def State.exec (s : State) : Input → Option State
  | .schedule fromNow type => if s.pc = .out then some (s.schedule fromNow type) else none
  | .setLevel now => if s.pc = .out then some (s.setLevel now) else none
  | .oneTick => if s.pc = .out then some s.oneTick else none
  | .idle => if s.pc = .out then some { s with status := .idleMode, pc := .idleFirst } else none
  | .setStatus status => if s.pc = .out then some { s with status := status } else none
  | .check acts => match s.pc with
    | .out | .halted => none
    | .oneTick => match s.checkIfDue false acts with
      | (s', true) => some s'
      | (s', false) => some s'.endTick
    | .idleFirst => match s.checkIfDue true acts with
      | (s', true) => some { s' with pc := .idleRest }
      | (s', false) => some { s' with pc := .halted }
    | .idleRest => match s.checkIfDue false acts with
      | (s', true) => some s'
      | (s', false) => some { s' with yieldOnReturn := false, status := .systemMode, pc := .out }

def State.step (s : State) (i : Input) : Option State := if s.aborted then none else s.exec i

def Step (s s' : State) : Prop := ∃ i, s.step i = some s'

/-- The order of the list and of the calls, the account of the interrupts and the clock. -/
structure Inv (s : State) : Prop where
  sorted : s.pending.Pairwise (·.when ≤ ·.when)
  conserved : (s.pending ++ s.fired.map Firing.interrupt).map PendingInterrupt.id |>.Perm
    (List.range s.next)
  due : ∀ f ∈ s.fired, f.interrupt.when ≤ f.totalTicks ∧ f.level = .intOff
  ordered : s.fired.Pairwise (·.interrupt.when ≤ ·.interrupt.when)
  past : ∀ f ∈ s.fired, f.interrupt.when ≤ s.totalTicks
  future : ∀ f ∈ s.fired, ∀ p ∈ s.pending, f.interrupt.when ≤ p.when
  ticks : s.totalTicks = s.idleTicks + s.systemTicks + s.userTicks

inductive Outcome (s : State) : Input → State → Prop
  | schedule (fromNow : ℤ) (type : IntType) :
      Outcome s (.schedule fromNow type) (s.schedule fromNow type)
  | setLevel (now : IntStatus) : Outcome s (.setLevel now) (s.setLevel now)
  | oneTick : Outcome s .oneTick s.oneTick
  | idle : Outcome s .idle { s with status := .idleMode, pc := .idleFirst }
  | setStatus (status : MachineStatus) : Outcome s (.setStatus status) { s with status := status }
  | round (acts : List Action) (h : s.pc = .oneTick ∨ s.pc = .idleRest) :
      Outcome s (.check acts) (s.checkIfDue false acts).1
  | endTick (acts : List Action) (h : s.pc = .oneTick) :
      Outcome s (.check acts) (s.checkIfDue false acts).1.endTick
  | idleFirst (acts : List Action) (p : Pc) :
      Outcome s (.check acts) { (s.checkIfDue true acts).1 with pc := p }
  | endIdle (acts : List Action) (h : s.pc = .idleRest) :
      Outcome s (.check acts) { (s.checkIfDue false acts).1 with
        yieldOnReturn := false
        status := .systemMode
        pc := .out }

theorem exec_outcome {s s' : State} {i : Input} (hs : s.exec i = some s') : Outcome s i s' := by
  unfold State.exec at hs
  split at hs
  case h_6 l =>
    split at hs
    · cases hs
    · cases hs
    · rename_i hpc
      split at hs <;> rename_i x hc <;> obtain rfl := Option.some.inj hs <;>
        obtain rfl : (s.checkIfDue false l).1 = x := congrArg Prod.fst hc
      · exact .round l (.inl hpc)
      · exact .endTick l hpc
    · split at hs <;> rename_i x hc <;> obtain rfl := Option.some.inj hs <;>
        obtain rfl : (s.checkIfDue true l).1 = x := congrArg Prod.fst hc
      · exact .idleFirst l .idleRest
      · exact .idleFirst l .halted
    · rename_i hpc
      split at hs <;> rename_i x hc <;> obtain rfl := Option.some.inj hs <;>
        obtain rfl : (s.checkIfDue false l).1 = x := congrArg Prod.fst hc
      · exact .round l (.inr hpc)
      · exact .endIdle l hpc
  all_goals
    split_ifs at hs
    obtain rfl := Option.some.inj hs
  · exact .schedule _ _
  · exact .setLevel _
  · exact .oneTick
  · exact .idle
  · exact .setStatus _

theorem sortedInsert_perm (p : PendingInterrupt) (l : List PendingInterrupt) :
    (sortedInsert p l).Perm (p :: l) := List.perm_orderedInsert _ p l

theorem mem_sortedInsert {p q : PendingInterrupt} {l : List PendingInterrupt} :
    q ∈ sortedInsert p l ↔ q = p ∨ q ∈ l := by
  rw [(sortedInsert_perm p l).mem_iff, List.mem_cons]

theorem sortedInsert_sorted (p : PendingInterrupt) {l : List PendingInterrupt}
    (h : l.Pairwise (·.when ≤ ·.when)) : (sortedInsert p l).Pairwise (·.when ≤ ·.when) :=
  KeyedInsert.pairwise_insert PendingInterrupt.when h

theorem new_inv : Inv State.new where
  sorted := List.Pairwise.nil
  conserved := List.Perm.refl _
  due := nofun
  ordered := List.Pairwise.nil
  past := nofun
  future := nofun
  ticks := rfl

namespace Inv
variable {s s' : State} {p : PendingInterrupt} {rest : List PendingInterrupt}

theorem schedule (h : Inv s) (fromNow : ℤ) (type : IntType) : Inv (s.schedule fromNow type) := by
  unfold State.schedule
  split_ifs with hpos
  · constructor
    case sorted => exact sortedInsert_sorted _ h.sorted
    case conserved =>
      have hinsert := sortedInsert_perm ⟨s.next, s.totalTicks + fromNow, type⟩ s.pending
      have hperm := (hinsert.append_right (s.fired.map Firing.interrupt)).map PendingInterrupt.id
      refine hperm.trans ?_
      rw [List.range_succ]
      exact (h.conserved.cons s.next).trans (List.perm_append_singleton _ _).symm
    case due => exact h.due
    case ordered => exact h.ordered
    case past => exact h.past
    case future =>
      intro f hf q hq
      obtain rfl | hq := mem_sortedInsert.mp hq
      · have := h.past f hf
        exact this.trans (by simp only; omega)
      · exact h.future f hf q hq
    case ticks => exact h.ticks
  · exact ⟨h.sorted, h.conserved, h.due, h.ordered, h.past, h.future, h.ticks⟩

theorem act (h : Inv s) (a : Action) : Inv (s.act a) := by
  unfold State.act
  split_ifs
  · exact h
  · cases a with
    | schedule fromNow type => exact h.schedule fromNow type
    | yieldOnReturn => exact ⟨h.sorted, h.conserved, h.due, h.ordered, h.past, h.future, h.ticks⟩
    | v => exact h

theorem acts (h : Inv s) (l : List Action) : Inv (l.foldl State.act s) := by
  induction l generalizing s with
  | nil => exact h
  | cons a l ih => exact ih (h.act a)

theorem putBack (h : Inv s) (hp : s.pending = p :: rest) :
    Inv { s with pending := sortedInsert p rest } := by
  have hperm : (sortedInsert p rest).Perm s.pending := hp ▸ sortedInsert_perm p rest
  constructor
  case sorted =>
    have hsorted := h.sorted
    rw [hp, List.pairwise_cons] at hsorted
    exact sortedInsert_sorted p hsorted.2
  case conserved => exact ((hperm.append_right _).map _).trans h.conserved
  case due => exact h.due
  case ordered => exact h.ordered
  case past => exact h.past
  case future => exact fun f hf q hq => h.future f hf q (hperm.mem_iff.mp hq)
  case ticks => exact h.ticks

theorem advance (h : Inv s) (hlt : p.when > s.totalTicks) :
    Inv { s with
      idleTicks := s.idleTicks + (p.when - s.totalTicks)
      totalTicks := p.when } := by
  refine ⟨h.sorted, h.conserved, h.due, h.ordered, ?_, h.future, ?_⟩
  · intro f hf
    exact (h.past f hf).trans hlt.le
  · have := h.ticks
    simp only
    omega

theorem fire (h : Inv s) (hp : s.pending = p :: rest) (hdue : p.when ≤ s.totalTicks)
    (hlevel : s.level = .intOff) (l : List Action) : Inv ({ s with pending := rest }.fire p l) := by
  have hsorted := h.sorted
  rw [hp, List.pairwise_cons] at hsorted
  have hstart : Inv { s with
      pending := rest
      inHandler := true
      status := .systemMode
      fired := s.fired ++ [⟨p, s.totalTicks, s.level⟩] } := by
    constructor
    case sorted => exact hsorted.2
    case conserved =>
      have hconserved := h.conserved
      rw [hp] at hconserved
      refine List.Perm.trans (List.Perm.map _ ?_) hconserved
      rw [List.map_append, ← List.append_assoc]
      exact List.perm_append_singleton p _
    case due =>
      intro f hf
      obtain hf | hf := List.mem_append.mp hf
      · exact h.due f hf
      · rw [List.mem_singleton.mp hf]
        exact ⟨hdue, hlevel⟩
    case ordered =>
      refine List.pairwise_append.mpr ⟨h.ordered, List.pairwise_singleton _ _, ?_⟩
      intro f hf g hg
      rw [List.mem_singleton.mp hg]
      exact h.future f hf p (by simp [hp])
    case past =>
      intro f hf
      obtain hf | hf := List.mem_append.mp hf
      · exact h.past f hf
      · rw [List.mem_singleton.mp hf]
        exact hdue
    case future =>
      intro f hf q hq
      obtain hf | hf := List.mem_append.mp hf
      · exact h.future f hf q (by simp [hp, hq])
      · rw [List.mem_singleton.mp hf]
        exact hsorted.1 q hq
    case ticks => exact h.ticks
  have hend := hstart.acts l
  exact ⟨hend.sorted, hend.conserved, hend.due, hend.ordered, hend.past, hend.future, hend.ticks⟩

theorem invoke (h : Inv s) (hp : s.pending = p :: rest) (hdue : p.when ≤ s.totalTicks)
    (hlevel : s.level = .intOff) (l : List Action) : Inv (s.invoke p rest l).1 := by
  unfold State.invoke
  split_ifs
  · exact h.putBack hp
  · exact h.fire hp hdue hlevel l

theorem checkIfDue (h : Inv s) (advanceClock : Bool) (l : List Action) :
    Inv (s.checkIfDue advanceClock l).1 := by
  unfold State.checkIfDue
  split_ifs with hlevel
  · cases hp : s.pending with
    | nil => exact h
    | cons p rest =>
      dsimp only
      split_ifs with hadv hlate
      · exact (h.advance hadv.2).invoke hp le_rfl hlevel l
      · exact h.putBack hp
      · exact h.invoke hp (not_lt.mp hlate) hlevel l
  · exact ⟨h.sorted, h.conserved, h.due, h.ordered, h.past, h.future, h.ticks⟩

theorem oneTick (h : Inv s) : Inv s.oneTick := by
  have hticks := h.ticks
  unfold State.oneTick
  split_ifs
  · refine ⟨h.sorted, h.conserved, h.due, h.ordered, ?_, h.future, ?_⟩
    · intro f hf
      exact (h.past f hf).trans (by simp only [systemTick]; omega)
    · simp only
      omega
  · refine ⟨h.sorted, h.conserved, h.due, h.ordered, ?_, h.future, ?_⟩
    · intro f hf
      exact (h.past f hf).trans (by simp only [userTick]; omega)
    · simp only
      omega

theorem endTick (h : Inv s) : Inv s.endTick := by
  unfold State.endTick
  split_ifs <;>
    exact ⟨h.sorted, h.conserved, h.due, h.ordered, h.past, h.future, h.ticks⟩

theorem setLevel (h : Inv s) (now : IntStatus) : Inv (s.setLevel now) := by
  have hlevel : Inv { s with level := now } :=
    ⟨h.sorted, h.conserved, h.due, h.ordered, h.past, h.future, h.ticks⟩
  unfold State.setLevel
  split_ifs
  · exact hlevel.oneTick
  · exact hlevel
  · exact ⟨h.sorted, h.conserved, h.due, h.ordered, h.past, h.future, h.ticks⟩

theorem exec (h : Inv s) {i : Input} (hs : s.exec i = some s') : Inv s' := by
  cases exec_outcome hs with
  | schedule fromNow type => exact h.schedule fromNow type
  | setLevel now => exact h.setLevel now
  | oneTick => exact h.oneTick
  | idle | setStatus =>
    exact ⟨h.sorted, h.conserved, h.due, h.ordered, h.past, h.future, h.ticks⟩
  | round acts => exact h.checkIfDue false acts
  | endTick acts => exact (h.checkIfDue false acts).endTick
  | idleFirst acts p =>
    have hc := h.checkIfDue true acts
    exact ⟨hc.sorted, hc.conserved, hc.due, hc.ordered, hc.past, hc.future, hc.ticks⟩
  | endIdle acts =>
    have hc := h.checkIfDue false acts
    exact ⟨hc.sorted, hc.conserved, hc.due, hc.ordered, hc.past, hc.future, hc.ticks⟩

end Inv

theorem reachable_inv {s : State} (h : Reachable (· = State.new) Step s) : Inv s := by
  refine Reachable.invariant ?_ ?_ h
  · rintro _ rfl
    exact new_inv
  · rintro s s' hi ⟨i, hs⟩
    unfold State.step at hs
    split_ifs at hs
    exact hi.exec hs

namespace State
variable {s s' : State}

@[simp] theorem schedule_totalTicks (s : State) (fromNow : ℤ) (type : IntType) :
    (s.schedule fromNow type).totalTicks = s.totalTicks := by
  unfold schedule
  split_ifs <;> rfl

@[simp] theorem act_totalTicks (s : State) (a : Action) : (s.act a).totalTicks = s.totalTicks := by
  unfold act
  split_ifs
  · rfl
  · cases a <;> simp

@[simp] theorem acts_totalTicks (s : State) (l : List Action) :
    (l.foldl act s).totalTicks = s.totalTicks := by
  induction l generalizing s with
  | nil => rfl
  | cons a l ih => rw [List.foldl_cons, ih, act_totalTicks]

@[simp] theorem invoke_totalTicks (s : State) (p : PendingInterrupt)
    (rest : List PendingInterrupt) (l : List Action) :
    (s.invoke p rest l).1.totalTicks = s.totalTicks := by
  unfold invoke
  split_ifs
  · rfl
  · simp [fire]

theorem checkIfDue_totalTicks (s : State) (advanceClock : Bool) (l : List Action) :
    s.totalTicks ≤ (s.checkIfDue advanceClock l).1.totalTicks := by
  unfold checkIfDue
  split_ifs
  · cases s.pending with
    | nil => exact le_rfl
    | cons p rest =>
      dsimp only
      split_ifs with hadv
      · rw [invoke_totalTicks]
        exact hadv.2.le
      · exact le_rfl
      · rw [invoke_totalTicks]
  · exact le_rfl

theorem oneTick_totalTicks (s : State) : s.totalTicks ≤ s.oneTick.totalTicks := by
  unfold oneTick
  split_ifs <;> simp

@[simp] theorem endTick_totalTicks (s : State) : s.endTick.totalTicks = s.totalTicks := by
  unfold endTick
  split_ifs <;> rfl

theorem setLevel_totalTicks (s : State) (now : IntStatus) :
    s.totalTicks ≤ (s.setLevel now).totalTicks := by
  unfold setLevel
  split_ifs
  · exact oneTick_totalTicks { s with level := now }
  · exact le_rfl
  · exact le_rfl

theorem exec_totalTicks {i : Input} (hs : s.exec i = some s') : s.totalTicks ≤ s'.totalTicks := by
  cases exec_outcome hs with
  | schedule fromNow type => rw [schedule_totalTicks]
  | setLevel now => exact s.setLevel_totalTicks now
  | oneTick => exact s.oneTick_totalTicks
  | idle | setStatus => exact le_rfl
  | round acts => exact s.checkIfDue_totalTicks false acts
  | endTick acts =>
    rw [endTick_totalTicks]
    exact s.checkIfDue_totalTicks false acts
  | idleFirst acts p => exact s.checkIfDue_totalTicks true acts
  | endIdle acts => exact s.checkIfDue_totalTicks false acts

end State

/-- In every run the pending list is sorted; each interrupt scheduled so far is either on it or
has had its handler called, once; a handler is called when its interrupt is due and with
interrupts off; the handlers are called in the order of their times; and the clock never goes
back and is the sum of its three parts. -/
theorem interrupts_in_order {s : State} (h : Reachable (· = State.new) Step s) :
    s.pending.Pairwise (·.when ≤ ·.when) ∧
      ((s.pending ++ s.fired.map Firing.interrupt).map PendingInterrupt.id).Perm
        (List.range s.next) ∧
      (∀ f ∈ s.fired, f.interrupt.when ≤ f.totalTicks ∧ f.level = .intOff) ∧
      s.fired.Pairwise (·.interrupt.when ≤ ·.interrupt.when) ∧
      (∀ s', Step s s' → s.totalTicks ≤ s'.totalTicks) ∧
      s.totalTicks = s.idleTicks + s.systemTicks + s.userTicks := by
  have hi := reachable_inv h
  refine ⟨hi.sorted, hi.conserved, hi.due, hi.ordered, ?_, hi.ticks⟩
  rintro s' ⟨i, hs⟩
  unfold State.step at hs
  split_ifs at hs
  exact State.exec_totalTicks hs

/-- A timer and a disk interrupt, of which the idle machine has called the second; its handler
has scheduled a third. -/
def idleRun : List Input :=
  [.schedule 100 .timerInt, .schedule 50 .diskInt, .idle, .check [.schedule 70 .diskInt, .v],
    .check []]

theorem idleRun_in_order : ∃ s : State, Reachable (· = State.new) Step s ∧
    s.fired.map Firing.interrupt = [⟨1, 50, .diskInt⟩] ∧
    s.pending = [⟨0, 100, .timerInt⟩, ⟨2, 120, .diskInt⟩] ∧
    s.pending.Pairwise (·.when ≤ ·.when) := by
  have hrun : (idleRun.foldlM State.step State.new).any (fun s : State =>
      s.fired.map Firing.interrupt = [⟨1, 50, .diskInt⟩] ∧
        s.pending = [⟨0, 100, .timerInt⟩, ⟨2, 120, .diskInt⟩]) = true := by
    decide
  obtain ⟨s, hs, hb⟩ := (Option.any_eq_true _ _).mp hrun
  obtain ⟨hf, hp⟩ := of_decide_eq_true hb
  have hr : Reachable (· = State.new) Step s :=
    Reachable.of_foldlM (fun _ i _ h => ⟨i, h⟩) (.init rfl) hs
  exact ⟨s, hr, hf, hp, (interrupts_in_order hr).1⟩

end Nachos.Interrupt
