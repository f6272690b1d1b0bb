import Nachos.MipsDelaySlot
import Nachos.Reachability

/-! The user registers through instructions, interrupts, exceptions and context switches
(`OneInstruction` and `DelayedLoad` of `mipssim.cc`, `RaiseException`, `Thread::SaveUserState` and
`RestoreUserState`, `Scheduler::Run`, `AddrSpace::InitRegisters`). A step is one instruction or one
thing the kernel does between two instructions, on behalf of the current thread or of a handler. A
thread that has not run before starts in `ThreadRoot` when it is switched to, any other one comes
back from its own `SWITCH`. An address space is given to or taken from the current thread, or given
to a thread before its first run. -/
namespace Nachos.UserRegisters
open EStateM (Post)

abbrev stackReg : ℕ := 29

def initRegisters (numPages : ℕ) (m : Machine) : Machine :=
  let m := (List.finRange numTotalRegs).foldl (fun m i => m.setReg i 0) m
  ((m.setReg pcReg 0).setReg nextPCReg 4).setReg stackReg
    (BitVec.ofNat 32 (numPages * pageSize) - 16)

def saveUserState (m : Machine) : Fin numTotalRegs → Word := fun i => m.reg i

def restoreUserState (m : Machine) (userRegisters : Fin numTotalRegs → Word) : Machine :=
  (List.finRange numTotalRegs).foldl (fun m (i : Fin numTotalRegs) =>
    m.setReg i (userRegisters i)) m

structure State (T : Type) where
  machine : Machine
  currentThread : T
  userRegisters : T → Fin numTotalRegs → Word
  space : T → Bool
  started : T → Bool

inductive Event (T : Type) where
  | oneInstruction
  | checkIfDue
  | raiseException (which : ExceptionType) (badVAddr : Word)
  | writeRegister (i : ℕ) (value : Word)
  | initRegisters (numPages : ℕ)
  | setMemory (mainMemory : Memory) (mmu : Mmu)
  | setSpace (t : T) (space : Bool)
  | run (nextThread : T)

def handlerRegs : List ℕ := [2, retAddrReg, pcReg, nextPCReg, prevPCReg]

variable {T : Type} [DecidableEq T]

/-- What the machine does, up to the entry of `ExceptionHandler` if it gets there. -/
def State.exec (s : State T) (x : Exec Unit) : Option (State T) :=
  match x s.machine with
  | .ok _ m => some { s with machine := m }
  | .error (.raised _) m => some { s with machine := m }
  | .error (.trap _) _ => none

def State.switchOut (s : State T) : State T :=
  if s.space s.currentThread then
    { s with userRegisters :=
        Function.update s.userRegisters s.currentThread (saveUserState s.machine) }
  else s

/-- `SWITCH`, and `Run` after it where the thread comes back there. -/
def State.switchIn (s : State T) (nextThread : T) : State T :=
  if s.started nextThread then
    if s.space nextThread then
      { s with
        currentThread := nextThread
        machine := restoreUserState s.machine (s.userRegisters nextThread) }
    else { s with currentThread := nextThread }
  else
    { s with
      currentThread := nextThread
      started := Function.update s.started nextThread true }

def State.run (s : State T) (nextThread : T) : State T := s.switchOut.switchIn nextThread

def State.step (s : State T) : Event T → Option (State T)
  | .oneInstruction => s.exec Nachos.oneInstruction
  | .checkIfDue => s.exec (delayedLoad 0 0)
  | .raiseException which badVAddr => s.exec (Nachos.raiseException which badVAddr)
  | .writeRegister i value =>
    if i ∈ handlerRegs then s.exec (Nachos.writeRegister i value) else none
  | .initRegisters numPages =>
    some { s with machine := UserRegisters.initRegisters numPages s.machine }
  | .setMemory mainMemory mmu =>
    some { s with machine := { s.machine with mainMemory := mainMemory, mmu := mmu } }
  | .setSpace t space =>
    if t = s.currentThread ∨ s.started t = false then
      some { s with space := Function.update s.space t space }
    else none
  | .run nextThread => some (s.run nextThread)

def Step (s s' : State T) : Prop := ∃ e, s.step e = some s'

/-- The first user program has come out of `InitRegisters`, no other one has run. -/
def Init (s : State T) : Prop :=
  (∃ m numPages, s.machine = initRegisters numPages m) ∧ s.started s.currentThread ∧
    ∀ t, s.started t → s.space t → t = s.currentThread

structure RegistersOk (m : Machine) : Prop where
  zero : m.reg 0 = 0
  load : LoadInRange m

def WritesGeneral (m : Machine) : Prop :=
  (m.reg loadReg).toNat < 32 ∧ ∀ r v m', delayedLoad r v m = .ok () m' →
    ∀ k, 32 ≤ k → k ≠ loadReg → k ≠ loadValueReg → m'.reg k = m.reg k

theorem LoadInRange.writesGeneral {m : Machine} (h : LoadInRange m) : WritesGeneral m := by
  refine ⟨h, fun r v m' hm k hk hl hv => ?_⟩
  have hlt : (m.reg loadReg).toNat < 32 := h
  rw [delayedLoad_eq r v h] at hm
  rw [← (EStateM.Result.ok.inj hm).2]
  simp only [reg_setReg]
  rw [if_neg (by omega), if_neg (by tauto), if_neg (by tauto), if_neg (by omega)]

theorem foldl_setReg (f : Fin numTotalRegs → Word) (l : List (Fin numTotalRegs)) (m : Machine)
    (i : Fin numTotalRegs) :
    (l.foldl (fun m (i : Fin numTotalRegs) => m.setReg i (f i)) m).reg i =
      if i ∈ l then f i else m.reg i := by
  induction l generalizing m with
  | nil => rfl
  | cons j l ih =>
    rw [List.foldl_cons, ih, reg_setReg]
    by_cases hl : i ∈ l
    · simp [hl]
    · by_cases hj : i = j
      · simp [hj]
      · have hne : (i : ℕ) ≠ j := fun h => hj (Fin.ext h)
        simp [hl, hj, hne]

theorem restoreUserState_reg (m : Machine) (r : Fin numTotalRegs → Word)
    (i : Fin numTotalRegs) : (restoreUserState m r).reg i = r i := by
  rw [restoreUserState, foldl_setReg, if_pos (List.mem_finRange i)]

theorem initRegisters_ok (numPages : ℕ) (m : Machine) :
    RegistersOk (initRegisters numPages m) := by
  have hzero (i : Fin numTotalRegs) (hi : i.val ≠ pcReg ∧ i.val ≠ nextPCReg ∧ i.val ≠ stackReg) :
      (initRegisters numPages m).reg i = 0 := by
    simp only [initRegisters, reg_setReg]
    rw [if_neg fun h => hi.2.2 h.1, if_neg fun h => hi.2.1 h.1, if_neg fun h => hi.1 h.1,
      foldl_setReg (fun _ => 0), if_pos (List.mem_finRange i)]
  constructor
  · exact hzero 0 (by decide)
  · have hload := hzero ⟨loadReg, by decide⟩ (by decide)
    rw [LoadInRange, hload]
    decide

/-- What the boundary after the computation is like, if there is one. -/
def AfterStop : Stop → Machine → Prop
  | .raised _, m => RegistersOk m
  | .trap _, _ => True

def Keeps (x : Exec Unit) : Prop :=
  ∀ m, RegistersOk m → Post x m (fun _ m' => RegistersOk m') AfterStop

theorem keeps_delayedLoad : Keeps (delayedLoad 0 0) := by
  intro m hm
  unfold EStateM.Post
  rw [delayedLoad_eq 0 0 hm.load]
  constructor
  · simp
  · simp [LoadInRange, loadReg, loadValueReg, numTotalRegs]

theorem registersOk_entry {m m' : Machine} {bad : Word}
    (h : ∀ i < numTotalRegs, m'.reg i = entryReg m bad i) : RegistersOk m' := by
  constructor
  · rw [h 0 (by decide), entryReg, if_pos (.inl rfl)]
  · rw [LoadInRange, h loadReg (by decide), entryReg, if_pos (.inr (.inl rfl))]
    decide

theorem keeps_raiseException (which : ExceptionType) (bad : Word) :
    Keeps (raiseException which bad) := by
  intro m hm
  obtain ⟨m', hrun, -, hreg⟩ := raiseException_eq (α := Unit) which bad hm.load
  unfold EStateM.Post
  rw [hrun]
  exact registersOk_entry hreg

theorem keeps_writeRegister {i : ℕ} (hi : i ∈ handlerRegs) (v : Word) :
    Keeps (writeRegister i v) := by
  intro m hm
  have hne : i ≠ 0 ∧ i ≠ loadReg ∧ i < numTotalRegs := by
    simp only [handlerRegs, List.mem_cons, List.not_mem_nil, or_false] at hi
    obtain rfl | rfl | rfl | rfl | rfl := hi <;> decide
  unfold EStateM.Post writeRegister
  rw [if_pos hne.2.2]
  constructor
  · rw [reg_setReg, if_neg fun h => hne.1 h.1.symm]
    exact hm.zero
  · rw [LoadInRange, reg_setReg, if_neg fun h => hne.2.1 h.1.symm]
    exact hm.load

theorem body_loadReg {m m' : Machine} {a : After} (h : instructionBody m = .ok a m') :
    m'.reg loadReg = m.reg loadReg := by
  obtain ⟨raw, m₁, hfetch, -⟩ := EStateM.bind_eq_ok h
  refine body_leaves hfetch h (by decide) (by decide) fun hdest => ?_
  have hlt := dest_lt hdest
  simp only [loadReg] at hlt
  omega

theorem body_nextLoadReg {m m' : Machine} {a : After} (hm : LoadInRange m)
    (h : instructionBody m = .ok a m') : a.nextLoadReg.toNat < 32 := by
  obtain ⟨raw, m₁, hfetch, h⟩ := EStateM.bind_eq_ok h
  obtain ⟨next, m₂, hnext, h⟩ := EStateM.bind_eq_ok h
  rw [readRegister_ok (by decide)] at hnext
  obtain ⟨-, rfl⟩ := EStateM.Result.ok.inj hnext
  have hload : LoadInRange m₁ := by
    have hf := entry_fetch hm
    unfold EStateM.Post at hf
    rw [hfetch] at hf
    exact loadInRange_congr hf.1 hm
  have hsafe : ¬ Hazard (decode raw) m₁ := by
    intro hz
    obtain ⟨t, ht⟩ := execute_hazard (next + 4) (decode_rs_lt raw) (decode_rt_lt raw) hz
    rw [ht] at h
    cases h
  have hafter : Post (execute (decode raw) (next + 4)) m₁ AfterOk NoTrap :=
    post_execute (decode_rs_lt raw) (decode_rt_lt raw) (decode_rd_lt raw) (decode_handled raw)
      hsafe hload
  unfold EStateM.Post at hafter
  rw [h] at hafter
  exact hafter.2

theorem keeps_oneInstruction : Keeps oneInstruction := by
  intro m hm
  have hentry := entry_oneInstruction hm.load
  unfold EStateM.Post at hentry ⊢
  cases hrun : oneInstruction m with
  | error e m' =>
    rw [hrun] at hentry
    cases e with
    | raised which => exact registersOk_entry hentry.2
    | trap t => trivial
  | ok u m' =>
    rw [oneInstruction_eq] at hrun
    obtain ⟨a, m₁, hbody, hfinish⟩ := EStateM.bind_eq_ok hrun
    have hload : LoadInRange m₁ := by
      rw [LoadInRange, body_loadReg hbody]
      exact hm.load
    obtain ⟨m₂, hm₂, -, hreg⟩ := finishInstruction_eq a hload
    rw [hfinish] at hm₂
    obtain rfl := (EStateM.Result.ok.inj hm₂).2
    constructor
    · rw [hreg 0 (by decide)]
      rfl
    · rw [LoadInRange, hreg loadReg (by decide)]
      exact body_nextLoadReg hm.load hbody

inductive Move (s : State T) : State T → Prop
  | machine (m : Machine) (h : RegistersOk s.machine → RegistersOk m) :
      Move s { s with machine := m }
  | setSpace (t : T) (space : Bool) (h : t = s.currentThread ∨ s.started t = false) :
      Move s { s with space := Function.update s.space t space }
  | run (nextThread : T) : Move s (s.run nextThread)

theorem exec_move {s s' : State T} {x : Exec Unit} (hx : Keeps x) (h : s.exec x = some s') :
    Move s s' := by
  have hpost := hx s.machine
  unfold EStateM.Post at hpost
  unfold State.exec at h
  cases hrun : x s.machine with
  | ok u m =>
    rw [hrun] at hpost h
    obtain rfl := Option.some.inj h
    exact .machine m hpost
  | error e m =>
    rw [hrun] at hpost h
    cases e with
    | raised which =>
      obtain rfl := Option.some.inj h
      exact .machine m hpost
    | trap t => cases h

theorem step_move {s s' : State T} (h : Step s s') : Move s s' := by
  obtain ⟨e, he⟩ := h
  cases e with
  | oneInstruction => exact exec_move keeps_oneInstruction he
  | checkIfDue => exact exec_move keeps_delayedLoad he
  | raiseException which bad => exact exec_move (keeps_raiseException which bad) he
  | writeRegister i v =>
    simp only [State.step] at he
    split_ifs at he with hi
    exact exec_move (keeps_writeRegister hi v) he
  | initRegisters numPages =>
    obtain rfl := Option.some.inj he
    exact .machine _ fun _ => initRegisters_ok numPages _
  | setMemory mainMemory mmu =>
    obtain rfl := Option.some.inj he
    exact .machine _ fun hm => ⟨hm.zero, hm.load⟩
  | setSpace t space =>
    simp only [State.step] at he
    split_ifs at he with ht
    obtain rfl := Option.some.inj he
    exact .setSpace t space ht
  | run nextThread =>
    obtain rfl := Option.some.inj he
    exact .run nextThread

section run
variable (s : State T) (u : T)

theorem switchOut_eq : s.switchOut = { s with
    userRegisters := if s.space s.currentThread then
      Function.update s.userRegisters s.currentThread (saveUserState s.machine)
      else s.userRegisters } := by
  unfold State.switchOut
  split_ifs <;> rfl

theorem switchIn_eq : s.switchIn u = { s with
    currentThread := u
    machine := if s.started u ∧ s.space u then
      restoreUserState s.machine (s.userRegisters u) else s.machine
    started := Function.update s.started u true } := by
  have hsame (h : s.started u = true) : Function.update s.started u true = s.started := by
    rw [← h, Function.update_eq_self]
  unfold State.switchIn
  by_cases hs : s.started u = true
  · rw [if_pos hs, hsame hs]
    by_cases hspace : s.space u = true <;> simp [hs, hspace]
  · simp [hs]

@[simp] theorem run_currentThread : (s.run u).currentThread = u := by
  rw [State.run, switchIn_eq]

@[simp] theorem run_space : (s.run u).space = s.space := by
  rw [State.run, switchIn_eq, switchOut_eq]

theorem run_started : (s.run u).started = Function.update s.started u true := by
  rw [State.run, switchIn_eq, switchOut_eq]

theorem run_userRegisters : (s.run u).userRegisters = if s.space s.currentThread then
    Function.update s.userRegisters s.currentThread (saveUserState s.machine)
    else s.userRegisters := by
  rw [State.run, switchIn_eq, switchOut_eq]

theorem run_machine : (s.run u).machine = if s.started u ∧ s.space u then
    restoreUserState s.machine ((s.run u).userRegisters u) else s.machine := by
  rw [run_userRegisters, State.run, switchIn_eq, switchOut_eq]

end run

structure Inv (s : State T) : Prop where
  machine : RegistersOk s.machine
  started : s.started s.currentThread
  saved : ∀ t, s.started t → s.space t → t ≠ s.currentThread →
    s.userRegisters t 0 = 0 ∧ (s.userRegisters t ⟨loadReg, by decide⟩).toNat < 32

omit [DecidableEq T] in
theorem init_inv {s : State T} (h : Init s) : Inv s := by
  obtain ⟨⟨m, numPages, hm⟩, hs, ho⟩ := h
  refine ⟨?_, hs, fun t ht hspace hne => absurd (ho t ht hspace) hne⟩
  rw [hm]
  exact initRegisters_ok numPages m

theorem Inv.run {s : State T} (h : Inv s) (u : T) : Inv (s.run u) := by
  have hown : s.space s.currentThread → (s.run u).userRegisters s.currentThread =
      saveUserState s.machine := by
    intro hspace
    rw [run_userRegisters, if_pos hspace, Function.update_self]
  have hother : ∀ t, t ≠ s.currentThread → (s.run u).userRegisters t = s.userRegisters t := by
    intro t ht
    rw [run_userRegisters]
    split_ifs
    · exact Function.update_of_ne ht _ _
    · rfl
  have hsaved : ∀ t, s.started t → s.space t → (s.run u).userRegisters t 0 = 0 ∧
      ((s.run u).userRegisters t ⟨loadReg, by decide⟩).toNat < 32 := by
    intro t hs hspace
    by_cases ht : t = s.currentThread
    · subst ht
      rw [hown hspace]
      exact ⟨h.machine.zero, h.machine.load⟩
    · rw [hother t ht]
      exact h.saved t hs hspace ht
  constructor
  case machine =>
    rw [run_machine]
    split_ifs with hrestore
    · obtain ⟨hzero, hload⟩ := hsaved u hrestore.1 hrestore.2
      exact ⟨(restoreUserState_reg _ _ 0).trans hzero,
        (congrArg BitVec.toNat (restoreUserState_reg _ _ ⟨loadReg, by decide⟩)).trans_lt hload⟩
    · exact h.machine
  case started =>
    rw [run_started, run_currentThread, Function.update_self]
  case saved =>
    intro t hs hspace hne
    rw [run_currentThread] at hne
    rw [run_started, Function.update_of_ne hne] at hs
    rw [run_space] at hspace
    exact hsaved t hs hspace

theorem Inv.move {s s' : State T} (h : Inv s) (hm : Move s s') : Inv s' := by
  cases hm with
  | machine m hok => exact ⟨hok h.machine, h.started, h.saved⟩
  | setSpace t space ht =>
    refine ⟨h.machine, h.started, fun t' hs hspace hne => ?_⟩
    have hother : t' ≠ t := by
      rintro rfl
      obtain ht | ht := ht
      · exact hne ht
      · rw [ht] at hs
        cases hs
    refine h.saved t' hs ?_ hne
    simpa [Function.update_of_ne hother] using hspace
  | run u => exact h.run u

theorem reachable_inv {s : State T} (h : Reachable Init Step s) : Inv s :=
  h.invariant (fun _ => init_inv) fun _ _ hi hs => hi.move (step_move hs)

structure Holds (t : T) (r : Fin numTotalRegs → Word) (s : State T) : Prop where
  started : s.started t
  space : s.space t
  current : s.currentThread = t → saveUserState s.machine = r
  saved : s.currentThread ≠ t → s.userRegisters t = r

theorem saveUserState_restore (m : Machine) (r : Fin numTotalRegs → Word) :
    saveUserState (restoreUserState m r) = r := by
  funext i
  exact restoreUserState_reg m r i

theorem Holds.run {t : T} {r : Fin numTotalRegs → Word} {s : State T} (h : Holds t r s) (u : T) :
    Holds t r (s.run u) := by
  have hsaved : (s.run u).userRegisters t = r := by
    rw [run_userRegisters]
    by_cases ht : s.currentThread = t
    · rw [ht, if_pos h.space, Function.update_self]
      exact h.current ht
    · split_ifs
      · rw [Function.update_of_ne (Ne.symm ht)]
        exact h.saved ht
      · exact h.saved ht
  constructor
  case started =>
    rw [run_started]
    by_cases hu : t = u
    · rw [hu, Function.update_self]
    · rw [Function.update_of_ne hu]
      exact h.started
  case space =>
    rw [run_space]
    exact h.space
  case current =>
    intro hu
    rw [run_currentThread] at hu
    subst hu
    rw [run_machine, if_pos ⟨h.started, h.space⟩, saveUserState_restore, hsaved]
  case saved => exact fun _ => hsaved

theorem Holds.move {t : T} {r : Fin numTotalRegs → Word} {s s' : State T} (h : Holds t r s)
    (hne : s.currentThread ≠ t) (hm : Move s s') : Holds t r s' := by
  cases hm with
  | machine m hok => exact ⟨h.started, h.space, fun ht => absurd ht hne, h.saved⟩
  | setSpace t' space ht =>
    have hother : t ≠ t' := by
      rintro rfl
      obtain ht | ht := ht
      · exact hne ht.symm
      · have hs := h.started
        rw [ht] at hs
        cases hs
    refine ⟨h.started, ?_, h.current, h.saved⟩
    simpa [Function.update_of_ne hother] using h.space
  | run u => exact h.run u

/-- The thread is not running in any of the states but perhaps the last. -/
def Away (t : T) : State T → State T → Prop :=
  Relation.ReflTransGen fun a b => a.currentThread ≠ t ∧ Step a b

theorem Holds.away {t : T} {r : Fin numTotalRegs → Word} {s s' : State T} (h : Holds t r s)
    (ha : Away t s s') : Holds t r s' := by
  induction ha with
  | refl => exact h
  | tail _ hs ih => exact ih.move hs.1 (step_move hs.2)

theorem machine_ext {m m' : Machine} (hreg : ∀ i < numTotalRegs, m.reg i = m'.reg i)
    (hmem : m.mainMemory = m'.mainMemory) (hmmu : m.mmu = m'.mmu) : m = m' := by
  obtain ⟨regs, mem, mmu⟩ := m
  obtain ⟨regs', mem', mmu'⟩ := m'
  obtain rfl : mem = mem' := hmem
  obtain rfl : mmu = mmu' := hmmu
  have hregs : regs = regs' := by
    funext i
    simpa [Machine.reg] using hreg i i.isLt
  rw [hregs]

/-- The machine at the entry of the handler has come out of a `DelayedLoad`. -/
theorem entry_delayedLoad {m m' : Machine} {which : ExceptionType} (hl : LoadInRange m)
    (h : oneInstruction m = .error (.raised which) m') :
    ∃ m₀, LoadInRange m₀ ∧ delayedLoad 0 0 m₀ = .ok () m' := by
  have hentry := entry_oneInstruction hl
  unfold EStateM.Post at hentry
  rw [h] at hentry
  obtain ⟨hmem, hreg⟩ := hentry
  have hload : LoadInRange ({ m with mmu := m'.mmu }.setReg badVAddrReg (faultAddress m)) := by
    rw [LoadInRange, reg_setReg, if_neg (by decide)]
    exact hl
  refine ⟨_, hload, ?_⟩
  rw [delayedLoad_eq 0 0 hload]
  refine congrArg _ (machine_ext (fun i hi => ?_) hmem.symm rfl)
  rw [hreg i hi]
  have hlt : (m.reg loadReg).toNat < 32 := hl
  have hkeep (k : ℕ) : ({ m with mmu := m'.mmu } : Machine).reg k = m.reg k := rfl
  simp only [reg_setReg, entryReg, hi, and_true, hkeep, loadReg, loadValueReg, badVAddrReg]
    at hlt ⊢
  split_ifs <;> first | rfl | omega

/-- Every state of every run. -/
theorem registers_invariant {s : State T} (h : Reachable Init Step s) :
    (s.machine.reg 0 = 0 ∧ (s.machine.reg loadReg).toNat < 32) ∧
    (WritesGeneral s.machine ∧
      (∀ a m, instructionBody s.machine = .ok a m → WritesGeneral m) ∧
      ∀ which m, oneInstruction s.machine = .error (.raised which) m →
        ∃ m₀, WritesGeneral m₀ ∧ delayedLoad 0 0 m₀ = .ok () m) ∧
    ∀ next s₁, s.space s.currentThread → s.step (.run next) = some s₁ →
      ∀ s₂, Away s.currentThread s₁ s₂ → ∀ s₃, s₂.step (.run s.currentThread) = some s₃ →
        s₃.currentThread = s.currentThread ∧
          ∀ i < numTotalRegs, s₃.machine.reg i = s.machine.reg i := by
  have hi := reachable_inv h
  have hl := hi.machine.load
  refine ⟨⟨hi.machine.zero, hl⟩, ⟨LoadInRange.writesGeneral hl, ?_, ?_⟩, ?_⟩
  · intro a m hbody
    refine LoadInRange.writesGeneral ?_
    rw [LoadInRange, body_loadReg hbody]
    exact hl
  · intro which m hraise
    obtain ⟨m₀, hm₀, hrun⟩ := entry_delayedLoad hl hraise
    exact ⟨m₀, LoadInRange.writesGeneral hm₀, hrun⟩
  · intro next s₁ hspace hs₁ s₂ haway s₃ hs₃
    have hstart : Holds s.currentThread (saveUserState s.machine) s :=
      ⟨hi.started, hspace, fun _ => rfl, fun hne => absurd rfl hne⟩
    obtain rfl := Option.some.inj hs₁
    obtain rfl := Option.some.inj hs₃
    have hend := ((hstart.run next).away haway).run s.currentThread
    refine ⟨run_currentThread _ _, fun i hi => ?_⟩
    exact congrFun (hend.current (run_currentThread _ _)) ⟨i, hi⟩

def loadProgram : State ℕ where
  machine := initRegisters 1 (machineWith 0x8c010000 0 0)
  currentThread := 0
  userRegisters := fun _ _ => 0
  space := fun t => t == 0
  started := fun t => t == 0

/-- The thread is switched out with its load pending, and an interrupt comes meanwhile. -/
theorem registers_invariant_load : ∃ s s₁ s₂ s₃ : State ℕ, Reachable Init Step s ∧
    s.step (.run 1) = some s₁ ∧ s₁.step .checkIfDue = some s₂ ∧ s₂.step (.run 0) = some s₃ ∧
    s₂.machine.reg loadReg = 0 ∧ s₃.machine.reg loadReg = 1 := by
  have hinit : Init loadProgram := by
    refine ⟨⟨_, 1, rfl⟩, rfl, fun t ht _ => ?_⟩
    simpa [loadProgram] using ht
  obtain ⟨s, hs, hload, hspace, hcurrent⟩ : ∃ s, loadProgram.step .oneInstruction = some s ∧
      s.machine.reg loadReg = 1 ∧ s.space s.currentThread ∧ s.currentThread = 0 :=
    ⟨_, rfl, by decide, by decide, rfl⟩
  have hr : Reachable Init Step s := (Reachable.init hinit).step ⟨_, hs⟩
  obtain ⟨-, -, hresume⟩ := registers_invariant hr
  have hrange : LoadInRange (s.run 1).machine :=
    (reachable_inv (hr.step ⟨.run 1, rfl⟩)).machine.load
  obtain ⟨s₂, hs₂, hload₂⟩ : ∃ s₂, (s.run 1).step .checkIfDue = some s₂ ∧
      s₂.machine.reg loadReg = 0 := by
    refine ⟨{ s.run 1 with machine := loaded (s.run 1).machine }, ?_, ?_⟩
    · simp only [State.step, State.exec, delayedLoad_eq 0 0 hrange, loaded]
    · rw [loaded_reg _ (by decide)]
      rfl
  have haway : Away s.currentThread (s.run 1) s₂ := by
    refine Relation.ReflTransGen.single ⟨?_, .checkIfDue, hs₂⟩
    rw [run_currentThread, hcurrent]
    decide
  have hback : s₂.step (.run s.currentThread) = some (s₂.run s.currentThread) := rfl
  obtain ⟨-, hregs⟩ := hresume 1 _ hspace rfl s₂ haway _ hback
  rw [hcurrent] at hback hregs
  exact ⟨s, s.run 1, s₂, _, hr, rfl, hs₂, hback, hload₂, (hregs loadReg (by decide)).trans hload⟩

end Nachos.UserRegisters
