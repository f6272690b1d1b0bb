import Nachos.MipsCrash

/-! Exceptions are precise: up to the call of `RaiseException` an instruction only reads, so
the handler of the kernel sees the machine as it was before the instruction, with the pending
load done, and the instruction can be executed again. -/
namespace Nachos
open EStateM (Post)

/-- `OneInstruction` with a handler: every caller of `RaiseException` returns right after it. -/
def oneInstructionWith (handler : ExceptionType → Machine → Machine) (m : Machine) :
    Except Trap Machine :=
  match oneInstruction m with
  | .ok _ m' => .ok m'
  | .error (.raised which) m' => .ok (handler which m')
  | .error (.trap t) _ => .error t

def Instruction.faultAddress (i : Instruction) (m : Machine) : Word :=
  match i.opCode with
  | .lb | .lbu | .lh | .lhu | .lw | .lwl | .lwr | .sb | .sh | .sw => m.reg i.rs + i.extra
  | .swl | .swr => (m.reg i.rs + i.extra) &&& ~~~3
  | _ => 0

def faultAddress (m : Machine) : Word :=
  match fetch m with
  | .error _ _ => m.reg pcReg
  | .ok raw _ => (decode raw).faultAddress m

def entryReg (m : Machine) (badVAddr : Word) (i : ℕ) : Word :=
  if i = 0 ∨ i = loadReg ∨ i = loadValueReg then 0
  else if i = badVAddrReg then badVAddr
  else if i = (m.reg loadReg).toNat then m.reg loadValueReg
  else m.reg i

def AtEntry (m : Machine) (badVAddr : Word) : Stop → Machine → Prop
  | .raised _, m' =>
    m'.mainMemory = m.mainMemory ∧ ∀ i < numTotalRegs, m'.reg i = entryReg m badVAddr i
  | .trap _, _ => True

def Untouched (m m' : Machine) : Prop :=
  m'.registers = m.registers ∧ m'.mainMemory = m.mainMemory

theorem Untouched.reg {m m' : Machine} (h : Untouched m m') (i : ℕ) : m'.reg i = m.reg i := by
  unfold Machine.reg
  rw [h.1]

theorem delayedLoad_eq {m : Machine} (r v : Word) (hl : LoadInRange m) :
    delayedLoad r v m = .ok () ((((m.setReg (m.reg loadReg).toNat (m.reg loadValueReg)).setReg
      loadReg r).setReg loadValueReg v).setReg 0 0) := by
  have ht : (m.reg loadReg).toNat < numTotalRegs := lt_trans hl (by decide)
  simp [delayedLoad, readRegister, writeRegister, ht, loadReg, loadValueReg, numTotalRegs]

def Quiet {α : Type} (x : Exec α) : Prop := ∀ m which m', x m ≠ .error (.raised which) m'

section quiet
variable {α β : Type}

theorem Quiet.bind {x : Exec α} {f : α → Exec β} (hx : Quiet x) (hf : ∀ a, Quiet (f a)) :
    Quiet (x >>= f) := by
  intro m which m' h
  rw [EStateM.apply_bind] at h
  cases hxm : x m with
  | ok a m₁ =>
    rw [hxm] at h
    exact hf a m₁ which m' h
  | error e m₁ =>
    rw [hxm] at h
    obtain ⟨rfl, rfl⟩ := EStateM.Result.error.inj h
    exact hx m which m₁ hxm

theorem quiet_pure (a : α) : Quiet (pure a : Exec α) := fun _ _ _ h => nomatch h

theorem quiet_stop (t : Trap) : Quiet (stop t : Exec α) := by
  intro m which m' h
  cases h

theorem quiet_readRegister (i : ℕ) : Quiet (readRegister i) := by
  intro m which m' h
  unfold readRegister at h
  split_ifs at h
  cases h

theorem quiet_writeRegister (i : ℕ) (v : Word) : Quiet (writeRegister i v) := by
  intro m which m' h
  unfold writeRegister at h
  split_ifs at h
  cases h

theorem Quiet.ite {c : Prop} [Decidable c] {x y : Exec α} (hx : Quiet x) (hy : Quiet y) :
    Quiet (if c then x else y) := by
  split_ifs
  · exact hx
  · exact hy

theorem Quiet.post {x : Exec α} (hx : Quiet x) (m m' : Machine) (badVAddr : Word) :
    Post x m' (fun _ _ => True) (AtEntry m badVAddr) := by
  unfold EStateM.Post
  cases h : x m' with
  | ok a m₁ => trivial
  | error e m₁ =>
    cases e with
    | raised which => exact absurd h (hx m' which m₁)
    | trap t => trivial

variable (i : Instruction) (pcAfter : Word)

theorem quiet_writeResult (r : ℕ) (v : Word) :
    Quiet (do writeRegister r v; return { pcAfter := pcAfter } : Exec After) :=
  (quiet_writeRegister r v).bind fun _ => quiet_pure _

theorem quiet_branch (taken : Bool) : Quiet (branch i pcAfter taken) :=
  (quiet_readRegister _).bind fun _ => quiet_pure _

theorem quiet_link (r : ℕ) : Quiet (link r) :=
  (quiet_readRegister _).bind fun _ => quiet_writeRegister _ _

theorem quiet_alu (f : Word → Word → Word) : Quiet (alu i pcAfter f) :=
  (quiet_readRegister _).bind fun _ => (quiet_readRegister _).bind fun _ =>
    quiet_writeResult _ _ _

theorem quiet_aluImm (f : Word → Word) : Quiet (aluImm i pcAfter f) :=
  (quiet_readRegister _).bind fun _ => quiet_writeResult _ _ _

theorem quiet_moveReg (src dst : ℕ) : Quiet (moveReg src dst pcAfter) :=
  (quiet_readRegister _).bind fun _ => quiet_writeResult _ _ _

theorem quiet_setHiLo (hi lo : Word) : Quiet (setHiLo hi lo pcAfter) :=
  (quiet_writeRegister _ _).bind fun _ => quiet_writeResult _ _ _

theorem quiet_pendingValue (r : ℕ) : Quiet (pendingValue r) :=
  (quiet_readRegister _).bind fun _ => (quiet_readRegister _).ite (quiet_readRegister _)

end quiet

section rules
variable {α : Type} {m m₁ : Machine}

theorem raiseException_eq (which : ExceptionType) (bad : Word) (hl : LoadInRange m) :
    ∃ m', (raiseException which bad : Exec α) m = .error (.raised which) m' ∧
      m'.mainMemory = m.mainMemory ∧ ∀ i < numTotalRegs, m'.reg i = entryReg m bad i := by
  have hl₁ : LoadInRange (m.setReg badVAddrReg bad) := by
    simpa [LoadInRange, badVAddrReg, loadReg] using hl
  have hreg : (m.setReg badVAddrReg bad).reg loadReg = m.reg loadReg ∧
      (m.setReg badVAddrReg bad).reg loadValueReg = m.reg loadValueReg := by
    simp [badVAddrReg, loadReg, loadValueReg]
  refine ⟨((((m.setReg badVAddrReg bad).setReg (m.reg loadReg).toNat (m.reg loadValueReg)).setReg
    loadReg 0).setReg loadValueReg 0).setReg 0 0, ?_, rfl, fun i hi => ?_⟩
  · rw [raiseException, EStateM.apply_bind, writeRegister, if_pos (by decide)]
    simp only [EStateM.apply_bind, delayedLoad_eq 0 0 hl₁, hreg]
    rfl
  · have ht : (m.reg loadReg).toNat < 32 := hl
    simp only [reg_setReg, entryReg, hi, and_true, loadReg, loadValueReg, badVAddrReg] at ht ⊢
    split_ifs <;> first | rfl | omega

theorem entry_raiseException {which : ExceptionType} {bad : Word} {Q : α → Machine → Prop}
    (hl : LoadInRange m) (h : Untouched m m₁) :
    Post (raiseException which bad : Exec α) m₁ Q (AtEntry m bad) := by
  obtain ⟨m', hrun, hmem, hreg⟩ := raiseException_eq (α := α) which bad (m := m₁) (by
    rw [LoadInRange, h.reg]
    exact hl)
  unfold EStateM.Post
  rw [hrun]
  refine ⟨hmem.trans h.2, fun i hi => (hreg i hi).trans ?_⟩
  simp only [entryReg, h.reg]

theorem entry_readRegister {i : ℕ} {bad : Word} (h : Untouched m m₁) :
    Post (readRegister i) m₁ (fun v m' => v = m.reg i ∧ Untouched m m') (AtEntry m bad) := by
  unfold EStateM.Post readRegister
  split_ifs
  · exact ⟨h.reg i, h⟩
  · trivial

theorem entry_translateOrRaise {addr : Word} {size : ℕ} {writing : Bool} (hl : LoadInRange m)
    (h : Untouched m m₁) :
    Post (translateOrRaise addr size writing) m₁ (fun _ m' => Untouched m m') (AtEntry m addr) := by
  unfold Post
  cases htr : translate m₁.mmu addr size writing with
  | error t =>
    rw [translateOrRaise_trap htr]
    exact trivial
  | ok r =>
    cases r with
    | error e =>
      rw [translateOrRaise_raise htr]
      exact entry_raiseException hl h
    | ok p =>
      rw [translateOrRaise_ok htr]
      exact h

theorem entry_readMem {addr : Word} {size : ℕ} (hl : LoadInRange m) (h : Untouched m m₁) :
    Post (readMem addr size) m₁ (fun _ m' => Untouched m m') (AtEntry m addr) := by
  unfold readMem
  refine (entry_translateOrRaise hl h).bind fun pa m₂ h₂ => ?_
  unfold EStateM.Post
  simp only [EStateM.apply_bind, EStateM.apply_get]
  cases m₂.mainMemory.read pa size with
  | none => trivial
  | some v => exact h₂

theorem entry_writeMem {addr v : Word} {size : ℕ} (hl : LoadInRange m) (h : Untouched m m₁) :
    Post (writeMem addr size v) m₁ (fun _ _ => True) (AtEntry m addr) := by
  unfold writeMem
  refine (entry_translateOrRaise hl h).bind fun pa m₂ _ => ?_
  refine Quiet.post ?_ m m₂ addr
  intro m₃ which m' hrun
  simp only [EStateM.apply_bind, EStateM.apply_get] at hrun
  split at hrun <;> cases hrun

theorem entry_effectiveAddress {i : Instruction} {bad : Word} (h : Untouched m m₁) :
    Post (effectiveAddress i) m₁ (fun a m' => a = m.reg i.rs + i.extra ∧ Untouched m m')
      (AtEntry m bad) := by
  refine (entry_readRegister h).bind ?_
  rintro _ m₂ ⟨rfl, h₂⟩
  exact ⟨rfl, h₂⟩

theorem entry_assertAligned {a bad : Word} (h : Untouched m m₁) :
    Post (assertAligned a) m₁ (fun _ m' => Untouched m m') (AtEntry m bad) := by
  unfold assertAligned
  split_ifs
  · exact h
  · exact trivial

end rules

/-- Every case of the switch: nothing is written before an exception. -/
theorem entry_execute {i : Instruction} {m m₁ : Machine} (pcAfter : Word) (hl : LoadInRange m)
    (h : Untouched m m₁) :
    Post (execute i pcAfter) m₁ (fun _ _ => True) (AtEntry m (i.faultAddress m)) := by
  obtain ⟨op, rs, rt, rd, extra⟩ := i
  cases op
  case addu | and | nor | or | sll | sllv | slt | sltu | sra | srav | srl | srlv | subu | xor =>
    exact (quiet_alu _ _ _).post _ _ _
  case addiu | andi | lui | ori | slti | sltiu | xori => exact (quiet_aluImm _ _ _).post _ _ _
  case mfhi | mflo | mthi | mtlo => exact (quiet_moveReg _ _ _).post _ _ _
  case add | sub =>
    refine (entry_readRegister h).bind ?_
    rintro _ m₂ ⟨rfl, h₂⟩
    refine (entry_readRegister h₂).bind ?_
    rintro _ m₃ ⟨rfl, h₃⟩
    exact Post.ite (fun _ => entry_raiseException hl h₃) fun _ =>
      (quiet_writeResult _ _ _).post _ _ _
  case addi =>
    refine (entry_readRegister h).bind ?_
    rintro _ m₂ ⟨rfl, h₂⟩
    exact Post.ite (fun _ => entry_raiseException hl h₂) fun _ =>
      (quiet_writeResult _ _ _).post _ _ _
  case beq | bne =>
    exact ((quiet_readRegister _).bind fun _ => (quiet_readRegister _).bind fun _ =>
      quiet_branch _ _ _).post _ _ _
  case bgez | bgtz | blez | bltz =>
    exact ((quiet_readRegister _).bind fun _ => quiet_branch _ _ _).post _ _ _
  case bgezal | bltzal =>
    exact ((quiet_link _).bind fun _ => (quiet_readRegister _).bind fun _ =>
      quiet_branch _ _ _).post _ _ _
  case div =>
    exact ((quiet_readRegister _).bind fun _ => (quiet_readRegister _).bind fun _ =>
      (quiet_setHiLo _ _ _).ite ((quiet_stop _).ite (quiet_setHiLo _ _ _))).post _ _ _
  case divu =>
    exact ((quiet_readRegister _).bind fun _ => (quiet_readRegister _).bind fun _ =>
      (quiet_setHiLo _ _ _).ite (quiet_setHiLo _ _ _)).post _ _ _
  case mult | multu =>
    exact ((quiet_readRegister _).bind fun _ => (quiet_readRegister _).bind fun _ =>
      quiet_setHiLo _ _ _).post _ _ _
  case j => exact (quiet_pure _).post _ _ _
  case jal => exact ((quiet_link _).bind fun _ => quiet_pure _).post _ _ _
  case jalr =>
    exact ((quiet_link _).bind fun _ => (quiet_readRegister _).bind fun _ =>
      quiet_pure _).post _ _ _
  case jr => exact ((quiet_readRegister _).bind fun _ => quiet_pure _).post _ _ _
  case lb | lbu =>
    refine (entry_effectiveAddress h).bind ?_
    rintro _ m₂ ⟨rfl, h₂⟩
    refine (entry_readMem hl h₂).bind fun _ m₃ _ => ?_
    exact (quiet_pure _).post _ _ _
  case lh | lhu | lw =>
    refine (entry_effectiveAddress h).bind ?_
    rintro _ m₂ ⟨rfl, h₂⟩
    refine Post.ite (fun _ => entry_raiseException hl h₂) fun _ => ?_
    refine (entry_readMem hl h₂).bind fun _ m₃ _ => ?_
    exact (quiet_pure _).post _ _ _
  case lwl | lwr =>
    refine (entry_effectiveAddress h).bind ?_
    rintro _ m₂ ⟨rfl, h₂⟩
    refine (entry_assertAligned h₂).bind fun _ m₃ h₃ => ?_
    refine (entry_readMem hl h₃).bind fun _ m₄ _ => ?_
    exact ((quiet_pendingValue _).bind fun _ => quiet_pure _).post _ _ _
  case sb | sh | sw =>
    refine (entry_readRegister h).bind ?_
    rintro _ m₂ ⟨rfl, h₂⟩
    refine (entry_effectiveAddress h₂).bind ?_
    rintro _ m₃ ⟨rfl, h₃⟩
    refine (entry_writeMem hl h₃).bind fun _ m₄ _ => ?_
    exact (quiet_pure _).post _ _ _
  case swl | swr =>
    refine (entry_effectiveAddress h).bind ?_
    rintro _ m₂ ⟨rfl, h₂⟩
    refine (entry_assertAligned h₂).bind fun _ m₃ h₃ => ?_
    refine (entry_readMem hl h₃).bind fun _ m₄ h₄ => ?_
    refine (entry_readRegister h₄).bind ?_
    rintro _ m₅ ⟨rfl, h₅⟩
    refine (entry_writeMem hl h₅).bind fun _ m₆ _ => ?_
    exact (quiet_pure _).post _ _ _
  case syscall | res | unimp => exact entry_raiseException hl h
  case rfe | special | bcond => exact (quiet_stop _).post _ _ _

theorem quiet_finishInstruction (a : After) : Quiet (finishInstruction a) := by
  have hd : Quiet (delayedLoad a.nextLoadReg a.nextLoadValue) :=
    (quiet_readRegister _).bind fun _ => (quiet_readRegister _).bind fun _ =>
      (quiet_writeRegister _ _).bind fun _ => (quiet_writeRegister _ _).bind fun _ =>
        (quiet_writeRegister _ _).bind fun _ => quiet_writeRegister _ _
  exact hd.bind fun _ => (quiet_readRegister _).bind fun _ =>
    (quiet_writeRegister _ _).bind fun _ =>
    (quiet_readRegister _).bind fun _ => (quiet_writeRegister _ _).bind fun _ =>
      quiet_writeRegister _ _

theorem entry_fetch {m : Machine} (hl : LoadInRange m) :
    Post fetch m (fun _ m' => Untouched m m') (AtEntry m (m.reg pcReg)) := by
  refine (entry_readRegister ⟨rfl, rfl⟩).bind ?_
  rintro _ m₁ ⟨rfl, h₁⟩
  exact entry_readMem hl h₁

theorem entry_oneInstruction {m : Machine} (hl : LoadInRange m) :
    Post oneInstruction m (fun _ _ => True) (AtEntry m (faultAddress m)) := by
  have hf := entry_fetch hl
  unfold EStateM.Post at hf ⊢
  unfold faultAddress oneInstruction
  rw [EStateM.apply_bind]
  cases hrun : fetch m with
  | error e m₁ =>
    rw [hrun] at hf
    exact hf
  | ok raw m₁ =>
    rw [hrun] at hf
    refine (entry_readRegister hf).bind ?_
    rintro _ m₂ ⟨rfl, h₂⟩
    refine (entry_execute _ hl h₂).bind fun a m₃ _ => ?_
    exact (quiet_finishInstruction a).post _ _ _

/-- At the entry of the handler the machine is as before the instruction, with the pending
load done and the faulting address recorded, and after the handler nothing is changed. -/
theorem exceptions_precise {m m' : Machine} {which : ExceptionType}
    (hl : (m.reg loadReg).toNat < 32) (h : oneInstruction m = .error (.raised which) m') :
    m'.mainMemory = m.mainMemory ∧
    (∀ i ∈ [hiReg, loReg, pcReg, nextPCReg, prevPCReg], m'.reg i = m.reg i) ∧
    m'.reg 0 = 0 ∧
    (∀ i < 32, i ≠ 0 → m'.reg i =
      if i = (m.reg loadReg).toNat then m.reg loadValueReg else m.reg i) ∧
    m'.reg loadReg = 0 ∧ m'.reg loadValueReg = 0 ∧ m'.reg badVAddrReg = faultAddress m ∧
    ∀ handler, oneInstructionWith handler m = .ok (handler which m') := by
  have hp := entry_oneInstruction (m := m) hl
  unfold EStateM.Post at hp
  rw [h] at hp
  obtain ⟨hmem, hreg⟩ := hp
  refine ⟨hmem, fun i hi => ?_, ?_, fun i hi h0 => ?_, ?_, ?_, ?_, fun handler => ?_⟩
  · simp only [List.mem_cons, List.not_mem_nil, or_false, hiReg, loReg, pcReg, nextPCReg,
      prevPCReg] at hi
    rw [hreg i (by simp only [numTotalRegs]; omega), entryReg]
    simp only [loadReg, loadValueReg, badVAddrReg] at hl ⊢
    rw [if_neg (by omega), if_neg (by omega), if_neg (by omega)]
  · rw [hreg 0 (by decide), entryReg, if_pos (.inl rfl)]
  · rw [hreg i (by simp only [numTotalRegs]; omega), entryReg]
    simp only [loadReg, loadValueReg, badVAddrReg]
    rw [if_neg (by omega), if_neg (by omega)]
  · rw [hreg loadReg (by decide), entryReg, if_pos (.inr (.inl rfl))]
  · rw [hreg loadValueReg (by decide), entryReg, if_pos (.inr (.inr rfl))]
  · rw [hreg badVAddrReg (by decide), entryReg, if_neg (by decide), if_pos rfl]
  · rw [oneInstructionWith, h]

/-- `SYSCALL`, with a load into register 1 pending. -/
theorem machineWith_syscall_precise :
    (((machineWith 0x0000000c 5 6).setReg loadReg 1).reg loadReg).toNat < 32 ∧
    ∃ m', oneInstruction ((machineWith 0x0000000c 5 6).setReg loadReg 1) =
      .error (.raised .syscall) m' ∧ m'.reg pcReg = 0 ∧ m'.reg 1 = 0 ∧ m'.reg 2 = 6 := by
  refine ⟨by decide, _, rfl, ?_⟩
  obtain ⟨-, hspecial, -, hgeneral, -⟩ :=
    exceptions_precise (m := (machineWith 0x0000000c 5 6).setReg loadReg 1) (by decide) rfl
  refine ⟨?_, ?_, ?_⟩
  · rw [hspecial pcReg (by decide)]
    decide
  · rw [hgeneral 1 (by decide) (by decide)]
    decide
  · rw [hgeneral 2 (by decide) (by decide)]
    decide

end Nachos
