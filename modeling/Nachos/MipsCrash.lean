import Nachos.MipsMachine
import Nachos.StatePost

/-! When a user instruction brings the simulator down. Two things do: an unaligned
address in `LWL`, `LWR`, `SWL` or `SWR`, which the alignment `ASSERT`s reject, and the
division of the least integer by minus one, which the host cannot perform. -/
namespace Nachos
open EStateM (Post)

/-- The machine state of the hazards, for an instruction already fetched. -/
def Hazard (i : Instruction) (m : Machine) : Prop :=
  match i.opCode with
  | .lwl | .lwr | .swl | .swr => (m.reg i.rs + i.extra).toNat % 4 ≠ 0
  | .div => m.reg i.rs = BitVec.intMin 32 ∧ m.reg i.rt = -1
  | _ => False

instance (i : Instruction) (m : Machine) : Decidable (Hazard i m) := by
  unfold Hazard
  split <;> infer_instance

def NoTrap : Stop → Machine → Prop
  | .raised _, _ => True
  | .trap _, _ => False

/-- A pending load goes to a general register. -/
def LoadInRange (m : Machine) : Prop := (m.reg loadReg).toNat < 32

@[simp] theorem reg_setReg (m : Machine) (i k : ℕ) (v : Word) :
    (m.setReg i v).reg k = if k = i ∧ k < numTotalRegs then v else m.reg k := by
  unfold Machine.reg Machine.setReg
  by_cases h : k < numTotalRegs <;> by_cases hk : k = i <;> simp [h, hk]
  all_goals (subst hk; simp_all)

section rules
variable {α : Type} {m : Machine} {Q : α → Machine → Prop}

theorem post_readRegister {i : ℕ} (h : i < numTotalRegs) :
    Post (readRegister i) m (fun v m' => v = m.reg i ∧ m' = m) NoTrap := by
  simp [Post, readRegister, h]

theorem post_writeRegister {i : ℕ} {v : Word} (h : i < numTotalRegs) :
    Post (writeRegister i v) m (fun _ m' => m' = m.setReg i v) NoTrap := by
  simp [Post, writeRegister, h]

theorem post_writeRegister_load {i : ℕ} {v : Word} (h : i < numTotalRegs) (hi : i ≠ loadReg)
    (hm : LoadInRange m) : Post (writeRegister i v) m (fun _ m' => LoadInRange m') NoTrap := by
  refine (post_writeRegister h).mono ?_
  rintro _ _ rfl
  simpa [LoadInRange, hi.symm] using hm

theorem post_readRegister_load {i : ℕ} (h : i < numTotalRegs) (hm : LoadInRange m) :
    Post (readRegister i) m (fun _ m' => LoadInRange m') NoTrap := by
  refine (post_readRegister h).mono ?_
  rintro _ _ ⟨-, rfl⟩
  exact hm

theorem post_delayedLoad {r v : Word} (hm : LoadInRange m) (hr : r.toNat < 32) :
    Post (delayedLoad r v) m (fun _ m' => LoadInRange m') NoTrap := by
  unfold delayedLoad
  refine (post_readRegister (by decide)).bind ?_
  rintro target m₁ ⟨rfl, rfl⟩
  refine (post_readRegister (by decide)).bind ?_
  rintro value m₂ ⟨rfl, rfl⟩
  have ht : (m₂.reg loadReg).toNat < numTotalRegs := lt_trans hm (by decide)
  refine (post_writeRegister ht).bind ?_
  rintro _ _ rfl
  refine (post_writeRegister (by decide)).bind ?_
  rintro _ _ rfl
  have hl : LoadInRange (((m₂.setReg (m₂.reg loadReg).toNat (m₂.reg loadValueReg)).setReg
      loadReg r)) := by
    simpa [LoadInRange, loadReg, numTotalRegs] using hr
  refine (post_writeRegister_load (by decide) (by decide) hl).bind ?_
  intro _ m₃ h₃
  exact post_writeRegister_load (by decide) (by decide) h₃

theorem post_raiseException {which : ExceptionType} {a : Word} (hm : LoadInRange m) :
    Post (raiseException which a : Exec α) m Q NoTrap := by
  unfold raiseException
  refine (post_writeRegister_load (by decide) (by decide) hm).bind ?_
  intro _ m₁ h₁
  refine (post_delayedLoad h₁ (by decide)).bind ?_
  intro _ _ _
  exact trivial

theorem translateOrRaise_trap {a : Word} {size : ℕ} {writing : Bool} {t : Trap}
    (h : translate m.mmu a size writing = .error t) :
    translateOrRaise a size writing m = (stop t : Exec ℕ) m := by
  simp only [translateOrRaise, EStateM.apply_bind, EStateM.apply_get, h]

theorem translateOrRaise_raise {a : Word} {size : ℕ} {writing : Bool} {e : ExceptionType}
    (h : translate m.mmu a size writing = .ok (.error e)) :
    translateOrRaise a size writing m = (raiseException e a : Exec ℕ) m := by
  simp only [translateOrRaise, EStateM.apply_bind, EStateM.apply_get, h]

theorem translateOrRaise_ok {a : Word} {size : ℕ} {writing : Bool} {pa : ℕ} {mmu : Mmu}
    (h : translate m.mmu a size writing = .ok (.ok (pa, mmu))) :
    translateOrRaise a size writing m = .ok pa { m with mmu := mmu } := by
  simp only [translateOrRaise, EStateM.apply_bind, EStateM.apply_get, h]
  rfl

theorem post_translateOrRaise {a : Word} {size : ℕ} {writing : Bool}
    (hs : size = 1 ∨ size = 2 ∨ size = 4) (hm : LoadInRange m) :
    Post (translateOrRaise a size writing) m (fun _ m' => m'.registers = m.registers) NoTrap := by
  unfold Post
  cases h : translate m.mmu a size writing with
  | error t => exact absurd h (translate_no_trap _ _ _ hs t)
  | ok r =>
    cases r with
    | error e =>
      rw [translateOrRaise_raise h]
      exact post_raiseException hm
    | ok p =>
      rw [translateOrRaise_ok h]

theorem loadInRange_congr {m m' : Machine} (h : m'.registers = m.registers)
    (hm : LoadInRange m) : LoadInRange m' := by
  unfold LoadInRange Machine.reg at hm ⊢
  rwa [h]

theorem post_readMem {a : Word} {size : ℕ} (hs : size = 1 ∨ size = 2 ∨ size = 4)
    (hm : LoadInRange m) :
    Post (readMem a size) m (fun _ m' => m'.registers = m.registers) NoTrap := by
  unfold readMem
  refine (post_translateOrRaise hs hm).bind ?_
  intro pa m₁ h₁
  rcases hs with rfl | rfl | rfl <;> exact h₁

theorem post_writeMem {a v : Word} {size : ℕ} (hs : size = 1 ∨ size = 2 ∨ size = 4)
    (hm : LoadInRange m) :
    Post (writeMem a size v) m (fun _ m' => LoadInRange m') NoTrap := by
  unfold writeMem
  refine (post_translateOrRaise hs hm).bind ?_
  intro pa m₁ h₁
  have := loadInRange_congr h₁ hm
  rcases hs with rfl | rfl | rfl <;> exact this

end rules

def AfterOk (a : After) (m : Machine) : Prop := LoadInRange m ∧ a.nextLoadReg.toNat < 32

section instructions
variable {m : Machine} {i : Instruction} {pcAfter : Word}

theorem afterOk_plain {pc : Word} (hm : LoadInRange m) : AfterOk { pcAfter := pc } m :=
  ⟨hm, show (0 : Word).toNat < 32 by decide⟩

theorem post_writeResult {r : ℕ} {v : Word} (hr : r < numTotalRegs) (hl : r ≠ loadReg)
    (hm : LoadInRange m) :
    Post (do writeRegister r v; return { pcAfter := pcAfter }) m AfterOk NoTrap := by
  refine (post_writeRegister_load hr hl hm).bind ?_
  intro _ _ h
  exact afterOk_plain h

theorem post_branch {taken : Bool} (hm : LoadInRange m) :
    Post (branch i pcAfter taken) m AfterOk NoTrap := by
  refine (post_readRegister_load (by decide) hm).bind ?_
  intro _ _ h
  exact afterOk_plain h

theorem post_link {r : ℕ} (hr : r < 32) (hm : LoadInRange m) :
    Post (link r) m (fun _ m' => LoadInRange m') NoTrap := by
  refine (post_readRegister_load (by decide) hm).bind ?_
  intro _ _ h
  exact post_writeRegister_load (by simp only [numTotalRegs]; omega)
    (by simp only [loadReg]; omega) h

theorem post_load {v : Word} (hrt : i.rt < 32) (hm : LoadInRange m) :
    Post (load i pcAfter v) m AfterOk NoTrap := by
  refine ⟨hm, ?_⟩
  simp only [BitVec.toNat_ofNat]
  omega

theorem post_pendingValue {r : ℕ} (hr : r < 32) (hm : LoadInRange m) :
    Post (pendingValue r) m (fun _ m' => LoadInRange m') NoTrap := by
  refine (post_readRegister_load (by decide) hm).bind ?_
  intro _ _ h
  refine Post.ite (fun _ => post_readRegister_load (by decide) h) (fun _ => ?_)
  exact post_readRegister_load (by simp only [numTotalRegs]; omega) h

theorem post_general {r : ℕ} (hr : r < 32) :
    Post (readRegister r) m (fun v m' => v = m.reg r ∧ m' = m) NoTrap :=
  post_readRegister (by simp only [numTotalRegs]; omega)

theorem post_alu {f : Word → Word → Word} (hrs : i.rs < 32) (hrt : i.rt < 32) (hrd : i.rd < 32)
    (hm : LoadInRange m) : Post (alu i pcAfter f) m AfterOk NoTrap := by
  refine (post_general hrs).bind ?_
  rintro _ _ ⟨-, rfl⟩
  refine (post_general hrt).bind ?_
  rintro _ _ ⟨-, rfl⟩
  exact post_writeResult (by simp only [numTotalRegs]; omega) (by simp only [loadReg]; omega) hm

theorem post_aluImm {f : Word → Word} (hrs : i.rs < 32) (hrt : i.rt < 32)
    (hm : LoadInRange m) : Post (aluImm i pcAfter f) m AfterOk NoTrap := by
  refine (post_general hrs).bind ?_
  rintro _ _ ⟨-, rfl⟩
  exact post_writeResult (by simp only [numTotalRegs]; omega) (by simp only [loadReg]; omega) hm

theorem post_moveReg {src dst : ℕ} (hs : src < 34) (hd : dst < 34) (hm : LoadInRange m) :
    Post (moveReg src dst pcAfter) m AfterOk NoTrap := by
  refine (post_readRegister (by simp only [numTotalRegs]; omega)).bind ?_
  rintro _ _ ⟨-, rfl⟩
  exact post_writeResult (by simp only [numTotalRegs]; omega) (by simp only [loadReg]; omega) hm

theorem post_setHiLo {hi lo : Word} (hm : LoadInRange m) :
    Post (setHiLo hi lo pcAfter) m AfterOk NoTrap := by
  refine (post_writeRegister_load (by decide) (by decide) hm).bind ?_
  intro _ _ h
  exact post_writeResult (by decide) (by decide) h

theorem post_effectiveAddress (hrs : i.rs < 32) :
    Post (effectiveAddress i) m (fun a m' => a = m.reg i.rs + i.extra ∧ m' = m) NoTrap := by
  refine (post_general hrs).bind ?_
  rintro _ _ ⟨rfl, rfl⟩
  exact ⟨rfl, rfl⟩

theorem post_readMem_load {a : Word} {size : ℕ} {f : Word → Word}
    (hs : size = 1 ∨ size = 2 ∨ size = 4) (hrt : i.rt < 32) (hm : LoadInRange m) :
    Post (do let value ← readMem a size; load i pcAfter (f value)) m AfterOk NoTrap := by
  refine (post_readMem hs hm).bind ?_
  intro _ _ h
  exact post_load hrt (loadInRange_congr h hm)

theorem post_store {a v : Word} {size : ℕ} (hs : size = 1 ∨ size = 2 ∨ size = 4)
    (hm : LoadInRange m) :
    Post (do writeMem a size v; return { pcAfter := pcAfter }) m AfterOk NoTrap := by
  refine (post_writeMem hs hm).bind ?_
  intro _ _ h
  exact afterOk_plain h

theorem post_storeInstruction {size : ℕ} (hs : size = 1 ∨ size = 2 ∨ size = 4)
    (hrs : i.rs < 32) (hrt : i.rt < 32) (hm : LoadInRange m) :
    Post (do
      let rt ← readRegister i.rt
      let a ← effectiveAddress i
      writeMem a size rt
      return { pcAfter := pcAfter }) m AfterOk NoTrap := by
  refine (post_general hrt).bind ?_
  rintro _ _ ⟨-, rfl⟩
  refine (post_effectiveAddress hrs).bind ?_
  rintro _ _ ⟨-, rfl⟩
  exact post_store hs hm

theorem post_assertAligned {a : Word} (h : a.toNat % 4 = 0) :
    Post (assertAligned a) m (fun _ m' => m' = m) NoTrap := by
  simp only [assertAligned, h, if_true]
  exact rfl

theorem post_overflow {c : Bool} {r : ℕ} {v : Word} (hr : r < 32)
    (hm : LoadInRange m) :
    Post (if c then raiseException .overflow 0
      else do writeRegister r v; return { pcAfter := pcAfter }) m AfterOk NoTrap :=
  Post.ite (fun _ => post_raiseException hm) fun _ =>
    post_writeResult (by simp only [numTotalRegs]; omega) (by simp only [loadReg]; omega) hm

/-- Every case of the switch, away from the two hazards. -/
theorem post_execute (hrs : i.rs < 32) (hrt : i.rt < 32) (hrd : i.rd < 32)
    (hop : i.opCode.Handled) (hz : ¬Hazard i m) (hm : LoadInRange m) :
    Post (execute i pcAfter) m AfterOk NoTrap := by
  obtain ⟨op, rs, rt, rd, extra⟩ := i
  dsimp only at hrs hrt hrd
  cases op
  case addu | and | nor | or | sll | sllv | slt | sltu | sra | srav | srl | srlv | subu | xor =>
    exact post_alu hrs hrt hrd hm
  case addiu | andi | lui | ori | slti | sltiu | xori => exact post_aluImm hrs hrt hm
  case mfhi | mflo | mthi | mtlo =>
    exact post_moveReg (by dsimp only [hiReg, loReg]; omega)
      (by dsimp only [hiReg, loReg]; omega) hm
  case add | sub =>
    refine Post.bind (post_general hrs) ?_
    rintro _ _ ⟨-, rfl⟩
    refine Post.bind (post_general hrt) ?_
    rintro _ _ ⟨-, rfl⟩
    exact post_overflow hrd hm
  case addi =>
    refine Post.bind (post_general hrs) ?_
    rintro _ _ ⟨-, rfl⟩
    exact post_overflow hrt hm
  case beq | bne =>
    refine Post.bind (post_general hrs) ?_
    rintro _ _ ⟨-, rfl⟩
    refine Post.bind (post_general hrt) ?_
    rintro _ _ ⟨-, rfl⟩
    exact post_branch hm
  case bgez | bgtz | blez | bltz =>
    refine Post.bind (post_general hrs) ?_
    rintro _ _ ⟨-, rfl⟩
    exact post_branch hm
  case bgezal | bltzal =>
    refine Post.bind (post_link (by decide) hm) ?_
    intro _ _ h
    refine Post.bind (post_general hrs) ?_
    rintro _ _ ⟨-, rfl⟩
    exact post_branch h
  case div =>
    refine Post.bind (post_general hrs) ?_
    rintro _ _ ⟨rfl, rfl⟩
    refine Post.bind (post_general hrt) ?_
    rintro _ _ ⟨rfl, rfl⟩
    refine Post.ite (fun _ => post_setHiLo hm) fun _ => ?_
    exact Post.ite (fun h => absurd h hz) fun _ => post_setHiLo hm
  case divu =>
    refine Post.bind (post_general hrs) ?_
    rintro _ _ ⟨-, rfl⟩
    refine Post.bind (post_general hrt) ?_
    rintro _ _ ⟨-, rfl⟩
    exact Post.ite (fun _ => post_setHiLo hm) fun _ => post_setHiLo hm
  case mult | multu =>
    refine Post.bind (post_general hrs) ?_
    rintro _ _ ⟨-, rfl⟩
    refine Post.bind (post_general hrt) ?_
    rintro _ _ ⟨-, rfl⟩
    exact post_setHiLo hm
  case j => exact afterOk_plain hm
  case jal =>
    refine Post.bind (post_link (by decide) hm) ?_
    intro _ _ h
    exact afterOk_plain h
  case jalr =>
    refine Post.bind (post_link hrd hm) ?_
    intro _ _ h
    refine Post.bind (post_general hrs) ?_
    rintro _ _ ⟨-, rfl⟩
    exact afterOk_plain h
  case jr =>
    refine Post.bind (post_general hrs) ?_
    rintro _ _ ⟨-, rfl⟩
    exact afterOk_plain hm
  case lb | lbu =>
    refine Post.bind (post_effectiveAddress hrs) ?_
    rintro _ _ ⟨-, rfl⟩
    exact post_readMem_load (by decide) hrt hm
  case lh | lhu | lw =>
    refine Post.bind (post_effectiveAddress hrs) ?_
    rintro _ _ ⟨-, rfl⟩
    exact Post.ite (fun _ => post_raiseException hm) fun _ =>
      post_readMem_load (by decide) hrt hm
  case lwl | lwr =>
    refine Post.bind (post_effectiveAddress hrs) ?_
    rintro _ _ ⟨rfl, rfl⟩
    refine Post.bind (post_assertAligned (not_not.mp hz)) ?_
    rintro _ _ rfl
    refine Post.bind (post_readMem (by decide) hm) ?_
    intro _ _ h
    refine Post.bind (post_pendingValue hrt (loadInRange_congr h hm)) ?_
    intro _ _ h'
    exact post_load hrt h'
  case sb | sh | sw => exact post_storeInstruction (by decide) hrs hrt hm
  case swl | swr =>
    refine Post.bind (post_effectiveAddress hrs) ?_
    rintro _ _ ⟨rfl, rfl⟩
    refine Post.bind (post_assertAligned (not_not.mp hz)) ?_
    rintro _ _ rfl
    refine Post.bind (post_readMem (by decide) hm) ?_
    intro _ _ h
    refine Post.bind (post_general hrt) ?_
    rintro _ _ ⟨-, rfl⟩
    exact post_store (by decide) (loadInRange_congr h hm)
  case syscall | res | unimp => exact post_raiseException hm
  case rfe | special | bcond => exact absurd hop id

theorem post_finishInstruction {a : After} (h : AfterOk a m) :
    Post (finishInstruction a) m (fun _ _ => True) NoTrap := by
  refine (post_delayedLoad h.1 h.2).bind ?_
  intro _ _ _
  refine (post_readRegister (by decide)).bind ?_
  intro _ _ _
  refine (post_writeRegister (by decide)).bind ?_
  intro _ _ _
  refine (post_readRegister (by decide)).bind ?_
  intro _ _ _
  refine (post_writeRegister (by decide)).bind ?_
  intro _ _ _
  exact (post_writeRegister (by decide)).mono fun _ _ _ => trivial

end instructions

/-- Each hazard does stop the simulator. -/
theorem execute_hazard {i : Instruction} {m : Machine} (pcAfter : Word) (hrs : i.rs < 32)
    (hrt : i.rt < 32) (hz : Hazard i m) :
    ∃ t, execute i pcAfter m = .error (.trap t) m := by
  have hr : ∀ r < 32, readRegister r m = .ok (m.reg r) m := fun r h => by
    simp only [readRegister, numTotalRegs, show r < 40 by omega, if_true]
  obtain ⟨op, rs, rt, rd, extra⟩ := i
  dsimp only at hrs hrt
  cases op
  case lwl | lwr | swl | swr =>
    have hz : ¬(m.reg rs + extra).toNat % 4 = 0 := hz
    have ha : assertAligned (m.reg rs + extra) m = .error (.trap .assertion) m := by
      rw [assertAligned, if_neg hz]
      rfl
    exact ⟨.assertion, by
      simp only [execute, effectiveAddress, bind, EStateM.bind, pure, EStateM.pure, hr rs hrs, ha]⟩
  case div =>
    obtain ⟨ha, hb⟩ : m.reg rs = BitVec.intMin 32 ∧ m.reg rt = -1 := hz
    refine ⟨.arithmetic, ?_⟩
    simp [execute, hr rs hrs, hr rt hrt, bind, EStateM.bind, ha, hb]
    rfl
  all_goals exact absurd hz id

/-- The simulator survives an instruction exactly when the word it fetches is neither an
unaligned `LWL`, `LWR`, `SWL` or `SWR` nor the division of the least integer by minus one. -/
theorem oneInstruction_survives_iff (m : Machine) (hl : (m.reg loadReg).toNat < 32) :
    (∀ t m', oneInstruction m ≠ .error (.trap t) m') ↔
      ∀ raw m', fetch m = .ok raw m' → ¬Hazard (decode raw) m' := by
  have hf : Post fetch m (fun _ m' => LoadInRange m') NoTrap := by
    refine Post.bind (post_readRegister (by decide)) ?_
    rintro _ _ ⟨-, rfl⟩
    exact (post_readMem (by decide) hl).mono fun _ _ h => loadInRange_congr h hl
  constructor
  · intro hs raw m' hraw hz
    obtain ⟨t, ht⟩ := execute_hazard (m'.reg nextPCReg + 4) (decode_rs_lt raw) (decode_rt_lt raw) hz
    refine hs t m' ?_
    simp only [oneInstruction, bind, EStateM.bind, hraw]
    simp only [readRegister, numTotalRegs, nextPCReg, Nat.reduceLT, if_true, ht]
  · intro hz t m' hone
    have hp : Post oneInstruction m (fun _ _ => True) NoTrap := by
      unfold EStateM.Post at hf
      cases h : fetch m with
      | error e m₁ =>
        rw [h] at hf
        simpa [Post, oneInstruction, bind, EStateM.bind, h] using hf
      | ok raw m₁ =>
        rw [h] at hf
        have : oneInstruction m = (do
            let next ← readRegister nextPCReg
            let a ← execute (decode raw) (next + 4)
            finishInstruction a) m₁ := by
          simp only [oneInstruction, bind, EStateM.bind, h]
        unfold EStateM.Post
        rw [this]
        refine Post.bind (post_readRegister (by decide)) ?_
        rintro _ _ ⟨-, rfl⟩
        refine Post.bind (post_execute (decode_rs_lt raw) (decode_rt_lt raw) (decode_rd_lt raw)
          (decode_handled raw) (hz raw _ h) hf) ?_
        intro _ _ ha
        exact post_finishInstruction ha
    unfold EStateM.Post at hp
    rw [hone] at hp
    exact hp

/-- A machine with `word` at address 0, page 0 in frame 0 and the program counter there. -/
def machineWith (word r1 r2 : Word) : Machine where
  registers k := if k.val = 1 then r1 else if k.val = 2 then r2 else 0
  mainMemory a := if a < 4 then word.extractLsb' (8 * a) 8 else 0
  mmu := .pageTable [⟨0, 0, true, false, false, false⟩]

theorem machineWith_addu_survives :
    ((machineWith 0x00221821 1 2).reg loadReg).toNat < 32 ∧
      ∀ t m', oneInstruction (machineWith 0x00221821 1 2) ≠ .error (.trap t) m' := by
  refine ⟨by decide, (oneInstruction_survives_iff _ (by decide)).mpr ?_⟩
  intro raw m' h
  injection h with hraw _
  subst hraw
  exact id

/-- `LWL r1,1(r0)`, and `DIV r1,r2` with the least integer over minus one. -/
theorem oneInstruction_stops :
    ((machineWith 0x88010001 0 0).reg 0 = 0 ∧
      ((machineWith 0x88010001 0 0).reg loadReg).toNat < 32 ∧
      ∃ m', oneInstruction (machineWith 0x88010001 0 0) = .error (.trap .assertion) m') ∧
    ((machineWith 0x0022001a 0x80000000 0xffffffff).reg 0 = 0 ∧
      ((machineWith 0x0022001a 0x80000000 0xffffffff).reg loadReg).toNat < 32 ∧
      ∃ m', oneInstruction (machineWith 0x0022001a 0x80000000 0xffffffff) =
        .error (.trap .arithmetic) m') :=
  ⟨⟨by decide, by decide, _, rfl⟩, ⟨by decide, by decide, _, rfl⟩⟩

end Nachos
