import Nachos.MipsArchitecture

/-! Branches and jumps against the architecture. `NextPCReg` is the address of the delay slot,
also when the branch sits in a delay slot itself. `J` and `JAL` take the region of the jump
from the address after the delay slot instead of the delay slot's own. -/
namespace Nachos

def OpCode.IsControl : OpCode → Prop
  | .j | .jal | .jr | .jalr | .beq | .bne | .blez | .bgtz | .bltz | .bgez | .bltzal | .bgezal =>
    True
  | _ => False

instance : DecidablePred OpCode.IsControl := fun op => by
  cases op <;> first | exact isTrue trivial | exact isFalse id

theorem OpCode.IsControl.ne_res {op : OpCode} (h : op.IsControl) : op ≠ .res := by
  rintro rfl
  exact h

theorem OpCode.IsControl.ne_unimp {op : OpCode} (h : op.IsControl) : op ≠ .unimp := by
  rintro rfl
  exact h

namespace Arch

def taken (op : OpCode) (s t : Word) : Bool :=
  match op with
  | .beq => s = t
  | .bne => s ≠ t
  | .blez => s.toInt ≤ 0
  | .bgtz => 0 < s.toInt
  | .bltz | .bltzal => s.toInt < 0
  | .bgez | .bgezal => 0 ≤ s.toInt
  | _ => false

def target (op : OpCode) (word : Word) (r : ℕ → Word) (slot : Word) : Word :=
  match op with
  | .j | .jal => slot.extractLsb' 28 4 ++ index word ++ (0 : BitVec 2)
  | .jr | .jalr => r (rs word)
  | _ => if taken op (r (rs word)) (r (rt word)) then slot + signed word * 4 else slot + 4

def linkReg (op : OpCode) (word : Word) : Option ℕ :=
  match op with
  | .jal | .bltzal | .bgezal => some 31
  | .jalr => some (rd word)
  | _ => none

def linked (op : OpCode) (word : Word) (r : ℕ → Word) (slot : Word) : ℕ → Word :=
  match linkReg op word with
  | some k => Function.update r k (slot + 4)
  | none => r

end Arch

/-- The target that `OneInstruction` computes. -/
def controlTarget (op : OpCode) (word : Word) (r : ℕ → Word) (slot : Word) : Word :=
  match op with
  | .j | .jal => (slot + 4).extractLsb' 28 4 ++ Arch.index word ++ (0 : BitVec 2)
  | _ => Arch.target op word r slot

theorem region_getLsbD (k : Fin 32) : (0xf0000000 : Word).getLsbD k = decide (28 ≤ k.val) := by
  revert k
  decide

theorem region_or_index (pc : Word) (index : BitVec 26) :
    ((pc &&& (0xf0000000 : Word)) ||| (index.zeroExtend 32 <<< 2) : Word) =
      pc.extractLsb' 28 4 ++ index ++ (0 : BitVec 2) := by
  apply BitVec.eq_of_getLsbD_eq
  intro k hk
  have hmask := region_getLsbD ⟨k, hk⟩
  dsimp only at hmask
  rw [BitVec.getLsbD_or, BitVec.getLsbD_and, hmask, BitVec.getLsbD_shiftLeft, BitVec.getLsbD_append,
    BitVec.getLsbD_append]
  by_cases h2 : k < 2
  · simp [h2, show ¬28 ≤ k by omega]
  · by_cases h28 : k < 28
    · simp [h2, hk, show ¬28 ≤ k by omega, show k - 2 < 26 by omega, show k - 2 < 32 by omega]
    · have hhigh : index.getLsbD (k - 2) = false := BitVec.getLsbD_of_ge _ _ (by omega)
      simp [h2, hk, hhigh, show 28 ≤ k by omega, show ¬k - 2 < 26 by omega,
        show k - 2 - 26 < 4 by omega, show 28 + (k - 2 - 26) = k by omega]

theorem region_succ_iff (slot : Word) :
    (slot + 4).extractLsb' 28 4 = slot.extractLsb' 28 4 ↔ slot.toNat % 2 ^ 28 < 2 ^ 28 - 4 := by
  have hlt := slot.isLt
  rw [← BitVec.toNat_inj]
  simp only [BitVec.extractLsb'_toNat, BitVec.toNat_add, Nat.shiftRight_eq_div_pow,
    show (4 : Word).toNat = 4 from rfl]
  omega

theorem jump_inj {a b : BitVec 4} {index : BitVec 26}
    (h : a ++ index ++ (0 : BitVec 2) = b ++ index ++ (0 : BitVec 2)) : a = b := by
  ext k hk
  have hbit : (a ++ index ++ (0 : BitVec 2)).getLsbD (k + 28) =
      (b ++ index ++ (0 : BitVec 2)).getLsbD (k + 28) := by rw [h]
  simp only [BitVec.getLsbD_append] at hbit
  simpa [hk, show ¬k + 28 < 2 by omega, show ¬k + 28 - 2 < 26 by omega] using hbit

theorem offset_times_four (x : Word) : x <<< 2 = x * 4 := by
  rw [BitVec.shiftLeft_eq_mul_twoPow]
  rfl

theorem not_msb_eq (s : Word) : (!s.msb) = decide (0 ≤ s.toInt) := by
  rw [BitVec.msb_eq_toInt]
  by_cases h : s.toInt < 0
  · simp [h]
  · simp [h, show 0 ≤ s.toInt by omega]

section run
variable {m : Machine} {i : Instruction} (pcAfter : Word)

theorem branch_eq (taken : Bool) :
    branch i pcAfter taken m =
      .ok { pcAfter := if taken then m.reg nextPCReg + i.extra <<< 2 else pcAfter } m := by
  rw [branch, EStateM.apply_bind, readRegister_ok (by decide)]
  rfl

theorem link_eq {r : ℕ} (hr : r < 32) : link r m = .ok () (m.setReg r (m.reg nextPCReg + 4)) := by
  simp only [link, EStateM.apply_bind, readRegister_ok (show nextPCReg < 40 by decide)]
  rw [writeRegister, if_pos (show r < 40 by omega)]

end run

def linkedMachine (op : OpCode) (word : Word) (m : Machine) : Machine :=
  match Arch.linkReg op word with
  | some k => m.setReg k (m.reg nextPCReg + 4)
  | none => m

theorem execute_control {m : Machine} {i : Instruction} {word : Word}
    (hctl : i.opCode.IsControl) (hrs : i.rs = Arch.rs word) (hrt : i.rt = Arch.rt word)
    (hrd : i.rd = Arch.rd word) (hextra : i.extra = decodeExtra word i.opCode.format)
    (hlink : i.opCode ≠ .jal → Arch.linkReg i.opCode word ≠ some (Arch.rs word)) :
    execute i (m.reg nextPCReg + 4) m =
      .ok { pcAfter := controlTarget i.opCode word m.reg (m.reg nextPCReg) }
        (linkedMachine i.opCode word m) := by
  obtain ⟨op, rs, rt, rd, extra⟩ := i
  dsimp only at hctl hrs hrt hrd hextra hlink ⊢
  subst hrs hrt hrd hextra
  have hs : Arch.rs word < 40 := lt_trans (Arch.rs_lt word) (by decide)
  have ht : Arch.rt word < 40 := lt_trans (Arch.rt_lt word) (by decide)
  have hd := Arch.rd_lt word
  have hoff := offset_times_four (Arch.signed word)
  have hjump : (((m.reg nextPCReg + 4) &&& 0xf0000000) ||| (decodeExtra word .jfmt <<< 2) : Word) =
      (m.reg nextPCReg + 4).extractLsb' 28 4 ++ Arch.index word ++ (0 : BitVec 2) := by
    rw [decodeExtra_jfmt]
    exact region_or_index _ _
  have hnext : ∀ {k : ℕ} {v : Word}, k < 32 → (m.setReg k v).reg nextPCReg = m.reg nextPCReg := by
    intro k v hk
    rw [reg_setReg, if_neg fun h => absurd (show 35 = k from h.1) (by omega)]
  have hkeep : ∀ {k : ℕ} {v : Word}, some k ≠ some (Arch.rs word) →
      (m.setReg k v).reg (Arch.rs word) = m.reg (Arch.rs word) := by
    intro k v hk
    rw [reg_setReg, if_neg fun h => hk (congrArg some h.1.symm)]
  -- a branch that tests `c` goes where a condition `c` of the architecture goes
  have hbranch : ∀ {m' : Machine} {c c' : Bool}, c = c' →
      (.ok
        { pcAfter := if c then m.reg nextPCReg + Arch.signed word <<< 2 else m.reg nextPCReg + 4 }
        m' : EStateM.Result Stop Machine After) =
      .ok { pcAfter := if c' then m.reg nextPCReg + Arch.signed word * 4
        else m.reg nextPCReg + 4 } m' := by
    rintro m' c _ rfl
    rw [hoff]
  cases op
  case beq =>
    simp only [execute, EStateM.apply_bind, readRegister_ok hs, readRegister_ok ht, branch_eq]
    exact hbranch rfl
  case bne =>
    simp only [execute, EStateM.apply_bind, readRegister_ok hs, readRegister_ok ht, branch_eq]
    exact hbranch (decide_not).symm
  case blez =>
    simp only [execute, EStateM.apply_bind, readRegister_ok hs, branch_eq]
    exact hbranch (by simp [Arch.taken, BitVec.sle])
  case bgtz =>
    simp only [execute, EStateM.apply_bind, readRegister_ok hs, branch_eq]
    exact hbranch (by simp [Arch.taken, BitVec.slt])
  case bltz =>
    simp only [execute, EStateM.apply_bind, readRegister_ok hs, branch_eq]
    exact hbranch BitVec.msb_eq_toInt
  case bgez =>
    simp only [execute, EStateM.apply_bind, readRegister_ok hs, branch_eq]
    exact hbranch (not_msb_eq _)
  case bltzal =>
    simp only [execute, EStateM.apply_bind, link_eq (show retAddrReg < 32 by decide),
      readRegister_ok hs, branch_eq, hnext (show 31 < 32 by decide), hkeep (hlink (by decide))]
    exact hbranch BitVec.msb_eq_toInt
  case bgezal =>
    simp only [execute, EStateM.apply_bind, link_eq (show retAddrReg < 32 by decide),
      readRegister_ok hs, branch_eq, hnext (show 31 < 32 by decide), hkeep (hlink (by decide))]
    exact hbranch (not_msb_eq _)
  case j => exact congrArg (fun pc => EStateM.Result.ok ({ pcAfter := pc } : After) m) hjump
  case jal =>
    simp only [execute, EStateM.apply_bind, link_eq (show retAddrReg < 32 by decide)]
    exact congrArg (fun pc => EStateM.Result.ok ({ pcAfter := pc } : After) _) hjump
  case jr =>
    simp only [execute, EStateM.apply_bind, readRegister_ok hs]
    rfl
  case jalr =>
    simp only [execute, EStateM.apply_bind, link_eq hd, readRegister_ok hs,
      hkeep (hlink (by decide))]
    rfl
  all_goals exact absurd hctl id

theorem linkReg_lt {op : OpCode} {word : Word} {k : ℕ} (h : Arch.linkReg op word = some k) :
    k < 32 := by
  have hk : k = 31 ∨ k = Arch.rd word := by
    unfold Arch.linkReg at h
    split at h <;> simp at h <;> tauto
  have hrd := Arch.rd_lt word
  omega

theorem linkedMachine_reg {op : OpCode} {word : Word} (m : Machine) {k : ℕ} (hk : k < 40) :
    (linkedMachine op word m).reg k = Arch.linked op word m.reg (m.reg nextPCReg) k := by
  unfold linkedMachine Arch.linked
  cases Arch.linkReg op word with
  | some j =>
    simp only [reg_setReg, Function.update_apply, show k < numTotalRegs from hk, and_true]
  | none => rfl

theorem linked_special {op : OpCode} {word : Word} (r : ℕ → Word) (slot : Word) {k : ℕ}
    (hk : 32 ≤ k) : Arch.linked op word r slot k = r k := by
  unfold Arch.linked
  cases hj : Arch.linkReg op word with
  | some j =>
    have hlt := linkReg_lt hj
    exact Function.update_of_ne (by omega) _ _
  | none => rfl

/-- The instruction does what the architecture says, with the delay slot next. -/
def ControlConforms (m : Machine) (word : Word) : Prop :=
  ∃ m', oneInstruction m = .ok () m' ∧ m'.reg pcReg = m.reg nextPCReg ∧
    m'.reg nextPCReg = Arch.target (decode word).opCode word m.reg (m.reg nextPCReg) ∧
    GeneralRegs m' (Arch.linked (decode word).opCode word m.reg (m.reg nextPCReg))

theorem oneInstruction_control {m m₁ : Machine} {word : Word} (hfetch : fetch m = .ok word m₁)
    (hload : m.reg loadReg = 0) (hctl : (decode word).opCode.IsControl)
    (hlink : (decode word).opCode ≠ .jal →
      Arch.linkReg (decode word).opCode word ≠ some (Arch.rs word)) :
    ∃ m', oneInstruction m = .ok () m' ∧ m'.reg pcReg = m.reg nextPCReg ∧
      m'.reg nextPCReg = controlTarget (decode word).opCode word m.reg (m.reg nextPCReg) ∧
      GeneralRegs m' (Arch.linked (decode word).opCode word m.reg (m.reg nextPCReg)) := by
  have hreg : m₁.reg = m.reg := funext (fetch_reg hfetch)
  have hexec := execute_control (m := m₁) hctl (decode_rs word) (decode_rt word) (decode_rd word)
    (decode_extra word hctl.ne_res hctl.ne_unimp) hlink
  have hlinked : ∀ k < 40, (linkedMachine (decode word).opCode word m₁).reg k =
      Arch.linked (decode word).opCode word m.reg (m.reg nextPCReg) k := by
    intro k hk
    rw [linkedMachine_reg m₁ hk, hreg]
  rw [hreg] at hexec
  obtain ⟨m', hrun, ⟨h0, hgen⟩, hpc, hnext⟩ := finish_general
    (m := linkedMachine (decode word).opCode word m₁)
    (a := ⟨controlTarget (decode word).opCode word m.reg (m.reg nextPCReg), 0, 0⟩)
    (by rw [hlinked _ (by decide), linked_special _ _ (by decide), hload])
  refine ⟨m', ?_, ?_, hnext, h0, fun k hpos hk => ?_⟩
  · rw [oneInstruction_fetched hfetch, EStateM.apply_bind, hexec]
    exact hrun
  · rw [hpc, hlinked _ (by decide), linked_special _ _ (by decide)]
  · rw [hgen k hpos hk, hlinked k (by omega)]

/-- A branch or jump with no load pending goes where the architecture says exactly when it is
not a `J` or `JAL` with its delay slot in the last word of a 256 MB region. -/
theorem control_conforms_iff {m m₁ : Machine} {word : Word} (hfetch : fetch m = .ok word m₁)
    (hload : m.reg loadReg = 0) (hctl : (decode word).opCode.IsControl)
    (hjalr : (decode word).opCode = .jalr → Arch.rs word ≠ Arch.rd word)
    (hlink : (decode word).opCode = .bltzal ∨ (decode word).opCode = .bgezal → Arch.rs word ≠ 31) :
    ControlConforms m word ↔ ((decode word).opCode = .j ∨ (decode word).opCode = .jal →
      (m.reg nextPCReg).toNat % 2 ^ 28 < 2 ^ 28 - 4) := by
  have hne : (decode word).opCode ≠ .jal →
      Arch.linkReg (decode word).opCode word ≠ some (Arch.rs word) := by
    intro hjal h
    cases hop : (decode word).opCode
    case jal => exact hjal hop
    case jalr =>
      rw [hop] at h
      exact hjalr hop (Option.some.inj h).symm
    case bltzal =>
      rw [hop] at h
      exact hlink (.inl hop) (Option.some.inj h).symm
    case bgezal =>
      rw [hop] at h
      exact hlink (.inr hop) (Option.some.inj h).symm
    all_goals
      rw [hop] at h
      cases h
  obtain ⟨m', hrun, hpc, hnext, hgen⟩ := oneInstruction_control hfetch hload hctl hne
  have hiff : ControlConforms m word ↔
      controlTarget (decode word).opCode word m.reg (m.reg nextPCReg) =
        Arch.target (decode word).opCode word m.reg (m.reg nextPCReg) := by
    constructor
    · rintro ⟨m'', hrun', -, hnext', -⟩
      obtain ⟨-, rfl⟩ := EStateM.Result.ok.inj (hrun.symm.trans hrun')
      exact hnext.symm.trans hnext'
    · intro h
      exact ⟨m', hrun, hpc, hnext.trans h, hgen⟩
  rw [hiff]
  have hjump : (m.reg nextPCReg + 4).extractLsb' 28 4 ++ Arch.index word ++ (0 : BitVec 2) =
      (m.reg nextPCReg).extractLsb' 28 4 ++ Arch.index word ++ (0 : BitVec 2) ↔
      (m.reg nextPCReg).toNat % 2 ^ 28 < 2 ^ 28 - 4 := by
    rw [← region_succ_iff]
    exact ⟨jump_inj, fun h => by rw [h]⟩
  cases hop : (decode word).opCode
  case j => exact hjump.trans ⟨fun h _ => h, fun h => h (.inl rfl)⟩
  case jal => exact hjump.trans ⟨fun h _ => h, fun h => h (.inr rfl)⟩
  all_goals exact iff_of_true rfl (by simp)

/-- `JAL` to index 16, from address 0 with the delay slot at 4. -/
theorem machineWith_jal_conforms :
    ControlConforms ((machineWith 0x0c000010 0 0).setReg nextPCReg 4) 0x0c000010 :=
  (control_conforms_iff (m := (machineWith 0x0c000010 0 0).setReg nextPCReg 4) rfl (by decide)
    (by decide) (by decide) (by decide)).mpr (by decide)

/-- `J` to index 16 in the delay slot of a jump to the last word of the first region. -/
theorem machineWith_j_wrong :
    ((machineWith 0x08000010 0 0).setReg nextPCReg 0x0ffffffc).reg loadReg = 0 ∧
      (decode 0x08000010).opCode = .j ∧
      ¬ControlConforms ((machineWith 0x08000010 0 0).setReg nextPCReg 0x0ffffffc) 0x08000010 := by
  have hrun : ∃ m', oneInstruction ((machineWith 0x08000010 0 0).setReg nextPCReg 0x0ffffffc) =
      .ok () m' ∧ m'.reg nextPCReg = 0x10000040 := ⟨_, rfl, by decide⟩
  refine ⟨by decide, by decide, ?_⟩
  rintro ⟨m', hone, -, hnext, -⟩
  obtain ⟨m'', hone', h⟩ := hrun
  obtain ⟨-, rfl⟩ := EStateM.Result.ok.inj (hone.symm.trans hone')
  rw [hnext] at h
  exact absurd h (by decide)

end Nachos
