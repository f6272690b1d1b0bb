import Nachos.MipsArchitecture

/-! The integer instructions against the architecture. Three of them differ: `OR` combines
`rs` with itself, and `SRL` and `SRLV` shift a signed `int`, so the sign fills the upper bits. -/
namespace Nachos

def OpCode.IsAlu : OpCode → Prop
  | .add | .addu | .addi | .addiu | .sub | .subu | .and | .andi | .or | .ori | .xor | .xori | .nor
  | .sll | .srl | .sra | .sllv | .srlv | .srav | .slt | .slti | .sltu | .sltiu | .lui => True
  | _ => False

instance : DecidablePred OpCode.IsAlu := fun op => by
  cases op <;> first | exact isTrue trivial | exact isFalse id

theorem OpCode.IsAlu.ne_res {op : OpCode} (h : op.IsAlu) : op ≠ .res := by
  rintro rfl
  exact h

theorem OpCode.IsAlu.ne_unimp {op : OpCode} (h : op.IsAlu) : op ≠ .unimp := by
  rintro rfl
  exact h

namespace Arch

def checked (z : ℤ) : Option Word :=
  if -2 ^ 31 ≤ z ∧ z < 2 ^ 31 then some (BitVec.ofInt 32 z) else none

def aluDest (op : OpCode) (word : Word) : ℕ :=
  match op with
  | .addi | .addiu | .andi | .ori | .xori | .slti | .sltiu | .lui => rt word
  | _ => rd word

/-- The result of an integer instruction on the registers `r`; `none` is an integer overflow. -/
def aluResult (op : OpCode) (word : Word) (r : ℕ → Word) : Option Word :=
  let s := r (rs word)
  let t := r (rt word)
  match op with
  | .add => checked (s.toInt + t.toInt)
  | .addi => checked (s.toInt + (signed word).toInt)
  | .sub => checked (s.toInt - t.toInt)
  | .addu => some (s + t)
  | .addiu => some (s + signed word)
  | .subu => some (s - t)
  | .and => some (s &&& t)
  | .andi => some (s &&& unsigned word)
  | .or => some (s ||| t)
  | .ori => some (s ||| unsigned word)
  | .xor => some (s ^^^ t)
  | .xori => some (s ^^^ unsigned word)
  | .nor => some (~~~(s ||| t))
  | .sll => some (t <<< shamt word)
  | .srl => some (t >>> shamt word)
  | .sra => some (t.sshiftRight (shamt word))
  | .sllv => some (t <<< (s.toNat % 32))
  | .srlv => some (t >>> (s.toNat % 32))
  | .srav => some (t.sshiftRight (s.toNat % 32))
  | .slt => some (if s.toInt < t.toInt then 1 else 0)
  | .slti => some (if s.toInt < (signed word).toInt then 1 else 0)
  | .sltu => some (if s.toNat < t.toNat then 1 else 0)
  | .sltiu => some (if s.toNat < (signed word).toNat then 1 else 0)
  | .lui => some (immediate word ++ (0 : BitVec 16))
  | _ => none

end Arch

theorem aluDest_lt (op : OpCode) (word : Word) : Arch.aluDest op word < 32 := by
  unfold Arch.aluDest
  split
  all_goals first | exact Arch.rt_lt word | exact Arch.rd_lt word

/-- What `OneInstruction` writes instead. -/
def aluWritten (op : OpCode) (word : Word) (r : ℕ → Word) : Option Word :=
  match op with
  | .or => some (r (Arch.rs word))
  | .srl => some ((r (Arch.rt word)).sshiftRight (Arch.shamt word))
  | .srlv => some ((r (Arch.rt word)).sshiftRight ((r (Arch.rs word)).toNat % 32))
  | _ => Arch.aluResult op word r

section arithmetic
variable (s t : Word)

theorem add_overflow : (!(s ^^^ t).msb && (s ^^^ (s + t)).msb) = s.saddOverflow t := by
  rw [BitVec.saddOverflow_eq, BitVec.msb_xor, BitVec.msb_xor]
  cases s.msb <;> cases t.msb <;> cases (s + t).msb <;> rfl

theorem addi_overflow : (!(s ^^^ t).msb && (t ^^^ (s + t)).msb) = s.saddOverflow t := by
  rw [BitVec.saddOverflow_eq, BitVec.msb_xor, BitVec.msb_xor]
  cases s.msb <;> cases t.msb <;> cases (s + t).msb <;> rfl

theorem sub_overflow : ((s ^^^ t).msb && (s ^^^ (s - t)).msb) = s.ssubOverflow t := by
  rw [BitVec.ssubOverflow_eq, BitVec.msb_xor, BitVec.msb_xor]
  cases s.msb <;> cases t.msb <;> cases (s - t).msb <;> rfl

theorem checked_add :
    Arch.checked (s.toInt + t.toInt) = if s.saddOverflow t then none else some (s + t) := by
  have hsum : BitVec.ofInt 32 (s.toInt + t.toInt) = s + t := by
    rw [BitVec.ofInt_add, BitVec.ofInt_toInt, BitVec.ofInt_toInt]
  rw [Arch.checked, hsum]
  by_cases h : s.saddOverflow t = true
  · rw [if_pos h, if_neg]
    simp [BitVec.saddOverflow] at h
    omega
  · rw [if_neg h, if_pos]
    simp [BitVec.saddOverflow] at h
    omega

theorem checked_sub :
    Arch.checked (s.toInt - t.toInt) = if s.ssubOverflow t then none else some (s - t) := by
  have hdiff : BitVec.ofInt 32 (s.toInt - t.toInt) = s - t := by
    apply BitVec.eq_of_toInt_eq
    rw [BitVec.toInt_ofInt, BitVec.toInt_sub]
  rw [Arch.checked, hdiff]
  by_cases h : s.ssubOverflow t = true
  · rw [if_pos h, if_neg]
    simp [BitVec.ssubOverflow] at h
    omega
  · rw [if_neg h, if_pos]
    simp [BitVec.ssubOverflow] at h
    omega

theorem shift_amount : (s &&& 0x1f).toNat = s.toNat % 32 := by
  have h := Nat.and_two_pow_sub_one_eq_mod s.toNat 5
  simpa using h

theorem slt_one : (if s.slt t then (1 : Word) else 0) = if s.toInt < t.toInt then 1 else 0 := by
  simp only [BitVec.slt_iff_toInt_lt]

theorem shift_sixteen (word : Word) :
    Arch.signed word <<< 16 = Arch.immediate word ++ (0 : BitVec 16) := by
  apply BitVec.eq_of_getLsbD_eq
  intro k hk
  rw [BitVec.getLsbD_shiftLeft, BitVec.getLsbD_append, Arch.signed, BitVec.getLsbD_signExtend]
  by_cases h : k < 16
  · simp [h]
  · simp [h, hk, show k - 16 < 16 by omega, show k - 16 < 32 by omega]

theorem sshiftRight_eq_iff {n : ℕ} (hn : n < 32) :
    t.sshiftRight n = t >>> n ↔ t.msb = false ∨ n = 0 := by
  constructor
  · intro h
    by_contra hcon
    obtain ⟨hmsb, hne⟩ : t.msb = true ∧ n ≠ 0 := by simpa using hcon
    have hbit := congrArg (fun x : Word => x.getLsbD 31) h
    simp only [BitVec.getLsbD_sshiftRight, BitVec.getLsbD_ushiftRight, hmsb] at hbit
    have hhigh : t.getLsbD (n + 31) = false := BitVec.getLsbD_of_ge _ _ (by omega)
    rw [hhigh] at hbit
    simp [show ¬n + 31 < 32 by omega] at hbit
  · rintro (hmsb | rfl)
    · exact BitVec.sshiftRight_eq_of_msb_false hmsb
    · simp

end arithmetic

section run
variable {m : Machine} {i : Instruction} (pcAfter : Word)

theorem writeResult_eq {r : ℕ} (v : Word) (hr : r < 32) :
    (do writeRegister r v; return { pcAfter := pcAfter } : Exec After) m =
      .ok { pcAfter := pcAfter } (m.setReg r v) := by
  rw [EStateM.apply_bind, writeRegister, if_pos (show r < 40 by omega)]
  rfl

theorem alu_eq (f : Word → Word → Word) (hrs : i.rs < 32) (hrt : i.rt < 32) (hrd : i.rd < 32) :
    alu i pcAfter f m =
      .ok { pcAfter := pcAfter } (m.setReg i.rd (f (m.reg i.rs) (m.reg i.rt))) := by
  simp only [alu, EStateM.apply_bind, readRegister_ok (show i.rs < 40 by omega),
    readRegister_ok (show i.rt < 40 by omega)]
  exact writeResult_eq pcAfter _ hrd

theorem aluImm_eq (f : Word → Word) (hrs : i.rs < 32) (hrt : i.rt < 32) :
    aluImm i pcAfter f m = .ok { pcAfter := pcAfter } (m.setReg i.rt (f (m.reg i.rs))) := by
  simp only [aluImm, EStateM.apply_bind, readRegister_ok (show i.rs < 40 by omega)]
  exact writeResult_eq pcAfter _ hrt

theorem checkedWrite_eq {r : ℕ} (v : Word) (c : Bool) (hr : r < 32) :
    (if c = true then raiseException .overflow 0 else do
      writeRegister r v
      return { pcAfter := pcAfter } : Exec After) m =
      match (if c = true then none else some v : Option Word) with
      | some v => .ok { pcAfter := pcAfter } (m.setReg r v)
      | none => (raiseException .overflow 0 : Exec After) m := by
  cases c with
  | true => rfl
  | false => exact writeResult_eq pcAfter v hr

end run

theorem execute_alu {m : Machine} {i : Instruction} {word : Word} (pcAfter : Word)
    (halu : i.opCode.IsAlu) (hrs : i.rs = Arch.rs word) (hrt : i.rt = Arch.rt word)
    (hrd : i.rd = Arch.rd word) (hextra : i.extra = decodeExtra word i.opCode.format) :
    execute i pcAfter m =
      match aluWritten i.opCode word m.reg with
      | some v => .ok { pcAfter := pcAfter } (m.setReg (Arch.aluDest i.opCode word) v)
      | none => (raiseException .overflow 0 : Exec After) m := by
  obtain ⟨op, rs, rt, rd, extra⟩ := i
  dsimp only at halu hrs hrt hrd hextra ⊢
  subst hrs hrt hrd hextra
  have hs := Arch.rs_lt word
  have ht := Arch.rt_lt word
  have hd := Arch.rd_lt word
  have hs' : Arch.rs word < 40 := by omega
  have ht' : Arch.rt word < 40 := by omega
  have hshamt := decodeExtra_rfmt word
  have hlow := signed_and_low word
  have hwrite : ∀ {r : ℕ} {v w : Word}, v = w →
      (.ok { pcAfter := pcAfter } (m.setReg r v) : EStateM.Result Stop Machine After) =
        .ok { pcAfter := pcAfter } (m.setReg r w) := by
    rintro r v _ rfl
    rfl
  cases op
  case add =>
    simp only [execute, EStateM.apply_bind, readRegister_ok hs', readRegister_ok ht']
    rw [checkedWrite_eq pcAfter _ _ hd, add_overflow, ← checked_add]
    rfl
  case sub =>
    simp only [execute, EStateM.apply_bind, readRegister_ok hs', readRegister_ok ht']
    rw [checkedWrite_eq pcAfter _ _ hd, sub_overflow, ← checked_sub]
    rfl
  case addi =>
    simp only [execute, EStateM.apply_bind, readRegister_ok hs']
    rw [checkedWrite_eq pcAfter _ _ ht, addi_overflow, ← checked_add]
    rfl
  case addu | and | nor | subu | xor | sltu => exact alu_eq _ _ hs ht hd
  case addiu | sltiu => exact aluImm_eq _ _ hs ht
  case or => exact (alu_eq _ _ hs ht hd).trans (hwrite BitVec.or_self)
  case slt => exact (alu_eq _ _ hs ht hd).trans (hwrite (slt_one _ _))
  case slti => exact (aluImm_eq _ _ hs ht).trans (hwrite (slt_one _ _))
  case sll =>
    exact (alu_eq _ _ hs ht hd).trans (hwrite (congrArg (fun n : ℕ => m.reg _ <<< n) hshamt))
  case sra | srl =>
    exact (alu_eq _ _ hs ht hd).trans (hwrite (congrArg (m.reg _).sshiftRight hshamt))
  case sllv =>
    exact (alu_eq _ _ hs ht hd).trans
      (hwrite (congrArg (fun n : ℕ => m.reg _ <<< n) (shift_amount _)))
  case srav | srlv =>
    exact (alu_eq _ _ hs ht hd).trans (hwrite (congrArg (m.reg _).sshiftRight (shift_amount _)))
  case andi => exact (aluImm_eq _ _ hs ht).trans (hwrite (congrArg (m.reg _ &&& ·) hlow))
  case ori => exact (aluImm_eq _ _ hs ht).trans (hwrite (congrArg (m.reg _ ||| ·) hlow))
  case xori => exact (aluImm_eq _ _ hs ht).trans (hwrite (congrArg (m.reg _ ^^^ ·) hlow))
  case lui => exact (aluImm_eq _ _ hs ht).trans (hwrite (shift_sixteen word))
  all_goals exact absurd halu id

/-- The instruction leaves `result` in register `dest`, or raises the overflow exception and
writes nothing. -/
def Delivers (m : Machine) (dest : ℕ) : Option Word → Prop
  | some v => ∃ m', oneInstruction m = .ok () m' ∧ GeneralRegs m' (Function.update m.reg dest v)
  | none => ∃ m', oneInstruction m = .error (.raised .overflow) m' ∧ GeneralRegs m' m.reg

/-- The instruction does what the architecture says. -/
def AluConforms (m : Machine) (word : Word) : Prop :=
  Delivers m (Arch.aluDest (decode word).opCode word)
    (Arch.aluResult (decode word).opCode word m.reg)

/-- `rt` has no bit that `rs` lacks in `OR`; there is no sign or no shift in `SRL`, `SRLV`. -/
def AluExact (m : Machine) (word : Word) : Prop :=
  match (decode word).opCode with
  | .or => m.reg (Arch.rs word) ||| m.reg (Arch.rt word) = m.reg (Arch.rs word)
  | .srl => (m.reg (Arch.rt word)).msb = false ∨ Arch.shamt word = 0
  | .srlv => (m.reg (Arch.rt word)).msb = false ∨ (m.reg (Arch.rs word)).toNat % 32 = 0
  | _ => True

theorem aluWritten_eq_iff (m : Machine) (word : Word) :
    aluWritten (decode word).opCode word m.reg = Arch.aluResult (decode word).opCode word m.reg ↔
      AluExact m word := by
  have hshamt : Arch.shamt word < 32 := (word.extractLsb' 6 5).isLt
  have hmod : (m.reg (Arch.rs word)).toNat % 32 < 32 := Nat.mod_lt _ (by decide)
  unfold AluExact
  cases (decode word).opCode
  case or => simp [aluWritten, Arch.aluResult, eq_comm]
  case srl => simpa [aluWritten, Arch.aluResult] using sshiftRight_eq_iff _ hshamt
  case srlv => simpa [aluWritten, Arch.aluResult] using sshiftRight_eq_iff _ hmod
  all_goals exact iff_of_true rfl trivial

theorem aluWritten_delivered {m m₁ : Machine} {word : Word} (hfetch : fetch m = .ok word m₁)
    (hload : m.reg loadReg = 0) (halu : (decode word).opCode.IsAlu) :
    Delivers m (Arch.aluDest (decode word).opCode word)
      (aluWritten (decode word).opCode word m.reg) := by
  have hreg : m₁.reg = m.reg := funext (fetch_reg hfetch)
  have hdest : Arch.aluDest (decode word).opCode word ≠ loadReg :=
    ne_of_lt (lt_trans (aluDest_lt _ word) (by decide))
  have hexec := execute_alu (m := m₁) (m.reg nextPCReg + 4) halu (decode_rs word) (decode_rt word)
    (decode_rd word) (decode_extra word halu.ne_res halu.ne_unimp)
  rw [hreg] at hexec
  cases hw : aluWritten (decode word).opCode word m.reg with
  | some v =>
    rw [hw] at hexec
    have hload₁ : (m₁.setReg (Arch.aluDest (decode word).opCode word) v).reg loadReg = 0 := by
      rw [reg_setReg, if_neg fun h => hdest h.1.symm, hreg, hload]
    obtain ⟨m', hrun, ⟨h0, hgen⟩, -⟩ := finish_general (a := ⟨m.reg nextPCReg + 4, 0, 0⟩) hload₁
    refine ⟨m', ?_, h0, fun k hpos hk => (hgen k hpos hk).trans ?_⟩
    · rw [oneInstruction_fetched hfetch, EStateM.apply_bind, hexec]
      exact hrun
    · rw [reg_setReg, hreg, Function.update_apply]
      simp only [show k < 40 by omega, and_true]
  | none =>
    rw [hw] at hexec
    obtain ⟨m', hrun, hgen⟩ := raise_general (m := m₁) .overflow (by rw [hreg, hload])
    refine ⟨m', ?_, hreg ▸ hgen⟩
    rw [oneInstruction_fetched hfetch, EStateM.apply_bind, hexec, hrun]

theorem Delivers.inj {m : Machine} {dest : ℕ} {v w : Word} (hv : Delivers m dest (some v))
    (hw : Delivers m dest (some w)) (h0 : 0 < dest) (hd : dest < 32) : v = w := by
  obtain ⟨m', hrun, -, hgen⟩ := hv
  obtain ⟨m'', hrun', -, hgen'⟩ := hw
  obtain ⟨-, rfl⟩ := EStateM.Result.ok.inj (hrun.symm.trans hrun')
  have h := (hgen dest h0 hd).symm.trans (hgen' dest h0 hd)
  rwa [Function.update_self, Function.update_self] at h

theorem Delivers.zero {m : Machine} {v : Word} (hv : Delivers m 0 (some v)) (w : Word) :
    Delivers m 0 (some w) := by
  obtain ⟨m', hrun, h0, hgen⟩ := hv
  refine ⟨m', hrun, h0, fun k hpos hk => (hgen k hpos hk).trans ?_⟩
  rw [Function.update_of_ne (by omega), Function.update_of_ne (by omega)]

theorem aluWritten_cases (op : OpCode) (word : Word) (r : ℕ → Word) :
    aluWritten op word r = Arch.aluResult op word r ∨
      ∃ v w, aluWritten op word r = some v ∧ Arch.aluResult op word r = some w := by
  cases op
  case or | srl | srlv => exact .inr ⟨_, _, rfl, rfl⟩
  all_goals exact .inl rfl

/-- An integer instruction with no load pending does what the architecture says exactly when
its destination is register 0 or it is not an `OR`, `SRL` or `SRLV` whose operands show the
difference. -/
theorem alu_conforms_iff {m m₁ : Machine} {word : Word} (hfetch : fetch m = .ok word m₁)
    (hload : m.reg loadReg = 0) (halu : (decode word).opCode.IsAlu) :
    AluConforms m word ↔ Arch.aluDest (decode word).opCode word = 0 ∨ AluExact m word := by
  have hcode := aluWritten_delivered hfetch hload halu
  have hdest := aluDest_lt (decode word).opCode word
  unfold AluConforms
  rw [← aluWritten_eq_iff]
  constructor
  · intro hspec
    by_cases h0 : Arch.aluDest (decode word).opCode word = 0
    · exact .inl h0
    · right
      obtain h | ⟨v, w, hv, hw⟩ := aluWritten_cases (decode word).opCode word m.reg
      · exact h
      · rw [hv] at hcode ⊢
        rw [hw] at hspec ⊢
        exact congrArg some (hcode.inj hspec (Nat.pos_of_ne_zero h0) hdest)
  · rintro (h0 | heq)
    · obtain h | ⟨v, w, hv, hw⟩ := aluWritten_cases (decode word).opCode word m.reg
      · exact h ▸ hcode
      · rw [hv, h0] at hcode
        rw [hw, h0]
        exact hcode.zero w
    · exact heq ▸ hcode

/-- `SLT r3,r1,r2`. -/
theorem machineWith_slt_conforms : AluConforms (machineWith 0x0022182a 5 6) 0x0022182a :=
  (alu_conforms_iff (m := machineWith 0x0022182a 5 6) rfl (by decide) (by decide)).mpr
    (.inr trivial)

/-- `OR r3,r1,r2` of 1 and 2 leaves 1, `SRL r3,r2,4` of the word with only the sign set leaves
the sign set. -/
theorem machineWith_or_srl_wrong :
    ((machineWith 0x00221825 1 2).reg loadReg = 0 ∧ (decode 0x00221825).opCode = .or ∧
      ¬AluConforms (machineWith 0x00221825 1 2) 0x00221825) ∧
    (machineWith 0x00021902 0 0x80000000).reg loadReg = 0 ∧ (decode 0x00021902).opCode = .srl ∧
      ¬AluConforms (machineWith 0x00021902 0 0x80000000) 0x00021902 := by
  have hor : ∃ m', oneInstruction (machineWith 0x00221825 1 2) = .ok () m' ∧ m'.reg 3 = 1 :=
    ⟨_, rfl, by decide⟩
  have hsrl : ∃ m', oneInstruction (machineWith 0x00021902 0 0x80000000) = .ok () m' ∧
      m'.reg 3 = 0xf8000000 := ⟨_, rfl, by decide⟩
  refine ⟨⟨by decide, by decide, ?_⟩, by decide, by decide, ?_⟩
  · rintro ⟨m', hrun, -, hgen⟩
    obtain ⟨m'', hrun', h3⟩ := hor
    obtain ⟨-, rfl⟩ := EStateM.Result.ok.inj (hrun.symm.trans hrun')
    rw [hgen 3 (by decide) (by decide)] at h3
    exact absurd h3 (by decide)
  · rintro ⟨m', hrun, -, hgen⟩
    obtain ⟨m'', hrun', h3⟩ := hsrl
    obtain ⟨-, rfl⟩ := EStateM.Result.ok.inj (hrun.symm.trans hrun')
    rw [hgen 3 (by decide) (by decide)] at h3
    exact absurd h3 (by decide)

end Nachos
