import Nachos.MipsDelaySlot

/-! The instruction word as the MIPS I architecture reads it: register numbers, shift amount,
immediate and jump index are bit fields of the word, and the kind of instruction says which of
them it has. `Instruction::Decode` finds the same fields. At the end, how `OneInstruction` goes
on after a fetch. -/
namespace Nachos

namespace Arch

def rs (word : Word) : ℕ := (word.extractLsb' 21 5).toNat
def rt (word : Word) : ℕ := (word.extractLsb' 16 5).toNat
def rd (word : Word) : ℕ := (word.extractLsb' 11 5).toNat
def shamt (word : Word) : ℕ := (word.extractLsb' 6 5).toNat
def immediate (word : Word) : BitVec 16 := word.extractLsb' 0 16
def index (word : Word) : BitVec 26 := word.extractLsb' 0 26

/-- The immediate of arithmetic, compare, branch and memory instructions. -/
def signed (word : Word) : Word := (immediate word).signExtend 32

/-- The immediate of logical instructions. -/
def unsigned (word : Word) : Word := (immediate word).zeroExtend 32

theorem rs_lt (word : Word) : rs word < 32 := (word.extractLsb' 21 5).isLt

theorem rt_lt (word : Word) : rt word < 32 := (word.extractLsb' 16 5).isLt

theorem rd_lt (word : Word) : rd word < 32 := (word.extractLsb' 11 5).isLt

end Arch

section fields
variable (word : Word)

theorem toNat_shift_and (lo : ℕ) :
    ((word >>> lo) &&& 0x1f).toNat = (word.extractLsb' lo 5).toNat := by
  have h := Nat.and_two_pow_sub_one_eq_mod (word.toNat >>> lo) 5
  simpa [BitVec.extractLsb'_toNat] using h

theorem decode_rs : (decode word).rs = Arch.rs word := toNat_shift_and word 21

theorem decode_rt : (decode word).rt = Arch.rt word := toNat_shift_and word 16

theorem decode_rd : (decode word).rd = Arch.rd word := toNat_shift_and word 11

theorem decodeOpCode_self {op : OpCode} (hs : op ≠ .special) (hb : op ≠ .bcond) :
    decodeOpCode word op = op := by
  unfold decodeOpCode
  split <;> simp_all

theorem decodeOpCode_bcond_format : (decodeOpCode word .bcond).format = .ifmt := by
  simp only [decodeOpCode]
  split_ifs <;> rfl

theorem decode_extra (hres : (decode word).opCode ≠ .res) (hun : (decode word).opCode ≠ .unimp) :
    (decode word).extra = decodeExtra word (decode word).opCode.format := by
  change decodeExtra word (opTable[sixBits word 26]).2 =
    decodeExtra word (decodeOpCode word (opTable[sixBits word 26]).1).format
  change decodeOpCode word (opTable[sixBits word 26]).1 ≠ _ at hres hun
  obtain ⟨hop, hf⟩ | ⟨hop, hf⟩ | hop | hop | ⟨hs, hb, hf⟩ := opTable_format (sixBits word 26)
  · rw [hop] at hres hun ⊢
    rw [hf]
    obtain h | h | h := specialTable_format (sixBits word 0)
    · exact absurd h hres
    · exact absurd h hun
    · exact congrArg _ h.symm
  · rw [hop, hf, decodeOpCode_bcond_format]
  · rw [hop] at hres
    exact absurd rfl hres
  · rw [hop] at hun
    exact absurd rfl hun
  · rw [decodeOpCode_self word hs hb, hf]

theorem decodeExtra_rfmt : (decodeExtra word .rfmt).toNat = Arch.shamt word :=
  toNat_shift_and word 6

theorem and_mask_eq (n : ℕ) (hn : n ≤ 32) :
    word &&& BitVec.ofNat 32 (2 ^ n - 1) = (word.setWidth n).setWidth 32 := by
  apply BitVec.eq_of_toNat_eq
  have hpow : 2 ^ n ≤ 2 ^ 32 := Nat.pow_le_pow_right (by decide) hn
  have hpos : 0 < 2 ^ n := Nat.two_pow_pos n
  have hlt : word.toNat % 2 ^ n < 2 ^ n := Nat.mod_lt _ hpos
  rw [BitVec.toNat_and, BitVec.toNat_ofNat, Nat.mod_eq_of_lt (by omega),
    Nat.and_two_pow_sub_one_eq_mod, BitVec.toNat_setWidth, BitVec.toNat_setWidth]
  exact (Nat.mod_eq_of_lt (by omega)).symm

theorem decodeExtra_jfmt : decodeExtra word .jfmt = (Arch.index word).zeroExtend 32 := by
  have hindex : Arch.index word = word.setWidth 26 := by
    rw [BitVec.setWidth_eq_extractLsb' (by decide)]
    rfl
  rw [hindex]
  exact and_mask_eq word 26 (by decide)

theorem signed_and_low : Arch.signed word &&& 0xffff = Arch.unsigned word := by
  have hlow : (Arch.signed word).setWidth 16 = Arch.immediate word := by
    rw [Arch.signed, ← BitVec.signExtend_eq_setWidth_of_le _ (by decide)]
    ext k hk
    have h32 : k < 32 := by omega
    simp [BitVec.getElem_signExtend, hk, h32]
  rw [Arch.unsigned, ← hlow]
  exact and_mask_eq _ 16 (by decide)

end fields

theorem fetch_reg {m m₁ : Machine} {word : Word} (hfetch : fetch m = .ok word m₁) (k : ℕ) :
    m₁.reg k = m.reg k := by
  have hleave : Leaves (fun _ => False) fetch :=
    (leaves_readRegister _).bind fun _ => leaves_readMem
  exact hleave m word m₁ hfetch k id

theorem oneInstruction_fetched {m m₁ : Machine} {word : Word} (hfetch : fetch m = .ok word m₁) :
    oneInstruction m =
      (execute (decode word) (m.reg nextPCReg + 4) >>= finishInstruction) m₁ := by
  rw [← fetch_reg hfetch, oneInstruction, EStateM.apply_bind, hfetch]
  rfl

/-- The general registers after an instruction: register 0 is zero, the others as `r` has
them. -/
def GeneralRegs (m' : Machine) (r : ℕ → Word) : Prop :=
  m'.reg 0 = 0 ∧ ∀ k, 0 < k → k < 32 → m'.reg k = r k

theorem finish_general {m : Machine} {a : After} (hload : m.reg loadReg = 0) :
    ∃ m', finishInstruction a m = .ok () m' ∧ GeneralRegs m' m.reg ∧
      m'.reg pcReg = m.reg nextPCReg ∧ m'.reg nextPCReg = a.pcAfter := by
  obtain ⟨m', hrun, -, hreg⟩ := finishInstruction_eq (m := m) a (by rw [LoadInRange, hload]; decide)
  refine ⟨m', hrun, ⟨hreg 0 (by decide), fun k h0 hk => ?_⟩, hreg _ (by decide), hreg _ (by decide)⟩
  rw [hreg k (show k < 40 by omega), finishReg_general (by omega) (by omega), hload]
  exact if_neg (show k ≠ 0 by omega)

theorem raise_general {m : Machine} (which : ExceptionType) (hload : m.reg loadReg = 0) :
    ∃ m', (raiseException which 0 : Exec After) m = .error (.raised which) m' ∧
      GeneralRegs m' m.reg := by
  obtain ⟨m', hrun, -, hreg⟩ := raiseException_eq (α := After) which 0 (m := m) (by
    rw [LoadInRange, hload]
    decide)
  refine ⟨m', hrun, (hreg 0 (by decide)).trans (if_pos (.inl rfl)), fun k h0 hk => ?_⟩
  rw [hreg k (show k < 40 by omega), entryReg, hload,
    if_neg (show ¬(k = 0 ∨ k = 37 ∨ k = 38) by omega), if_neg (show k ≠ 39 by omega)]
  exact if_neg (show k ≠ 0 by omega)

end Nachos
