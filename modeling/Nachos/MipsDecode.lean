import Nachos.Translate

/-! The decoded instruction and `Instruction::Decode` (`mipssim.h`, `mipssim.cc`).
The op code numbers become constructors; `special` and `bcond` are the two marks of
`opTable` that ask for further decoding and never leave `decode`. -/
namespace Nachos

inductive OpCode where
  | add | addi | addiu | addu | and | andi | beq | bgez | bgezal | bgtz | blez | bltz
  | bltzal | bne | div | divu | j | jal | jalr | jr | lb | lbu | lh | lhu | lui | lw | lwl
  | lwr | mfhi | mflo | mthi | mtlo | mult | multu | nor | or | ori | rfe | sb | sh | sll
  | sllv | slt | slti | sltiu | sltu | sra | srav | srl | srlv | sub | subu | sw | swl | swr
  | xor | xori | syscall | unimp | res | special | bcond
  deriving DecidableEq, Repr

inductive Format where
  | ifmt
  | jfmt
  | rfmt
  deriving DecidableEq, Repr

def opTable : Vector (OpCode × Format) 64 := #v[
  (.special, .rfmt), (.bcond, .ifmt), (.j, .jfmt), (.jal, .jfmt),
  (.beq, .ifmt), (.bne, .ifmt), (.blez, .ifmt), (.bgtz, .ifmt),
  (.addi, .ifmt), (.addiu, .ifmt), (.slti, .ifmt), (.sltiu, .ifmt),
  (.andi, .ifmt), (.ori, .ifmt), (.xori, .ifmt), (.lui, .ifmt),
  (.unimp, .ifmt), (.unimp, .ifmt), (.unimp, .ifmt), (.unimp, .ifmt),
  (.res, .ifmt), (.res, .ifmt), (.res, .ifmt), (.res, .ifmt),
  (.res, .ifmt), (.res, .ifmt), (.res, .ifmt), (.res, .ifmt),
  (.res, .ifmt), (.res, .ifmt), (.res, .ifmt), (.res, .ifmt),
  (.lb, .ifmt), (.lh, .ifmt), (.lwl, .ifmt), (.lw, .ifmt),
  (.lbu, .ifmt), (.lhu, .ifmt), (.lwr, .ifmt), (.res, .ifmt),
  (.sb, .ifmt), (.sh, .ifmt), (.swl, .ifmt), (.sw, .ifmt),
  (.res, .ifmt), (.res, .ifmt), (.swr, .ifmt), (.res, .ifmt),
  (.unimp, .ifmt), (.unimp, .ifmt), (.unimp, .ifmt), (.unimp, .ifmt),
  (.res, .ifmt), (.res, .ifmt), (.res, .ifmt), (.res, .ifmt),
  (.unimp, .ifmt), (.unimp, .ifmt), (.unimp, .ifmt), (.unimp, .ifmt),
  (.res, .ifmt), (.res, .ifmt), (.res, .ifmt), (.res, .ifmt)]

def specialTable : Vector OpCode 64 := #v[
  .sll, .res, .srl, .sra, .sllv, .res, .srlv, .srav,
  .jr, .jalr, .res, .res, .syscall, .unimp, .res, .res,
  .mfhi, .mthi, .mflo, .mtlo, .res, .res, .res, .res,
  .mult, .multu, .div, .divu, .res, .res, .res, .res,
  .add, .addu, .sub, .subu, .and, .or, .xor, .nor,
  .res, .res, .slt, .sltu, .res, .res, .res, .res,
  .res, .res, .res, .res, .res, .res, .res, .res,
  .res, .res, .res, .res, .res, .res, .res, .res]

structure Instruction where
  opCode : OpCode
  rs : ℕ
  rt : ℕ
  rd : ℕ
  extra : Word
  deriving DecidableEq, Repr

def sixBits (value : Word) (lo : ℕ) : Fin 64 := (value.extractLsb' lo 6).toFin

def decodeExtra (value : Word) : Format → Word
  | .ifmt => (value.extractLsb' 0 16).signExtend 32
  | .rfmt => (value >>> 6) &&& 0x1f
  | .jfmt => value &&& 0x3ffffff

def decodeOpCode (value : Word) : OpCode → OpCode
  | .special => specialTable[sixBits value 0]
  | .bcond =>
    if value &&& 0x1f0000 = 0 then .bltz
    else if value &&& 0x1f0000 = 0x10000 then .bgez
    else if value &&& 0x1f0000 = 0x100000 then .bltzal
    else if value &&& 0x1f0000 = 0x110000 then .bgezal
    else .unimp
  | op => op

def decode (value : Word) : Instruction :=
  let (op, format) := opTable[sixBits value 26]
  { opCode := decodeOpCode value op
    rs := ((value >>> 21) &&& 0x1f).toNat
    rt := ((value >>> 16) &&& 0x1f).toNat
    rd := ((value >>> 11) &&& 0x1f).toNat
    extra := decodeExtra value format }

/-- The op codes `OneInstruction` has a case for. -/
def OpCode.Handled : OpCode → Prop
  | .rfe | .special | .bcond => False
  | _ => True

instance : DecidablePred OpCode.Handled := fun op => by
  cases op <;> first | exact isTrue trivial | exact isFalse id

theorem specialTable_handled (i : Fin 64) : (specialTable[i]).Handled := by
  revert i
  decide

theorem opTable_handled (i : Fin 64) :
    (opTable[i]).1 = .special ∨ (opTable[i]).1 = .bcond ∨ (opTable[i]).1.Handled := by
  revert i
  decide

def OpCode.format : OpCode → Format
  | .j | .jal => .jfmt
  | .add | .addu | .and | .div | .divu | .jalr | .jr | .mfhi | .mflo | .mthi | .mtlo | .mult
  | .multu | .nor | .or | .sll | .sllv | .slt | .sltu | .sra | .srav | .srl | .srlv | .sub | .subu
  | .syscall | .xor => .rfmt
  | _ => .ifmt

theorem specialTable_format (i : Fin 64) :
    specialTable[i] = .res ∨ specialTable[i] = .unimp ∨ (specialTable[i]).format = .rfmt := by
  revert i
  decide

theorem opTable_format (i : Fin 64) :
    (opTable[i]).1 = .special ∧ (opTable[i]).2 = .rfmt ∨
      (opTable[i]).1 = .bcond ∧ (opTable[i]).2 = .ifmt ∨
      (opTable[i]).1 = .res ∨ (opTable[i]).1 = .unimp ∨
      (opTable[i]).1 ≠ .special ∧ (opTable[i]).1 ≠ .bcond ∧
        (opTable[i]).2 = (opTable[i]).1.format := by
  revert i
  decide

theorem decodeOpCode_handled (value : Word) {op : OpCode}
    (h : op = .special ∨ op = .bcond ∨ op.Handled) : (decodeOpCode value op).Handled := by
  rcases h with rfl | rfl | h
  · exact specialTable_handled _
  · simp only [decodeOpCode]
    split_ifs <;> trivial
  · cases op <;> first | exact h | exact absurd h id

theorem decode_handled (value : Word) : (decode value).opCode.Handled :=
  decodeOpCode_handled value (opTable_handled _)

theorem and_thirtyOne_lt (w : Word) : (w &&& 0x1f).toNat < 32 := by
  have h := Nat.and_two_pow_sub_one_eq_mod w.toNat 5
  have hm : (w &&& 0x1f).toNat = w.toNat % 32 := by
    simpa using h
  omega

theorem decode_rs_lt (value : Word) : (decode value).rs < 32 := and_thirtyOne_lt _

theorem decode_rt_lt (value : Word) : (decode value).rt < 32 := and_thirtyOne_lt _

theorem decode_rd_lt (value : Word) : (decode value).rd < 32 := and_thirtyOne_lt _

end Nachos
