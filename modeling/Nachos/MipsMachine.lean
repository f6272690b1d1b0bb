import Nachos.MipsDecode

/-! `Machine::OneInstruction` and what it calls (`mipssim.cc`, `machine.cc`,
`translate.cc`). An instruction ends in one of three ways: it completes, it stops at the
entry of `ExceptionHandler` (`Stop.raised`, with the machine the handler sees), or the
simulator itself dies (`Stop.trap`). The host is little endian, so the `ToHost` and
`ToMachine` conversions are the identity; signed overflow wraps and `>>` of an `int` is
arithmetic, as on every host the simulator builds on. -/
namespace Nachos

abbrev numTotalRegs : ℕ := 40
abbrev retAddrReg : ℕ := 31
abbrev hiReg : ℕ := 32
abbrev loReg : ℕ := 33
abbrev pcReg : ℕ := 34
abbrev nextPCReg : ℕ := 35
abbrev prevPCReg : ℕ := 36
abbrev loadReg : ℕ := 37
abbrev loadValueReg : ℕ := 38
abbrev badVAddrReg : ℕ := 39

structure Machine where
  registers : Fin numTotalRegs → Word
  mainMemory : Memory
  mmu : Mmu

inductive Stop where
  | raised (which : ExceptionType)
  | trap (t : Trap)
  deriving DecidableEq, Repr

abbrev Exec := EStateM Stop Machine

/-- The register as a total function, for statements about a machine. -/
def Machine.reg (m : Machine) (i : ℕ) : Word :=
  if h : i < numTotalRegs then m.registers ⟨i, h⟩ else 0

def Machine.setReg (m : Machine) (i : ℕ) (v : Word) : Machine :=
  { m with registers := fun k => if k.val = i then v else m.registers k }

def stop {α : Type} (t : Trap) : Exec α := throw (.trap t)

def readRegister (i : ℕ) : Exec Word := fun m =>
  if i < numTotalRegs then .ok (m.reg i) m else .error (.trap .memory) m

def writeRegister (i : ℕ) (v : Word) : Exec Unit := fun m =>
  if i < numTotalRegs then .ok () (m.setReg i v) else .error (.trap .memory) m

/-- The index of the first write is itself a register, taken from user state. -/
def delayedLoad (nextReg nextValue : Word) : Exec Unit := do
  let target ← readRegister loadReg
  let value ← readRegister loadValueReg
  writeRegister target.toNat value
  writeRegister loadReg nextReg
  writeRegister loadValueReg nextValue
  writeRegister 0 0

def raiseException {α : Type} (which : ExceptionType) (badVAddr : Word) : Exec α := do
  writeRegister badVAddrReg badVAddr
  delayedLoad 0 0
  throw (.raised which)

def translateOrRaise (addr : Word) (size : ℕ) (writing : Bool) : Exec ℕ := do
  let m ← get
  match translate m.mmu addr size writing with
  | .error t => stop t
  | .ok (.error e) => raiseException e addr
  | .ok (.ok (pa, mmu)) => do
    set { m with mmu := mmu }
    return pa

def readMem (addr : Word) (size : ℕ) : Exec Word := do
  let pa ← translateOrRaise addr size false
  let m ← get
  match m.mainMemory.read pa size with
  | some v => return v
  | none => stop .assertion

def writeMem (addr : Word) (size : ℕ) (value : Word) : Exec Unit := do
  let pa ← translateOrRaise addr size true
  let m ← get
  match size with
  | 1 | 2 | 4 => set { m with mainMemory := m.mainMemory.store pa size value }
  | _ => stop .assertion

/-- The loop of `Mult`, `n` rounds left: shift-and-add on the pair `hi:lo`. -/
def multLoop : ℕ → (a bHi bLo hi lo : Word) → Word × Word
  | 0, _, _, _, hi, lo => (hi, lo)
  | n + 1, a, bHi, bLo, hi, lo =>
    let odd := a &&& 1 ≠ 0
    let lo' := if odd then lo + bLo else lo
    let hi' := if odd then (if lo' < bLo then hi + 1 else hi) + bHi else hi
    if odd ∧ a &&& 0xfffffffe = 0 then (hi', lo')
    else
      let bHi' := if bLo &&& 0x80000000 ≠ 0 then bHi <<< 1 ||| 1 else bHi <<< 1
      multLoop n (a.sshiftRight 1) bHi' (bLo <<< 1) hi' lo'

def mult (a b : Word) (signedArith : Bool) : Word × Word :=
  if a = 0 ∨ b = 0 then (0, 0)
  else
    let negative := signedArith && (a.msb != b.msb)
    let a' := if signedArith && a.msb then -a else a
    let b' := if signedArith && b.msb then -b else b
    let (hi, lo) := multLoop 32 a' 0 b' 0 0
    if negative then
      let lo' := ~~~lo + 1
      (if lo' = 0 then ~~~hi + 1 else ~~~hi, lo')
    else (hi, lo)

structure After where
  pcAfter : Word
  nextLoadReg : Word := 0
  nextLoadValue : Word := 0

def branch (i : Instruction) (pcAfter : Word) (taken : Bool) : Exec After := do
  let next ← readRegister nextPCReg
  return { pcAfter := if taken then next + i.extra <<< 2 else pcAfter }

def link (rd : ℕ) : Exec Unit := do
  let next ← readRegister nextPCReg
  writeRegister rd (next + 4)

def load (i : Instruction) (pcAfter value : Word) : Exec After :=
  return { pcAfter := pcAfter, nextLoadReg := BitVec.ofNat 32 i.rt, nextLoadValue := value }

/-- The value a delayed load into `rt` would leave there (`LWL`, `LWR`). -/
def pendingValue (rt : ℕ) : Exec Word := do
  let target ← readRegister loadReg
  if target = BitVec.ofNat 32 rt then readRegister loadValueReg else readRegister rt

def alu (i : Instruction) (pcAfter : Word) (f : Word → Word → Word) : Exec After := do
  let rs ← readRegister i.rs
  let rt ← readRegister i.rt
  writeRegister i.rd (f rs rt)
  return { pcAfter := pcAfter }

def aluImm (i : Instruction) (pcAfter : Word) (f : Word → Word) : Exec After := do
  let rs ← readRegister i.rs
  writeRegister i.rt (f rs)
  return { pcAfter := pcAfter }

def moveReg (src dst : ℕ) (pcAfter : Word) : Exec After := do
  let v ← readRegister src
  writeRegister dst v
  return { pcAfter := pcAfter }

def setHiLo (hi lo pcAfter : Word) : Exec After := do
  writeRegister loReg lo
  writeRegister hiReg hi
  return { pcAfter := pcAfter }

def effectiveAddress (i : Instruction) : Exec Word := do
  let rs ← readRegister i.rs
  return rs + i.extra

/-- `ASSERT((tmp & 0x3) == 0)` of the four unaligned-access instructions. -/
def assertAligned (tmp : Word) : Exec Unit :=
  if tmp.toNat % 4 = 0 then return () else stop .assertion

def execute (i : Instruction) (pcAfter : Word) : Exec After :=
  match i.opCode with
  | .add => do
    let rs ← readRegister i.rs
    let rt ← readRegister i.rt
    if !(rs ^^^ rt).msb && (rs ^^^ (rs + rt)).msb then raiseException .overflow 0
    else do
      writeRegister i.rd (rs + rt)
      return { pcAfter := pcAfter }
  | .addi => do
    let rs ← readRegister i.rs
    if !(rs ^^^ i.extra).msb && (i.extra ^^^ (rs + i.extra)).msb then raiseException .overflow 0
    else do
      writeRegister i.rt (rs + i.extra)
      return { pcAfter := pcAfter }
  | .addiu => aluImm i pcAfter (· + i.extra)
  | .addu => alu i pcAfter (· + ·)
  | .and => alu i pcAfter (· &&& ·)
  | .andi => aluImm i pcAfter (· &&& (i.extra &&& 0xffff))
  | .beq => do
    let rs ← readRegister i.rs
    let rt ← readRegister i.rt
    branch i pcAfter (rs == rt)
  | .bgezal => do
    link retAddrReg
    let rs ← readRegister i.rs
    branch i pcAfter (!rs.msb)
  | .bgez => do
    let rs ← readRegister i.rs
    branch i pcAfter (!rs.msb)
  | .bgtz => do
    let rs ← readRegister i.rs
    branch i pcAfter ((0 : Word).slt rs)
  | .blez => do
    let rs ← readRegister i.rs
    branch i pcAfter (rs.sle 0)
  | .bltzal => do
    link retAddrReg
    let rs ← readRegister i.rs
    branch i pcAfter rs.msb
  | .bltz => do
    let rs ← readRegister i.rs
    branch i pcAfter rs.msb
  | .bne => do
    let rs ← readRegister i.rs
    let rt ← readRegister i.rt
    branch i pcAfter (rs != rt)
  | .div => do
    let rs ← readRegister i.rs
    let rt ← readRegister i.rt
    if rt = 0 then setHiLo 0 0 pcAfter
    -- the quotient does not fit an `int`: the host division has no value
    else if rs = BitVec.intMin 32 ∧ rt = -1 then stop .arithmetic
    else setHiLo (rs.srem rt) (rs.sdiv rt) pcAfter
  | .divu => do
    let rs ← readRegister i.rs
    let rt ← readRegister i.rt
    if rt = 0 then setHiLo 0 0 pcAfter else setHiLo (rs % rt) (rs / rt) pcAfter
  | .jal => do
    link retAddrReg
    return { pcAfter := (pcAfter &&& 0xf0000000) ||| (i.extra <<< 2) }
  | .j => return { pcAfter := (pcAfter &&& 0xf0000000) ||| (i.extra <<< 2) }
  | .jalr => do
    link i.rd
    let rs ← readRegister i.rs
    return { pcAfter := rs }
  | .jr => do
    let rs ← readRegister i.rs
    return { pcAfter := rs }
  | .lb => do
    let value ← readMem (← effectiveAddress i) 1
    load i pcAfter (if value &&& 0x80 ≠ 0 then value ||| 0xffffff00 else value &&& 0xff)
  | .lbu => do
    let value ← readMem (← effectiveAddress i) 1
    load i pcAfter (value &&& 0xff)
  | .lh => do
    let tmp ← effectiveAddress i
    if tmp.toNat % 2 ≠ 0 then raiseException .addressError tmp
    else do
      let value ← readMem tmp 2
      load i pcAfter (if value &&& 0x8000 ≠ 0 then value ||| 0xffff0000 else value &&& 0xffff)
  | .lhu => do
    let tmp ← effectiveAddress i
    if tmp.toNat % 2 ≠ 0 then raiseException .addressError tmp
    else do
      let value ← readMem tmp 2
      load i pcAfter (value &&& 0xffff)
  | .lui => aluImm i pcAfter (fun _ => i.extra <<< 16)
  | .lw => do
    let tmp ← effectiveAddress i
    if tmp.toNat % 4 ≠ 0 then raiseException .addressError tmp
    else do
      let value ← readMem tmp 4
      load i pcAfter value
  | .lwl => do
    let tmp ← effectiveAddress i
    assertAligned tmp
    let value ← readMem tmp 4
    let old ← pendingValue i.rt
    load i pcAfter <| match tmp.toNat % 4 with
      | 0 => value
      | 1 => (old &&& 0xff) ||| (value <<< 8)
      | 2 => (old &&& 0xffff) ||| (value <<< 16)
      | _ => (old &&& 0xffffff) ||| (value <<< 24)
  | .lwr => do
    let tmp ← effectiveAddress i
    assertAligned tmp
    let value ← readMem tmp 4
    let old ← pendingValue i.rt
    load i pcAfter <| match tmp.toNat % 4 with
      | 0 => (old &&& 0xffffff00) ||| ((value.sshiftRight 24) &&& 0xff)
      | 1 => (old &&& 0xffff0000) ||| ((value.sshiftRight 16) &&& 0xffff)
      | 2 => (old &&& 0xff000000) ||| ((value.sshiftRight 8) &&& 0xffffff)
      | _ => value
  | .mfhi => moveReg hiReg i.rd pcAfter
  | .mflo => moveReg loReg i.rd pcAfter
  | .mthi => moveReg i.rs hiReg pcAfter
  | .mtlo => moveReg i.rs loReg pcAfter
  | .mult => do
    let rs ← readRegister i.rs
    let rt ← readRegister i.rt
    setHiLo (mult rs rt true).1 (mult rs rt true).2 pcAfter
  | .multu => do
    let rs ← readRegister i.rs
    let rt ← readRegister i.rt
    setHiLo (mult rs rt false).1 (mult rs rt false).2 pcAfter
  | .nor => alu i pcAfter (fun rs rt => ~~~(rs ||| rt))
  -- both operands of the source's `|` are `rs`
  | .or => alu i pcAfter (fun rs _ => rs ||| rs)
  | .ori => aluImm i pcAfter (· ||| (i.extra &&& 0xffff))
  | .sb => do
    let rt ← readRegister i.rt
    writeMem (← effectiveAddress i) 1 rt
    return { pcAfter := pcAfter }
  | .sh => do
    let rt ← readRegister i.rt
    writeMem (← effectiveAddress i) 2 rt
    return { pcAfter := pcAfter }
  | .sll => alu i pcAfter (fun _ rt => rt <<< i.extra)
  | .sllv => alu i pcAfter (fun rs rt => rt <<< (rs &&& 0x1f))
  | .slt => alu i pcAfter (fun rs rt => if rs.slt rt then 1 else 0)
  | .slti => aluImm i pcAfter (fun rs => if rs.slt i.extra then 1 else 0)
  | .sltiu => aluImm i pcAfter (fun rs => if rs < i.extra then 1 else 0)
  | .sltu => alu i pcAfter (fun rs rt => if rs < rt then 1 else 0)
  | .sra => alu i pcAfter (fun _ rt => rt.sshiftRight i.extra.toNat)
  | .srav => alu i pcAfter (fun rs rt => rt.sshiftRight (rs &&& 0x1f).toNat)
  -- `tmp` is an `int`: the shift is arithmetic here too
  | .srl => alu i pcAfter (fun _ rt => rt.sshiftRight i.extra.toNat)
  | .srlv => alu i pcAfter (fun rs rt => rt.sshiftRight (rs &&& 0x1f).toNat)
  | .sub => do
    let rs ← readRegister i.rs
    let rt ← readRegister i.rt
    if (rs ^^^ rt).msb && (rs ^^^ (rs - rt)).msb then raiseException .overflow 0
    else do
      writeRegister i.rd (rs - rt)
      return { pcAfter := pcAfter }
  | .subu => alu i pcAfter (· - ·)
  | .sw => do
    let rt ← readRegister i.rt
    writeMem (← effectiveAddress i) 4 rt
    return { pcAfter := pcAfter }
  | .swl => do
    let tmp ← effectiveAddress i
    assertAligned tmp
    let old ← readMem (tmp &&& ~~~3) 4
    let rt ← readRegister i.rt
    writeMem (tmp &&& ~~~3) 4 <| match tmp.toNat % 4 with
      | 0 => rt
      | 1 => (old &&& 0xff000000) ||| ((rt.sshiftRight 8) &&& 0xffffff)
      | 2 => (old &&& 0xffff0000) ||| ((rt.sshiftRight 16) &&& 0xffff)
      | _ => (old &&& 0xffffff00) ||| ((rt.sshiftRight 24) &&& 0xff)
    return { pcAfter := pcAfter }
  | .swr => do
    let tmp ← effectiveAddress i
    assertAligned tmp
    let old ← readMem (tmp &&& ~~~3) 4
    let rt ← readRegister i.rt
    writeMem (tmp &&& ~~~3) 4 <| match tmp.toNat % 4 with
      | 0 => (old &&& 0xffffff) ||| (rt <<< 24)
      | 1 => (old &&& 0xffff) ||| (rt <<< 16)
      | 2 => (old &&& 0xff) ||| (rt <<< 8)
      | _ => rt
    return { pcAfter := pcAfter }
  | .syscall => raiseException .syscall 0
  | .xor => alu i pcAfter (· ^^^ ·)
  | .xori => aluImm i pcAfter (· ^^^ (i.extra &&& 0xffff))
  | .res | .unimp => raiseException .illegalInstr 0
  | .rfe | .special | .bcond => stop .assertion

def finishInstruction (a : After) : Exec Unit := do
  delayedLoad a.nextLoadReg a.nextLoadValue
  writeRegister prevPCReg (← readRegister pcReg)
  writeRegister pcReg (← readRegister nextPCReg)
  writeRegister nextPCReg a.pcAfter

def fetch : Exec Word := do
  let pc ← readRegister pcReg
  readMem pc 4

def oneInstruction : Exec Unit := do
  let raw ← fetch
  let next ← readRegister nextPCReg
  let a ← execute (decode raw) (next + 4)
  finishInstruction a

end Nachos
