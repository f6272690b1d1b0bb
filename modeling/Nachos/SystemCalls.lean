import Nachos.HandleTables
import Nachos.UserCopy

/-! The system calls (`exception.cc`). Each call reads its arguments from the registers, copies
names and data through `ReadMem` and `WriteMem`, looks handles up in the tables and leaves its
result in `r2`. What it asks of the scheduler and of the host is recorded in `actions`. A call
that sleeps goes on in the state that it finds when it is woken, with its own registers. The host
answers through `Host`; buffers are bounded by their size alone, not by the room on the stack. -/
namespace Nachos

/-- The answers of the host during one call. -/
structure Host where
  fgets : Option Byte
  read : ℤ → ℕ → Option (List Byte)
  read_length : ∀ fd n bytes, read fd n = some bytes → bytes.length ≤ n
  write : ℤ → List Byte → ℤ
  openUnix : List Byte → ℤ
  newSemaphore : ℤ

theorem length_le_of_none_eq_some (_ : ℤ) (n : ℕ) (bytes : List Byte)
    (h : none = some bytes) : bytes.length ≤ n := by
  cases h

inductive Action where
  | halt
  | exit
  | exec (nombre : List Byte)
  | join (id : ℕ)
  | creat (name : List Byte)
  | consoleP
  | consoleV
  | print (bytes : List Byte)
  | printInt (value : ℤ)
  | closeUnix (fd : ℤ)
  | fork (func : Word)
  | yield
  | semNew (initialValue sem : ℤ)
  | semP (sem : ℤ)
  | semV (sem : ℤ)
  deriving DecidableEq, Repr

/-- The codes of `syscall.h`. -/
inductive SyscallType where
  | halt | exit | exec | join | create | openFile | read | write | close | fork | yield
  | semCreate | semDestroy | semSignal | semWait
  deriving DecidableEq, Repr

def SyscallType.ofInt : ℤ → Option SyscallType
  | 0 => some .halt
  | 1 => some .exit
  | 2 => some .exec
  | 3 => some .join
  | 4 => some .create
  | 5 => some .openFile
  | 6 => some .read
  | 7 => some .write
  | 8 => some .close
  | 9 => some .fork
  | 10 => some .yield
  | 11 => some .semCreate
  | 12 => some .semDestroy
  | 13 => some .semSignal
  | 14 => some .semWait
  | _ => none

structure Sys (μ T : Type) where
  r2 : Word
  r4 : Word
  r5 : Word
  r6 : Word
  prevPC : Word
  pc : Word
  nextPC : Word
  mem : μ
  currentThread : T
  nop : T → NachosOpenFilesTable
  smt : SemTabla
  ejecutables : List (List Byte)
  archivoAE : ℤ
  actions : List Action

abbrev Syscall (μ T : Type) := EStateM Trap (Sys μ T)

namespace Syscall

variable {μ T : Type}

def onMem {α : Type} (x : EStateM Trap μ α) : Syscall μ T α := fun s =>
  match x s.mem with
  | .ok a m => .ok a { s with mem := m }
  | .error t m => .error t { s with mem := m }

def check {α : Type} : Except Trap α → Syscall μ T α
  | .ok a => pure a
  | .error t => throw t

def act (a : Action) : Syscall μ T Unit := modify fun s => { s with actions := s.actions ++ [a] }

def writeResult (v : ℤ) : Syscall μ T Unit := modify fun s => { s with r2 := BitVec.ofInt 32 v }

def returnFromSystemCall : Syscall μ T Unit := modify fun s =>
  { s with prevPC := s.pc, pc := s.nextPC, nextPC := s.nextPC + 4 }

def nop : Syscall μ T NachosOpenFilesTable := do
  let s ← get
  return s.nop s.currentThread

def setNop [DecidableEq T] (t : NachosOpenFilesTable) : Syscall μ T Unit := modify fun s =>
  { s with nop := Function.update s.nop s.currentThread t }

/-- `char buffer[size] = {0}` needs a positive size. -/
def buffer (size : ℤ) : Syscall μ T ℕ := if 0 < size then pure size.toNat else throw .memory

variable (mem : UserMemory μ)

variable [DecidableEq T] (host : Host)

def nachosOpen : Syscall μ T Unit := do
  let name ← onMem (openName mem (← get).r4)
  let (idFake, t) ← check ((← nop).openHandle (host.openUnix name))
  setNop t
  writeResult idFake
  returnFromSystemCall

/-- `fgets` reads at most one character, and stores a zero behind it. -/
def fgets (room : ℕ) : Syscall μ T (List Byte) :=
  match host.fgets with
  | none => pure []
  | some c => if room < 2 then throw .memory else pure (if c = 0 then [] else [c])

def nachosRead : Syscall μ T Unit := do
  let s ← get
  let room ← buffer s.r5.toInt
  let id := s.r6.toInt
  act .consoleP
  if id = 0 then
    let bytes ← fgets host room
    onMem (copyOut mem s.r4 bytes)
    writeResult bytes.length
  else if id = 1 ∨ id = 2 then writeResult (-1)
  else if ← check ((← nop).isOpened id) then
    match host.read (← check ((← nop).getUnixHandle id)) room with
    | none => writeResult (-1)
    | some bytes =>
      onMem (copyOut mem s.r4 bytes)
      writeResult bytes.length
  else writeResult (-1)
  act .consoleV
  returnFromSystemCall

def nachosWrite : Syscall μ T Unit := do
  let s ← get
  let room ← buffer (s.r5 + 1).toInt
  let id := s.r6.toInt
  act .consoleP
  let bytes ← onMem (writeBuffer mem s.r4 (room - 1))
  if id = 0 then writeResult (-1)
  else if id = 1 then act (.print bytes)
  else if id = 2 then act (.printInt s.r4.toInt)
  else if ← check ((← nop).isOpened id) then
    let id2 ← check ((← nop).getUnixHandle id)
    writeResult (host.write id2 ((bytes ++ List.replicate room 0).take (room - 1)))
  else writeResult (-1)
  act .consoleV
  returnFromSystemCall

/-- The result of `Close` of the table is not used. -/
def nachosClose : Syscall μ T Unit := do
  let id := (← get).r4.toInt
  act (.closeUnix (← check ((← nop).getUnixHandle id)))
  let (_, t) ← check ((← nop).close id)
  setNop t
  returnFromSystemCall

def onSemaphore (op : ℤ → Action) : Syscall μ T Unit := do
  let s ← get
  let idReal ← check (s.smt.getSemaphore s.r4.toInt)
  if idReal = -1 then writeResult (-1)
  else
    act (op idReal)
    writeResult 1
  returnFromSystemCall

variable {mem host}

end Syscall

end Nachos
