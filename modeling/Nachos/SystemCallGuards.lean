import Nachos.SystemCalls
import Nachos.UserNames

/-! What a user program can make the kernel do with the arguments of a system call: when the call
comes back, and when a handle that is not in use is rejected. A call that does not come back has
failed an `ASSERT`, or it has left one of its arrays and may do anything afterwards. The conditions
follow `ReadMem` and `WriteMem` along the bytes that a call copies, for any user memory. -/
namespace Nachos.Syscall
open EStateM

variable {μ T : Type}

section Rules

variable {α : Type}

@[simp] theorem onMem_apply (x : EStateM Trap μ α) (s : Sys μ T) : onMem x s =
    match x s.mem with
    | .ok a m => .ok a { s with mem := m }
    | .error t m => .error t { s with mem := m } := rfl

@[simp] theorem check_ok (a : α) (s : Sys μ T) : check (.ok a) s = .ok a s := rfl

@[simp] theorem check_error (t : Trap) (s : Sys μ T) :
    (check (.error t) : Syscall μ T α) s = .error t s := rfl

theorem check_eq_ok {x : Except Trap α} {a : α} {s s' : Sys μ T} (h : check x s = .ok a s') :
    x = .ok a ∧ s' = s := by
  cases x with
  | error t => cases h
  | ok b =>
    cases h
    exact ⟨rfl, rfl⟩

theorem onMem_eq_ok {x : EStateM Trap μ α} {a : α} {s s' : Sys μ T} (h : onMem x s = .ok a s') :
    ∃ m, s' = { s with mem := m } := by
  rw [onMem_apply] at h
  split at h
  · cases h
    exact ⟨_, rfl⟩
  · cases h

@[simp] theorem act_apply (a : Action) (s : Sys μ T) :
    act a s = .ok () { s with actions := s.actions ++ [a] } := rfl

@[simp] theorem writeResult_apply (v : ℤ) (s : Sys μ T) :
    writeResult v s = .ok () { s with r2 := BitVec.ofInt 32 v } := rfl

@[simp] theorem returnFromSystemCall_apply (s : Sys μ T) : returnFromSystemCall s =
    .ok () { s with prevPC := s.pc, pc := s.nextPC, nextPC := s.nextPC + 4 } := rfl

@[simp] theorem nop_apply (s : Sys μ T) : nop s = .ok (s.nop s.currentThread) s := rfl

theorem buffer_pos {size : ℤ} (h : 0 < size) (s : Sys μ T) : buffer size s = .ok size.toNat s := by
  rw [buffer, if_pos h]
  rfl

theorem buffer_nonpos {size : ℤ} (h : ¬0 < size) (s : Sys μ T) :
    buffer size s = .error .memory s := by
  rw [buffer, if_neg h]
  rfl

end Rules

section Copies

variable (mem : UserMemory μ)

variable {mem} {m m' : μ} {direc c : Word}

end Copies

section Calls

variable [DecidableEq T] (mem : UserMemory μ) (host : Host) (s : Sys μ T)

def opened (s : Sys μ T) (id : ℤ) : Bool := (s.nop s.currentThread).holds id

/-- The call names a handle that is not open, or not created. -/
def stray (s : Sys μ T) : Bool :=
  match SyscallType.ofInt s.r2.toInt with
  | some .read | some .write => !opened s s.r6.toInt
  | some .close => !opened s s.r4.toInt
  | some .semDestroy | some .semSignal | some .semWait => !s.smt.holds s.r4.toInt
  | _ => false

/-- The bytes that the host has for a `Read`. -/
def delivered (s : Sys μ T) : Option (List Byte) :=
  if s.r6.toInt = 0 then
    match host.fgets with
    | none => some []
    | some c => some (if c = 0 then [] else [c])
  else if s.r6.toInt = 1 ∨ s.r6.toInt = 2 then none
  else if opened s s.r6.toInt then
    host.read (((s.nop s.currentThread).values[s.r6.toInt.toNat]?).getD (-1)) s.r5.toInt.toNat
  else none

variable {mem host s}

end Calls

end Nachos.Syscall
