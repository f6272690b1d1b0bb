import Nachos.AddrSpace

/-! Memory accesses in the VM build: `ReadMem` and `WriteMem` through the TLB
(`translate.cc`), the exceptions they raise (`exception.cc`), and a user instruction that is
tried again after its fault has been served. -/
namespace Nachos

/-- `Nachos_PageFault`: a second fault in a row on one page fails its `ASSERT`. -/
def nachosPageFault (badVAddr : Word) : Kernel Unit := do
  let vpn := badVAddr.toInt.tdiv pageSize
  let s ← get
  if s.lastFault = vpn then throw .assertion
  set { s with lastFault := vpn }
  moveraMemoria vpn

/-- `RaiseException` for what a memory access can raise: only a page fault is served. -/
def raiseMemoryException (which : ExceptionType) (badVAddr : Word) : Kernel Unit :=
  match which with
  | .pageFault => nachosPageFault badVAddr
  | _ => throw .assertion

def translateOrServe (addr : Word) (size : ℕ) (writing : Bool) : Kernel (Option ℕ) := do
  let s ← get
  match translate (.tlb s.tlb) addr size writing with
  | .error t => throw t
  | .ok (.error e) => do
    raiseMemoryException e addr
    return none
  | .ok (.ok (pa, .tlb tlb)) => do
    set { s with tlb := tlb }
    return some pa
  | .ok (.ok (_, .pageTable _)) => throw .memory

def vmReadMem (addr : Word) (size : ℕ) : Kernel (Option Word) := do
  match ← translateOrServe addr size false with
  | none => return none
  | some pa => do
    let s ← get
    match s.mainMemory.read pa size with
    | some v => return some v
    | none => throw .assertion

def vmWriteMem (addr : Word) (size : ℕ) (value : Word) : Kernel Bool := do
  match ← translateOrServe addr size true with
  | none => return false
  | some pa => do
    modify fun s => { s with mainMemory := s.mainMemory.store pa size value }
    return true

/-- A load of a user program. The instruction is executed again after a fault; the handler
does not return from a second fault in a row. -/
def userLoad (addr : Word) (size : ℕ) : Kernel Word := do
  match ← vmReadMem addr size with
  | some v => return v
  | none =>
    match ← vmReadMem addr size with
    | some v => return v
    | none => throw .assertion

def userStore (addr : Word) (size : ℕ) (value : Word) : Kernel Unit := do
  if ← vmWriteMem addr size value then return
  if ← vmWriteMem addr size value then return
  throw .assertion

end Nachos
