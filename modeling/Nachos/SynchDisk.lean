import Nachos.FileHeader
import Nachos.Lock
import Nachos.Reachability

/-! The synchronous disk (`synchdisk.cc`) over the raw disk (`disk.cc`). A switch may come
between any two statements of `ReadSector` and `WriteSector`, the completion interrupt whenever
one is scheduled; its handler and the bodies of `P` and `V` run with interrupts off and are one
step. A failing `ASSERT` stops the machine. The numbers `since` and `turn` of a request and the
fields `order` and `log` are not in the source: `order` has the calls in the order in which
they got the lock, `turn` is the place of a call in it and `since` the length it had when the
call was made; `log` has the requests, the interrupts and the returns in their order. -/
namespace Nachos.SynchDisk

open ByteBuffer

inductive Op where
  | readSector (sectorNumber : ℤ)
  | writeSector (sectorNumber : ℤ) (data : Buffer)

def Op.sectorNumber : Op → ℤ
  | .readSector n => n
  | .writeSector n _ => n

/-- The second `ASSERT` of a request. -/
def Op.Valid (op : Op) : Prop := 0 ≤ op.sectorNumber ∧ op.sectorNumber < numSectorsOnDisk

instance (op : Op) : Decidable op.Valid := inferInstanceAs (Decidable (_ ∧ _))

structure Request where
  op : Op
  since : ℕ
  turn : ℕ
  data : Buffer

inductive Stage where
  | acquireSet
  | requestAssert
  | transfer
  | setActive
  | schedule
  | wait
  | releaseAssert
  | releaseClear
  | releaseUnlock
  deriving DecidableEq, Repr

inductive Pc where
  | user
  | acquireP (since : ℕ) (op : Op)
  | serving (stage : Stage) (request : Request)

inductive Event (T : Type) where
  | requested (turn : ℕ)
  | interrupted (turn : ℕ)
  | returned (t : T) (since turn : ℕ) (data : Buffer)

structure Device (T : Type) where
  semaphore : Semaphore T
  sectors : Disk
  active : Bool
  pending : List ℕ
  order : List (T × Op)
  log : List (Event T)

structure State (T : Type) where
  lock : Lock T
  device : Device T
  pc : T → Pc
  aborted : Bool

def State.new (T : Type) (sectors : Disk) : State T where
  lock := Lock.new T
  device := ⟨⟨0, []⟩, sectors, false, [], [], []⟩
  pc := fun _ => .user
  aborted := false

inductive Input (T : Type) where
  | thread (t : T) (op : Op)
  | interrupt (turn : ℕ)

/-- `HandleInterrupt` and `RequestDone`. -/
def Device.handleInterrupt {T : Type} (d : Device T) (turn : ℕ) : Device T :=
  { d with
    active := false
    semaphore := d.semaphore.v
    pending := d.pending.erase turn
    log := d.log ++ [.interrupted turn] }

variable {T : Type} [DecidableEq T]

def State.goto (s : State T) (t : T) (p : Pc) (lock : Lock T) (device : Device T) : State T :=
  { s with lock := lock, device := device, pc := Function.update s.pc t p }

def transfer (d : Device T) (r : Request) : Device T × Request :=
  match r.op with
  | .readSector n => (d, { r with data := d.sectors n.toNat })
  | .writeSector n data => ({ d with sectors := Function.update d.sectors n.toNat data }, r)

def State.serve (s : State T) (t : T) (r : Request) : Stage → Option (State T)
  | .acquireSet =>
    some (s.goto t (.serving .requestAssert r) { s.lock with lockHolder := some t } s.device)
  | .requestAssert =>
    if s.device.active = false ∧ r.op.Valid then
      some (s.goto t (.serving .transfer r) s.lock s.device)
    else some { s with aborted := true }
  | .transfer =>
    some (s.goto t (.serving .setActive (transfer s.device r).2) s.lock (transfer s.device r).1)
  | .setActive => some (s.goto t (.serving .schedule r) s.lock { s.device with active := true })
  | .schedule =>
    some (s.goto t (.serving .wait r) s.lock { s.device with
      pending := s.device.pending ++ [r.turn]
      log := s.device.log ++ [.requested r.turn] })
  | .wait => match s.device.semaphore.p t with
    | none => none
    | some (sem, false) =>
      some (s.goto t (.serving .wait r) s.lock { s.device with semaphore := sem })
    | some (sem, true) =>
      some (s.goto t (.serving .releaseAssert r) s.lock { s.device with semaphore := sem })
  | .releaseAssert =>
    if s.lock.isHeldByCurrentThread t then
      some (s.goto t (.serving .releaseClear r) s.lock s.device)
    else some { s with aborted := true }
  | .releaseClear =>
    some (s.goto t (.serving .releaseUnlock r) { s.lock with lockHolder := none } s.device)
  | .releaseUnlock =>
    some (s.goto t .user { s.lock with mutex := s.lock.mutex.v } { s.device with
      log := s.device.log ++ [.returned t r.since r.turn r.data] })

/-- The buffer a call comes with; what a reader's holds is of no concern. -/
def Op.buffer : Op → Buffer
  | .readSector _ => fun _ => 0
  | .writeSector _ data => data

def State.exec (s : State T) (t : T) (op : Op) : Option (State T) :=
  match s.pc t with
  | .user => some (s.goto t (.acquireP s.device.order.length op) s.lock s.device)
  | .acquireP since op => match s.lock.mutex.p t with
    | none => none
    | some (mutex, false) =>
      some (s.goto t (.acquireP since op) { s.lock with mutex := mutex } s.device)
    | some (mutex, true) =>
      some (s.goto t (.serving .acquireSet ⟨op, since, s.device.order.length, op.buffer⟩)
        { s.lock with mutex := mutex } { s.device with order := s.device.order ++ [(t, op)] })
  | .serving st r => s.serve t r st

def State.step (s : State T) (i : Input T) : Option (State T) :=
  if s.aborted then none
  else match i with
    | .thread t op => s.exec t op
    | .interrupt turn =>
      if turn ∈ s.device.pending then some { s with device := s.device.handleInterrupt turn }
      else none

def Step (s s' : State T) : Prop :=
  ∃ i, (∀ t op, i = .thread t op → op.Valid) ∧ s.step i = some s'

/-- What sector `n` holds after the calls given: the data of the last `WriteSector` to it,
or else the initial contents. -/
def lastWritten (sectors : Disk) (calls : List (T × Op)) (n : ℤ) : Buffer :=
  calls.foldl (fun data call => match call.2 with
    | .readSector _ => data
    | .writeSector m written => if m = n then written else data) (sectors n.toNat)

end Nachos.SynchDisk
