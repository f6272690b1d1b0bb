import Nachos.Lock
import Nachos.MailFormat
import Nachos.SynchList

/-! Post offices on the machines of a network (`post.cc`, `network.cc`). The socket of a machine
delivers its datagrams in order and loses none. A thread is switched out where simulated time
advances, that is, where `P` and `V` turn the interrupts back on: what `Network::Send`,
`Network::Receive` and the interrupt handlers do is one step each. A failing `ASSERT` stops its
machine. The postal worker is the thread `none`. `junk` is what a fresh buffer holds. `handed`
and the message beside a packet are not in the source: `handed` has the messages given to
`Network::Send`, each with whether the network took it or dropped it. -/
namespace Nachos.PostOffice

open ByteBuffer

structure Mail where
  pktHdr : PacketHeader
  mailHdr : MailHeader
  data : Buffer

instance : Inhabited Mail := ⟨⟨default, default, fun _ => 0⟩⟩

def Mail.message (mail : Mail) : Message :=
  ⟨mail.pktHdr, mail.mailHdr, bytes mail.data mail.mailHdr.length.toNat⟩

/-- The `ASSERT`s of `Network`, `PostOffice`, `Mail` and `Lock`. -/
inductive Assertion where
  | sendLength
  | sendBox
  | networkSend
  | checkPktAvail
  | deliveryBox
  | deliveryLength
  | mailLength
  | receiveBox
  | receiveLength
  | lockHeld
  deriving DecidableEq, Repr

structure Packet where
  pktHdr : PacketHeader
  buffer : Buffer
  message : Message

inductive Pc where
  | user
  | sendAcquireP (packet : Packet)
  | sendAcquireSet (packet : Packet)
  | sendNetwork (packet : Packet)
  | sendWait
  | sendReleaseAssert
  | sendReleaseClear
  | sendReleaseUnlock
  | receiving (box : ℤ)

inductive Worker where
  | wait
  | receive
  | put (box : ℤ) (mail : Mail)
  | putting (box : ℤ)

structure Machine (T : Type) where
  inHdr : PacketHeader
  inbox : Buffer
  sendBusy : Bool
  socket : List Buffer
  sendInts : ℕ
  messageAvailable : Semaphore (Option T)
  messageSent : Semaphore (Option T)
  sendLock : Lock (Option T)
  boxes : ℤ → SynchList.State (Option T) Mail
  worker : Worker
  buffer : Buffer
  pc : T → Pc
  aborted : Option Assertion
  handed : List (Message × Bool)

def Machine.new (T : Type) (junk : Buffer) : Machine T where
  inHdr := default
  inbox := junk
  sendBusy := false
  socket := []
  sendInts := 0
  messageAvailable := ⟨0, []⟩
  messageSent := ⟨0, []⟩
  sendLock := Lock.new (Option T)
  boxes := fun _ => SynchList.State.new
  worker := .wait
  buffer := junk
  pc := fun _ => .user
  aborted := none
  handed := []

inductive Call where
  | send (pktHdr : PacketHeader) (mailHdr : MailHeader) (data : Buffer)
  | receive (box : BitVec 32)

def ValidBox (numBoxes : ℤ) (box : BitVec 32) : Prop := 0 ≤ box.toInt ∧ box.toInt < numBoxes

instance (numBoxes : ℤ) (box : BitVec 32) : Decidable (ValidBox numBoxes box) :=
  inferInstanceAs (Decidable (_ ∧ _))

namespace Machine
variable {T : Type}

def abort (x : Machine T) (a : Assertion) : Machine T := { x with aborted := some a }

def sendCall (numBoxes : ℤ) (addr : BitVec 32) (pktHdr : PacketHeader) (mailHdr : MailHeader)
    (data junk : Buffer) : Except Assertion Packet :=
  if ¬ mailHdr.length.toNat ≤ maxMailSize then .error .sendLength
  else if ¬ ValidBox numBoxes mailHdr.toBox then .error .sendBox
  else
    let pktHdr := { pktHdr with
      fromAddr := addr
      length := mailHdr.length + BitVec.ofNat 32 headerSize }
    .ok ⟨pktHdr, overlay (mailHdr.store junk) headerSize mailHdr.length.toNat data,
      ⟨pktHdr, mailHdr, bytes data mailHdr.length.toNat⟩⟩

def checkPktAvail (ident : BitVec 32) (x : Machine T) : Machine T :=
  if x.inHdr.length ≠ 0 then x
  else match x.socket with
    | [] => x
    | wire :: rest =>
      if (PacketHeader.load wire).toAddr = ident ∧
          (PacketHeader.load wire).length.toNat ≤ maxPacketSize then
        { x with
          socket := rest
          inHdr := PacketHeader.load wire
          inbox := overlay x.inbox 0 (PacketHeader.load wire).length.toNat (pastHeader wire)
          messageAvailable := x.messageAvailable.v }
      else { x with socket := rest, inHdr := PacketHeader.load wire }.abort .checkPktAvail

def sendDone (x : Machine T) : Machine T :=
  { x with sendInts := x.sendInts - 1, sendBusy := false, messageSent := x.messageSent.v }

def receive (x : Machine T) : Machine T :=
  { x with
    inHdr := { x.inHdr with length := 0 }
    buffer := if x.inHdr.length ≠ 0 then overlay x.buffer 0 x.inHdr.length.toNat x.inbox
      else x.buffer }

/-- One round of `PostalDelivery` after `P`, up to the mailbox. -/
def deliver (numBoxes : ℤ) (junk : Buffer) (x : Machine T) : Machine T :=
  let mailHdr := MailHeader.load x.receive.buffer
  if ¬ ValidBox numBoxes mailHdr.toBox then x.receive.abort .deliveryBox
  else if ¬ mailHdr.length.toNat ≤ maxMailSize then x.receive.abort .deliveryLength
  else if ¬ mailHdr.length.toNat ≤ maxMailSize then x.receive.abort .mailLength
  else { x.receive with
    worker := .put mailHdr.toBox.toInt ⟨x.inHdr, mailHdr,
      overlay junk 0 mailHdr.length.toNat (pastHeader x.receive.buffer)⟩ }

variable [DecidableEq T]

def goto (x : Machine T) (t : T) (p : Pc) : Machine T := { x with pc := Function.update x.pc t p }

def setBox (x : Machine T) (b : ℤ) (box : SynchList.State (Option T) Mail) : Machine T :=
  { x with boxes := Function.update x.boxes b box }

def work (numBoxes : ℤ) (junk : Buffer) (x : Machine T) : Option (Machine T) :=
  match x.worker with
  | .wait => match x.messageAvailable.p none with
    | none => none
    | some (sem, false) => some { x with messageAvailable := sem }
    | some (sem, true) => some { x with messageAvailable := sem, worker := .receive }
  | .receive => some (x.deliver numBoxes junk)
  | .put b mail => match (x.boxes b).step none (.append mail) with
    | none => none
    | some box => some { x.setBox b box with worker := .putting b }
  | .putting b => match (x.boxes b).step none .remove with
    | none => none
    | some box =>
      match box.pc none with
      | .idle => some { x.setBox b box with worker := .wait }
      | _ => some (x.setBox b box)

/-- The next step of a thread in `MailBox::Get`, and the check of `Receive` after it. -/
def get (x : Machine T) (t : T) (b : ℤ) : Option (Machine T) :=
  match (x.boxes b).step (some t) .remove with
  | none => none
  | some box => match (x.boxes b).pc (some t) with
    | .removeUnlock mail =>
      if mail.mailHdr.length.toNat ≤ maxMailSize then some ((x.setBox b box).goto t .user)
      else some ((x.setBox b box).abort .receiveLength)
    | _ => some (x.setBox b box)

/-- The next step of thread `t` on its own machine; `Network::Send` is a step of the network. -/
def exec (numBoxes : ℤ) (addr : BitVec 32) (x : Machine T) (t : T) (call : Call)
    (junk : Buffer) : Option (Machine T) :=
  match x.pc t with
  | .user => match call with
    | .send pktHdr mailHdr data => match sendCall numBoxes addr pktHdr mailHdr data junk with
      | .error a => some (x.abort a)
      | .ok packet => some (x.goto t (.sendAcquireP packet))
    | .receive box =>
      if ValidBox numBoxes box then some (x.goto t (.receiving box.toInt))
      else some (x.abort .receiveBox)
  | .sendAcquireP packet => match x.sendLock.mutex.p (some t) with
    | none => none
    | some (mutex, false) => some { x with sendLock := { x.sendLock with mutex := mutex } }
    | some (mutex, true) =>
      some ({ x with sendLock := { x.sendLock with mutex := mutex } }.goto t
        (.sendAcquireSet packet))
  | .sendAcquireSet packet =>
    some ({ x with sendLock := { x.sendLock with lockHolder := some (some t) } }.goto t
      (.sendNetwork packet))
  | .sendNetwork _ => none
  | .sendWait => match x.messageSent.p (some t) with
    | none => none
    | some (sem, false) => some { x with messageSent := sem }
    | some (sem, true) => some ({ x with messageSent := sem }.goto t .sendReleaseAssert)
  | .sendReleaseAssert =>
    if x.sendLock.isHeldByCurrentThread (some t) then some (x.goto t .sendReleaseClear)
    else some (x.abort .lockHeld)
  | .sendReleaseClear =>
    some ({ x with sendLock := { x.sendLock with lockHolder := none } }.goto t .sendReleaseUnlock)
  | .sendReleaseUnlock =>
    some ({ x with sendLock := { x.sendLock with mutex := x.sendLock.mutex.v } }.goto t .user)
  | .receiving b => x.get t b

end Machine

abbrev State (T : Type) := BitVec 32 → Machine T

variable {T : Type} [DecidableEq T]

def post (s : State T) (wire : Buffer) (toAddr : BitVec 32) : State T :=
  Function.update s toAddr { s toAddr with socket := (s toAddr).socket ++ [wire] }

/-- The `ASSERT` of `Network::Send`. -/
def SendOk (ident : BitVec 32) (x : Machine T) (pktHdr : PacketHeader) : Prop :=
  x.sendBusy = false ∧ 0 < pktHdr.length.toNat ∧ pktHdr.length.toNat ≤ maxPacketSize ∧
    pktHdr.fromAddr = ident

instance (ident : BitVec 32) (x : Machine T) (pktHdr : PacketHeader) :
    Decidable (SendOk ident x pktHdr) := inferInstanceAs (Decidable (_ ∧ _ ∧ _ ∧ _))

/-- `Network::Send`; `works` says that the packet is not one of those it drops. -/
def networkSend (s : State T) (ident : BitVec 32) (t : T) (packet : Packet) (junk : Buffer)
    (works : Bool) : State T :=
  if SendOk ident (s ident) packet.pktHdr then
    let s := if works then post s (overlay (packet.pktHdr.store junk) headerSize
      packet.pktHdr.length.toNat packet.buffer) packet.pktHdr.toAddr else s
    Function.update s ident ({ s ident with
      sendInts := (s ident).sendInts + 1
      handed := (s ident).handed ++ [(packet.message, works)] }.goto t .sendWait)
  else Function.update s ident ((s ident).abort .networkSend)

inductive Input (T : Type) where
  | thread (addr : BitVec 32) (t : T) (call : Call) (junk : Buffer) (works : Bool)
  | worker (addr : BitVec 32) (junk : Buffer)
  | sendDone (addr : BitVec 32)
  | poll (addr : BitVec 32)

def Input.addr : Input T → BitVec 32
  | .thread addr _ _ _ _ | .worker addr _ | .sendDone addr | .poll addr => addr

/-- The next state, unless the machine whose turn it is has stopped or cannot move. -/
def step (numBoxes : ℤ) (s : State T) (i : Input T) : Option (State T) :=
  if (s i.addr).aborted.isSome then none
  else match i with
    | .thread addr t call junk works => match (s addr).pc t with
      | .sendNetwork packet => some (networkSend s addr t packet junk works)
      | _ => ((s addr).exec numBoxes addr t call junk).map (Function.update s addr)
    | .worker addr junk => ((s addr).work numBoxes junk).map (Function.update s addr)
    | .sendDone addr =>
      if (s addr).sendInts = 0 then none
      else some (Function.update s addr (s addr).sendDone)
    | .poll addr => some (Function.update s addr ((s addr).checkPktAvail addr))

def Step (numBoxes : ℤ) (s s' : State T) : Prop := ∃ i, step numBoxes s i = some s'

def Init (s : State T) : Prop := ∀ addr, ∃ junk, s addr = Machine.new T junk

end Nachos.PostOffice
