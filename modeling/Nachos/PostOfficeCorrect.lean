import Nachos.PostOffice
import Nachos.SynchListCorrect

/-! Delivery of mail over every schedule. `SendInv`, `NetInv` and `BoxInv` say what is true of
the sending threads, of the network device with the postal worker, and of the mailboxes of one
machine. `pipeline` lists what has reached a machine for one box in the order it came, wherever
it is by now; no step on a machine changes it, and the only step that adds to it is
`Network::Send`. -/
namespace Nachos.PostOffice

open ByteBuffer

variable {T : Type} {numBoxes : ℤ} {addr : BitVec 32} {x x' : Machine T} {t : T}

structure Good (numBoxes : ℤ) (g : Message) : Prop where
  length : g.pktHdr.length.toNat = headerSize + g.mailHdr.length.toNat
  short : g.mailHdr.length.toNat ≤ maxMailSize
  box : ValidBox numBoxes g.mailHdr.toBox

/-- The checks of the arguments of `Send` and `Receive`. -/
def Assertion.onArguments : Assertion → Bool
  | .sendLength | .sendBox | .receiveBox => true
  | _ => false

def Pc.packet : Pc → Option Packet
  | .sendAcquireP p | .sendAcquireSet p | .sendNetwork p => some p
  | _ => none

def Pc.phase : Pc → Lock.Phase
  | .user | .sendAcquireP _ | .receiving _ => .outside
  | .sendAcquireSet _ => .taken
  | .sendReleaseUnlock => .unlocking
  | _ => .held

/-- The postal worker does not use the send lock. -/
def Machine.phase (x : Machine T) : Option T → Lock.Phase
  | none => .outside
  | some t => (x.pc t).phase

def Worker.receiving : Worker → Bool
  | .receive => true
  | _ => false

structure SendInv (numBoxes : ℤ) (addr : BitVec 32) (x : Machine T) : Prop where
  lock : x.sendLock.Inv x.phase
  packet : ∀ t p, (x.pc t).packet = some p →
    unwrap p.pktHdr p.buffer = p.message ∧ Good numBoxes p.message ∧ p.pktHdr.fromAddr = addr
  busy : x.sendBusy = false

/-- The length in `inHdr` says whether a packet is in the inbox, and then either the semaphore
has a unit for it or the worker has taken that unit and not yet the packet. -/
structure NetInv (numBoxes : ℤ) (addr : BitVec 32) (x : Machine T) : Prop where
  socket : ∀ w ∈ x.socket, Good numBoxes (unwire w) ∧ (unwire w).pktHdr.toAddr = addr
  inbox : x.inHdr.length ≠ 0 → Good numBoxes (unwrap x.inHdr x.inbox)
  available : x.messageAvailable.value =
    if x.inHdr.length ≠ 0 ∧ x.worker.receiving = false then 1 else 0
  receiving : x.worker.receiving = true → x.inHdr.length ≠ 0

structure BoxInv (numBoxes : ℤ) (x : Machine T) [DecidableEq T] : Prop where
  put : ∀ b mail, x.worker = .put b mail →
    Good numBoxes mail.message ∧ mail.mailHdr.toBox.toInt = b
  putting : ∀ b, x.worker = .putting b → (x.boxes b).pc none ≠ .idle
  idle : ∀ b, x.worker ≠ .putting b → (x.boxes b).pc none = .idle
  boxes : ∀ b, Reachable SynchList.Init SynchList.Step (x.boxes b)
  readers : ∀ b t, ((x.boxes b).pc (some t)).carried = []
  mails : ∀ b, ∀ mail ∈ (x.boxes b).appended.map Prod.snd ++ ((x.boxes b).pc none).carried,
    Good numBoxes mail.message ∧ mail.mailHdr.toBox.toInt = b

structure MachineInv (numBoxes : ℤ) (addr : BitVec 32) (x : Machine T) [DecidableEq T] :
    Prop where
  send : SendInv numBoxes addr x
  net : NetInv numBoxes addr x
  box : BoxInv numBoxes x
  aborted : ∀ a, x.aborted = some a → a.onArguments = true

namespace Machine

def arrived (x : Machine T) (b : ℤ) : List Message :=
  ((x.boxes b).appended.map Prod.snd).map Mail.message

def received (x : Machine T) (b : ℤ) : List Message :=
  ((x.boxes b).removed.map Prod.snd).map Mail.message

def stored (x : Machine T) (b : ℤ) : List Message := (x.boxes b).list.map Mail.message

def inHands (x : Machine T) (b : ℤ) : List Message :=
  match x.worker with
  | .put b' mail => if b' = b then [mail.message] else []
  | _ => ((x.boxes b).pc none).carried.map Mail.message

def buffered (x : Machine T) : List Message :=
  if x.inHdr.length ≠ 0 then [unwrap x.inHdr x.inbox] else []

def queued (x : Machine T) : List Message := x.socket.map unwire

def forBox (b : ℤ) (l : List Message) : List Message := l.filter (·.mailHdr.toBox.toInt = b)

def pipeline (x : Machine T) (b : ℤ) : List Message :=
  x.arrived b ++ x.inHands b ++ forBox b (x.buffered ++ x.queued)

end Machine

def Keeps (x x' : Machine T) : Prop :=
  x.inHdr.length ≠ 0 → (x'.inHdr = x.inHdr ∧ x'.inbox = x.inbox) ∨
    (x.worker = .receive ∧ ∃ b mail, x'.worker = .put b mail ∧
      mail.message = unwrap x.inHdr x.inbox)

structure Local (numBoxes : ℤ) (addr : BitVec 32) (x x' : Machine T) [DecidableEq T] : Prop where
  inv : MachineInv numBoxes addr x'
  pipeline : ∀ b, x'.pipeline b = x.pipeline b
  handed : x'.handed = x.handed
  keeps : Keeps x x'

section
variable [DecidableEq T]

theorem new_machineInv (junk : Buffer) : MachineInv numBoxes addr (Machine.new T junk) where
  send := by
    refine ⟨?_, nofun, rfl⟩
    have : (Machine.new T junk).phase = fun _ => .outside := by
      funext u
      cases u <;> rfl
    rw [this]
    exact Lock.new_inv
  net := ⟨nofun, fun h => absurd rfl h, rfl, nofun⟩
  box := by
    refine ⟨nofun, nofun, fun _ _ => rfl, fun b => .init ?_, fun _ _ => rfl, nofun⟩
    exact ⟨fun _ => rfl, rfl, rfl, rfl, rfl, rfl, rfl, rfl⟩
  aborted := nofun

theorem MachineInv.abort (h : MachineInv numBoxes addr x) {a : Assertion}
    (ha : a.onArguments = true) : Local numBoxes addr x (x.abort a) where
  inv := by
    refine ⟨⟨h.send.lock, h.send.packet, h.send.busy⟩,
      ⟨h.net.socket, h.net.inbox, h.net.available, h.net.receiving⟩,
      ⟨h.box.put, h.box.putting, h.box.idle, h.box.boxes, h.box.readers, h.box.mails⟩, ?_⟩
    intro a' ha'
    obtain rfl := Option.some.inj ha'
    exact ha
  pipeline _ := rfl
  handed := rfl
  keeps _ := .inl ⟨rfl, rfl⟩

theorem phase_goto (x : Machine T) (t : T) (p : Pc) :
    (x.goto t p).phase = Function.update x.phase (some t) p.phase := by
  funext u
  cases u with
  | none => simp [Machine.phase]
  | some u =>
    by_cases hu : u = t
    · subst hu
      simp [Machine.phase, Machine.goto]
    · simp [Machine.phase, Machine.goto, hu]

theorem MachineInv.goto (h : MachineInv numBoxes addr x) (p : Pc) (l : Lock (Option T))
    (sem : Semaphore (Option T))
    (hl : Lock.Move (some t) (x.pc t).phase p.phase x.sendLock l)
    (hp : ∀ q, p.packet = some q → unwrap q.pktHdr q.buffer = q.message ∧
      Good numBoxes q.message ∧ q.pktHdr.fromAddr = addr) :
    Local numBoxes addr x ({ x with sendLock := l, messageSent := sem }.goto t p) where
  inv := by
    refine ⟨⟨?_, ?_, h.send.busy⟩,
      ⟨h.net.socket, h.net.inbox, h.net.available, h.net.receiving⟩,
      ⟨h.box.put, h.box.putting, h.box.idle, h.box.boxes, h.box.readers, h.box.mails⟩, h.aborted⟩
    · rw [phase_goto]
      exact h.send.lock.move hl
    · intro u q hq
      by_cases hu : u = t
      · subst hu
        exact hp q (by simpa [Machine.goto] using hq)
      · simp only [Machine.goto, Function.update_of_ne hu] at hq
        exact h.send.packet u q hq
  pipeline _ := rfl
  handed := rfl
  keeps _ := .inl ⟨rfl, rfl⟩

theorem MachineInv.stay (h : MachineInv numBoxes addr x) (l : Lock (Option T))
    (sem : Semaphore (Option T))
    (hl : Lock.Move (some t) (x.pc t).phase (x.pc t).phase x.sendLock l) :
    Local numBoxes addr x { x with sendLock := l, messageSent := sem } := by
  have := h.goto (x.pc t) l sem hl (h.send.packet t)
  rwa [Machine.goto, Function.update_eq_self] at this

omit [DecidableEq T] in
theorem sendCall_ok {pktHdr : PacketHeader} {mailHdr : MailHeader} {data junk : Buffer}
    {p : Packet} (h : Machine.sendCall numBoxes addr pktHdr mailHdr data junk = .ok p) :
    unwrap p.pktHdr p.buffer = p.message ∧ Good numBoxes p.message ∧ p.pktHdr.fromAddr = addr := by
  unfold Machine.sendCall at h
  split_ifs at h with hlen hbox
  obtain rfl := Except.ok.inj h
  refine ⟨unwrap_sent _ _ _ _, ⟨?_, hlen, hbox⟩, rfl⟩
  simp only [BitVec.toNat_add, BitVec.toNat_ofNat, maxMailSize, maxPacketSize, maxWireSize,
    headerSize] at hlen ⊢
  omega

omit [DecidableEq T] in
theorem sendCall_error {pktHdr : PacketHeader} {mailHdr : MailHeader} {data junk : Buffer}
    {a : Assertion} (h : Machine.sendCall numBoxes addr pktHdr mailHdr data junk = .error a) :
    a.onArguments = true := by
  unfold Machine.sendCall at h
  split_ifs at h <;> (obtain rfl := Except.error.inj h; rfl)

omit [DecidableEq T] in
@[simp] theorem setBox_self (x : Machine T) (b : ℤ) (box : SynchList.State (Option T) Mail) :
    (x.setBox b box).boxes b = box := by
  simp [Machine.setBox]

omit [DecidableEq T] in
theorem setBox_ne (x : Machine T) {b c : ℤ} (hc : c ≠ b)
    (box : SynchList.State (Option T) Mail) : (x.setBox b box).boxes c = x.boxes c := by
  simp [Machine.setBox, hc]

theorem BoxInv.setBox (h : BoxInv numBoxes x) {b : ℤ} {u : Option T} {call : SynchList.Call Mail}
    {box : SynchList.State (Option T) Mail} (hs : (x.boxes b).step u call = some box) (c : ℤ) :
    Reachable SynchList.Init SynchList.Step ((x.setBox b box).boxes c) := by
  by_cases hc : c = b
  · subst hc
    rw [setBox_self]
    exact (h.boxes c).step ⟨u, call, hs⟩
  · rw [setBox_ne x hc]
    exact h.boxes c

/-- A reader's step leaves what was put into the boxes as it is. -/
theorem reader_boxes (h : BoxInv numBoxes x) {b : ℤ}
    {box : SynchList.State (Option T) Mail} (hs : (x.boxes b).step (some t) .remove = some box)
    (c : ℤ) : ((x.setBox b box).boxes c).appended = (x.boxes c).appended ∧
      ((x.setBox b box).boxes c).pc none = (x.boxes c).pc none ∧
      ∀ u : T, (((x.setBox b box).boxes c).pc (some u)).carried = [] := by
  by_cases hc : c = b
  · subst hc
    rw [setBox_self]
    obtain ⟨happ, hcarried⟩ := SynchList.step_remove_carried hs (h.readers c t)
    refine ⟨happ, SynchList.step_pc_other hs (by simp), fun u => ?_⟩
    by_cases hu : u = t
    · rw [hu]
      exact hcarried
    · rw [SynchList.step_pc_other hs (by simpa using hu)]
      exact h.readers c u
  · rw [setBox_ne x hc]
    exact ⟨rfl, rfl, h.readers c⟩

theorem MachineInv.setBox_reader (h : MachineInv numBoxes addr x) {b : ℤ}
    {box : SynchList.State (Option T) Mail} (hs : (x.boxes b).step (some t) .remove = some box) :
    Local numBoxes addr x (x.setBox b box) := by
  have hboxes := reader_boxes h.box hs
  constructor
  case inv =>
    refine ⟨⟨h.send.lock, h.send.packet, h.send.busy⟩,
      ⟨h.net.socket, h.net.inbox, h.net.available, h.net.receiving⟩,
      ⟨h.box.put, ?_, ?_, h.box.setBox hs, fun c => (hboxes c).2.2, ?_⟩, h.aborted⟩
    · intro c hc
      rw [(hboxes c).2.1]
      exact h.box.putting c hc
    · intro c hc
      rw [(hboxes c).2.1]
      exact h.box.idle c hc
    · intro c
      rw [(hboxes c).1, (hboxes c).2.1]
      exact h.box.mails c
  case pipeline =>
    intro c
    have harr : (x.setBox b box).arrived c = x.arrived c := by
      rw [Machine.arrived, Machine.arrived, (hboxes c).1]
    have hhands : (x.setBox b box).inHands c = x.inHands c := by
      simp only [Machine.inHands, (hboxes c).2.1]
      rfl
    rw [Machine.pipeline, harr, hhands]
    rfl
  case handed => rfl
  case keeps => exact fun _ => .inl ⟨rfl, rfl⟩

theorem Local.goto_user (h : Local numBoxes addr x x') (ht : (x'.pc t).phase = .outside) :
    Local numBoxes addr x (x'.goto t .user) := by
  have hl : Lock.Move (some t) (x'.pc t).phase Pc.user.phase x'.sendLock x'.sendLock := by
    rw [ht]
    exact .stay _ _
  have hgoto := h.inv.goto .user x'.sendLock x'.messageSent hl nofun
  exact ⟨hgoto.inv, h.pipeline, h.handed, h.keeps⟩

theorem MachineInv.refl (h : MachineInv numBoxes addr x) : Local numBoxes addr x x :=
  ⟨h, fun _ => rfl, rfl, fun _ => .inl ⟨rfl, rfl⟩⟩

theorem MachineInv.sendDone (h : MachineInv numBoxes addr x) :
    Local numBoxes addr x x.sendDone where
  inv := ⟨⟨h.send.lock, h.send.packet, rfl⟩,
    ⟨h.net.socket, h.net.inbox, h.net.available, h.net.receiving⟩,
    ⟨h.box.put, h.box.putting, h.box.idle, h.box.boxes, h.box.readers, h.box.mails⟩, h.aborted⟩
  pipeline _ := rfl
  handed := rfl
  keeps _ := .inl ⟨rfl, rfl⟩

omit [DecidableEq T] in
theorem Good.length_ne_zero {g : Message} (h : Good numBoxes g) : g.pktHdr.length ≠ 0 := by
  intro h0
  have := h.length
  rw [h0, headerSize] at this
  simp only [BitVec.ofNat_eq_ofNat, BitVec.toNat_ofNat] at this
  omega

omit [DecidableEq T] in
theorem Good.length_le {g : Message} (h : Good numBoxes g) :
    g.pktHdr.length.toNat ≤ maxPacketSize := by
  have hlen := h.length
  have hshort := h.short
  simp only [maxMailSize, maxPacketSize, maxWireSize, headerSize] at *
  omega

omit [DecidableEq T] in
theorem NetInv.empty (h : NetInv numBoxes addr x) (h0 : x.inHdr.length = 0) :
    x.messageAvailable.value = 0 ∧ x.worker.receiving = false := by
  refine ⟨by simpa [h0] using h.available, ?_⟩
  by_contra hr
  exact h.receiving (by simpa using hr) h0

theorem MachineInv.checkPktAvail (h : MachineInv numBoxes addr x) :
    Local numBoxes addr x (x.checkPktAvail addr) := by
  unfold Machine.checkPktAvail
  split_ifs with hfull
  · exact h.refl
  · rw [not_not] at hfull
    cases hsock : x.socket with
    | nil => exact h.refl
    | cons w rest =>
      obtain ⟨hgood, haddr⟩ := h.net.socket w (by simp [hsock])
      obtain ⟨hvalue, hwork⟩ := h.net.empty hfull
      have hok : (PacketHeader.load w).toAddr = addr ∧
          (PacketHeader.load w).length.toNat ≤ maxPacketSize := ⟨haddr, hgood.length_le⟩
      have hlen : (PacketHeader.load w).length ≠ 0 := hgood.length_ne_zero
      have hcopy := unwrap_copied (PacketHeader.load w) (pastHeader w) x.inbox hgood.length
      dsimp only
      rw [if_pos hok]
      constructor
      case inv =>
        refine ⟨⟨h.send.lock, h.send.packet, h.send.busy⟩, ⟨?_, ?_, ?_, ?_⟩,
          ⟨h.box.put, h.box.putting, h.box.idle, h.box.boxes, h.box.readers, h.box.mails⟩,
          h.aborted⟩
        · intro w' hw'
          exact h.net.socket w' (by simp [hsock, hw'])
        · intro _
          rw [hcopy]
          exact hgood
        · rw [if_pos ⟨hlen, hwork⟩, Semaphore.v_value, hvalue, zero_add]
        · intro _
          exact hlen
      case pipeline =>
        intro b
        have hbuf : x.buffered ++ x.queued = unwire w :: rest.map unwire := by
          simp [Machine.buffered, Machine.queued, hfull, hsock]
        rw [Machine.pipeline, Machine.pipeline, hbuf]
        simp only [Machine.buffered, Machine.queued, hlen, ne_eq, not_false_eq_true, if_true, hcopy]
        rfl
      case handed => rfl
      case keeps => exact fun hne => absurd hfull hne

omit [DecidableEq T] in
theorem NetInv.received (h : NetInv numBoxes addr x) (hw : x.worker = .receive) :
    Good numBoxes (unwrap x.inHdr x.receive.buffer) ∧
      unwrap x.inHdr x.receive.buffer = unwrap x.inHdr x.inbox := by
  have hne := h.receiving (by rw [hw]; rfl)
  have hgood := h.inbox hne
  have hcopy := unwrap_copied x.inHdr x.inbox x.buffer hgood.length
  have hbuf : x.receive.buffer = overlay x.buffer 0 x.inHdr.length.toNat x.inbox := if_pos hne
  rw [hbuf, hcopy]
  exact ⟨hgood, rfl⟩

theorem MachineInv.deliver (h : MachineInv numBoxes addr x) (hw : x.worker = .receive)
    (junk : Buffer) : Local numBoxes addr x (x.deliver numBoxes junk) := by
  have hne := h.net.receiving (by rw [hw]; rfl)
  obtain ⟨hgood, heq⟩ := h.net.received hw
  have hbox : ValidBox numBoxes (MailHeader.load x.receive.buffer).toBox := hgood.box
  have hshort : (MailHeader.load x.receive.buffer).length.toNat ≤ maxMailSize := hgood.short
  have hidle := fun b => h.box.idle b (by simp [hw])
  unfold Machine.deliver
  simp only [hbox, hshort, not_true_eq_false, if_false]
  generalize hmail : (⟨x.inHdr, MailHeader.load x.receive.buffer,
    overlay junk 0 (MailHeader.load x.receive.buffer).length.toNat
      (pastHeader x.receive.buffer)⟩ : Mail) = mail
  have hmsg : mail.message = unwrap x.inHdr x.receive.buffer := by
    subst hmail
    simp only [Mail.message, unwrap]
    congr 1
    refine bytes_congr fun j hj => ?_
    rw [overlay_in (Nat.zero_le j) (by omega), Nat.sub_zero]
  constructor
  case inv =>
    refine ⟨⟨h.send.lock, h.send.packet, h.send.busy⟩,
      ⟨h.net.socket, fun h0 => absurd rfl h0, ?_, (fun hr => by cases hr)⟩,
      ⟨?_, (fun b hp => by cases hp), fun b _ => hidle b, h.box.boxes, h.box.readers, h.box.mails⟩,
      h.aborted⟩
    · have := h.net.available
      rw [hw] at this
      simpa [Machine.receive, Worker.receiving] using this
    · rintro b mail' ⟨rfl, rfl⟩
      refine ⟨by rw [hmsg]; exact hgood, ?_⟩
      subst hmail
      rfl
  case pipeline =>
    intro c
    have hbox' : mail.message.mailHdr.toBox = (MailHeader.load x.receive.buffer).toBox := by
      rw [hmsg]
      rfl
    have hbefore : x.inHands c = [] := by simp [Machine.inHands, hw, hidle, SynchList.Pc.carried]
    have hbuf : x.buffered = [mail.message] := by
      rw [Machine.buffered, if_pos hne, hmsg, heq]
    rw [Machine.pipeline, Machine.pipeline, hbefore, hbuf, List.append_nil, List.append_assoc]
    congr 1
    simp only [Machine.inHands, Machine.buffered, Machine.receive, Machine.forBox, ne_eq,
      not_true_eq_false, if_false, List.nil_append, List.singleton_append, List.filter_cons, hbox']
    split_ifs <;> simp_all [Machine.queued, Machine.receive]
  case handed => rfl
  case keeps => exact fun _ => .inr ⟨hw, _, mail, rfl, hmsg.trans heq⟩

theorem MachineInv.await (h : MachineInv numBoxes addr x) (hw : x.worker = .wait)
    {sem : Semaphore (Option T)} {b : Bool} (hp : x.messageAvailable.p none = some (sem, b)) :
    Local numBoxes addr x
      { x with messageAvailable := sem, worker := if b then .receive else .wait } := by
  have hidle := fun c => h.box.idle c (by simp [hw])
  have havail := h.net.available
  rw [hw] at havail
  have hhands : ∀ c, ({ x with
      messageAvailable := sem
      worker := if b then .receive else .wait } : Machine T).inHands c = x.inHands c := by
    intro c
    cases b <;> simp [Machine.inHands, hw]
  have hbox : BoxInv numBoxes ({ x with
      messageAvailable := sem
      worker := if b then .receive else .wait } : Machine T) := by
    refine ⟨?_, ?_, fun c _ => hidle c, h.box.boxes, h.box.readers, h.box.mails⟩
    · cases b <;> exact nofun
    · cases b <;> exact nofun
  refine ⟨⟨⟨h.send.lock, h.send.packet, h.send.busy⟩, ?_, hbox, h.aborted⟩, ?_, rfl,
    fun _ => .inl ⟨rfl, rfl⟩⟩
  · obtain ⟨-, ⟨hv, rfl, rfl⟩ | ⟨hv, rfl, rfl⟩⟩ := Semaphore.p_eq_some hp
    · exact ⟨h.net.socket, h.net.inbox, havail, nofun⟩
    · have hne : x.inHdr.length ≠ 0 := by
        intro h0
        exact hv (by simpa [h0] using havail)
      refine ⟨h.net.socket, h.net.inbox, ?_, fun _ => hne⟩
      rw [if_pos ⟨hne, rfl⟩] at havail
      simp [havail, Worker.receiving]
  · intro c
    rw [Machine.pipeline, Machine.pipeline, hhands]
    rfl

theorem MachineInv.putCall (h : MachineInv numBoxes addr x) {b : ℤ} {mail : Mail}
    (hw : x.worker = .put b mail) {box : SynchList.State (Option T) Mail}
    (hs : (x.boxes b).step none (.append mail) = some box) :
    Local numBoxes addr x { x.setBox b box with worker := .putting b } := by
  have hidle := fun c => h.box.idle c (by simp [hw])
  obtain ⟨hgood, hmailbox⟩ := h.box.put b mail hw
  have hbox : box = (x.boxes b).goto none (.appendAcquire mail) := by
    simp only [SynchList.State.step, hidle b, Option.some.injEq] at hs
    exact hs.symm
  have happ : ∀ c, ((x.setBox b box).boxes c).appended = (x.boxes c).appended := by
    intro c
    by_cases hc : c = b
    · subst hc
      rw [setBox_self, hbox]
      rfl
    · rw [setBox_ne x hc]
  have hcarried : (((x.setBox b box).boxes b).pc none).carried = [mail] := by
    rw [setBox_self, hbox]
    simp [SynchList.State.goto, SynchList.Pc.carried]
  constructor
  case inv =>
    refine ⟨⟨h.send.lock, h.send.packet, h.send.busy⟩,
      ⟨h.net.socket, h.net.inbox, ?_, (fun hr => by cases hr)⟩,
      ⟨(fun c m hp => by cases hp), ?_, ?_, h.box.setBox hs, ?_, ?_⟩, h.aborted⟩
    · have := h.net.available
      rw [hw] at this
      exact this
    · rintro c ⟨rfl⟩ hc
      rw [hc] at hcarried
      cases hcarried
    · intro c hc
      have hcb : c ≠ b := by
        rintro rfl
        exact hc rfl
      rw [setBox_ne x hcb]
      exact hidle c
    · intro c u
      by_cases hc : c = b
      · subst hc
        rw [setBox_self, SynchList.step_pc_other hs (by simp)]
        exact h.box.readers c u
      · rw [setBox_ne x hc]
        exact h.box.readers c u
    · intro c mail' hmem
      by_cases hc : c = b
      · subst hc
        rw [happ, hcarried] at hmem
        obtain hmem | hmem := List.mem_append.mp hmem
        · exact h.box.mails c mail' (List.mem_append_left _ hmem)
        · rw [List.mem_singleton.mp hmem]
          exact ⟨hgood, hmailbox⟩
      · rw [setBox_ne x hc] at hmem
        exact h.box.mails c mail' hmem
  case pipeline =>
    intro c
    have harr : ({ x.setBox b box with worker := .putting b } : Machine T).arrived c =
        x.arrived c := by
      simp only [Machine.arrived, happ]
    have hhands : ({ x.setBox b box with worker := .putting b } : Machine T).inHands c =
        x.inHands c := by
      by_cases hc : c = b
      · subst hc
        rw [setBox_self] at hcarried
        simp [Machine.inHands, hw, hcarried]
      · simp [Machine.inHands, hw, setBox_ne x hc, hidle c, SynchList.Pc.carried, Ne.symm hc]
    rw [Machine.pipeline, harr, hhands]
    rfl
  case handed => rfl
  case keeps => exact fun _ => .inl ⟨rfl, rfl⟩

theorem MachineInv.putting (h : MachineInv numBoxes addr x) {b : ℤ} (hw : x.worker = .putting b)
    {box : SynchList.State (Option T) Mail} (hs : (x.boxes b).step none .remove = some box)
    {w : Worker} (hwait : w = .wait ∧ box.pc none = .idle ∨
      w = .putting b ∧ box.pc none ≠ .idle) :
    Local numBoxes addr x { x.setBox b box with worker := w } := by
  have hne := h.box.putting b hw
  have hother : ∀ c, c ≠ b → (x.boxes c).pc none = .idle := by
    intro c hc
    refine h.box.idle c ?_
    rw [hw]
    simpa using Ne.symm hc
  have hflow : ∀ c, ((x.setBox b box).boxes c).appended.map Prod.snd ++
      (((x.setBox b box).boxes c).pc none).carried =
        (x.boxes c).appended.map Prod.snd ++ ((x.boxes c).pc none).carried := by
    intro c
    by_cases hc : c = b
    · subst hc
      rw [setBox_self]
      exact SynchList.step_append_carried hs hne
    · rw [setBox_ne x hc]
  have hw' : w.receiving = false ∧ ∀ c mail, w ≠ .put c mail := by
    obtain ⟨rfl, -⟩ | ⟨rfl, -⟩ := hwait <;> exact ⟨rfl, nofun⟩
  constructor
  case inv =>
    refine ⟨⟨h.send.lock, h.send.packet, h.send.busy⟩,
      ⟨h.net.socket, h.net.inbox, ?_, ?_⟩, ⟨?_, ?_, ?_, h.box.setBox hs, ?_, ?_⟩, h.aborted⟩
    · have := h.net.available
      rw [hw] at this
      rw [hw'.1]
      exact this
    · intro hr
      rw [hw'.1] at hr
      cases hr
    · intro c mail hc
      exact absurd hc (hw'.2 c mail)
    · intro c hc
      obtain ⟨rfl, -⟩ | ⟨rfl, hbox⟩ := hwait
      · cases hc
      · obtain rfl := Worker.putting.inj hc
        rw [setBox_self]
        exact hbox
    · intro c hc
      by_cases hcb : c = b
      · subst hcb
        rw [setBox_self]
        obtain ⟨-, hbox⟩ | ⟨rfl, -⟩ := hwait
        · exact hbox
        · exact absurd rfl hc
      · rw [setBox_ne x hcb]
        exact hother c hcb
    · intro c u
      by_cases hc : c = b
      · subst hc
        rw [setBox_self, SynchList.step_pc_other hs (by simp)]
        exact h.box.readers c u
      · rw [setBox_ne x hc]
        exact h.box.readers c u
    · intro c
      rw [hflow]
      exact h.box.mails c
  case pipeline =>
    intro c
    have hbefore : x.arrived c ++ x.inHands c =
        ((x.boxes c).appended.map Prod.snd ++ ((x.boxes c).pc none).carried).map Mail.message := by
      simp [Machine.arrived, Machine.inHands, hw]
    have hafter : ({ x.setBox b box with worker := w } : Machine T).arrived c ++
        ({ x.setBox b box with worker := w } : Machine T).inHands c =
        (((x.setBox b box).boxes c).appended.map Prod.snd ++
          (((x.setBox b box).boxes c).pc none).carried).map Mail.message := by
      obtain ⟨rfl, -⟩ | ⟨rfl, -⟩ := hwait <;> simp [Machine.arrived, Machine.inHands]
    rw [Machine.pipeline, Machine.pipeline, hbefore, hafter, hflow]
    rfl
  case handed => rfl
  case keeps => exact fun _ => .inl ⟨rfl, rfl⟩

theorem MachineInv.work (h : MachineInv numBoxes addr x) {junk : Buffer}
    (hs : x.work numBoxes junk = some x') : Local numBoxes addr x x' := by
  unfold Machine.work at hs
  cases hw : x.worker with
  | wait =>
    simp only [hw] at hs
    cases hp : x.messageAvailable.p none with
    | none => simp [hp] at hs
    | some r =>
      obtain ⟨sem, b⟩ := r
      have hlocal := h.await hw hp
      cases b with
      | false =>
        simp only [hp, Option.some.injEq] at hs
        subst hs
        simpa [hw] using hlocal
      | true =>
        simp only [hp, Option.some.injEq] at hs
        subst hs
        exact hlocal
  | receive =>
    simp only [hw, Option.some.injEq] at hs
    exact hs ▸ h.deliver hw junk
  | put b mail =>
    simp only [hw] at hs
    cases hbox : (x.boxes b).step none (.append mail) with
    | none => simp [hbox] at hs
    | some box =>
      simp only [hbox, Option.some.injEq] at hs
      exact hs ▸ h.putCall hw hbox
  | putting b =>
    simp only [hw] at hs
    cases hbox : (x.boxes b).step none .remove with
    | none => simp [hbox] at hs
    | some box =>
      simp only [hbox] at hs
      split at hs
      · obtain rfl := Option.some.inj hs
        exact h.putting hw hbox (.inl ⟨rfl, by assumption⟩)
      · obtain rfl := Option.some.inj hs
        have hlocal := h.putting hw hbox (.inr ⟨rfl, by assumption⟩)
        rwa [← hw] at hlocal

variable [Fintype T]

theorem BoxInv.unlock (h : BoxInv numBoxes x) {b : ℤ} {mail : Mail}
    (hpc : (x.boxes b).pc (some t) = .removeUnlock mail) : Good numBoxes mail.message := by
  have hi := SynchList.reachable_inv (h.boxes b)
  have howned := hi.guarded.owned_at hpc rfl
  have hmem : mail ∈ (x.boxes b).appended.map Prod.snd := by
    rw [← hi.guarded.logs.items, howned.2.1]
    simp
  exact (h.mails b mail (List.mem_append_left _ hmem)).1

theorem MachineInv.get (h : MachineInv numBoxes addr x) {b : ℤ} (ht : x.pc t = .receiving b)
    (hs : x.get t b = some x') : Local numBoxes addr x x' := by
  unfold Machine.get at hs
  cases hbox : (x.boxes b).step (some t) .remove with
  | none => simp [hbox] at hs
  | some box =>
    have hlocal := h.setBox_reader hbox
    simp only [hbox] at hs
    split at hs
    · rename_i mail hpc
      have hshort : mail.mailHdr.length.toNat ≤ maxMailSize := (h.box.unlock hpc).short
      rw [if_pos hshort] at hs
      obtain rfl := Option.some.inj hs
      refine hlocal.goto_user ?_
      show (x.pc t).phase = .outside
      rw [ht]
      rfl
    · obtain rfl := Option.some.inj hs
      exact hlocal

theorem MachineInv.exec (h : MachineInv numBoxes addr x) {call : Call} {junk : Buffer}
    (hs : x.exec numBoxes addr t call junk = some x') : Local numBoxes addr x x' := by
  unfold Machine.exec at hs
  cases hpc : x.pc t with
  | user =>
    simp only [hpc] at hs
    cases call with
    | send pktHdr mailHdr data =>
      cases hcall : Machine.sendCall numBoxes addr pktHdr mailHdr data junk with
      | error a =>
        simp only [hcall, Option.some.injEq] at hs
        exact hs ▸ h.abort (sendCall_error hcall)
      | ok p =>
        simp only [hcall, Option.some.injEq] at hs
        subst hs
        refine h.goto (.sendAcquireP p) x.sendLock x.messageSent ?_ ?_
        · rw [hpc]
          exact .stay _ _
        · rintro q ⟨rfl⟩
          exact sendCall_ok hcall
    | receive box =>
      dsimp only at hs
      split_ifs at hs
      · obtain rfl := Option.some.inj hs
        refine h.goto (.receiving box.toInt) x.sendLock x.messageSent ?_ nofun
        rw [hpc]
        exact .stay _ _
      · obtain rfl := Option.some.inj hs
        exact h.abort rfl
  | sendAcquireP p =>
    simp only [hpc] at hs
    have hp := h.send.packet t p (by rw [hpc]; rfl)
    cases hm : x.sendLock.mutex.p (some t) with
    | none => simp [hm] at hs
    | some r =>
      obtain ⟨mutex, b⟩ := r
      obtain ⟨-, ⟨-, rfl, rfl⟩ | ⟨hv, rfl, rfl⟩⟩ := Semaphore.p_eq_some hm
      · simp only [hm, Option.some.injEq] at hs
        exact hs ▸ h.stay (t := t) _ x.messageSent (.block _ _ _)
      · simp only [hm, Option.some.injEq] at hs
        subst hs
        refine h.goto (.sendAcquireSet p) _ x.messageSent (.lock _ _ hv) ?_
        rintro q ⟨rfl⟩
        exact hp
  | sendAcquireSet p =>
    simp only [hpc, Option.some.injEq] at hs
    subst hs
    refine h.goto (.sendNetwork p) _ x.messageSent ?_ ?_
    · rw [hpc]
      exact .hold _
    · rintro q ⟨rfl⟩
      exact h.send.packet t p (by rw [hpc]; rfl)
  | sendNetwork p => simp [hpc] at hs
  | sendWait =>
    simp only [hpc] at hs
    cases hm : x.messageSent.p (some t) with
    | none => simp [hm] at hs
    | some r =>
      obtain ⟨sem, b⟩ := r
      cases b with
      | false =>
        simp only [hm, Option.some.injEq] at hs
        exact hs ▸ h.stay (t := t) x.sendLock sem (.stay _ _)
      | true =>
        simp only [hm, Option.some.injEq] at hs
        subst hs
        refine h.goto .sendReleaseAssert x.sendLock sem ?_ nofun
        rw [hpc]
        exact .stay _ _
  | sendReleaseAssert =>
    have hheld : x.sendLock.isHeldByCurrentThread (some t) = true := by
      refine decide_eq_true ((h.send.lock.holder_iff (some t)).mpr ?_)
      show (x.pc t).phase = .held
      rw [hpc]
      rfl
    simp only [hpc, if_pos hheld, Option.some.injEq] at hs
    subst hs
    refine h.goto .sendReleaseClear x.sendLock x.messageSent ?_ nofun
    rw [hpc]
    exact .stay _ _
  | sendReleaseClear =>
    simp only [hpc, Option.some.injEq] at hs
    subst hs
    refine h.goto .sendReleaseUnlock _ x.messageSent ?_ nofun
    rw [hpc]
    exact .release _
  | sendReleaseUnlock =>
    simp only [hpc, Option.some.injEq] at hs
    subst hs
    refine h.goto .user _ x.messageSent ?_ nofun
    rw [hpc]
    exact .unlock _
  | receiving b =>
    simp only [hpc] at hs
    exact h.get hpc hs

end

namespace Machine

def delivered (x : Machine T) : List Message := (x.handed.filter (·.2)).map Prod.fst

end Machine

def fromMachine (src : BitVec 32) (l : List Message) : List Message :=
  l.filter (·.pktHdr.fromAddr = src)

def forMachine (dst : BitVec 32) (b : ℤ) (l : List Message) : List Message :=
  l.filter fun g => g.pktHdr.toAddr = dst ∧ g.mailHdr.toBox.toInt = b

structure Inv (numBoxes : ℤ) (s : State T) [DecidableEq T] : Prop where
  machine : ∀ addr, MachineInv numBoxes addr (s addr)
  flow : ∀ src dst b, fromMachine src ((s dst).pipeline b) = forMachine dst b (s src).delivered
  handed : ∀ src, ∀ e ∈ (s src).handed, Good numBoxes e.1 ∧ e.1.pktHdr.fromAddr = src

section
variable [DecidableEq T] {s s' : State T}

theorem init_inv (h : Init s) : Inv numBoxes s where
  machine addr := by
    obtain ⟨junk, hs⟩ := h addr
    rw [hs]
    exact new_machineInv junk
  flow src dst b := by
    obtain ⟨junk, hs⟩ := h dst
    obtain ⟨junk', hs'⟩ := h src
    rw [hs, hs']
    rfl
  handed src := by
    obtain ⟨junk, hs⟩ := h src
    rw [hs]
    exact nofun

/-- A step on one machine leaves the mail of the network where it is. -/
theorem Inv.local (h : Inv numBoxes s) (hl : Local numBoxes addr (s addr) x') :
    Inv numBoxes (Function.update s addr x') := by
  have hpipe : ∀ a b, (Function.update s addr x' a).pipeline b = (s a).pipeline b := by
    intro a b
    by_cases ha : a = addr
    · subst ha
      rw [Function.update_self]
      exact hl.pipeline b
    · rw [Function.update_of_ne ha]
  have hhanded : ∀ a, (Function.update s addr x' a).handed = (s a).handed := by
    intro a
    by_cases ha : a = addr
    · subst ha
      rw [Function.update_self]
      exact hl.handed
    · rw [Function.update_of_ne ha]
  refine ⟨?_, ?_, ?_⟩
  · intro a
    by_cases ha : a = addr
    · subst ha
      rw [Function.update_self]
      exact hl.inv
    · rw [Function.update_of_ne ha]
      exact h.machine a
  · intro src dst b
    rw [hpipe, Machine.delivered, hhanded]
    exact h.flow src dst b
  · intro src
    rw [hhanded]
    exact h.handed src

structure Posted (numBoxes : ℤ) (s s' : State T) (p : Packet) (works : Bool) : Prop where
  machine : ∀ a, MachineInv numBoxes a (s' a)
  pipeline : ∀ a b, (s' a).pipeline b = (s a).pipeline b ++
    if works = true ∧ a = p.pktHdr.toAddr then Machine.forBox b [p.message] else []
  handed : ∀ a, (s' a).handed = (s a).handed
  pc : ∀ a, (s' a).pc = (s a).pc
  inbox : ∀ a, (s' a).inHdr = (s a).inHdr ∧ (s' a).inbox = (s a).inbox

theorem Inv.dropped (h : Inv numBoxes s) (p : Packet) : Posted numBoxes s s p false :=
  ⟨h.machine, fun _ _ => by simp, fun _ => rfl, fun _ => rfl, fun _ => ⟨rfl, rfl⟩⟩

theorem Inv.posted (h : Inv numBoxes s) {p : Packet} {wire : Buffer}
    (hgood : Good numBoxes p.message) (hwire : unwire wire = p.message)
    (hhdr : p.message.pktHdr = p.pktHdr) :
    Posted numBoxes s (post s wire p.pktHdr.toAddr) p true := by
  have hself : post s wire p.pktHdr.toAddr p.pktHdr.toAddr =
      { s p.pktHdr.toAddr with socket := (s p.pktHdr.toAddr).socket ++ [wire] } :=
    Function.update_self _ _ _
  have hother : ∀ a, a ≠ p.pktHdr.toAddr → post s wire p.pktHdr.toAddr a = s a :=
    fun a ha => Function.update_of_ne ha _ _
  have hi := h.machine p.pktHdr.toAddr
  constructor
  case machine =>
    intro a
    by_cases ha : a = p.pktHdr.toAddr
    · subst ha
      rw [hself]
      refine ⟨⟨hi.send.lock, hi.send.packet, hi.send.busy⟩,
        ⟨?_, hi.net.inbox, hi.net.available, hi.net.receiving⟩,
        ⟨hi.box.put, hi.box.putting, hi.box.idle, hi.box.boxes, hi.box.readers, hi.box.mails⟩,
        hi.aborted⟩
      intro w hw
      obtain hw | hw := List.mem_append.mp hw
      · exact hi.net.socket w hw
      · rw [List.mem_singleton.mp hw, hwire]
        exact ⟨hgood, by rw [hhdr]⟩
    · rw [hother a ha]
      exact h.machine a
  case pipeline =>
    intro a b
    by_cases ha : a = p.pktHdr.toAddr
    · subst ha
      rw [hself, if_pos ⟨rfl, rfl⟩, ← hwire]
      simp only [Machine.pipeline, Machine.forBox, Machine.queued, List.map_append,
        List.filter_append, List.append_assoc]
      rfl
    · rw [hother a ha, if_neg (fun hc => ha hc.2), List.append_nil]
  case handed =>
    intro a
    by_cases ha : a = p.pktHdr.toAddr
    · rw [ha, hself]
    · rw [hother a ha]
  case pc =>
    intro a
    by_cases ha : a = p.pktHdr.toAddr
    · rw [ha, hself]
    · rw [hother a ha]
  case inbox =>
    intro a
    by_cases ha : a = p.pktHdr.toAddr
    · rw [ha, hself]
      exact ⟨rfl, rfl⟩
    · rw [hother a ha]
      exact ⟨rfl, rfl⟩

theorem forMachine_packet {p : Packet} (hhdr : p.message.pktHdr = p.pktHdr) {ident : BitVec 32}
    (hfrom : p.pktHdr.fromAddr = ident) (works : Bool) (src dst : BitVec 32) (b : ℤ) :
    fromMachine src (if works = true ∧ dst = p.pktHdr.toAddr then Machine.forBox b [p.message]
      else []) =
      forMachine dst b (if works = true ∧ src = ident then [p.message] else []) := by
  cases works with
  | false => rfl
  | true =>
    by_cases hdst : dst = p.pktHdr.toAddr
    · by_cases hsrc : src = ident
      · subst hdst hsrc
        by_cases hb : p.message.mailHdr.toBox.toInt = b <;>
          simp [fromMachine, forMachine, Machine.forBox, hhdr, hfrom, hb]
      · by_cases hb : p.message.mailHdr.toBox.toInt = b <;>
          simp [fromMachine, forMachine, Machine.forBox, hhdr, hfrom, hdst, hsrc, hb, Ne.symm hsrc]
    · by_cases hsrc : src = ident <;>
        simp [fromMachine, forMachine, hhdr, hdst, hsrc, Ne.symm hdst]

theorem Inv.sent (h : Inv numBoxes s) {ident : BitVec 32} {p : Packet} {works : Bool}
    (hpost : Posted numBoxes s s' p works) (hpc : (s ident).pc t = .sendNetwork p)
    (hgood : Good numBoxes p.message) (hhdr : p.message.pktHdr = p.pktHdr)
    (hfrom : p.pktHdr.fromAddr = ident) :
    Inv numBoxes (Function.update s' ident ({ s' ident with
      sendInts := (s' ident).sendInts + 1
      handed := (s' ident).handed ++ [(p.message, works)] }.goto t .sendWait)) := by
  generalize hx : ({ s' ident with
    sendInts := (s' ident).sendInts + 1
    handed := (s' ident).handed ++ [(p.message, works)] } : Machine T).goto t .sendWait = x'
  have hi := hpost.machine ident
  have hl : Lock.Move (some t) ((s' ident).pc t).phase Pc.sendWait.phase (s' ident).sendLock
      (s' ident).sendLock := by
    rw [hpost.pc, hpc]
    exact .stay _ _
  have hgoto := hi.goto .sendWait (s' ident).sendLock (s' ident).messageSent hl nofun
  have hmachine : MachineInv numBoxes ident x' := by
    subst hx
    obtain ⟨⟨h1, h2, h3⟩, ⟨h4, h5, h6, h7⟩, ⟨h8, h9, h10, h11, h12, h13⟩, h14⟩ := hgoto.inv
    exact ⟨⟨h1, h2, h3⟩, ⟨h4, h5, h6, h7⟩, ⟨h8, h9, h10, h11, h12, h13⟩, h14⟩
  have hhanded : x'.handed = (s ident).handed ++ [(p.message, works)] := by
    rw [← hx, ← hpost.handed ident]
    rfl
  have hpipe : ∀ a b, (Function.update s' ident x' a).pipeline b = (s' a).pipeline b := by
    intro a b
    by_cases ha : a = ident
    · subst ha
      rw [Function.update_self, ← hx]
      rfl
    · rw [Function.update_of_ne ha]
  have hdelivered : ∀ a, (Function.update s' ident x' a).delivered = (s a).delivered ++
      if works = true ∧ a = ident then [p.message] else [] := by
    intro a
    by_cases ha : a = ident
    · subst ha
      rw [Function.update_self, Machine.delivered, hhanded, Machine.delivered]
      cases works <;> simp
    · rw [Function.update_of_ne ha, Machine.delivered, hpost.handed a,
        if_neg (fun hc => ha hc.2), List.append_nil]
      rfl
  refine ⟨?_, ?_, ?_⟩
  · intro a
    by_cases ha : a = ident
    · subst ha
      rw [Function.update_self]
      exact hmachine
    · rw [Function.update_of_ne ha]
      exact hpost.machine a
  · intro src dst b
    rw [hpipe, hpost.pipeline, hdelivered, fromMachine, List.filter_append, forMachine,
      List.filter_append]
    exact congrArg₂ (· ++ ·) (h.flow src dst b)
      (forMachine_packet hhdr hfrom works src dst b)
  · intro src e he
    by_cases hs : src = ident
    · subst hs
      rw [Function.update_self, hhanded] at he
      obtain he | he := List.mem_append.mp he
      · exact h.handed src e he
      · rw [List.mem_singleton.mp he]
        exact ⟨hgood, by rw [hhdr, hfrom]⟩
    · rw [Function.update_of_ne hs, hpost.handed] at he
      exact h.handed src e he

theorem Inv.sendStep (h : Inv numBoxes s) {p : Packet} (hpc : (s addr).pc t = .sendNetwork p)
    (junk : Buffer) (works : Bool) : Inv numBoxes (networkSend s addr t p junk works) := by
  have hi := (h.machine addr).send
  obtain ⟨hunwrap, hgood, hfrom⟩ := hi.packet t p (by rw [hpc]; rfl)
  have hhdr : p.message.pktHdr = p.pktHdr := by rw [← hunwrap]; rfl
  have hlen : p.pktHdr.length.toNat = headerSize + (MailHeader.load p.buffer).length.toNat := by
    have := hgood.length
    rwa [← hunwrap] at this
  have hok : SendOk addr (s addr) p.pktHdr := by
    refine ⟨hi.busy, ?_, hhdr ▸ hgood.length_le, hfrom⟩
    rw [hlen, headerSize]
    omega
  have hwire := (unwire_sent p.pktHdr junk p.buffer hlen).trans hunwrap
  rw [PostOffice.networkSend, if_pos hok]
  cases works with
  | false => exact h.sent (h.dropped p) hpc hgood hhdr hfrom
  | true => exact h.sent (h.posted hgood hwire hhdr) hpc hgood hhdr hfrom

variable [Fintype T]

theorem Inv.step_cases (h : Inv numBoxes s) {i : Input T} (hs : step numBoxes s i = some s') :
    (∃ addr x', Local numBoxes addr (s addr) x' ∧ s' = Function.update s addr x') ∨
      ∃ addr t p junk works, (s addr).pc t = .sendNetwork p ∧
        s' = networkSend s addr t p junk works := by
  unfold step at hs
  split_ifs at hs
  cases i with
  | thread addr t call junk works =>
    dsimp only at hs
    split at hs
    · rename_i p hpc
      exact .inr ⟨addr, t, p, junk, works, hpc, (Option.some.inj hs).symm⟩
    · obtain ⟨x', hx', rfl⟩ := Option.map_eq_some_iff.mp hs
      exact .inl ⟨addr, x', (h.machine addr).exec hx', rfl⟩
  | worker addr junk =>
    obtain ⟨x', hx', rfl⟩ := Option.map_eq_some_iff.mp hs
    exact .inl ⟨addr, x', (h.machine addr).work hx', rfl⟩
  | sendDone addr =>
    dsimp only at hs
    split_ifs at hs
    obtain rfl := Option.some.inj hs
    exact .inl ⟨addr, _, (h.machine addr).sendDone, rfl⟩
  | poll addr =>
    obtain rfl := Option.some.inj hs
    exact .inl ⟨addr, _, (h.machine addr).checkPktAvail, rfl⟩

theorem Inv.step (h : Inv numBoxes s) (hs : Step numBoxes s s') : Inv numBoxes s' := by
  obtain ⟨i, hs⟩ := hs
  obtain ⟨addr, x', hlocal, rfl⟩ | ⟨addr, t, p, junk, works, hpc, rfl⟩ := h.step_cases hs
  · exact h.local hlocal
  · exact h.sendStep hpc junk works

theorem reachable_inv (h : Reachable Init (Step numBoxes) s) : Inv numBoxes s := by
  refine Reachable.invariant (P := fun s => Inv numBoxes s) ?_ ?_ h
  · intro s hs
    exact init_inv hs
  · intro s s' hi hs
    exact hi.step hs

omit [Fintype T] in
theorem networkSend_inbox (s : State T) (ident : BitVec 32) (t : T) (p : Packet) (junk : Buffer)
    (works : Bool) (a : BitVec 32) :
    (networkSend s ident t p junk works a).inHdr = (s a).inHdr ∧
      (networkSend s ident t p junk works a).inbox = (s a).inbox := by
  have hpost : ∀ wire dst c, (post s wire dst c).inHdr = (s c).inHdr ∧
      (post s wire dst c).inbox = (s c).inbox := by
    intro wire dst c
    by_cases hc : c = dst
    · subst hc
      simp [post]
    · simp [post, hc]
  unfold networkSend
  by_cases ha : a = ident
  · subst ha
    split_ifs <;> simp [Machine.goto, Machine.abort, hpost]
  · split_ifs <;> simp [ha, hpost]

theorem Inv.keeps (h : Inv numBoxes s) (hs : Step numBoxes s s') (a : BitVec 32) :
    Keeps (s a) (s' a) := by
  obtain ⟨i, hs⟩ := hs
  obtain ⟨addr, x', hlocal, rfl⟩ | ⟨addr, t, p, junk, works, hpc, rfl⟩ := h.step_cases hs
  · by_cases ha : a = addr
    · subst ha
      rw [Function.update_self]
      exact hlocal.keeps
    · rw [Function.update_of_ne ha]
      exact fun _ => .inl ⟨rfl, rfl⟩
  · exact fun _ => .inl (networkSend_inbox s addr t p junk works a)

theorem MachineInv.arrived (h : MachineInv numBoxes addr x) (b : ℤ) :
    x.arrived b = x.received b ++ x.stored b := by
  have hi := SynchList.reachable_inv (h.box.boxes b)
  rw [Machine.arrived, ← hi.guarded.logs.items, List.map_append]
  rfl

/-- What is in the mailbox pipeline of a machine is exactly what was sent to it and not
dropped, in order. -/
theorem Inv.places (h : Inv numBoxes s) (src dst : BitVec 32) (b : ℤ) :
    fromMachine src ((s dst).received b ++ (s dst).stored b ++ (s dst).inHands b ++
      Machine.forBox b ((s dst).buffered ++ (s dst).queued)) =
        forMachine dst b (s src).delivered := by
  rw [← h.flow src dst b, Machine.pipeline, (h.machine dst).arrived]

omit [DecidableEq T] [Fintype T] in
theorem delivered_sublist (x : Machine T) : x.delivered.Sublist (x.handed.map Prod.fst) :=
  List.filter_sublist.map _

theorem Inv.received_sublist (h : Inv numBoxes s) (src dst : BitVec 32) (b : ℤ) :
    (fromMachine src ((s dst).received b)).Sublist
      (forMachine dst b ((s src).handed.map Prod.fst)) := by
  have hplaces := h.places src dst b
  simp only [fromMachine, List.filter_append, List.append_assoc] at hplaces
  have hprefix : (fromMachine src ((s dst).received b)).Sublist
      (forMachine dst b (s src).delivered) := by
    rw [← hplaces]
    exact List.sublist_append_left _ _
  exact hprefix.trans ((delivered_sublist (s src)).filter _)

theorem Inv.received_good (h : Inv numBoxes s) {dst : BitVec 32} {b : ℤ} {g : Message}
    (hg : g ∈ (s dst).received b) :
    g ∈ (s g.pktHdr.fromAddr).handed.map Prod.fst ∧
      g.pktHdr.length.toNat = headerSize + g.mailHdr.length.toNat := by
  have hmem : g ∈ fromMachine g.pktHdr.fromAddr ((s dst).received b) := by
    simp [fromMachine, hg]
  have hsent := (h.received_sublist g.pktHdr.fromAddr dst b).subset hmem
  have hhanded := (List.mem_filter.mp hsent).1
  obtain ⟨e, he, rfl⟩ := List.mem_map.mp hhanded
  exact ⟨hhanded, (h.handed _ e he).1.length⟩

/-- In every state reached: what a box has given out of the mail from one machine is a
subsequence, in order, of what that machine sent to it; every message handed to the network
and not dropped is in one place of those listed, and they hold nothing else; a message given out
is one that the machine in its packet header sent, headers and data included, and its length
counts the mail header; no step overwrites a packet in the inbox before the postal worker has it;
and no `ASSERT` has failed but the checks of the arguments of `Send` and `Receive`. -/
theorem mail_delivered (h : Reachable Init (Step numBoxes) s) :
    (∀ src dst b, (fromMachine src ((s dst).received b)).Sublist
      (forMachine dst b ((s src).handed.map Prod.fst))) ∧
    (∀ src dst b, fromMachine src ((s dst).received b ++ (s dst).stored b ++ (s dst).inHands b ++
      Machine.forBox b ((s dst).buffered ++ (s dst).queued)) =
        forMachine dst b (s src).delivered) ∧
    (∀ src, (∀ e ∈ (s src).handed, e.2 = true) →
      (s src).delivered = (s src).handed.map Prod.fst) ∧
    (∀ dst b, ∀ g ∈ (s dst).received b, g ∈ (s g.pktHdr.fromAddr).handed.map Prod.fst ∧
      g.pktHdr.length.toNat = headerSize + g.mailHdr.length.toNat) ∧
    (∀ s', Step numBoxes s s' → ∀ addr, Keeps (s addr) (s' addr)) ∧
    (∀ addr a, (s addr).aborted = some a → a.onArguments = true) := by
  have hi := reachable_inv h
  refine ⟨hi.received_sublist, hi.places, ?_, fun _ _ _ => hi.received_good,
    fun _ => hi.keeps, fun addr => (hi.machine addr).aborted⟩
  intro src hall
  rw [Machine.delivered, List.filter_eq_self.mpr hall]

end

/-- Machine 0 sends three bytes to box 0 of machine 1, where a thread receives them. -/
def mailRun : List (Input Unit) :=
  List.replicate 4 (.thread 0 () (.send ⟨1, 0, 0⟩ ⟨0, 1, 3⟩ fun i => BitVec.ofNat 8 i)
    (fun _ => 255) true) ++ [.poll 1] ++ List.replicate 9 (.worker 1 fun _ => 255) ++
    List.replicate 8 (.thread 1 () (.receive 0) (fun _ => 255) true)

def offices : State Unit := fun _ => Machine.new Unit fun _ => 0

theorem reachable_of_run {s : State Unit} {l : List (Input Unit)}
    (h : l.foldlM (step 10) offices = some s) : Reachable Init (Step 10) s :=
  Reachable.of_foldlM (fun _ i _ h => ⟨i, h⟩) (.init fun _ => ⟨_, rfl⟩) h

theorem mailRun_received : ∃ s : State Unit, Reachable Init (Step 10) s ∧
    (s 1).received 0 = [⟨⟨1, 0, 15⟩, ⟨0, 1, 3⟩, [0, 1, 2]⟩] ∧
    (fromMachine 0 ((s 1).received 0)).Sublist (forMachine 1 0 ((s 0).handed.map Prod.fst)) := by
  have hrun : (mailRun.foldlM (step 10) offices).any (fun s : State Unit =>
      (s 1).received 0 = [⟨⟨1, 0, 15⟩, ⟨0, 1, 3⟩, [0, 1, 2]⟩]) = true := by
    decide +kernel
  obtain ⟨s, hs, hb⟩ := (Option.any_eq_true _ _).mp hrun
  have hr := reachable_of_run hs
  exact ⟨s, hr, of_decide_eq_true hb, (mail_delivered hr).1 0 1 0⟩

/-- A message one byte too long stops the sender. -/
theorem longMail_aborts : ¬ ∀ (s : State Unit) (addr : BitVec 32),
    Reachable Init (Step 10) s → (s addr).aborted = none := by
  have hrun : ([.thread 0 () (.send ⟨1, 0, 0⟩ ⟨0, 1, 41⟩ fun _ => 0) (fun _ => 0) true].foldlM
      (step 10) offices).any (fun s : State Unit => (s 0).aborted = some .sendLength) = true := by
    decide +kernel
  obtain ⟨s, hs, hb⟩ := (Option.any_eq_true _ _).mp hrun
  intro hall
  have := hall s 0 (reachable_of_run hs)
  rw [of_decide_eq_true hb] at this
  cases this

end Nachos.PostOffice
