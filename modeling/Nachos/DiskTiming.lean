import Nachos.FileHeader
import Nachos.Interrupt
import Nachos.StatePost

/-! The times of disk requests (`disk.cc`), for runs in which the clock does not overflow. The
clock is that of the simulated interrupts, and other devices and the kernel take any steps of
theirs between the requests. `interruptId` is not in the source: it is the number of the last
interrupt that the disk has scheduled, and its handler is called after that interrupt. -/
namespace Nachos.DiskTiming

open ByteBuffer Interrupt

abbrev sectorsPerTrack : ℤ := 32
abbrev numTracks : ℤ := 32
abbrev rotationTime : ℤ := 500
abbrev seekTime : ℤ := 500

structure State where
  interrupt : Interrupt.State
  sectors : Disk
  active : Bool
  lastSector : ℤ
  bufferInit : ℤ
  interruptId : ℕ

def State.new (sectors : Disk) : State where
  interrupt := .new
  sectors := sectors
  active := false
  lastSector := 0
  bufferInit := 0
  interruptId := 0

/-- The sectors of rotation between a sector and the position of the head. -/
def moduloDiff (toSector fromSector : ℤ) : ℤ :=
  let toOffset := toSector.tmod sectorsPerTrack
  let fromOffset := fromSector.tmod sectorsPerTrack
  (toOffset - fromOffset + sectorsPerTrack).tmod sectorsPerTrack

namespace State

/-- The time of the seek, and the time from its end to the next sector boundary. -/
def timeToSeek (s : State) (newSector : ℤ) : ℤ × ℤ :=
  let newTrack := newSector.tdiv sectorsPerTrack
  let oldTrack := s.lastSector.tdiv sectorsPerTrack
  let seek := (newTrack - oldTrack).natAbs * seekTime
  let overrun := (s.interrupt.totalTicks + seek).tmod rotationTime
  (seek, if overrun > 0 then rotationTime - overrun else 0)

def timeAfter (s : State) (newSector : ℤ) : ℤ :=
  s.interrupt.totalTicks + (s.timeToSeek newSector).1 + (s.timeToSeek newSector).2

def UsesBuffer (s : State) (newSector : ℤ) (writing : Bool) : Prop :=
  writing = false ∧ (s.timeToSeek newSector).1 = 0 ∧
    (s.timeAfter newSector - s.bufferInit).tdiv rotationTime >
      moduloDiff newSector (s.bufferInit.tdiv rotationTime)

instance (s : State) (newSector : ℤ) (writing : Bool) :
    Decidable (s.UsesBuffer newSector writing) :=
  inferInstanceAs (Decidable (_ ∧ _))

def computeLatency (s : State) (newSector : ℤ) (writing : Bool) : ℤ :=
  let (seek, rotation) := s.timeToSeek newSector
  if s.UsesBuffer newSector writing then rotationTime
  else seek + (rotation +
    moduloDiff newSector ((s.timeAfter newSector).tdiv rotationTime) * rotationTime) + rotationTime

def updateLast (s : State) (newSector : ℤ) : State :=
  let (seek, rotate) := s.timeToSeek newSector
  { s with
    bufferInit := if seek ≠ 0 then s.interrupt.totalTicks + seek + rotate else s.bufferInit
    lastSector := newSector }

def start (s : State) (sectorNumber ticks : ℤ) : State :=
  let s' := { s with active := true }.updateLast sectorNumber
  { s' with
    interrupt := s'.interrupt.schedule ticks .diskInt
    interruptId := s'.interrupt.next }

def readRequest (s : State) (sectorNumber : ℤ) : Except Trap (Buffer × State) := do
  let ticks := s.computeLatency sectorNumber false
  if s.active then throw .assertion
  let data ← s.sectors.readSector sectorNumber
  return (data, s.start sectorNumber ticks)

def writeRequest (s : State) (sectorNumber : ℤ) (data : Buffer) : Except Trap State := do
  let ticks := s.computeLatency sectorNumber true
  if s.active then throw .assertion
  let sectors ← s.sectors.writeSector sectorNumber data
  return { s with sectors := sectors }.start sectorNumber ticks

def handleInterrupt (s : State) : State := { s with active := false }

end State

inductive Input where
  | interrupt (i : Interrupt.Input)
  | readRequest (sectorNumber : ℤ)
  | writeRequest (sectorNumber : ℤ) (data : Buffer)
  | handleInterrupt

def State.exec (s : State) : Input → Option State
  | .interrupt i => (s.interrupt.step i).map fun x => { s with interrupt := x }
  | .readRequest sectorNumber => (s.readRequest sectorNumber).toOption.map Prod.snd
  | .writeRequest sectorNumber data => (s.writeRequest sectorNumber data).toOption
  | .handleInterrupt =>
    if s.active ∧ ∃ f ∈ s.interrupt.fired, f.interrupt.id = s.interruptId then
      some s.handleInterrupt
    else none

def State.step (s : State) (i : Input) : Option State :=
  if s.interrupt.aborted then none else s.exec i

def Step (s s' : State) : Prop := ∃ i, s.step i = some s'

def Init (s : State) : Prop := ∃ sectors, s = State.new sectors

def Valid (sector : ℤ) : Prop := 0 ≤ sector ∧ sector < numSectorsOnDisk

theorem moduloDiff_eq {a b : ℤ} (ha : 0 ≤ a) (hb : 0 ≤ b) :
    moduloDiff a b = (a - b) % sectorsPerTrack := by
  unfold moduloDiff
  simp only [sectorsPerTrack, Int.tmod_eq_emod_of_nonneg ha, Int.tmod_eq_emod_of_nonneg hb]
  rw [Int.tmod_eq_emod_of_nonneg (by omega)]
  omega

theorem moduloDiff_range {a b : ℤ} (ha : 0 ≤ a) (hb : 0 ≤ b) :
    0 ≤ moduloDiff a b ∧ moduloDiff a b < sectorsPerTrack := by
  rw [moduloDiff_eq ha hb]
  exact ⟨Int.emod_nonneg _ (by decide), Int.emod_lt_of_pos _ (by decide)⟩

theorem add_moduloDiff {a b : ℤ} (ha : 0 ≤ a) (hb : 0 ≤ b) :
    (b + moduloDiff a b) % sectorsPerTrack = a % sectorsPerTrack := by
  rw [moduloDiff_eq ha hb, Int.add_emod_emod, add_sub_cancel]

theorem rounding {t : ℤ} (ht : 0 ≤ t) : ∃ r,
    (if t.tmod rotationTime > 0 then rotationTime - t.tmod rotationTime else 0) = r ∧
      0 ≤ r ∧ r < rotationTime ∧ rotationTime ∣ t + r := by
  refine ⟨_, rfl, ?_⟩
  simp only [rotationTime, Int.tmod_eq_emod_of_nonneg ht]
  split_ifs <;> omega

theorem slot_of_dvd {t : ℤ} (h : rotationTime ∣ t) (ht : 0 ≤ t) : ∃ slot, 0 ≤ slot ∧
    t = rotationTime * slot ∧ t.tdiv rotationTime = slot ∧ t / rotationTime = slot := by
  obtain ⟨slot, rfl⟩ := h
  refine ⟨slot, ?_, rfl, Int.mul_tdiv_cancel_left _ (by decide),
    Int.mul_ediv_cancel_left _ (by decide)⟩
  simp only [rotationTime] at ht
  omega

/-- The head is on a track, the clock has started at 0 and the track buffer at a sector boundary. -/
structure Inv (s : State) : Prop where
  ticks : 0 ≤ s.interrupt.totalTicks
  lastSector : Valid s.lastSector
  bufferInit : 0 ≤ s.bufferInit
  boundary : rotationTime ∣ s.bufferInit

theorem new_inv (sectors : Disk) : Inv (State.new sectors) where
  ticks := le_rfl
  lastSector := ⟨le_rfl, (by decide : (0 : ℤ) < numSectorsOnDisk)⟩
  bufferInit := le_rfl
  boundary := dvd_zero _

namespace Inv
variable {s s' : State} {newSector : ℤ}

theorem seek_range (h : Inv s) (hn : Valid newSector) :
    0 ≤ (s.timeToSeek newSector).1 ∧
      (s.timeToSeek newSector).1 ≤ (numTracks - 1) * seekTime := by
  obtain ⟨hlow, hhigh⟩ := hn
  obtain ⟨llow, lhigh⟩ := h.lastSector
  simp only [State.timeToSeek, Int.tdiv_eq_ediv_of_nonneg hlow, Int.tdiv_eq_ediv_of_nonneg llow]
  simp only [numSectorsOnDisk, sectorsPerTrack, numTracks, seekTime] at *
  omega

theorem rotation_range (h : Inv s) (hn : Valid newSector) :
    0 ≤ (s.timeToSeek newSector).2 ∧ (s.timeToSeek newSector).2 < rotationTime ∧
      rotationTime ∣ s.timeAfter newSector := by
  obtain ⟨r, hr, hrange⟩ := rounding (add_nonneg h.ticks (h.seek_range hn).1)
  have hrotation : (s.timeToSeek newSector).2 = r := hr
  rw [State.timeAfter, hrotation]
  exact hrange

theorem ticks_le_timeAfter (h : Inv s) (hn : Valid newSector) :
    s.interrupt.totalTicks ≤ s.timeAfter newSector := by
  have := (h.seek_range hn).1
  have := (h.rotation_range hn).1
  unfold State.timeAfter
  omega

theorem latency_range (h : Inv s) (hn : Valid newSector) (writing : Bool) :
    rotationTime ≤ s.computeLatency newSector writing ∧
      s.computeLatency newSector writing ≤
        (numTracks - 1) * seekTime + (rotationTime - 1) + sectorsPerTrack * rotationTime := by
  have hseek := h.seek_range hn
  have hrotation := h.rotation_range hn
  have hafter : 0 ≤ (s.timeAfter newSector).tdiv rotationTime :=
    Int.tdiv_nonneg (h.ticks.trans (h.ticks_le_timeAfter hn)) (by decide)
  have hdiff := moduloDiff_range hn.1 hafter
  unfold State.computeLatency
  simp only [sectorsPerTrack, numTracks, rotationTime, seekTime] at *
  split_ifs <;> omega

theorem completion (h : Inv s) (hn : Valid newSector) {writing : Bool}
    (hno : ¬ s.UsesBuffer newSector writing) :
    rotationTime ∣ s.interrupt.totalTicks + s.computeLatency newSector writing ∧
      ((s.interrupt.totalTicks + s.computeLatency newSector writing) / rotationTime - 1) %
        sectorsPerTrack = newSector % sectorsPerTrack := by
  obtain ⟨slot, hpos, hslot, htdiv, -⟩ :=
    slot_of_dvd (h.rotation_range hn).2.2 (h.ticks.trans (h.ticks_le_timeAfter hn))
  have htotal : s.interrupt.totalTicks + s.computeLatency newSector writing =
      rotationTime * (slot + moduloDiff newSector slot + 1) := by
    unfold State.computeLatency
    dsimp only
    rw [if_neg hno, htdiv]
    unfold State.timeAfter at hslot
    linarith
  rw [htotal, Int.mul_ediv_cancel_left _ (by decide), add_sub_cancel_right]
  exact ⟨dvd_mul_right _ _, add_moduloDiff hn.1 hpos⟩

/-- The head has passed over a sector that is in the track buffer since the buffer was started. -/
theorem buffered (h : Inv s) (hn : Valid newSector) {writing : Bool}
    (hb : s.UsesBuffer newSector writing) :
    writing = false ∧ newSector / sectorsPerTrack = s.lastSector / sectorsPerTrack ∧
      ∃ k, s.bufferInit / rotationTime ≤ k ∧ k < s.timeAfter newSector / rotationTime ∧
        k % sectorsPerTrack = newSector % sectorsPerTrack := by
  obtain ⟨hread, hseek, hpassed⟩ := hb
  obtain ⟨start, hpos, hstart, htdiv, hdiv⟩ := slot_of_dvd h.boundary h.bufferInit
  obtain ⟨slot, -, hslot, -, hdiv'⟩ :=
    slot_of_dvd (h.rotation_range hn).2.2 (h.ticks.trans (h.ticks_le_timeAfter hn))
  have hgap : (s.timeAfter newSector - s.bufferInit).tdiv rotationTime = slot - start := by
    rw [hslot, hstart, ← mul_sub]
    exact Int.mul_tdiv_cancel_left _ (by decide)
  rw [hgap, htdiv] at hpassed
  have hdiff := (moduloDiff_range hn.1 hpos).1
  refine ⟨hread, ?_, start + moduloDiff newSector start, ?_, ?_, add_moduloDiff hn.1 hpos⟩
  · simp only [State.timeToSeek, Int.tdiv_eq_ediv_of_nonneg hn.1,
      Int.tdiv_eq_ediv_of_nonneg h.lastSector.1, sectorsPerTrack, seekTime] at hseek ⊢
    omega
  · omega
  · omega

theorem updateLast (h : Inv s) (hn : Valid newSector) : Inv (s.updateLast newSector) := by
  constructor
  case ticks => exact h.ticks
  case lastSector => exact hn
  case bufferInit =>
    unfold State.updateLast
    dsimp only
    split_ifs
    · exact h.ticks.trans (h.ticks_le_timeAfter hn)
    · exact h.bufferInit
  case boundary =>
    unfold State.updateLast
    dsimp only
    split_ifs
    · exact (h.rotation_range hn).2.2
    · exact h.boundary

theorem start (h : Inv s) (hn : Valid newSector) (ticks : ℤ) : Inv (s.start newSector ticks) := by
  have hactive : Inv { s with active := true } := ⟨h.ticks, h.lastSector, h.bufferInit, h.boundary⟩
  have hlast := hactive.updateLast hn
  refine ⟨?_, hlast.lastSector, hlast.bufferInit, hlast.boundary⟩
  unfold State.start
  rw [Interrupt.State.schedule_totalTicks]
  exact hlast.ticks

end Inv

theorem readSector_eq {d : Disk} {sectorNumber : ℤ} {data : Buffer} :
    d.readSector sectorNumber = .ok data ↔
      Valid sectorNumber ∧ d sectorNumber.toNat = data := by
  unfold Disk.readSector
  split_ifs with hn
  · rw [Except.ok.injEq]
    exact (and_iff_right hn).symm
  · exact ⟨nofun, fun h => absurd h.1 hn⟩

theorem writeSector_eq {d d' : Disk} {sectorNumber : ℤ} {data : Buffer} :
    d.writeSector sectorNumber data = .ok d' ↔
      Valid sectorNumber ∧ Function.update d sectorNumber.toNat data = d' := by
  unfold Disk.writeSector
  split_ifs with hn
  · rw [Except.ok.injEq]
    exact (and_iff_right hn).symm
  · exact ⟨nofun, fun h => absurd h.1 hn⟩

namespace State
variable {s s' : State} {sectorNumber : ℤ}

theorem readRequest_eq_ok {data : Buffer} : s.readRequest sectorNumber = .ok (data, s') ↔
    s.active = false ∧ Valid sectorNumber ∧ s.sectors sectorNumber.toNat = data ∧
      s.start sectorNumber (s.computeLatency sectorNumber false) = s' := by
  unfold readRequest
  cases hactive : s.active with
  | true => simp [bind, Except.bind, throw, throwThe, MonadExceptOf.throw]
  | false =>
    cases hread : s.sectors.readSector sectorNumber with
    | error e =>
      have hno : ¬ Valid sectorNumber := fun hn => by
        rw [readSector_eq.mpr ⟨hn, rfl⟩] at hread
        cases hread
      simp [bind, Except.bind, hno]
    | ok data' =>
      obtain ⟨hn, rfl⟩ := readSector_eq.mp hread
      simp [bind, Except.bind, pure, Except.pure, hn]

theorem writeRequest_eq_ok {data : Buffer} : s.writeRequest sectorNumber data = .ok s' ↔
    s.active = false ∧ Valid sectorNumber ∧
      { s with sectors := Function.update s.sectors sectorNumber.toNat data }.start
        sectorNumber (s.computeLatency sectorNumber true) = s' := by
  unfold writeRequest
  cases hactive : s.active with
  | true => simp [bind, Except.bind, throw, throwThe, MonadExceptOf.throw]
  | false =>
    cases hwrite : s.sectors.writeSector sectorNumber data with
    | error e =>
      have hno : ¬ Valid sectorNumber := fun hn => by
        rw [writeSector_eq.mpr ⟨hn, rfl⟩] at hwrite
        cases hwrite
      simp [bind, Except.bind, hno]
    | ok d =>
      obtain ⟨hn, rfl⟩ := writeSector_eq.mp hwrite
      simp [bind, Except.bind, pure, Except.pure, hn]

end State

theorem Inv.exec {s s' : State} (h : Inv s) {i : Input} (hs : s.exec i = some s') : Inv s' := by
  cases i with
  | interrupt i =>
    obtain ⟨x, hx, rfl⟩ := Option.map_eq_some_iff.mp hs
    unfold Interrupt.State.step at hx
    split_ifs at hx
    have hticks := h.ticks.trans (Interrupt.State.exec_totalTicks hx)
    exact ⟨hticks, h.lastSector, h.bufferInit, h.boundary⟩
  | readRequest sectorNumber =>
    obtain ⟨⟨data, s₁⟩, hrun, rfl⟩ := Option.map_eq_some_iff.mp hs
    obtain ⟨-, hn, -, rfl⟩ := State.readRequest_eq_ok.mp (toOption_eq_some hrun)
    exact h.start hn _
  | writeRequest sectorNumber data =>
    obtain ⟨-, hn, rfl⟩ := State.writeRequest_eq_ok.mp (toOption_eq_some hs)
    have hwritten : Inv { s with sectors := Function.update s.sectors sectorNumber.toNat data } :=
      ⟨h.ticks, h.lastSector, h.bufferInit, h.boundary⟩
    exact hwritten.start hn _
  | handleInterrupt =>
    simp only [State.exec] at hs
    split_ifs at hs
    obtain rfl := Option.some.inj hs
    exact ⟨h.ticks, h.lastSector, h.bufferInit, h.boundary⟩

theorem reachable_inv {s : State} (h : Reachable Init Step s) : Inv s := by
  refine Reachable.invariant ?_ ?_ h
  · rintro _ ⟨sectors, rfl⟩
    exact new_inv sectors
  · rintro s s' hi ⟨i, hs⟩
    unfold State.step at hs
    split_ifs at hs
    exact hi.exec hs

/-- The interrupt of a request is pending, and `Schedule` has not stopped the machine. -/
def Scheduled (s s' : State) (ticks : ℤ) : Prop :=
  s'.interrupt.aborted = false ∧
    ⟨s.interrupt.next, s.interrupt.totalTicks + ticks, .diskInt⟩ ∈ s'.interrupt.pending

theorem start_scheduled {s : State} (hrunning : s.interrupt.aborted = false) (sectorNumber : ℤ)
    {ticks : ℤ} (hticks : rotationTime ≤ ticks) :
    Scheduled s (s.start sectorNumber ticks) ticks := by
  have hpos : 0 < ticks := lt_of_lt_of_le (by decide) hticks
  have hinterrupt : (s.start sectorNumber ticks).interrupt =
      s.interrupt.schedule ticks .diskInt := rfl
  unfold Scheduled
  rw [hinterrupt, Interrupt.State.schedule, if_pos hpos]
  exact ⟨hrunning, mem_sortedInsert.mpr (.inl rfl)⟩

/-- In every run the track buffer has been started at a sector boundary; a request for a sector of
the disk takes at least the time of a sector and at most that of the longest seek, a round to the
next boundary and a whole rotation; it ends when its sector has passed under the head, unless the
buffer has it, which is so only for a read on the same track of a sector that has passed since the
buffer was started; and no `ASSERT` fails when no other request is in progress. -/
theorem disk_timing {s : State} (h : Reachable Init Step s) : rotationTime ∣ s.bufferInit ∧
    ∀ newSector, Valid newSector →
      (∀ writing, rotationTime ≤ s.computeLatency newSector writing ∧
        s.computeLatency newSector writing ≤
          (numTracks - 1) * seekTime + (rotationTime - 1) + sectorsPerTrack * rotationTime ∧
        (¬ s.UsesBuffer newSector writing →
          rotationTime ∣ s.interrupt.totalTicks + s.computeLatency newSector writing ∧
            ((s.interrupt.totalTicks + s.computeLatency newSector writing) / rotationTime - 1) %
              sectorsPerTrack = newSector % sectorsPerTrack) ∧
        (s.UsesBuffer newSector writing → writing = false ∧
          newSector / sectorsPerTrack = s.lastSector / sectorsPerTrack ∧
          ∃ k, s.bufferInit / rotationTime ≤ k ∧ k < s.timeAfter newSector / rotationTime ∧
            k % sectorsPerTrack = newSector % sectorsPerTrack)) ∧
      (s.active = false → s.interrupt.aborted = false →
        (∃ data s', s.readRequest newSector = .ok (data, s') ∧
          Scheduled s s' (s.computeLatency newSector false)) ∧
        ∀ data, ∃ s', s.writeRequest newSector data = .ok s' ∧
          Scheduled s s' (s.computeLatency newSector true)) := by
  have hi := reachable_inv h
  refine ⟨hi.boundary, fun newSector hn => ⟨fun writing => ?_, fun hactive hrunning => ⟨?_, ?_⟩⟩⟩
  · have hrange := hi.latency_range hn writing
    exact ⟨hrange.1, hrange.2, hi.completion hn, hi.buffered hn⟩
  · exact ⟨_, _, State.readRequest_eq_ok.mpr ⟨hactive, hn, rfl, rfl⟩,
      start_scheduled hrunning newSector (hi.latency_range hn false).1⟩
  · intro data
    exact ⟨_, State.writeRequest_eq_ok.mpr ⟨hactive, hn, rfl⟩,
      start_scheduled hrunning newSector (hi.latency_range hn true).1⟩

def readRun : List Input :=
  [.readRequest 40, .interrupt .idle, .interrupt (.check []), .handleInterrupt]

/-- Then sector 35 is in the track buffer, and a write of it waits for the head. -/
theorem disk_timing_readRun : ∃ s : State, Reachable Init Step s ∧
    s.interrupt.totalTicks = 4500 ∧ s.bufferInit = 500 ∧ s.computeLatency 35 false = 500 ∧
    s.computeLatency 35 true = 13500 ∧ rotationTime ∣ s.bufferInit ∧
    (∃ k, 500 / rotationTime ≤ k ∧ k < s.timeAfter 35 / rotationTime ∧ k % 32 = 3) ∧
    ∃ data s', s.readRequest 35 = .ok (data, s') ∧ Scheduled s s' 500 := by
  have hrun : (readRun.foldlM State.step (State.new fun _ _ => 0)).any (fun s : State =>
      s.interrupt.totalTicks = 4500 ∧ s.bufferInit = 500 ∧ s.computeLatency 35 false = 500 ∧
        s.computeLatency 35 true = 13500 ∧ s.active = false ∧ s.interrupt.aborted = false ∧
        s.UsesBuffer 35 false) = true := by
    decide
  obtain ⟨s, hs, hb⟩ := (Option.any_eq_true _ _).mp hrun
  obtain ⟨hticks, hinit, hread, hwrite, hactive, hrunning, huses⟩ := of_decide_eq_true hb
  have hr : Reachable Init Step s :=
    Reachable.of_foldlM (fun _ i _ h => ⟨i, h⟩) (.init ⟨_, rfl⟩) hs
  obtain ⟨hdvd, hall⟩ := disk_timing hr
  obtain ⟨htimes, hrequests⟩ := hall 35 ⟨by decide, by decide⟩
  have hbuffered := ((htimes false).2.2.2 huses).2.2
  rw [hinit] at hbuffered
  have hscheduled := (hrequests hactive hrunning).1
  rw [hread] at hscheduled
  exact ⟨s, hr, hticks, hinit, hread, hwrite, hdvd, hbuffered, hscheduled⟩

end Nachos.DiskTiming
