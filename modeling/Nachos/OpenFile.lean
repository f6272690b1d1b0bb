import Nachos.FileHeader

/-! Reads and writes of open files (`openfile.cc`): a request is clamped to the length of the
file, whole sectors are read, and partial sectors are completed before they are written. All
of it is `int` arithmetic. The specifications are for positions that are not negative, which
`ReadAt` and `WriteAt` do not check. -/
namespace Nachos

open ByteBuffer

namespace FileHeader

def readSectors (h : FileHeader) (d : Disk) (firstSector : ℤ) : ℕ → Except Trap Buffer
  | 0 => .ok fun _ => 0
  | n + 1 => do
    let buf ← h.readSectors d firstSector n
    let sector ← h.dataSectors (firstSector + n)
    let data ← d.readSector sector
    return overlay buf (n * sectorSize) sectorSize data

def writeSectors (h : FileHeader) (buf : Buffer) (firstSector : ℤ) : ℕ → Disk → Except Trap Disk
  | 0, d => .ok d
  | n + 1, d => do
    let d ← h.writeSectors buf firstSector n d
    let sector ← h.dataSectors (firstSector + n)
    d.writeSector sector fun j => buf (n * sectorSize + j)

/-- `numBytes` after the request has been checked against the length of the file. -/
def clampRequest (h : FileHeader) (numBytes position : ℤ) : ℤ :=
  if h.numBytes < wrapInt (position + numBytes) then wrapInt (h.numBytes - position) else numBytes

/-- `ReadAt` into the buffer `into`: the number of bytes read, and the buffer. The size of
the sector buffer must be positive and the copy must stay inside it. -/
def readAt (h : FileHeader) (d : Disk) (into : Buffer) (numBytes position : ℤ) :
    Except Trap (ℤ × Buffer) := do
  if numBytes ≤ 0 ∨ h.numBytes ≤ position then return (0, into)
  else
    let numBytes := h.clampRequest numBytes position
    let firstSector := position.tdiv sectorSize
    let lastSector := (wrapInt (position + numBytes - 1)).tdiv sectorSize
    let size := wrapInt (wrapInt (1 + lastSector - firstSector) * sectorSize)
    let start := position - firstSector * sectorSize
    if size ≤ 0 ∨ start < 0 ∨ numBytes < 0 ∨ size < start + numBytes then throw .memory
    else
      let buf ← h.readSectors d firstSector (1 + lastSector - firstSector).toNat
      return (numBytes, overlay into 0 numBytes.toNat fun j => buf (start.toNat + j))

def readAtInto (h : FileHeader) (d : Disk) (buf : Buffer) (start : ℕ) (numBytes position : ℤ) :
    Except Trap Buffer := do
  let (n, data) ← h.readAt d (fun j => buf (start + j)) numBytes position
  return overlay buf start n.toNat data

/-- The first and the last sector of a request are read in if they are to be partially
modified. The sector buffer starts with the bytes `junk`. -/
def readEnds (h : FileHeader) (d : Disk) (junk : Buffer) (numBytes position firstSector
    lastSector : ℤ) : Except Trap Buffer := do
  let firstAligned := position == firstSector * sectorSize
  let lastAligned := wrapInt (position + numBytes) == (lastSector + 1) * sectorSize
  let buf ← if !firstAligned then
      h.readAtInto d junk 0 sectorSize (firstSector * sectorSize)
    else pure junk
  if !lastAligned && (firstSector != lastSector || firstAligned) then
    h.readAtInto d buf ((lastSector - firstSector).toNat * sectorSize) sectorSize
      (lastSector * sectorSize)
  else return buf

def writeAt (h : FileHeader) (d : Disk) (junk src : Buffer) (numBytes position : ℤ) :
    Except Trap (ℤ × Disk) := do
  if numBytes ≤ 0 ∨ h.numBytes ≤ position then return (0, d)
  else
    let numBytes := h.clampRequest numBytes position
    let firstSector := position.tdiv sectorSize
    let lastSector := (wrapInt (position + numBytes - 1)).tdiv sectorSize
    let size := wrapInt (wrapInt (1 + lastSector - firstSector) * sectorSize)
    let start := position - firstSector * sectorSize
    if size ≤ 0 ∨ start < 0 ∨ numBytes < 0 ∨ size < start + numBytes then throw .memory
    else
      let buf ← h.readEnds d junk numBytes position firstSector lastSector
      let buf := overlay buf start.toNat numBytes.toNat src
      let d ← h.writeSectors buf firstSector (1 + lastSector - firstSector).toNat d
      return (numBytes, d)

def fileByte (h : FileHeader) (d : Disk) (x : ℕ) : Byte :=
  d (h.sector (x / sectorSize)) (x % sectorSize)

def clamp (h : FileHeader) (numBytes : ℤ) (position : ℕ) : ℕ :=
  min numBytes.toNat (h.numBytes.toNat - position)

variable {h : FileHeader} {d : Disk}

theorem readSectors_ok (hw : h.Wf) {first n : ℕ} (hn : (first + n : ℤ) ≤ h.numSectors) :
    ∃ buf, h.readSectors d first n = .ok buf ∧
      ∀ j < n * sectorSize, buf j = d (h.sector (first + j / sectorSize)) (j % sectorSize) := by
  induction n with
  | zero => exact ⟨_, rfl, fun j hj => by omega⟩
  | succ n ih =>
    obtain ⟨buf, hbuf, hbytes⟩ := ih (by push_cast at hn; omega)
    have hlt : ((first + n : ℕ) : ℤ) < h.numSectors := by
      push_cast at hn ⊢
      omega
    refine ⟨overlay buf (n * sectorSize) sectorSize (d (h.sector (first + n))), ?_, fun j hj => ?_⟩
    · simp only [readSectors, hbuf, bind, Except.bind]
      rw [show (first : ℤ) + (n : ℤ) = ((first + n : ℕ) : ℤ) by push_cast; ring,
        dataSectors_ok hw hlt]
      simp only [Disk.readSector_ok (hw.onDisk _ hlt)]
      rfl
    · by_cases hjn : j < n * sectorSize
      · rw [overlay_out (.inl hjn), hbytes j hjn]
      · rw [overlay_in (by omega) (by simp only [sectorSize] at *; omega)]
        simp only [sectorSize] at *
        congr 2 <;> omega

theorem Wf.numBytes_le (hw : h.Wf) : h.numBytes.toNat ≤ maxFileSize := by
  have h1 := hw.count
  have h2 := hw.length
  simp only [maxFileSize, sectorSize, numDirect] at *
  omega

theorem clampRequest_eq {numBytes : ℤ} {position : ℕ} (hn : 0 < numBytes)
    (hp : (position : ℤ) < h.numBytes) (hfit : position + numBytes < 2 ^ 31) :
    h.clampRequest numBytes position = (h.clamp numBytes position : ℤ) ∧
      0 < h.clamp numBytes position ∧ position + h.clamp numBytes position ≤ h.numBytes.toNat := by
  have hlen : h.numBytes < 2 ^ 31 := BitVec.toInt_lt
  unfold clampRequest clamp
  rw [wrapInt_eq (by omega) hfit]
  split_ifs with hlt
  · rw [wrapInt_eq (by omega) (by omega)]
    omega
  · omega

theorem request_sectors (position : ℕ) {n : ℕ} (hn : 0 < n) (hfit : position + n ≤ maxFileSize) :
    (position : ℤ).tdiv sectorSize = (position / sectorSize : ℕ) ∧
    (wrapInt (position + n - 1)).tdiv sectorSize = ((position + n - 1) / sectorSize : ℕ) ∧
    wrapInt (wrapInt (1 + ((position + n - 1) / sectorSize : ℕ) - (position / sectorSize : ℕ)) *
      sectorSize) =
      (((position + n - 1) / sectorSize + 1 - position / sectorSize) * sectorSize : ℕ) := by
  have hle : position / sectorSize ≤ (position + n - 1) / sectorSize :=
    Nat.div_le_div_right (by omega)
  have hcast : (position : ℤ) + n - 1 = ((position + n - 1 : ℕ) : ℤ) := by omega
  simp only [sectorSize, maxFileSize, numDirect] at *
  refine ⟨(Int.ofNat_tdiv _ _).symm, ?_, ?_⟩
  · rw [wrapInt_eq (by omega) (by omega), hcast]
    exact (Int.ofNat_tdiv _ _).symm
  · rw [wrapInt_eq (x := 1 + _ - _) (by omega) (by omega), wrapInt_eq (by omega) (by omega)]
    push_cast [Nat.cast_sub (show position / 128 ≤ (position + n - 1) / 128 + 1 by omega)]
    ring

theorem request_bounds (position : ℕ) {n : ℕ} (hn : 0 < n) :
    position / sectorSize ≤ (position + n - 1) / sectorSize ∧
    position / sectorSize * sectorSize ≤ position ∧
    (position : ℤ) - (position / sectorSize : ℕ) * (sectorSize : ℕ) =
      (position - position / sectorSize * sectorSize : ℕ) ∧
    (1 + ((position + n - 1) / sectorSize : ℕ) - (position / sectorSize : ℕ) : ℤ).toNat =
      (position + n - 1) / sectorSize + 1 - position / sectorSize ∧
    position - position / sectorSize * sectorSize + n ≤
      ((position + n - 1) / sectorSize + 1 - position / sectorSize) * sectorSize := by
  simp only [sectorSize]
  omega

theorem request_byte (position j : ℕ) :
    position / sectorSize + (position - position / sectorSize * sectorSize + j) / sectorSize =
      (position + j) / sectorSize ∧
    (position - position / sectorSize * sectorSize + j) % sectorSize =
      (position + j) % sectorSize := by
  simp only [sectorSize]
  omega

theorem overlay_congr {b src src' : Buffer} {start n : ℕ} (hs : ∀ j < n, src j = src' j) :
    overlay b start n src = overlay b start n src' := by
  funext j
  unfold overlay
  split_ifs with hj
  · exact hs _ (by omega)
  · rfl

/-- `ReadAt` at a position that is not negative. -/
theorem readAt_ok (hw : h.Wf) (into : Buffer) {numBytes : ℤ} {position : ℕ}
    (hfit : position + numBytes < 2 ^ 31) :
    h.readAt d into numBytes position = .ok ((h.clamp numBytes position : ℤ),
      overlay into 0 (h.clamp numBytes position) fun j => h.fileByte d (position + j)) := by
  unfold readAt
  split_ifs with hcheck
  · have hzero : h.clamp numBytes position = 0 := by
      unfold clamp
      omega
    rw [hzero]
    exact congrArg (fun b => Except.ok (0, b))
      (funext fun j => (overlay_out (.inr (by omega))).symm)
  · obtain ⟨hn, hp⟩ := not_or.mp hcheck
    obtain ⟨hc, hpos, hend⟩ := clampRequest_eq (not_le.mp hn) (not_le.mp hp) hfit
    generalize h.clamp numBytes position = n at hc hpos hend ⊢
    have hlen : h.numBytes < 2 ^ 31 := BitVec.toInt_lt
    have hmax := hw.numBytes_le
    obtain ⟨hfirst, hlast, hsize⟩ := request_sectors position hpos (by omega)
    simp only [hc, hfirst, hlast, hsize]
    obtain ⟨hfl, hpf, hstart, hcount, hfits⟩ := request_bounds position hpos
    have hin : ((position / sectorSize : ℕ) : ℤ) +
        (((position + n - 1) / sectorSize + 1 - position / sectorSize : ℕ) : ℤ) ≤ h.numSectors := by
      have := hw.length
      simp only [sectorSize] at *
      omega
    obtain ⟨buf, hbuf, hbytes⟩ := readSectors_ok (d := d) hw hin
    rw [if_neg (by simp only [sectorSize] at *; omega), hcount, hbuf]
    refine congrArg (fun b => Except.ok (_, b)) (overlay_congr fun j hj => ?_)
    rw [Int.toNat_natCast] at hj
    obtain ⟨hdiv, hmod⟩ := request_byte position j
    rw [hstart, Int.toNat_natCast, hbytes _ (by omega), fileByte, hdiv, hmod]

theorem writeSectors_ok (hw : h.Wf) (hd : h.Distinct) (buf : Buffer) {first n : ℕ}
    (hn : (first + n : ℤ) ≤ h.numSectors) :
    ∃ d', h.writeSectors buf first n d = .ok d' ∧
      (∀ i < n, ∀ j, d' (h.sector (first + i)) j = buf (i * sectorSize + j)) ∧
      ∀ s, (∀ i < n, h.sector (first + i) ≠ s) → d' s = d s := by
  induction n with
  | zero => exact ⟨d, rfl, fun i hi => by omega, fun s _ => rfl⟩
  | succ n ih =>
    obtain ⟨d', hd', hbytes, hrest⟩ := ih (by push_cast at hn; omega)
    have hlt : ((first + n : ℕ) : ℤ) < h.numSectors := by
      push_cast at hn ⊢
      omega
    refine ⟨Function.update d' (h.sector (first + n)) fun j => buf (n * sectorSize + j), ?_,
      fun i hi j => ?_, fun s hs => ?_⟩
    · simp only [writeSectors, hd', bind, Except.bind]
      rw [show (first : ℤ) + (n : ℤ) = ((first + n : ℕ) : ℤ) by push_cast; ring,
        dataSectors_ok hw hlt]
      exact Disk.writeSector_ok _ (hw.onDisk _ hlt)
    · by_cases hin : i = n
      · rw [hin, Function.update_self]
      · have hne : h.sector (first + i) ≠ h.sector (first + n) := by
          intro heq
          have := hd _ _ (by push_cast at hn ⊢; omega) hlt heq
          omega
        rw [Function.update_of_ne hne]
        exact hbytes i (by omega) j
    · rw [Function.update_of_ne (Ne.symm (hs n (by omega)))]
      exact hrest s fun i hi => hs i (by omega)

theorem readAtInto_ok (hw : h.Wf) (buf : Buffer) (start position : ℕ) {numBytes : ℤ}
    (hfit : position + numBytes < 2 ^ 31) :
    h.readAtInto d buf start numBytes position =
      .ok (overlay buf start (h.clamp numBytes position) fun j => h.fileByte d (position + j)) := by
  simp only [readAtInto, readAt_ok hw _ hfit, bind, Except.bind, Int.toNat_natCast]
  refine congrArg Except.ok (overlay_congr fun j hj => ?_)
  rw [overlay_in (Nat.zero_le j) (by omega), Nat.sub_zero]

theorem readEnds_ok (hw : h.Wf) (junk : Buffer) {position n first last : ℕ} (hn : 0 < n)
    (hend : position + n ≤ h.numBytes.toNat) (hf : first = position / sectorSize)
    (hl : last = (position + n - 1) / sectorSize) :
    ∃ buf, h.readEnds d junk n position first last = .ok buf ∧
      ∀ x, first * sectorSize ≤ x → x < (last + 1) * sectorSize → x < h.numBytes.toNat →
        x < position ∨ position + n ≤ x → buf (x - first * sectorSize) = h.fileByte d x := by
  have hmax := hw.numBytes_le
  have hwrap : wrapInt ((position : ℤ) + n) = (position : ℤ) + n := by
    simp only [maxFileSize, numDirect, sectorSize] at hmax
    exact wrapInt_eq (by omega) (by omega)
  have hfst : ((first : ℕ) : ℤ) * (sectorSize : ℕ) = (first * sectorSize : ℕ) := by push_cast; ring
  have hlst : ((last : ℕ) : ℤ) * (sectorSize : ℕ) = (last * sectorSize : ℕ) := by push_cast; ring
  have hsub : ((last : ℤ) - first).toNat = last - first := by omega
  have harith : first * sectorSize ≤ position ∧ position < (first + 1) * sectorSize ∧
      last * sectorSize < position + n ∧ position + n ≤ (last + 1) * sectorSize ∧ first ≤ last := by
    simp only [sectorSize] at *
    omega
  obtain ⟨hfp, hpf, hlp, hpl, hle⟩ := harith
  have hA : ((position : ℤ) == (first * sectorSize : ℕ)) =
      decide (position = first * sectorSize) := by
    rw [Bool.beq_eq_decide_eq]
    exact decide_eq_decide.mpr Nat.cast_inj
  have hB : ((position + n : ℤ) == (last + 1) * (sectorSize : ℕ)) =
      decide (position + n = (last + 1) * sectorSize) := by
    rw [Bool.beq_eq_decide_eq]
    exact decide_eq_decide.mpr (by exact_mod_cast Iff.rfl)
  have hC : ((first : ℤ) != last) = decide (first ≠ last) := by
    rw [bne, Bool.beq_eq_decide_eq]
    simp
  have hclamp : ∀ k, h.clamp (sectorSize : ℕ) (k * sectorSize) =
      min sectorSize (h.numBytes.toNat - k * sectorSize) := fun k => rfl
  have hread : ∀ buf start k, k ≤ last → h.readAtInto d buf start (sectorSize : ℕ)
      (k * sectorSize : ℕ) = .ok (overlay buf start
        (min sectorSize (h.numBytes.toNat - k * sectorSize))
        fun j => h.fileByte d (k * sectorSize + j)) := by
    intro buf start k hk
    rw [readAtInto_ok hw buf start _
      (by simp only [sectorSize, maxFileSize, numDirect] at *; omega),
      hclamp]
  have hbyte : ∀ (b : Buffer) (start k x : ℕ), k * sectorSize ≤ x → x < (k + 1) * sectorSize →
      x < h.numBytes.toNat → start + (x - k * sectorSize) = x - first * sectorSize →
      overlay b start (min sectorSize (h.numBytes.toNat - k * sectorSize))
        (fun j => h.fileByte d (k * sectorSize + j)) (x - first * sectorSize) =
        h.fileByte d x := by
    intro b start k x h1 h2 h3 h4
    rw [← h4, overlay_in (by omega) (by simp only [sectorSize] at *; omega)]
    congr 1
    omega
  simp only [readEnds]
  rw [hwrap, hfst, hlst, hsub, hA, hB, hC]
  by_cases ha : position = first * sectorSize
  · by_cases hb : position + n = (last + 1) * sectorSize
    · refine ⟨junk, ?_, fun x _ _ _ _ => by omega⟩
      simp only [decide_eq_true ha, decide_eq_true hb, Bool.not_true, Bool.false_and,
        Bool.false_eq_true, if_false, pure_bind]
      rfl
    · refine ⟨_, ?_, fun x h1 h2 h3 h4 =>
        hbyte junk ((last - first) * sectorSize) last x ?_ h2 h3 ?_⟩
      · simp only [decide_eq_true ha, decide_eq_false hb, Bool.not_true, Bool.not_false,
          Bool.or_true, Bool.and_true, Bool.false_eq_true, if_false, if_true, pure_bind]
        exact hread junk _ last le_rfl
      · simp only [sectorSize] at *
        omega
      · simp only [sectorSize] at *
        omega
  · by_cases hbc : position + n = (last + 1) * sectorSize ∨ first = last
    · refine ⟨_, ?_, fun x h1 h2 h3 h4 => hbyte junk 0 first x h1 ?_ h3 (Nat.zero_add _)⟩
      · have hno : (!decide (position + n = (last + 1) * sectorSize) &&
            (decide (first ≠ last) || decide (position = first * sectorSize))) = false := by
          simp only [decide_eq_false ha, Bool.or_false]
          obtain hb | hc := hbc
          · simp [hb]
          · simp [hc]
        simp only [decide_eq_false ha, Bool.not_false, if_true, hread junk 0 first hle] at hno ⊢
        simp only [hno, Bool.false_eq_true, if_false, bind, Except.bind]
        rfl
      · obtain hb | rfl := hbc
        · simp only [sectorSize] at *
          omega
        · exact h2
    · obtain ⟨hb, hc⟩ := not_or.mp hbc
      refine ⟨overlay (overlay junk 0 (min sectorSize (h.numBytes.toNat - first * sectorSize))
        fun j => h.fileByte d (first * sectorSize + j)) ((last - first) * sectorSize)
        (min sectorSize (h.numBytes.toNat - last * sectorSize))
        fun j => h.fileByte d (last * sectorSize + j), ?_, fun x h1 h2 h3 h4 => ?_⟩
      · simp only [decide_eq_false ha, decide_eq_false hb, Bool.not_false, Bool.or_false,
          if_true, hread junk 0 first hle, bind, Except.bind, Bool.true_and, decide_eq_true hc]
        exact hread _ _ last le_rfl
      · by_cases hx : x < position
        · rw [overlay_out (.inl (by simp only [sectorSize] at *; omega))]
          exact hbyte junk 0 first x h1 (by omega) h3 (Nat.zero_add _)
        · exact hbyte _ ((last - first) * sectorSize) last x
            (by simp only [sectorSize] at *; omega) h2 h3 (by simp only [sectorSize] at *; omega)

/-- `WriteAt` at a position that is not negative: the bytes of the request are replaced, the
other bytes of the file and all other sectors stay. -/
theorem writeAt_ok (hw : h.Wf) (hd : h.Distinct) (junk src : Buffer) {numBytes : ℤ} {position : ℕ}
    (hfit : position + numBytes < 2 ^ 31) :
    ∃ d', h.writeAt d junk src numBytes position = .ok ((h.clamp numBytes position : ℤ), d') ∧
      (∀ x < h.numBytes.toNat, h.fileByte d' x =
        if position ≤ x ∧ x < position + h.clamp numBytes position then src (x - position)
        else h.fileByte d x) ∧
      ∀ s, (∀ i : ℕ, (i : ℤ) < h.numSectors → h.sector i ≠ s) → d' s = d s := by
  unfold writeAt
  split_ifs with hcheck
  · have hzero : h.clamp numBytes position = 0 := by
      unfold clamp
      omega
    refine ⟨d, by rw [hzero]; rfl, fun x _ => ?_, fun s _ => rfl⟩
    rw [if_neg (by omega)]
  · obtain ⟨hn, hp⟩ := not_or.mp hcheck
    obtain ⟨hc, hpos, hend⟩ := clampRequest_eq (not_le.mp hn) (not_le.mp hp) hfit
    generalize h.clamp numBytes position = n at hc hpos hend ⊢
    have hmax := hw.numBytes_le
    obtain ⟨hfirst, hlast, hsize⟩ := request_sectors position hpos (by omega)
    obtain ⟨hfl, hpf, hstart, hcount, hfits⟩ := request_bounds position hpos
    have hin : ((position / sectorSize : ℕ) : ℤ) +
        (((position + n - 1) / sectorSize + 1 - position / sectorSize : ℕ) : ℤ) ≤ h.numSectors := by
      have := hw.length
      simp only [sectorSize] at *
      omega
    obtain ⟨buf, hbuf, hbytes⟩ := readEnds_ok (d := d) hw junk hpos hend rfl rfl
    obtain ⟨d', hd', hin', hout'⟩ := writeSectors_ok (d := d) hw hd (overlay buf
      (position - position / sectorSize * sectorSize) n src) hin
    refine ⟨d', ?_, fun x hx => ?_, fun s hs => hout' s fun i hi => hs _ ?_⟩
    · simp only [hc, hfirst, hlast, hsize]
      rw [if_neg (by simp only [sectorSize] at *; omega), hbuf]
      simp only [hstart, hcount, Int.toNat_natCast, bind, Except.bind, hd']
      rfl
    · have hxs : ((x / sectorSize : ℕ) : ℤ) < h.numSectors := by
        have := hw.length
        simp only [sectorSize] at *
        omega
      by_cases hx' : position / sectorSize ≤ x / sectorSize ∧
          x / sectorSize ≤ (position + n - 1) / sectorSize
      · obtain ⟨i, hi⟩ := Nat.exists_eq_add_of_le hx'.1
        have hidx : i * sectorSize + x % sectorSize = x - position / sectorSize * sectorSize := by
          simp only [sectorSize] at *
          omega
        have hxf : position / sectorSize * sectorSize ≤ x := by
          simp only [sectorSize] at *
          omega
        rw [fileByte, hi, hin' i (by omega), hidx]
        split_ifs with hreq
        · rw [overlay_in (by omega) (by omega)]
          congr 1
          omega
        · rw [overlay_out (by omega)]
          exact hbytes x (by simp only [sectorSize] at *; omega)
            (by simp only [sectorSize] at *; omega) hx (by omega)
      · rw [if_neg (by simp only [sectorSize] at *; omega), fileByte, fileByte,
          hout' _ fun i hi => ?_]
        intro heq
        have := hd _ _ (lt_of_lt_of_le (by exact_mod_cast Nat.add_lt_add_left hi _) hin) hxs heq
        omega
    · exact lt_of_lt_of_le (by exact_mod_cast Nat.add_lt_add_left hi _) hin

theorem readAt_table (hw : h.Wf) (into : Buffer) {n : ℕ} (hn : n ≤ h.numBytes.toNat) :
    ∃ b, h.readAt d into n 0 = .ok ((n : ℤ), b) ∧ ∀ j < n, b j = h.fileByte d j := by
  have hmax := hw.numBytes_le
  have hclamp : h.clamp n 0 = n := by
    unfold clamp
    omega
  have hfit : ((0 : ℕ) : ℤ) + (n : ℤ) < 2 ^ 31 := by
    simp only [maxFileSize, numDirect, sectorSize] at hmax
    omega
  have hread := readAt_ok (d := d) hw into hfit
  rw [hclamp] at hread
  refine ⟨_, hread, fun j hj => ?_⟩
  rw [overlay_in (Nat.zero_le j) (by omega), Nat.sub_zero, Nat.zero_add]

theorem writeAt_table (hw : h.Wf) (hd : h.fileSectors.Nodup) (junk src : Buffer) {n : ℕ}
    (hn : n ≤ h.numBytes.toNat) :
    ∃ d', h.writeAt d junk src n 0 = .ok ((n : ℤ), d') ∧ (∀ j < n, h.fileByte d' j = src j) ∧
      ∀ s, s ∉ h.fileSectors → d' s = d s := by
  have hmax := hw.numBytes_le
  have hclamp : h.clamp n 0 = n := by
    unfold clamp
    omega
  have hfit : ((0 : ℕ) : ℤ) + (n : ℤ) < 2 ^ 31 := by
    simp only [maxFileSize, numDirect, sectorSize] at hmax
    omega
  obtain ⟨d', hwrite, hbytes, hrest⟩ := writeAt_ok (d := d) hw (nodup_fileSectors.mp hd) junk src
    hfit
  rw [hclamp] at hwrite hbytes
  refine ⟨d', hwrite, fun j hj => ?_, fun s hs => hrest s fun i hi heq => ?_⟩
  · rw [hbytes j (by omega), if_pos (by omega), Nat.sub_zero]
  · exact hs (mem_fileSectors.mpr ⟨i, hi, heq⟩)

theorem fileByte_congr {d' : Disk} {x : ℕ} (hw : h.Wf) (hx : x < h.numBytes.toNat)
    (hs : ∀ s ∈ h.fileSectors, d' s = d s) : h.fileByte d' x = h.fileByte d x := by
  have hxs : ((x / sectorSize : ℕ) : ℤ) < h.numSectors := by
    have := hw.length
    simp only [sectorSize] at *
    omega
  rw [fileByte, fileByte, hs _ (mem_fileSectors.mpr ⟨_, hxs, rfl⟩)]

end FileHeader

end Nachos
