import Nachos.FileHeader

/-! The size of a file against the one sector of its header. `Allocate` compares the size with
the free sectors of the disk only, so a file that is longer than `MaxFileSize` has its sectors
written past the end of `dataSectors`. -/
namespace Nachos.FileHeader

def byteToSector (h : FileHeader) (offset : ℤ) : Except Trap ℤ :=
  h.dataSectors (offset.tdiv sectorSize)

/-- Byte `offset` of the file lies in a sector that `Allocate` has taken, and still does for a
header that went through a sector of the disk. -/
def Backed (h : FileHeader) (m m' : BitMap numSectorsOnDisk) (offset : ℤ) : Prop :=
  ∃ s < numSectorsOnDisk, m.bit s = false ∧ m'.bit s = true ∧ h.byteToSector offset = .ok (s : ℕ) ∧
    ∀ (d : Disk) (t : ℕ), t < numSectorsOnDisk → ∃ d' h', h.writeBack d t = .ok d' ∧
      fetchFrom d' t = .ok h' ∧ h'.byteToSector offset = .ok (s : ℕ)

/-- `Allocate` stays inside the header, backs every byte of a file it accepts, and leaves the map
of a file it refuses, which it does for every size above the limit. -/
def AllocateSafe (h : FileHeader) (m : BitMap numSectorsOnDisk) (fileSize : ℤ) : Prop :=
  ∃ ok h' m', h.allocate m fileSize = .ok (ok, h', m') ∧
    (ok = true → ∀ offset, 0 ≤ offset → offset < fileSize → h'.Backed m m' offset) ∧
    (ok = false → m' = m) ∧ (maxFileSize < fileSize → ok = false)

variable {h : FileHeader} {m m' : BitMap numSectorsOnDisk} {fileSize : ℤ}

theorem fetchFrom_writeBack (h : FileHeader) (d : Disk) {t : ℕ} (ht : t < numSectorsOnDisk) :
    ∃ d', h.writeBack d t = .ok d' ∧ fetchFrom d' t = .ok h := by
  refine ⟨Function.update d t h.toBuffer, Disk.writeSector_ok _ ht, ?_⟩
  rw [fetchFrom, Disk.readSector_ok ht, Function.update_self]
  exact congrArg Except.ok (ofBuffer_toBuffer h)

theorem byteToSector_ok (hw : h.Wf) {offset : ℤ} (h0 : 0 ≤ offset) (hlt : offset < h.numBytes) :
    ∃ s ∈ h.fileSectors, h.byteToSector offset = .ok (s : ℕ) := by
  obtain ⟨k, rfl⟩ := Int.eq_ofNat_of_zero_le h0
  have hk : ((k / sectorSize : ℕ) : ℤ) < h.numSectors := by
    have := hw.length
    simp only [sectorSize] at *
    omega
  refine ⟨h.sector (k / sectorSize), mem_fileSectors.mpr ⟨_, hk, rfl⟩, ?_⟩
  rw [byteToSector, show ((k : ℕ) : ℤ).tdiv (sectorSize : ℕ) = ((k / sectorSize : ℕ) : ℤ) from
    (Int.ofNat_tdiv k sectorSize).symm, dataSectors_ok hw hk]

theorem backed_of_allocate {offset : ℤ} (hw : h.Wf) (hnew : ∀ s ∈ h.fileSectors,
      s < numSectorsOnDisk ∧ m.bit s = false)
    (hmap : ∀ s, m'.bit s = (m.bit s || decide (s ∈ h.fileSectors))) (h0 : 0 ≤ offset)
    (hlt : offset < h.numBytes) : h.Backed m m' offset := by
  obtain ⟨s, hs, hbyte⟩ := byteToSector_ok hw h0 hlt
  refine ⟨s, (hnew s hs).1, (hnew s hs).2, ?_, hbyte, fun d t ht => ?_⟩
  · rw [hmap, decide_eq_true hs, Bool.or_true]
  · obtain ⟨d', hwrite, hfetch⟩ := fetchFrom_writeBack h d ht
    exact ⟨d', h, hwrite, hfetch, hbyte⟩

theorem allocateSafe_of_le (hlow : -2 ^ 31 ≤ fileSize) (hsize : fileSize ≤ maxFileSize) :
    h.AllocateSafe m fileSize := by
  obtain ⟨h', hno, -⟩ | ⟨h', m', hyes, hbytes, -, hw, -, hnew, hmap⟩ :=
    allocate_ok (h := h) (m := m) hlow hsize
  · exact ⟨false, h', m, hno, nofun, fun _ => rfl, fun _ => rfl⟩
  · refine ⟨true, h', m', hyes, fun _ offset h0 hlt => ?_, nofun, fun hgt => by omega⟩
    exact backed_of_allocate hw hnew hmap h0 (by omega)

theorem allocateSafe_of_full (hfull : m.numClear < divRoundUpInt fileSize sectorSize) :
    h.AllocateSafe m fileSize := by
  obtain ⟨h', hno⟩ : ∃ h', h.allocate m fileSize = .ok (false, h', m) := by
    simp only [allocate, if_pos hfull]
    exact ⟨_, rfl⟩
  exact ⟨false, h', m, hno, nofun, fun _ => rfl, fun _ => rfl⟩

theorem allocateSectors_overrun {n i : ℕ} (hi : i ≤ numDirect) (hn : numDirect < i + n) :
    allocateSectors n i h m = .error .memory := by
  induction n generalizing i h m with
  | zero => omega
  | succ n ih =>
    simp only [allocateSectors]
    by_cases hlt : i < numDirect
    · rw [setDataSector, dif_pos hlt]
      exact ih hlt (by omega)
    · rw [setDataSector, dif_neg hlt]
      rfl

theorem numSectors_gt (hsize : maxFileSize < fileSize) :
    numDirect < divRoundUpInt fileSize sectorSize := by
  have hdiv := Int.mul_tdiv_add_tmod fileSize sectorSize
  have hmod := Int.tmod_lt_of_pos fileSize (show (0 : ℤ) < (sectorSize : ℕ) by norm_num)
  unfold divRoundUpInt
  simp only [maxFileSize, numDirect, sectorSize] at *
  push_cast at *
  split_ifs
  · omega
  · omega

/-- Sizes between the two limits. -/
theorem not_allocateSafe (hsize : maxFileSize < fileSize)
    (hfit : divRoundUpInt fileSize sectorSize ≤ m.numClear) : ¬ h.AllocateSafe m fileSize := by
  rintro ⟨ok, h', m', hrun, -⟩
  have hgt := numSectors_gt hsize
  simp only [allocate, if_neg (not_lt.mpr hfit)] at hrun
  rw [allocateSectors_overrun (Nat.zero_le _) (by omega)] at hrun
  cases hrun

/-- `Allocate` is safe exactly for the sizes within the limit and those that do not fit the disk. -/
theorem allocate_safe_iff (h : FileHeader) (m : BitMap numSectorsOnDisk) (fileSize : Word) :
    h.AllocateSafe m fileSize.toInt ↔
      fileSize.toInt ≤ maxFileSize ∨ m.numClear < divRoundUpInt fileSize.toInt sectorSize := by
  constructor
  · intro hsafe
    by_contra hcond
    obtain ⟨hsize, hfit⟩ := not_or.mp hcond
    exact not_allocateSafe (not_le.mp hsize) (not_lt.mp hfit) hsafe
  · rintro (hsize | hfull)
    · exact allocateSafe_of_le (BitVec.le_toInt fileSize) hsize
    · exact allocateSafe_of_full hfull

/-- One byte more than the limit, on an empty disk. -/
theorem allocate_unsafe : ¬ AllocateSafe ⟨fun _ => 0⟩ (BitMap.empty numSectorsOnDisk)
    (3841 : Word).toInt := by
  refine not_allocateSafe (by decide) ?_
  rw [BitMap.numClear_eq_card]
  simp only [BitMap.bit_empty, Finset.filter_true, Finset.card_range]
  decide

end Nachos.FileHeader
