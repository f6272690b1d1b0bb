import Nachos.FileTransfers

/-! `Create` succeeds exactly when the name is free, the directory has an unused entry and the free
map has room for the header and the data. It works on copies of the two tables and writes them
back at the end, so a failure leaves the disk. -/
namespace Nachos.FileSystem

open ByteBuffer

structure Creatable (d : Disk) (name : CString) (size : ℤ) : Prop where
  fresh : ∀ e ∈ (directoryOf d).files, strncmpEq e.nameString name fileNameMaxLen 0 = false
  entry : ∃ e ∈ (directoryOf d).table, e.inUse = false
  space : 1 + divRoundUpInt size sectorSize ≤ (freeMapOf d).numClear

variable {fs : FileSystem} {junk : ℕ → Buffer} {name : CString} {size : ℤ}

theorem findIndex_none_iff {dir : Directory} : dir.findIndex name = none ↔
    ∀ e ∈ dir.files, strncmpEq e.nameString name fileNameMaxLen 0 = false := by
  refine ⟨Directory.findIndex_none, fun h => List.findIdx?_eq_none_iff.mpr fun e he => ?_⟩
  cases huse : e.inUse with
  | false => rfl
  | true => rw [Bool.true_and, h e (List.mem_filter.mpr ⟨he, huse⟩)]

theorem add_none_iff {dir : Directory} {newSector : ℤ} (h : dir.findIndex name = none) :
    dir.add name newSector = none ↔ ¬ ∃ e ∈ dir.table, e.inUse = false := by
  simp only [Directory.add, h, Option.isSome_none, Bool.false_eq_true, if_false,
    Option.map_eq_none_iff, List.findIdx?_eq_none_iff, not_exists, not_and]
  simp

theorem allocate_true_le {h h' : FileHeader} {m m' : BitMap numSectorsOnDisk}
    (hrun : h.allocate m size = .ok (true, h', m')) :
    divRoundUpInt size sectorSize ≤ m.numClear := by
  by_contra hlt
  simp only [FileHeader.allocate, if_pos (not_le.mp hlt)] at hrun
  cases hrun

theorem allocateFile_true {dir : Directory} {m m' : BitMap numSectorsOnDisk} {sector : ℤ}
    {hdr : FileHeader} {r : Bool × FileSystem}
    (halloc : (FileHeader.ofBuffer (junk 1)).allocate m size = .ok (true, hdr, m'))
    (hrun : fs.allocateFile junk dir m sector size = .ok r) : r.1 = true := by
  simp only [allocateFile, halloc, bind, Except.bind] at hrun
  obtain ⟨d₁, -, hrun⟩ := except_bind_eq_ok hrun
  obtain ⟨d₂, -, hrun⟩ := except_bind_eq_ok hrun
  obtain ⟨d₃, -, hrun⟩ := except_bind_eq_ok hrun
  rw [← Except.ok.inj hrun]

theorem allocateFile_false {dir : Directory} {m m' : BitMap numSectorsOnDisk} {sector : ℤ}
    {hdr : FileHeader}
    (halloc : (FileHeader.ofBuffer (junk 1)).allocate m size = .ok (false, hdr, m')) :
    fs.allocateFile junk dir m sector size = .ok (false, fs) := by
  simp only [allocateFile, halloc, bind, Except.bind]
  rfl

theorem Sound.create_false (h : fs.Sound) (hlow : -2 ^ 31 ≤ size) (hsize : size ≤ maxFileSize)
    (hno : ¬ Creatable fs.disk name size) : fs.create junk name size = .ok (false, fs) := by
  obtain ⟨hcount, -⟩ := FileHeader.divRoundUpInt_bounds hlow hsize
  simp only [create, h.fetchDirectory, h.fetchFreeMap, bind, Except.bind]
  obtain ⟨hnone, hfind⟩ | ⟨e, -, he, hfind, -⟩ := (directoryOf fs.disk).find_cases name
  swap
  · obtain ⟨-, hint, -⟩ := h.sector_toInt he
    rw [if_pos (show (directoryOf fs.disk).find name ≠ -1 by omega)]
    rfl
  rw [if_neg (by rw [hfind]; decide)]
  obtain ⟨hfull, -⟩ | ⟨s, hs, hfree, hbit, -⟩ := (freeMapOf fs.disk).find_cases
  · rw [hfull]
    rfl
  simp only [hfree, if_neg (show ¬(s : ℤ) = -1 by omega)]
  cases hadd : (directoryOf fs.disk).add name s with
  | none => rfl
  | some dir' =>
    have hentry : ∃ e ∈ (directoryOf fs.disk).table, e.inUse = false := by
      by_contra hex
      rw [(add_none_iff hnone).mpr hex] at hadd
      cases hadd
    have hclear := BitMap.numClear_setBit hs hbit
    obtain ⟨hdr, hfalse, -⟩ | ⟨hdr, m', htrue, hbytes, hsec, hwf, hnd, hnew, -⟩ :=
      FileHeader.allocate_ok (h := FileHeader.ofBuffer (junk 1))
        (m := (freeMapOf fs.disk).setBit s) hlow hsize
    · exact allocateFile_false hfalse
    · have hle := allocate_true_le htrue
      exact absurd ⟨findIndex_none_iff.mp hnone, hentry, by omega⟩ hno

theorem Sound.create_true (h : fs.Sound) (h0 : 0 ≤ size) (hsize : size ≤ maxFileSize)
    (hok : Creatable fs.disk name size) : fs.create junk name size ≠ .ok (false, fs) := by
  intro hrun
  have hnone := findIndex_none_iff.mpr hok.fresh
  simp only [create, h.fetchDirectory, h.fetchFreeMap, bind, Except.bind] at hrun
  obtain ⟨-, hfind⟩ | ⟨e, -, he, -, -, hname, -⟩ := (directoryOf fs.disk).find_cases name
  swap
  · rw [hok.fresh e he] at hname
    cases hname
  rw [if_neg (by rw [hfind]; decide)] at hrun
  have hspace := hok.space
  have hcount : 0 ≤ divRoundUpInt size sectorSize := by
    have hdiv := Int.tdiv_nonneg h0 (show (0 : ℤ) ≤ (sectorSize : ℕ) by norm_num)
    unfold divRoundUpInt
    split_ifs <;> omega
  obtain ⟨-, hfull⟩ | ⟨s, hs, hfree, hbit, -⟩ := (freeMapOf fs.disk).find_cases
  · rw [BitMap.numClear_full hfull] at hspace
    omega
  simp only [hfree, if_neg (show ¬(s : ℤ) = -1 by omega)] at hrun
  cases hadd : (directoryOf fs.disk).add name s with
  | none => exact (add_none_iff hnone).mp hadd hok.entry
  | some dir' =>
    rw [hadd] at hrun
    have hclear := BitMap.numClear_setBit hs hbit
    obtain ⟨hdr, -, hlt⟩ | ⟨hdr, m', htrue, -⟩ :=
      FileHeader.allocate_ok (h := FileHeader.ofBuffer (junk 1))
        (m := (freeMapOf fs.disk).setBit s) (by omega) hsize
    · omega
    · exact Bool.false_ne_true (allocateFile_true htrue hrun)

/-- `Create` returns true exactly when there is no such name, an unused entry and room for the
file. A failure changes nothing, and what has been created can be opened and has its size. -/
theorem create_exact (fs : FileSystem) (h : fs.Sound) (junk : ℕ → Buffer) (name : CString)
    (size : Word) (h0 : 0 ≤ size.toInt) (hsize : size.toInt ≤ maxFileSize) :
    ∃ ok fs', fs.create junk name size.toInt = .ok (ok, fs') ∧
      (ok = true ↔ Creatable fs.disk name size.toInt) ∧
      (ok = false → ∀ s, fs'.disk s = fs.disk s) ∧
      (ok = true → ∀ junk', ∃ file, fs'.openFile junk' name = .ok (some file) ∧
        file.hdr.numBytes = size.toInt) := by
  obtain hfalse | ⟨d', e, htrue, hsound, hperm, hkey, hbytes, -⟩ :=
    h.create_cases junk name (BitVec.le_toInt size) hsize
  · refine ⟨false, fs, hfalse, ⟨nofun, fun hok => ?_⟩, fun _ _ => rfl, nofun⟩
    exact absurd hfalse (h.create_true h0 hsize hok)
  · refine ⟨true, _, htrue, ⟨fun _ => ?_, fun _ => rfl⟩, nofun, fun _ junk' => ?_⟩
    · by_contra hno
      rw [h.create_false (BitVec.le_toInt size) hsize hno] at htrue
      cases htrue
    · have he : e ∈ (directoryOf d').files := hperm.mem_iff.mpr List.mem_cons_self
      exact ⟨_, hsound.openFile_of_mem he hkey junk', hbytes⟩

theorem create_exact_blank : ∃ ok fs',
    Session.blank.fs.create (fun _ _ => 0) Session.fileA (100 : Word).toInt = .ok (ok, fs') ∧
      (ok = true ↔ Creatable Session.blank.fs.disk Session.fileA (100 : Word).toInt) := by
  obtain ⟨ok, fs', hrun, hiff, -⟩ := create_exact Session.blank.fs
    (Session.inv_init Session.init_blank).sound (fun _ _ => 0) Session.fileA 100 (by decide)
    (by decide)
  exact ⟨ok, fs', hrun, hiff⟩

end Nachos.FileSystem
