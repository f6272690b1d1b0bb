import Nachos.BitMap
import Nachos.ByteBuffer

/-! Disk sectors (`disk.cc`, as `SynchDisk` gives access to them) and file headers
(`filehdr.cc`). A header is the 32 `int`s of its sector in their order, so that an index of
`dataSectors` just below 0 reads the fields before it, as it does in memory. -/
namespace Nachos

open ByteBuffer

abbrev sectorSize : ℕ := 128
abbrev numSectorsOnDisk : ℕ := 1024
abbrev numDirect : ℕ := 30
abbrev maxFileSize : ℕ := numDirect * sectorSize

abbrev Disk := ℕ → Buffer

namespace Disk

def readSector (d : Disk) (sectorNumber : ℤ) : Except Trap Buffer :=
  if 0 ≤ sectorNumber ∧ sectorNumber < numSectorsOnDisk then .ok (d sectorNumber.toNat)
  else .error .assertion

def writeSector (d : Disk) (sectorNumber : ℤ) (data : Buffer) : Except Trap Disk :=
  if 0 ≤ sectorNumber ∧ sectorNumber < numSectorsOnDisk then
    .ok (Function.update d sectorNumber.toNat data)
  else .error .assertion

variable {d : Disk} {n : ℕ}

theorem readSector_ok (h : n < numSectorsOnDisk) : d.readSector n = .ok (d n) := by
  have hn : (0 : ℤ) ≤ n ∧ (n : ℤ) < (numSectorsOnDisk : ℕ) := by omega
  rw [readSector, if_pos hn, Int.toNat_natCast]

theorem writeSector_ok (data : Buffer) (h : n < numSectorsOnDisk) :
    d.writeSector n data = .ok (Function.update d n data) := by
  have hn : (0 : ℤ) ≤ n ∧ (n : ℤ) < (numSectorsOnDisk : ℕ) := by omega
  rw [writeSector, if_pos hn, Int.toNat_natCast]

end Disk

def wrapInt (x : ℤ) : ℤ := (BitVec.ofInt 32 x).toInt

theorem wrapInt_eq {x : ℤ} (h : -2 ^ 31 ≤ x) (h' : x < 2 ^ 31) : wrapInt x = x := by
  rw [wrapInt, BitVec.toInt_ofInt]
  exact Int.bmod_eq_of_le_mul_two (by norm_num; omega) (by norm_num; omega)

theorem wrapInt_sub (x : ℤ) : wrapInt (x - 2 ^ 32) = wrapInt x := by
  rw [wrapInt, wrapInt, BitVec.toInt_ofInt, BitVec.toInt_ofInt]
  exact Int.sub_bmod_right x (2 ^ 32)

def divRoundUpInt (n s : ℤ) : ℤ := n.tdiv s + if n.tmod s > 0 then 1 else 0

@[ext]
structure FileHeader where
  word : Fin 32 → Word

namespace FileHeader

def numBytes (h : FileHeader) : ℤ := (h.word 0).toInt

def numSectors (h : FileHeader) : ℤ := (h.word 1).toInt

def dataSectors (h : FileHeader) (i : ℤ) : Except Trap ℤ :=
  if hi : -2 ≤ i ∧ i < numDirect then
    .ok (h.word ⟨(i + 2).toNat, by simp only [numDirect] at hi; omega⟩).toInt
  else .error .memory

def setDataSector (h : FileHeader) (i : ℕ) (sector : ℤ) : Except Trap FileHeader :=
  if hi : i < numDirect then
    .ok ⟨Function.update h.word ⟨i + 2, Nat.add_lt_add_right hi 2⟩ (BitVec.ofInt 32 sector)⟩
  else .error .memory

/-- The loop of `Allocate`: `n` more sectors, the first one at index `i`. -/
def allocateSectors : ℕ → ℕ → FileHeader → BitMap numSectorsOnDisk →
    Except Trap (FileHeader × BitMap numSectorsOnDisk)
  | 0, _, h, freeMap => .ok (h, freeMap)
  | n + 1, i, h, freeMap => do
    let (sector, freeMap) := freeMap.find
    let h ← h.setDataSector i sector
    allocateSectors n (i + 1) h freeMap

/-- `Allocate`, on a header that was not initialised: whether it succeeds, the header and
the map. -/
def allocate (h : FileHeader) (freeMap : BitMap numSectorsOnDisk) (fileSize : ℤ) :
    Except Trap (Bool × FileHeader × BitMap numSectorsOnDisk) := do
  let numSectors := divRoundUpInt fileSize sectorSize
  let h : FileHeader := ⟨Function.update (Function.update h.word 0 (BitVec.ofInt 32 fileSize)) 1
    (BitVec.ofInt 32 numSectors)⟩
  if freeMap.numClear < numSectors then return (false, h, freeMap)
  else
    let (h, freeMap) ← allocateSectors numSectors.toNat 0 h freeMap
    return (true, h, freeMap)

def deallocateSectors (h : FileHeader) : ℕ → ℕ → BitMap numSectorsOnDisk →
    Except Trap (BitMap numSectorsOnDisk)
  | 0, _, freeMap => .ok freeMap
  | n + 1, i, freeMap => do
    let sector ← h.dataSectors i
    let marked ← freeMap.test sector
    if !marked then throw .assertion
    let freeMap ← freeMap.clear sector
    deallocateSectors h n (i + 1) freeMap

def deallocate (h : FileHeader) (freeMap : BitMap numSectorsOnDisk) :
    Except Trap (BitMap numSectorsOnDisk) :=
  h.deallocateSectors h.numSectors.toNat 0 freeMap

def ofBuffer (b : Buffer) : FileHeader := ⟨fun i => wordAt b i⟩

def toBuffer (h : FileHeader) : Buffer :=
  ofWords fun i => if hi : i < 32 then h.word ⟨i, hi⟩ else 0

def fetchFrom (d : Disk) (sector : ℤ) : Except Trap FileHeader := do
  let b ← d.readSector sector
  return ofBuffer b

def writeBack (h : FileHeader) (d : Disk) (sector : ℤ) : Except Trap Disk :=
  d.writeSector sector h.toBuffer

def sector (h : FileHeader) (i : ℕ) : ℕ :=
  if hi : i < numDirect then (h.word ⟨i + 2, Nat.add_lt_add_right hi 2⟩).toNat else 0

/-- A header that fits its sector and the disk. -/
structure Wf (h : FileHeader) : Prop where
  count : h.numSectors ≤ numDirect
  length : h.numBytes ≤ h.numSectors * sectorSize
  onDisk : ∀ i : ℕ, (i : ℤ) < h.numSectors → h.sector i < numSectorsOnDisk

def Distinct (h : FileHeader) : Prop :=
  ∀ i j : ℕ, (i : ℤ) < h.numSectors → (j : ℤ) < h.numSectors → h.sector i = h.sector j → i = j

variable {h : FileHeader}

theorem ofBuffer_toBuffer (h : FileHeader) : ofBuffer h.toBuffer = h := by
  ext i
  simp [ofBuffer, toBuffer, wordAt_ofWords]

theorem dataSectors_ok (hw : h.Wf) {i : ℕ} (hi : (i : ℤ) < h.numSectors) :
    h.dataSectors i = .ok (h.sector i : ℤ) := by
  have hlt : i < numDirect := by
    have := hw.count
    omega
  have hrange : -2 ≤ (i : ℤ) ∧ (i : ℤ) < (numDirect : ℕ) := by omega
  have hs := hw.onDisk i hi
  rw [sector, dif_pos hlt] at hs
  rw [dataSectors, dif_pos hrange, sector, dif_pos hlt]
  congr 1
  have h30 : i < 30 := hlt
  have hidx : (⟨((i : ℤ) + 2).toNat, by omega⟩ : Fin 32) = ⟨i + 2, by omega⟩ := by
    ext
    dsimp only
    omega
  rw [hidx, BitVec.toInt_eq_toNat_of_lt]
  simp only [numSectorsOnDisk] at hs
  omega

def fileSectors (h : FileHeader) : List ℕ := (List.range h.numSectors.toNat).map h.sector

theorem mem_fileSectors {s : ℕ} :
    s ∈ h.fileSectors ↔ ∃ i : ℕ, (i : ℤ) < h.numSectors ∧ h.sector i = s := by
  simp only [fileSectors, List.mem_map, List.mem_range]
  constructor
  · rintro ⟨i, hi, rfl⟩
    exact ⟨i, by omega, rfl⟩
  · rintro ⟨i, hi, rfl⟩
    exact ⟨i, by omega, rfl⟩

theorem nodup_fileSectors : h.fileSectors.Nodup ↔ h.Distinct := by
  rw [fileSectors, List.nodup_map_iff_inj_on List.nodup_range]
  simp only [List.mem_range, Distinct]
  constructor
  · intro hi i j h1 h2 heq
    exact hi i (by omega) j (by omega) heq
  · intro hi i h1 j h2 heq
    exact hi i j (by omega) (by omega) heq

theorem sector_setDataSector {i s : ℕ} (hi : i < numDirect) (hs : s < numSectorsOnDisk) :
    ∃ h', h.setDataSector i s = .ok h' ∧ h'.sector i = s ∧
      (∀ j ≠ i, h'.sector j = h.sector j) ∧ h'.word 0 = h.word 0 ∧ h'.word 1 = h.word 1 := by
  refine ⟨_, by rw [setDataSector, dif_pos hi], ?_, fun j hj => ?_, ?_, ?_⟩
  · simp only [sector, dif_pos hi, Function.update_self, BitVec.ofInt_natCast, BitVec.toNat_ofNat]
    exact Nat.mod_eq_of_lt (lt_trans hs (by norm_num))
  · simp only [sector]
    split_ifs with hjd
    · rw [Function.update_of_ne]
      simpa using hj
    · rfl
  · dsimp only
    rw [Function.update_of_ne]
    simp [Fin.ext_iff]
  · dsimp only
    rw [Function.update_of_ne]
    simp [Fin.ext_iff]

theorem allocateSectors_ok {n i : ℕ} {m : BitMap numSectorsOnDisk} (hi : i + n ≤ numDirect)
    (hn : n ≤ m.numClear) :
    ∃ (h' : FileHeader) (m' : BitMap numSectorsOnDisk) (l : List ℕ),
      allocateSectors n i h m = .ok (h', m') ∧ l.length = n ∧ l.Nodup ∧
      (∀ s ∈ l, s < numSectorsOnDisk ∧ m.bit s = false) ∧
      (∀ s, m'.bit s = (m.bit s || decide (s ∈ l))) ∧
      (∀ k < n, some (h'.sector (i + k)) = l[k]?) ∧ (∀ j < i, h'.sector j = h.sector j) ∧
      h'.word 0 = h.word 0 ∧ h'.word 1 = h.word 1 := by
  induction n generalizing i h m with
  | zero => exact ⟨h, m, [], rfl, rfl, by simp, by simp, by simp, by simp, by simp, rfl, rfl⟩
  | succ n ih =>
    obtain ⟨-, hfull⟩ | ⟨s, hs, hfind, hbit, -⟩ := m.find_cases
    · rw [BitMap.numClear_full hfull] at hn
      omega
    · obtain ⟨h₁, hset, hsec, hother, hw0, hw1⟩ :=
        sector_setDataSector (h := h) (show i < numDirect by omega) hs
      obtain ⟨h', m', l, hrun, hlen, hnd, hfree, hmap, hnew, hold, hw0', hw1'⟩ :=
        ih (h := h₁) (i := i + 1) (m := m.setBit s) (by omega)
          (by have := BitMap.numClear_setBit hs hbit; omega)
      obtain ⟨hnd', hfree', hbits⟩ := BitMap.clear_cons hs hbit hnd hfree
      refine ⟨h', m', s :: l, ?_, by simp [hlen], hnd', hfree', fun x => (hmap x).trans (hbits x),
        fun k hk => ?_, fun j hj => ?_, hw0'.trans hw0, hw1'.trans hw1⟩
      · simp only [allocateSectors, hfind, hset, bind, Except.bind]
        exact hrun
      · cases k with
        | zero => rw [Nat.add_zero, hold i (by omega), hsec, List.getElem?_cons_zero]
        | succ k =>
          rw [List.getElem?_cons_succ, ← hnew k (by omega), Nat.add_right_comm, Nat.add_assoc]
      · rw [hold j (by omega), hother j (by omega)]

/-- `Allocate` with a test of the map that a run evaluates faster. -/
theorem allocate_eq (m : BitMap numSectorsOnDisk) (fileSize : ℤ) : h.allocate m fileSize =
    (let numSectors := divRoundUpInt fileSize sectorSize
     let h : FileHeader := ⟨Function.update (Function.update h.word 0 (BitVec.ofInt 32 fileSize)) 1
       (BitVec.ofInt 32 numSectors)⟩
     if m.hasClear numSectors.toNat then do
       let (h, freeMap) ← allocateSectors numSectors.toNat 0 h m
       return (true, h, freeMap)
     else return (false, h, m)) := by
  unfold allocate
  dsimp only
  rw [BitMap.hasClear_eq]
  by_cases hlt : (m.numClear : ℤ) < divRoundUpInt fileSize sectorSize
  · have hno : ¬ (divRoundUpInt fileSize sectorSize).toNat ≤ m.numClear := by omega
    rw [if_pos hlt, decide_eq_false hno, if_neg Bool.false_ne_true]
  · have hroom : (divRoundUpInt fileSize sectorSize).toNat ≤ m.numClear := by omega
    rw [if_neg hlt, decide_eq_true hroom, if_pos rfl]

theorem divRoundUpInt_bounds {n : ℤ} (hlow : -2 ^ 31 ≤ n) (hn : n ≤ maxFileSize) :
    -2 ^ 31 ≤ divRoundUpInt n sectorSize ∧ divRoundUpInt n sectorSize ≤ numDirect ∧
      n ≤ divRoundUpInt n sectorSize * sectorSize := by
  have hdiv := Int.mul_tdiv_add_tmod n sectorSize
  have hmod := Int.tmod_lt_of_pos n (show (0 : ℤ) < (sectorSize : ℕ) by norm_num)
  have hmod' := Int.lt_tmod_of_pos n (show (0 : ℤ) < (sectorSize : ℕ) by norm_num)
  unfold divRoundUpInt
  simp only [maxFileSize, numDirect, sectorSize] at *
  push_cast at *
  split_ifs
  · omega
  · omega

theorem allocate_ok {m : BitMap numSectorsOnDisk} {fileSize : ℤ} (hlow : -2 ^ 31 ≤ fileSize)
    (hsize : fileSize ≤ maxFileSize) :
    (∃ h', h.allocate m fileSize = .ok (false, h', m) ∧
      m.numClear < divRoundUpInt fileSize sectorSize) ∨
    ∃ (h' : FileHeader) (m' : BitMap numSectorsOnDisk), h.allocate m fileSize = .ok (true, h', m') ∧
      h'.numBytes = fileSize ∧ h'.numSectors = divRoundUpInt fileSize sectorSize ∧ h'.Wf ∧
      h'.fileSectors.Nodup ∧
      (∀ s ∈ h'.fileSectors, s < numSectorsOnDisk ∧ m.bit s = false) ∧
      ∀ s, m'.bit s = (m.bit s || decide (s ∈ h'.fileSectors)) := by
  obtain ⟨hcount', hcount, hlen⟩ := divRoundUpInt_bounds hlow hsize
  unfold allocate
  simp only
  generalize divRoundUpInt fileSize sectorSize = ns at *
  generalize hh0 : (⟨Function.update (Function.update h.word 0 (BitVec.ofInt 32 fileSize)) 1
    (BitVec.ofInt 32 ns)⟩ : FileHeader) = h0
  have hnb : (h0.word 0).toInt = fileSize := by
    rw [← hh0]
    dsimp only
    rw [Function.update_of_ne (by decide), Function.update_self]
    exact wrapInt_eq hlow (by simp only [maxFileSize, numDirect, sectorSize] at hsize; omega)
  have hnsec : (h0.word 1).toInt = ns := by
    rw [← hh0]
    dsimp only
    rw [Function.update_self]
    exact wrapInt_eq hcount' (by simp only [numDirect] at hcount; omega)
  split_ifs with hspace
  · exact .inl ⟨_, rfl, hspace⟩
  · obtain ⟨h', m', l, hrun, hlen', hnd, hfree, hmap, hsec, -, hw0, hw1⟩ :=
      allocateSectors_ok (h := h0) (m := m) (n := ns.toNat) (i := 0) (by omega) (by omega)
    have hcnt : h'.numSectors = ns := by rw [numSectors, hw1, hnsec]
    have hfile : h'.fileSectors = l := by
      refine List.ext_getElem? fun k => ?_
      rw [fileSectors, hcnt, List.getElem?_map]
      by_cases hk : k < ns.toNat
      · rw [List.getElem?_range hk, ← hsec k hk, Nat.zero_add]
        rfl
      · rw [List.getElem?_eq_none (by simpa using hk), List.getElem?_eq_none (by omega)]
        rfl
    refine .inr ⟨h', m', ?_, by rw [numBytes, hw0, hnb], hcnt, ⟨?_, ?_, fun i hi => ?_⟩, ?_, ?_, ?_⟩
    · simp only [hrun, bind, Except.bind]
      rfl
    · rw [hcnt]
      exact hcount
    · rw [numBytes, hw0, hnb, hcnt]
      exact hlen
    · exact (hfree _ (hfile ▸ mem_fileSectors.mpr ⟨i, hi, rfl⟩)).1
    · rw [hfile]
      exact hnd
    · rw [hfile]
      exact hfree
    · rw [hfile]
      exact hmap

theorem deallocateSectors_ok {n i : ℕ} {m : BitMap numSectorsOnDisk} (hw : h.Wf) (hd : h.Distinct)
    (hn : ((i + n : ℕ) : ℤ) ≤ h.numSectors) (hm : ∀ k < n, m.bit (h.sector (i + k)) = true) :
    ∃ m', h.deallocateSectors n i m = .ok m' ∧
      ∀ s, m'.bit s = (m.bit s && decide (∀ k < n, h.sector (i + k) ≠ s)) := by
  induction n generalizing i m with
  | zero => exact ⟨m, rfl, fun s => by simp⟩
  | succ n ih =>
    have hi : (i : ℤ) < h.numSectors := by omega
    have hs := hw.onDisk i hi
    have hm' : ∀ k < n, (m.clearBit (h.sector i)).bit (h.sector (i + 1 + k)) = true := by
      intro k hk
      have hne : h.sector (i + 1 + k) ≠ h.sector i := by
        intro heq
        have := hd _ _ (by omega) hi heq
        omega
      rw [BitMap.bit_clearBit m hs, decide_eq_true hne, Bool.true_and, Nat.add_assoc,
        Nat.add_comm 1]
      exact hm (k + 1) (by omega)
    obtain ⟨m', hrun, hbits⟩ := ih (by omega) hm'
    refine ⟨m', ?_, fun s => ?_⟩
    · have hmi := hm 0 (by omega)
      rw [Nat.add_zero] at hmi
      simp only [deallocateSectors, dataSectors_ok hw hi, BitMap.test_ok m hs, BitMap.clear_ok m hs,
        hmi, bind, Except.bind, Bool.not_true, Bool.false_eq_true, if_false]
      exact hrun
    · rw [hbits, BitMap.bit_clearBit m hs, Bool.and_comm (decide (s ≠ _)), Bool.and_assoc,
        ← Bool.decide_and]
      congr 1
      rw [decide_eq_decide]
      constructor
      · rintro ⟨hne, hrest⟩ k hk
        cases k with
        | zero => exact hne.symm
        | succ k =>
          rw [← Nat.add_assoc, Nat.add_right_comm]
          exact hrest k (by omega)
      · intro hall
        refine ⟨(hall 0 (by omega)).symm, fun k hk => ?_⟩
        have := hall (k + 1) (by omega)
        rwa [← Nat.add_assoc, Nat.add_right_comm] at this

theorem deallocate_ok {m : BitMap numSectorsOnDisk} (hw : h.Wf) (hnd : h.fileSectors.Nodup)
    (hm : ∀ s ∈ h.fileSectors, m.bit s = true) :
    ∃ m', h.deallocate m = .ok m' ∧
      ∀ s, m'.bit s = (m.bit s && decide (s ∉ h.fileSectors)) := by
  obtain hneg | hpos := lt_or_ge h.numSectors 0
  · refine ⟨m, ?_, fun s => ?_⟩
    · rw [deallocate, Int.toNat_of_nonpos hneg.le]
      rfl
    · simp [fileSectors, Int.toNat_of_nonpos hneg.le]
  · obtain ⟨m', hrun, hbits⟩ := deallocateSectors_ok (n := h.numSectors.toNat) (i := 0) hw
      (nodup_fileSectors.mp hnd) (by omega) fun k hk => hm _ (mem_fileSectors.mpr
        ⟨0 + k, by omega, rfl⟩)
    refine ⟨m', hrun, fun s => ?_⟩
    rw [hbits]
    congr 1
    rw [decide_eq_decide]
    simp [fileSectors]

end FileHeader

end Nachos
