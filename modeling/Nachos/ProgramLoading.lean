import Nachos.ProgramImage

/-! The constructor `AddrSpace(OpenFile *, const char *)` without `VM` (`addrspace.cc`): every page
gets a frame, and two loops copy the program page by page. The loops run for a number of pages
that is a segment's size divided by `numPages`, and nothing zeroes the frames. -/
namespace Nachos

structure Loaded where
  pageTable : List TranslationEntry
  mainMemory : Memory
  memoryMap : BitMap numPhysPages

def readPage (pageTable : List TranslationEntry) (file : HostFile) (j position : ℕ) (mem : Memory) :
    Except Trap Memory :=
  match pageTable[j]? with
  | none => .error .memory
  | some e =>
    if 0 ≤ e.physicalPage ∧ e.physicalPage < numPhysPages then
      .ok (mem.putBytes (e.physicalPage.toNat * pageSize) (file.readAt pageSize position))
    else .error .memory

def copyPages (pageTable : List TranslationEntry) (file : HostFile) :
    ℕ → ℕ → ℕ → Memory → Except Trap Memory
  | 0, _, _, mem => .ok mem
  | n + 1, j, position, mem => do
    let mem ← readPage pageTable file j position mem
    copyPages pageTable file n (j + 1) (position + pageSize) mem

/-- The bounds of the loops: the code ends before the first page, the data before the second. -/
def NoffHeader.numPages2 (h : NoffHeader) : ℕ := divRoundUp h.code.size h.numPages

def NoffHeader.numPages3 (h : NoffHeader) : ℕ := divRoundUp h.initData.size h.numPages

def residentEntry (i : ℕ) (f : ℤ) : TranslationEntry := ⟨i, f, true, false, false, false⟩

def NoffHeader.load (h : NoffHeader) (file : HostFile) (mem : Memory)
    (memoryMap : BitMap numPhysPages) : Except Trap Loaded := do
  if h.numPages ≤ numPhysPages then
    let (frames, memoryMap) := memoryMap.finds h.numPages
    let pageTable := frames.mapIdx residentEntry
    let mem ← copyPages pageTable file h.numPages2 0 h.code.inFileAddr mem
    let mem ← copyPages pageTable file (h.numPages3 - h.numPages2) h.numPages2
      h.initData.inFileAddr mem
    return ⟨pageTable, mem, memoryMap⟩
  else throw .assertion

def Loaded.byteAt (r : Loaded) (a : Word) : Option Byte :=
  match translate (.pageTable r.pageTable) a 1 false with
  | .ok (.ok (pa, _)) => some (r.mainMemory pa)
  | _ => none

def NoffHeader.source (h : NoffHeader) (a : ℕ) : ℕ :=
  if a / pageSize < h.numPages2 then h.code.inFileAddr + a
  else h.initData.inFileAddr + (a - h.numPages2 * pageSize)

/-- Where the loops take the byte of an address from, in a file of `n` bytes: nowhere for a page
that they do not reach, or behind the end of the file. -/
def NoffHeader.copiedFrom (h : NoffHeader) (n a : ℕ) : Option ℕ :=
  if a / pageSize < max h.numPages2 h.numPages3 ∧ h.source a < n then some (h.source a) else none

/-- Where the segments have the byte of an address. -/
def NoffHeader.position (h : NoffHeader) (n a : ℕ) : Option ℕ :=
  if h.code.holds a then
    let i := h.code.inFileAddr + (a - h.code.virtualAddr)
    if i < n then some i else none
  else if h.initData.holds a then
    let i := h.initData.inFileAddr + (a - h.initData.virtualAddr)
    if i < n then some i else none
  else none

/-- What the frame of an address held before. -/
def NoffHeader.held (h : NoffHeader) (mem : Memory) (memoryMap : BitMap numPhysPages) (a : ℕ) :
    Byte :=
  mem (((memoryMap.finds h.numPages).1.getD (a / pageSize) 0).toNat * pageSize + a % pageSize)

/-- The loops take the byte of the address from where the segments have it, and a byte that neither
has was zero before. -/
structure NoffHeader.InPlace (h : NoffHeader) (n : ℕ) (held : ℕ → Byte) (a : ℕ) : Prop where
  source : h.copiedFrom n a = h.position n a
  rest : h.position n a = none → held a = 0

structure NoffHeader.Placed (h : NoffHeader) (n : ℕ) (held : ℕ → Byte) : Prop where
  code : h.numPages2 ≤ h.numPages
  initData : h.numPages3 ≤ h.numPages
  all : ∀ a < h.numPages * pageSize, h.InPlace n held a

/-- The constructor returns, and the program reads its image. -/
def NoffHeader.LoadsImage (h : NoffHeader) (file : HostFile) (mem : Memory)
    (memoryMap : BitMap numPhysPages) : Prop :=
  ∃ r, h.load file mem memoryMap = .ok r ∧ ∀ a < h.numPages * pageSize,
    r.byteAt (BitVec.ofNat 32 a) = some (h.image file a)

variable {h : NoffHeader} {file : HostFile} {frames : List ℕ} {mem mem' : Memory}

def residentTable (frames : List ℕ) : List TranslationEntry :=
  (frames.map Nat.cast).mapIdx residentEntry

theorem residentTable_getElem? {j : ℕ} :
    (residentTable frames)[j]? = (frames[j]?).map fun f : ℕ => residentEntry j f := by
  rw [residentTable, List.getElem?_mapIdx, List.getElem?_map, Option.map_map]
  rfl

theorem readPage_ok {j f : ℕ} (hj : frames[j]? = some f) (hf : f < numPhysPages) (position : ℕ) :
    readPage (residentTable frames) file j position mem =
      .ok (mem.putBytes (f * pageSize) (file.readAt pageSize position)) := by
  have hrange : (0 : ℤ) ≤ f ∧ (f : ℤ) < numPhysPages := by omega
  simp only [readPage, residentTable_getElem?, hj, Option.map_some, residentEntry, if_pos hrange,
    Int.toNat_natCast]

theorem putBytes_readAt (f : ℕ) (position : ℕ) {offset : ℕ} (ho : offset < pageSize) :
    mem.putBytes (f * pageSize) (file.readAt pageSize position) (f * pageSize + offset) =
      (file[position + offset]?).getD (mem (f * pageSize + offset)) := by
  rw [Memory.putBytes, if_pos (Nat.le_add_right _ _), Nat.add_sub_cancel_left, readAt_getElem? _ ho]

theorem putBytes_otherFrame {f g : ℕ} (hfg : f ≠ g) (position : ℕ) {offset : ℕ}
    (ho : offset < pageSize) :
    mem.putBytes (f * pageSize) (file.readAt pageSize position) (g * pageSize + offset) =
      mem (g * pageSize + offset) := by
  unfold Memory.putBytes
  split_ifs with hle
  · rw [List.getElem?_eq_none, Option.getD_none]
    have hlen : (file.readAt pageSize position).length ≤ pageSize := by simp [HostFile.readAt]
    simp only [pageSize] at *
    omega
  · rfl

/-- The loop ends well when its pages exist, and changes the bytes of these pages only. -/
theorem copyPages_ok (file : HostFile) (hnd : frames.Nodup) (hf : ∀ f ∈ frames, f < numPhysPages)
    {n j : ℕ}
    (hn : j + n ≤ frames.length) (position : ℕ) (mem : Memory) :
    ∃ mem', copyPages (residentTable frames) file n j position mem = .ok mem' ∧
      ∀ v g, frames[v]? = some g → ∀ offset < pageSize, mem' (g * pageSize + offset) =
        if j ≤ v ∧ v < j + n then
          (file[position + (v - j) * pageSize + offset]?).getD (mem (g * pageSize + offset))
        else mem (g * pageSize + offset) := by
  induction n generalizing j position mem with
  | zero =>
    refine ⟨mem, rfl, fun v g _ offset _ => ?_⟩
    rw [if_neg (by omega)]
  | succ n ih =>
    have hj : frames[j]? = some frames[j] := List.getElem?_eq_getElem (by omega)
    obtain ⟨mem', hrun, hbytes⟩ := ih (j := j + 1) (by omega) (position + pageSize)
      (mem.putBytes (frames[j] * pageSize) (file.readAt pageSize position))
    refine ⟨mem', ?_, fun v g hv offset ho => ?_⟩
    · rw [copyPages, readPage_ok hj (hf _ (List.getElem_mem _))]
      exact hrun
    · rw [hbytes v g hv offset ho]
      by_cases hvj : v = j
      · subst hvj
        obtain rfl := Option.some.inj (hj.symm.trans hv)
        rw [if_neg (by omega), if_pos (by omega), putBytes_readAt _ _ ho, Nat.sub_self,
          Nat.zero_mul,
          Nat.add_zero]
      · have hne : frames[j] ≠ g := by
          rintro rfl
          exact hvj ((List.getElem?_inj (by omega) hnd).mp (hj.trans hv.symm)).symm
        rw [putBytes_otherFrame hne _ ho]
        by_cases hin : j ≤ v ∧ v < j + (n + 1)
        · rw [if_pos (by omega), if_pos hin]
          have hat : position + pageSize + (v - (j + 1)) * pageSize + offset =
              position + (v - j) * pageSize + offset := by
            obtain ⟨d, rfl⟩ : ∃ d, v = j + 1 + d := ⟨v - (j + 1), by omega⟩
            rw [show j + 1 + d - (j + 1) = d by omega, show j + 1 + d - j = d + 1 by omega]
            ring
          rw [hat]
        · rw [if_neg (by omega), if_neg hin]

theorem copyPages_otherFrames {n j position : ℕ} (hf : ∀ f ∈ frames, f < numPhysPages)
    (hn : j + n ≤ frames.length)
    (h : copyPages (residentTable frames) file n j position mem = .ok mem') :
    ∀ p, p / pageSize ∉ frames → mem' p = mem p := by
  induction n generalizing j position mem with
  | zero =>
    obtain rfl := Except.ok.inj h
    exact fun p _ => rfl
  | succ n ih =>
    have hj : frames[j]? = some frames[j] := List.getElem?_eq_getElem (by omega)
    rw [copyPages, readPage_ok hj (hf _ (List.getElem_mem _))] at h
    intro p hp
    rw [ih (by omega) h p hp, Memory.putBytes]
    split_ifs with hle
    · rw [List.getElem?_eq_none, Option.getD_none]
      have hlen : (file.readAt pageSize position).length ≤ pageSize := by simp [HostFile.readAt]
      by_contra hlt
      -- a byte that is written lies in the frame of page `j`
      have hpage : p / pageSize = frames[j] := by
        simp only [pageSize] at *
        omega
      exact hp (hpage ▸ List.getElem_mem _)
    · rfl

/-- A loop that leaves the page table does not end. -/
theorem copyPages_inRange {n j position : ℕ}
    (h : copyPages (residentTable frames) file n j position mem = .ok mem') :
    n = 0 ∨ j + n ≤ frames.length := by
  induction n generalizing j position mem with
  | zero => exact .inl rfl
  | succ n ih =>
    right
    cases hj : frames[j]? with
    | none =>
      rw [copyPages, readPage, residentTable_getElem?, hj] at h
      cases h
    | some f =>
      have hlt := (List.getElem?_eq_some_iff.mp hj).1
      rw [copyPages] at h
      cases hr : readPage (residentTable frames) file j position mem with
      | error t =>
        rw [hr] at h
        cases h
      | ok mem₁ =>
        rw [hr] at h
        have := ih h
        omega

theorem byteAt_resident {r : Loaded} (ht : r.pageTable = residentTable frames)
    (hf : ∀ f ∈ frames, f < numPhysPages) {a g : ℕ} (ha : a < 2 ^ 32)
    (hg : frames[a / pageSize]? = some g) :
    r.byteAt (BitVec.ofNat 32 a) = some (r.mainMemory (g * pageSize + a % pageSize)) := by
  have hlt := hf g (List.mem_of_getElem? hg)
  have hmod := Nat.mod_lt a (show 0 < pageSize by norm_num)
  have hrange : ¬((g : ℤ) < 0 ∨ (numPhysPages : ℤ) ≤ g) := by omega
  have hend : g * pageSize + a % pageSize + 1 ≤ memorySize := by
    simp only [pageSize, numPhysPages, memorySize] at *
    omega
  have hacc : (residentEntry (a / pageSize) g).access (a % pageSize) 1 false =
      .ok (.ok (g * pageSize + a % pageSize, (residentEntry (a / pageSize) g).touch false)) := by
    rw [TranslationEntry.access, residentEntry]
    simp only [Bool.false_and, Bool.false_eq_true, if_false, Int.toNat_natCast]
    rw [if_neg hrange, if_pos hend]
  have hentry : r.pageTable[a / pageSize]? = some (residentEntry (a / pageSize) g) := by
    rw [ht, residentTable_getElem?, hg]
    rfl
  have hnat : (BitVec.ofNat 32 a).toNat = a := by
    rw [BitVec.toNat_ofNat, Nat.mod_eq_of_lt ha]
  rw [Loaded.byteAt, translate, hnat]
  simp only [misaligned, Nat.reduceBEq, Bool.false_and, Bool.or_self, Bool.false_eq_true, if_false,
    hentry, show (residentEntry (a / pageSize) g).valid = true from rfl, Bool.not_true, hacc, bind,
    Except.bind]

theorem copiedFrom_lt {n a : ℕ} : ∀ i ∈ h.copiedFrom n a, i < n := by
  intro i hi
  unfold NoffHeader.copiedFrom at hi
  split_ifs at hi with hlt
  · cases hi
    exact hlt.2
  · cases hi

theorem position_lt {n a : ℕ} : ∀ i ∈ h.position n a, i < n := by
  intro i hi
  unfold NoffHeader.position at hi
  dsimp only at hi
  split_ifs at hi with _ hlt _ hlt
  · cases hi
    exact hlt
  · cases hi
  · cases hi
    exact hlt
  · cases hi
  · cases hi

theorem copiedFrom_byte (a : ℕ) (x : Byte) :
    ((h.copiedFrom file.length a).bind fun i => file[i]?).getD x =
      if a / pageSize < max h.numPages2 h.numPages3 then (file[h.source a]?).getD x else x := by
  unfold NoffHeader.copiedFrom
  by_cases hin : a / pageSize < max h.numPages2 h.numPages3
  · by_cases hlt : h.source a < file.length
    · rw [if_pos ⟨hin, hlt⟩, if_pos hin, Option.bind_some]
    · rw [if_neg (fun hc => hlt hc.2), if_pos hin, List.getElem?_eq_none (by omega)]
      rfl
  · rw [if_neg (fun hc => hin hc.1), if_neg hin]
    rfl

theorem image_eq_position (a : ℕ) :
    h.image file a = ((h.position file.length a).bind fun i => file[i]?).getD 0 := by
  have hbyte (i : ℕ) : (file[i]?).getD 0 =
      ((if i < file.length then some i else none).bind fun i => file[i]?).getD 0 := by
    split_ifs with hlt
    · rfl
    · rw [List.getElem?_eq_none (by omega)]
      rfl
  unfold NoffHeader.image NoffHeader.position Segment.byte
  split_ifs with hc hi
  · rw [hbyte]
  · rw [hbyte]
  · rfl

theorem NoffHeader.Contiguous.position_eq (hl : h.Contiguous file) (a : ℕ) :
    h.position file.length a =
      if a < h.code.size + h.initData.size then some (noffHeaderSize + a) else none := by
  have hlen := hl.length
  unfold NoffHeader.position
  dsimp only
  by_cases hc : a < h.code.size
  · obtain ⟨hv, hfile⟩ := hl.code (by omega)
    rw [if_pos (hl.code_holds.mpr hc), if_pos (by omega), if_pos (by omega), hv, hfile,
      Nat.sub_zero]
  · rw [if_neg (mt hl.code_holds.mp hc)]
    by_cases hi : a < h.code.size + h.initData.size
    · obtain ⟨hv, hfile⟩ := hl.initData (by omega)
      have hat : h.initData.inFileAddr + (a - h.initData.virtualAddr) = noffHeaderSize + a := by
        omega
      rw [if_pos (hl.initData_holds.mpr ⟨by omega, hi⟩), hat, if_pos (by omega), if_pos hi]
    · rw [if_neg (fun hin => hi (hl.initData_holds.mp hin).2), if_neg hi]

theorem divRoundUp_zero_left (s : ℕ) : divRoundUp 0 s = 0 := by
  rw [divRoundUp, Nat.zero_div, Nat.zero_mod]
  rfl

theorem pos_of_divRoundUp_pos {n d : ℕ} (h : 0 < divRoundUp n d) : 0 < n := by
  by_contra hzero
  rw [show n = 0 by omega, divRoundUp_zero_left] at h
  omega

/-- Both loops take a byte from its place when the first one ends with the code. -/
theorem NoffHeader.Contiguous.source_eq (hl : h.Contiguous file) {a : ℕ}
    (hsecond : h.numPages2 < h.numPages3 → h.code.size = h.numPages2 * pageSize)
    (hin : a / pageSize < max h.numPages2 h.numPages3) : h.source a = noffHeaderSize + a := by
  rw [NoffHeader.source]
  split_ifs with hfirst
  · rw [(hl.code (pos_of_divRoundUp_pos (Nat.zero_lt_of_lt hfirst))).2]
  · have hlast := (lt_max_iff.mp hin).resolve_left hfirst
    have hsize := hsecond ((Nat.not_lt.mp hfirst).trans_lt hlast)
    have hfile := (hl.initData (pos_of_divRoundUp_pos (Nat.zero_lt_of_lt hlast))).2
    have hle : h.numPages2 * pageSize ≤ a / pageSize * pageSize :=
      Nat.mul_le_mul_right _ (Nat.not_lt.mp hfirst)
    have hge := Nat.div_mul_le_self a pageSize
    omega

theorem placed_contiguous_iff (hl : h.Contiguous file) {held : ℕ → Byte} :
    h.Placed file.length held ↔ h.numPages2 ≤ h.numPages ∧ h.numPages3 ≤ h.numPages ∧
      (h.numPages2 < h.numPages3 → h.code.size = h.numPages2 * pageSize) ∧
      h.code.size + h.initData.size ≤ max h.numPages2 h.numPages3 * pageSize ∧
      ∀ a < h.numPages * pageSize, h.code.size + h.initData.size ≤ a → held a = 0 := by
  have hlen := hl.length
  have hfit : h.code.size + h.initData.size ≤ h.numPages * pageSize := by
    unfold NoffHeader.numPages divRoundUp
    simp only [pageSize, userStackSize]
    omega
  constructor
  · rintro ⟨hcode, hdata, hall⟩
    refine ⟨hcode, hdata, fun hlt => ?_, ?_, fun a ha hend => ?_⟩
    · -- the first byte of the second loop
      have hin : h.numPages2 * pageSize < h.numPages * pageSize :=
        Nat.mul_lt_mul_of_pos_right (by omega) (by norm_num)
      have hpos : 0 < h.initData.size := pos_of_divRoundUp_pos (Nat.zero_lt_of_lt hlt)
      have hsource := (hall _ hin).source
      rw [NoffHeader.copiedFrom, NoffHeader.source, Nat.mul_div_cancel _ (by norm_num),
        if_neg (lt_irrefl _), Nat.sub_self, Nat.add_zero, (hl.initData hpos).2,
        if_pos ⟨by omega, by omega⟩, hl.position_eq] at hsource
      split_ifs at hsource
      have := Option.some.inj hsource
      omega
    · by_contra hend
      have hsource := (hall (max h.numPages2 h.numPages3 * pageSize) (by omega)).source
      rw [NoffHeader.copiedFrom, Nat.mul_div_cancel _ (by norm_num),
        if_neg (fun hc => lt_irrefl _ hc.1), hl.position_eq, if_pos (by omega)] at hsource
      cases hsource
    · refine (hall a ha).rest ?_
      rw [hl.position_eq, if_neg (by omega)]
  · rintro ⟨hcode, hdata, hsecond, hend, hrest⟩
    refine ⟨hcode, hdata, fun a ha => ⟨?_, fun hnone => hrest a ha ?_⟩⟩
    · rw [NoffHeader.copiedFrom, hl.position_eq]
      by_cases hin : a / pageSize < max h.numPages2 h.numPages3
      · rw [hl.source_eq hsecond hin]
        by_cases hlt : a < h.code.size + h.initData.size
        · rw [if_pos ⟨hin, by omega⟩, if_pos hlt]
        · rw [if_neg (fun hc => hlt (by omega)), if_neg hlt]
      · have hle : max h.numPages2 h.numPages3 * pageSize ≤ a / pageSize * pageSize :=
          Nat.mul_le_mul_right _ (Nat.not_lt.mp hin)
        have hge := Nat.div_mul_le_self a pageSize
        rw [if_neg (fun hc => hin hc.1), if_neg (by omega)]
    · rw [hl.position_eq] at hnone
      split_ifs at hnone
      omega

/-- A program as the constructor leaves it: frames of its own with its bytes, the rest of the
memory as it was. -/
structure LoadedAt (h : NoffHeader) (file : HostFile) (mem : Memory)
    (memoryMap : BitMap numPhysPages) (r : Loaded) (frames : List ℕ) : Prop where
  table : r.pageTable = residentTable frames
  length : frames.length = h.numPages
  nodup : frames.Nodup
  free : ∀ f ∈ frames, f < numPhysPages ∧ memoryMap.bit f = false
  rest : ∀ p, p / pageSize ∉ frames → r.mainMemory p = mem p
  bytes : ∀ v f, frames[v]? = some f → ∀ offset < pageSize, r.mainMemory (f * pageSize + offset) =
    if v < max h.numPages2 h.numPages3 then (file[h.source (v * pageSize + offset)]?).getD
      (mem (f * pageSize + offset)) else mem (f * pageSize + offset)

theorem load_at (file : HostFile) (mem : Memory) {memoryMap : BitMap numPhysPages}
    (hp : h.numPages ≤ numPhysPages) (hfree : h.numPages ≤ memoryMap.numClear)
    (hcode : h.numPages2 ≤ h.numPages) (hdata : h.numPages3 ≤ h.numPages) :
    ∃ r frames, h.load file mem memoryMap = .ok r ∧
      (memoryMap.finds h.numPages).1 = frames.map Nat.cast ∧
      LoadedAt h file mem memoryMap r frames := by
  obtain ⟨frames, hlen, hnd, hfree, hfinds, -⟩ := BitMap.finds_ok hfree
  have hf : ∀ f ∈ frames, f < numPhysPages := fun f hmem => (hfree f hmem).1
  obtain ⟨mem₁, h₁, hb₁⟩ := copyPages_ok file hnd hf (n := h.numPages2) (j := 0) (by omega)
    h.code.inFileAddr mem
  obtain ⟨mem₂, h₂, hb₂⟩ := copyPages_ok file hnd hf (n := h.numPages3 - h.numPages2)
    (j := h.numPages2) (by omega) h.initData.inFileAddr mem₁
  refine ⟨⟨residentTable frames, mem₂, (memoryMap.finds h.numPages).2⟩, frames, ?_, hfinds,
    rfl, hlen, hnd, hfree, ?_, fun v f hv offset ho => ?_⟩
  · rw [NoffHeader.load, if_pos hp]
    simp only [hfinds]
    rw [← residentTable, h₁]
    dsimp only [bind, Except.bind]
    rw [h₂]
    rfl
  · intro p hp'
    dsimp only
    rw [copyPages_otherFrames hf (by omega) h₂ p hp', copyPages_otherFrames hf (by omega) h₁ p hp']
  · dsimp only
    have hdiv : (v * pageSize + offset) / pageSize = v := by
      rw [Nat.mul_comm, Nat.mul_add_div (by norm_num), Nat.div_eq_of_lt ho, Nat.add_zero]
    rw [hb₂ v f hv offset ho, hb₁ v f hv offset ho, NoffHeader.source, hdiv]
    by_cases hin : v < h.numPages2
    · rw [if_neg (by omega), if_pos ⟨Nat.zero_le _, by omega⟩, if_pos (by omega), if_pos hin,
        Nat.sub_zero, Nat.add_assoc]
    · by_cases hin' : v < h.numPages3
      · have hat : h.initData.inFileAddr + (v - h.numPages2) * pageSize + offset =
            h.initData.inFileAddr + (v * pageSize + offset - h.numPages2 * pageSize) := by
          rw [Nat.sub_mul]
          have hle : h.numPages2 * pageSize ≤ v * pageSize := Nat.mul_le_mul_right _ (by omega)
          omega
        rw [if_pos (by omega), if_neg (by omega), if_pos (by omega), if_neg hin, hat]
      · rw [if_neg (by omega), if_neg (by omega), if_neg (by omega)]

/-- The constructor with its two loops: it ends well if and only if the loops stay within the page
table, and then every address has the byte that the file supplies, or the one its frame held. -/
theorem load_spec (file : HostFile) (hp : h.numPages ≤ numPhysPages)
    {memoryMap : BitMap numPhysPages}
    (hclear : h.numPages ≤ memoryMap.numClear) (mem : Memory) :
    (∀ r, h.load file mem memoryMap = .ok r →
        h.numPages2 ≤ h.numPages ∧ h.numPages3 ≤ h.numPages) ∧
      (h.numPages2 ≤ h.numPages → h.numPages3 ≤ h.numPages →
        ∃ r, h.load file mem memoryMap = .ok r ∧ ∀ a < h.numPages * pageSize,
          r.byteAt (BitVec.ofNat 32 a) = some (((h.copiedFrom file.length a).bind
            fun i => file[i]?).getD (h.held mem memoryMap a))) := by
  constructor
  · intro r hr
    obtain ⟨frames, hlen, -, -, hfinds, -⟩ := BitMap.finds_ok hclear
    rw [NoffHeader.load, if_pos hp] at hr
    simp only [hfinds] at hr
    obtain ⟨mem₁, h₁, hr⟩ := except_bind_eq_ok hr
    obtain ⟨mem₂, h₂, -⟩ := except_bind_eq_ok hr
    change copyPages (residentTable frames) file _ _ _ _ = _ at h₁ h₂
    have hcode := copyPages_inRange h₁
    have hdata := copyPages_inRange h₂
    omega
  · intro hcode hdata
    obtain ⟨r, frames, hr, hfinds, hl⟩ := load_at file mem hp hclear hcode hdata
    refine ⟨r, hr, fun a ha => ?_⟩
    have hv : a / pageSize < frames.length := by
      rw [hl.length]
      exact Nat.div_lt_of_lt_mul (by rwa [Nat.mul_comm])
    have hg := List.getElem?_eq_getElem hv
    have hmod := Nat.mod_lt a (show 0 < pageSize by norm_num)
    have ha32 : a < 2 ^ 32 := by
      simp only [pageSize, numPhysPages] at *
      omega
    have hheld : h.held mem memoryMap a =
        mem (frames[a / pageSize] * pageSize + a % pageSize) := by
      rw [NoffHeader.held, hfinds, List.getD_eq_getElem?_getD, List.getElem?_map, hg]
      rfl
    rw [byteAt_resident hl.table (fun f hmem => (hl.free f hmem).1) ha32 hg,
      hl.bytes _ _ hg _ hmod, Nat.div_add_mod', copiedFrom_byte, hheld]

theorem loadsImage_iff_bytes (hp : h.numPages ≤ numPhysPages)
    {memoryMap : BitMap numPhysPages} (hclear : h.numPages ≤ memoryMap.numClear) :
    h.LoadsImage file mem memoryMap ↔ h.numPages2 ≤ h.numPages ∧ h.numPages3 ≤ h.numPages ∧
      ∀ a < h.numPages * pageSize,
        ((h.copiedFrom file.length a).bind fun i => file[i]?).getD (h.held mem memoryMap a) =
          h.image file a := by
  obtain ⟨hrange, hspec⟩ := load_spec file hp hclear mem
  constructor
  · rintro ⟨r, hr, himage⟩
    obtain ⟨hcode, hdata⟩ := hrange r hr
    obtain ⟨r', hr', hbytes⟩ := hspec hcode hdata
    obtain rfl := Except.ok.inj (hr.symm.trans hr')
    exact ⟨hcode, hdata, fun a ha => Option.some.inj ((hbytes a ha).symm.trans (himage a ha))⟩
  · rintro ⟨hcode, hdata, hall⟩
    obtain ⟨r, hr, hbytes⟩ := hspec hcode hdata
    exact ⟨r, hr, fun a ha => by rw [hbytes a ha, hall a ha]⟩

/-- Two positions of a file, or none, hold the same byte in every file of a length if and only if
they are the same. -/
theorem sameByte_iff {n : ℕ} {p q : Option ℕ} (hp : ∀ i ∈ p, i < n) (hq : ∀ i ∈ q, i < n)
    (x : Byte) :
    (∀ file : HostFile, file.length = n →
        (p.bind fun i => file[i]?).getD x = (q.bind fun i => file[i]?).getD 0) ↔
      p = q ∧ (q = none → x = 0) := by
  have hsucc (y : Byte) : y ≠ y + 1 := by
    revert y
    decide
  have hall (y : Byte) {i : ℕ} (hi : i < n) : (List.replicate n y)[i]? = some y := by
    rw [List.getElem?_replicate, if_pos hi]
  constructor
  · intro h
    cases p with
    | none =>
      cases q with
      | none => exact ⟨rfl, fun _ => h (List.replicate n 0) (List.length_replicate ..)⟩
      | some j =>
        have hj := h (List.replicate n (x + 1)) (List.length_replicate ..)
        rw [Option.bind_some, hall _ (hq j rfl)] at hj
        exact absurd hj (hsucc x)
    | some i =>
      cases q with
      | none =>
        have hi := h (List.replicate n 1) (List.length_replicate ..)
        rw [Option.bind_some, hall _ (hp i rfl)] at hi
        change (1 : Byte) = 0 at hi
        cases hi
      | some j =>
        have hij := h ((List.replicate n 0).set i 1) (by simp)
        rw [Option.bind_some, Option.bind_some, List.getElem?_set_self (by simpa using hp i rfl),
          List.getElem?_set] at hij
        by_cases heq : i = j
        · exact ⟨congrArg some heq, fun hnone => by cases hnone⟩
        · rw [if_neg heq, hall _ (hq j rfl)] at hij
          change (1 : Byte) = 0 at hij
          cases hij
  · rintro ⟨rfl, hx⟩ file hlen
    cases p with
    | none => exact hx rfl
    | some i =>
      rw [Option.bind_some, List.getElem?_eq_getElem (by rw [hlen]; exact hp i rfl)]
      rfl

/-- The constructor gives every address its byte if and only if the loops stay within the page
table and an address that is not in place has the right byte by chance. It does so for every
content of a file if and only if every address is in place. In a file that has the segments one
behind the other this is a condition on their sizes, and on the frames behind them. -/
theorem load_image_iff (hp : h.numPages ≤ numPhysPages) {memoryMap : BitMap numPhysPages}
    (hclear : h.numPages ≤ memoryMap.numClear) (mem : Memory) :
    (∀ file, h.LoadsImage file mem memoryMap ↔
        h.numPages2 ≤ h.numPages ∧ h.numPages3 ≤ h.numPages ∧ ∀ a < h.numPages * pageSize,
          ¬h.InPlace file.length (h.held mem memoryMap) a →
            ((h.copiedFrom file.length a).bind fun i => file[i]?).getD (h.held mem memoryMap a) =
              h.image file a) ∧
      (∀ n, (∀ file : HostFile, file.length = n → h.LoadsImage file mem memoryMap) ↔
        h.Placed n (h.held mem memoryMap)) ∧
      ∀ file, h.Contiguous file → (h.Placed file.length (h.held mem memoryMap) ↔
        h.numPages2 ≤ h.numPages ∧ h.numPages3 ≤ h.numPages ∧
          (h.numPages2 < h.numPages3 → h.code.size = h.numPages2 * pageSize) ∧
          h.code.size + h.initData.size ≤ max h.numPages2 h.numPages3 * pageSize ∧
          ∀ a < h.numPages * pageSize, h.code.size + h.initData.size ≤ a →
            h.held mem memoryMap a = 0) := by
  refine ⟨fun file => ?_, fun n => ?_, fun file hl => placed_contiguous_iff hl⟩
  · rw [loadsImage_iff_bytes hp hclear]
    refine and_congr_right fun hcode => and_congr_right fun hdata => ?_
    refine forall₂_congr fun a ha => ⟨fun heq _ => heq, fun hchance => ?_⟩
    by_cases hin : h.InPlace file.length (h.held mem memoryMap) a
    · rw [image_eq_position]
      exact (sameByte_iff copiedFrom_lt position_lt _).mpr ⟨hin.source, hin.rest⟩ file rfl
    · exact hchance hin
  · constructor
    · intro hall
      have hany := (loadsImage_iff_bytes hp hclear).mp
        (hall (List.replicate n 0) (List.length_replicate ..))
      refine ⟨hany.1, hany.2.1, fun a ha => ?_⟩
      have hsame : h.copiedFrom n a = h.position n a ∧
          (h.position n a = none → h.held mem memoryMap a = 0) := by
        refine (sameByte_iff copiedFrom_lt position_lt _).mp fun file hlen => ?_
        have heq := ((loadsImage_iff_bytes hp hclear).mp (hall file hlen)).2.2 a ha
        rwa [image_eq_position, hlen] at heq
      exact ⟨hsame.1, hsame.2⟩
    · intro hplaced file hlen
      refine (loadsImage_iff_bytes hp hclear).mpr
        ⟨hplaced.code, hplaced.initData, fun a ha => ?_⟩
      obtain ⟨hsource, hrest⟩ := hplaced.all a ha
      rw [image_eq_position, hlen]
      exact (sameByte_iff copiedFrom_lt position_lt _).mpr ⟨hsource, hrest⟩ file hlen

def smallProgram : NoffHeader := ⟨⟨0, 40, 81⟩, ⟨0, 0, 0⟩, ⟨0, 0, 0⟩, by decide⟩

def smallFile : HostFile := List.replicate 121 7 ++ List.replicate 1071 0

/-- Code of 81 bytes and 40 bytes of data, in a file that has them behind the header. -/
def codeAndData : NoffHeader := ⟨⟨0, 40, 81⟩, ⟨81, 121, 40⟩, ⟨0, 0, 0⟩, by decide⟩

def codeAndDataFile : HostFile :=
  List.replicate 40 0 ++ List.replicate 81 7 ++ List.replicate 40 5

theorem contiguous_codeAndData : codeAndData.Contiguous codeAndDataFile where
  code _ := ⟨rfl, rfl⟩
  initData _ := ⟨rfl, rfl⟩
  uninitData h := absurd h (by decide)
  length := by
    simp only [codeAndDataFile, List.length_append, List.length_replicate]
    rfl

/-- Every file of its length is loaded well into a memory of zeros. -/
theorem codeAndData_loaded : codeAndDataFile.length = 161 ∧
    codeAndData.image codeAndDataFile 0 = 7 ∧ codeAndData.image codeAndDataFile 81 = 5 ∧
    ∀ file : HostFile, file.length = 161 →
      codeAndData.LoadsImage file (fun _ => 0) ((BitMap.empty _).setBit 0) := by
  have hlen : codeAndDataFile.length = 161 := contiguous_codeAndData.length
  have hclear : codeAndData.numPages ≤ ((BitMap.empty numPhysPages).setBit 0).numClear := by
    decide
  obtain ⟨-, hplaced, hsizes⟩ := load_image_iff (by decide) hclear (fun _ => 0)
  refine ⟨hlen, by decide, by decide, (hplaced 161).mpr ?_⟩
  rw [← hlen]
  exact (hsizes _ contiguous_codeAndData).mpr
    ⟨by decide, by decide, by decide, by decide, fun _ _ _ => rfl⟩

def hundredBytes : NoffHeader := ⟨⟨0, 40, 100⟩, ⟨0, 0, 0⟩, ⟨0, 0, 0⟩, by decide⟩

/-- The first loop runs over 12 pages of a page table of nine. -/
theorem hundredBytes_not_loaded : hundredBytes.numPages = 9 ∧ hundredBytes.numPages2 = 12 ∧
    ∀ r, hundredBytes.load (List.replicate 140 0) (fun _ => 0) (.empty _) ≠ .ok r := by
  refine ⟨by decide, by decide, fun r hr => ?_⟩
  have hrange := (load_spec (h := hundredBytes) _ (by decide) (by decide) _).1 r hr
  exact absurd hrange.1 (by decide)

end Nachos
