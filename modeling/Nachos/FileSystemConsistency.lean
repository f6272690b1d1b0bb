import Nachos.FileSystem

/-! Consistency of the file system on disk: the free map marks exactly the sectors of the two
tables and of the files in the directory, no sector has two owners, and no two files have one
name. `Sound` adds what the operations rely on, and every operation keeps it. -/
namespace Nachos

open ByteBuffer

/-- The map marks the sectors of the list, which are distinct. -/
structure Marks (m : BitMap numSectorsOnDisk) (l : List ℕ) : Prop where
  nodup : l.Nodup
  bit : ∀ s, m.bit s = true ↔ s ∈ l

namespace Marks

variable {m m' : BitMap numSectorsOnDisk} {l l' : List ℕ}

theorem perm (h : Marks m l) (hp : l.Perm l') : Marks m l' :=
  ⟨hp.nodup_iff.mp h.nodup, fun s => (h.bit s).trans hp.mem_iff⟩

theorem add (h : Marks m l) (hnd : l'.Nodup) (hfree : ∀ s ∈ l', m.bit s = false)
    (hm : ∀ s, m'.bit s = (m.bit s || decide (s ∈ l'))) : Marks m' (l' ++ l) := by
  refine ⟨List.nodup_append.mpr ⟨hnd, h.nodup, fun a ha b hb hab => ?_⟩, fun s => ?_⟩
  · have hfree' := hfree a ha
    rw [hab, (h.bit b).mpr hb] at hfree'
    exact Bool.false_ne_true hfree'.symm
  · rw [hm, Bool.or_eq_true, decide_eq_true_eq, h.bit, List.mem_append, or_comm]

theorem drop (h : Marks m (l' ++ l)) (hm : ∀ s, m'.bit s = (m.bit s && decide (s ∉ l'))) :
    Marks m' l := by
  obtain ⟨-, hnd, hdis⟩ := List.nodup_append.mp h.nodup
  refine ⟨hnd, fun s => ?_⟩
  rw [hm, Bool.and_eq_true, decide_eq_true_eq, h.bit, List.mem_append]
  constructor
  · rintro ⟨hs | hs, hn⟩
    · exact absurd hs hn
    · exact hs
  · exact fun hs => ⟨.inr hs, fun hs' => hdis s hs' s hs rfl⟩

theorem lt (h : Marks m l) {s : ℕ} (hs : s ∈ l) : s < numSectorsOnDisk := by
  by_contra hge
  have hbit := (h.bit s).mpr hs
  have hnone : m.map[s / bitsInWord]? = none := by
    rw [Vector.getElem?_eq_none_iff]
    simp only [numSectorsOnDisk, bitsInWord] at *
    omega
  rw [BitMap.bit_eq_getLsbD, BitMap.word, hnone] at hbit
  simp at hbit

theorem numClear (h : Marks m l) : m.numClear + l.length = numSectorsOnDisk := by
  have hset : ((Finset.range numSectorsOnDisk).filter fun s => ¬m.bit s = false) = l.toFinset := by
    ext s
    rw [Finset.mem_filter, Finset.mem_range, Bool.not_eq_false, h.bit, List.mem_toFinset]
    exact ⟨fun hs => hs.2, fun hs => ⟨h.lt hs, hs⟩⟩
  rw [BitMap.numClear_eq_card, ← List.toFinset_card_of_nodup h.nodup, ← hset,
    Finset.card_filter_add_card_filter_not, Finset.card_range]

end Marks

def headerAt (d : Disk) (sector : ℕ) : FileHeader := FileHeader.ofBuffer (d sector)

def freeMapOf (d : Disk) : BitMap numSectorsOnDisk :=
  BitMap.stored numSectorsOnDisk (headerAt d freeMapSector) d

def directoryOf (d : Disk) : Directory :=
  Directory.stored numDirEntries (headerAt d directorySector) d

def Directory.headers (dir : Directory) : List ℕ := dir.files.map fun e => e.sector.toNat

/-- A header's own sector and the data sectors it lists. -/
def ownSectors (hdr : ℕ → FileHeader) (s : ℕ) : List ℕ := s :: (hdr s).fileSectors

def usedSectors (hdr : ℕ → FileHeader) (dir : Directory) : List ℕ :=
  (freeMapSector :: directorySector :: dir.headers).flatMap (ownSectors hdr)

structure Consistent (d : Disk) : Prop where
  marked : ∀ s, (freeMapOf d).bit s = true ↔ s ∈ usedSectors (headerAt d) (directoryOf d)
  distinct : (usedSectors (headerAt d) (directoryOf d)).Nodup
  names : (directoryOf d).files.Pairwise fun e e' =>
    strncmpEq e.nameString e'.nameString fileNameMaxLen 0 = false

section Tables

variable {d d' : Disk} {hdr hdr' : ℕ → FileHeader} {dir dir' : Directory}

theorem headerAt_congr {s : ℕ} (h : d' s = d s) : headerAt d' s = headerAt d s := by
  rw [headerAt, h, headerAt]

theorem usedSectors_congr (h : ∀ s ∈ freeMapSector :: directorySector :: dir.headers,
    hdr' s = hdr s) : usedSectors hdr' dir = usedSectors hdr dir := by
  rw [usedSectors, usedSectors, List.flatMap, List.flatMap]
  congr 1
  exact List.map_congr_left fun s hs => by rw [ownSectors, ownSectors, h s hs]

theorem usedSectors_cons (hdr : ℕ → FileHeader) {e : DirectoryEntry}
    (h : dir'.files.Perm (e :: dir.files)) :
    (usedSectors hdr dir').Perm (ownSectors hdr e.sector.toNat ++ usedSectors hdr dir) := by
  have hheaders : dir'.headers.Perm (e.sector.toNat :: dir.headers) := h.map _
  have hperm : (freeMapSector :: directorySector :: dir'.headers).Perm
      (e.sector.toNat :: freeMapSector :: directorySector :: dir.headers) :=
    ((hheaders.cons _).cons _).trans (((List.Perm.swap _ _ _).cons _).trans (List.Perm.swap _ _ _))
  exact hperm.flatMap_right _

theorem mem_used_of_own {s t : ℕ} (ht : t ∈ freeMapSector :: directorySector :: dir.headers)
    (hs : s ∈ ownSectors hdr t) : s ∈ usedSectors hdr dir := List.mem_flatMap.mpr ⟨t, ht, hs⟩

theorem own_disjoint (hnd : (usedSectors hdr dir).Nodup) {s t t' : ℕ}
    (ht : t ∈ freeMapSector :: directorySector :: dir.headers)
    (ht' : t' ∈ freeMapSector :: directorySector :: dir.headers) (hne : t ≠ t')
    (hs : s ∈ ownSectors hdr t) : s ∉ ownSectors hdr t' := by
  obtain ⟨-, hpw⟩ := List.nodup_flatMap.mp hnd
  have : Std.Symm (Function.onFun List.Disjoint (ownSectors hdr)) := ⟨fun _ _ h => h.symm⟩
  exact fun hs' => hpw.forall ht ht' hne hs hs'

end Tables

/-- The headers of the two tables are where they belong and do not overlap. -/
structure Layout (d : Disk) : Prop where
  mapWf : (headerAt d freeMapSector).Wf
  dirWf : (headerAt d directorySector).Wf
  mapSize : (headerAt d freeMapSector).numBytes = freeMapFileSize
  dirSize : (headerAt d directorySector).numBytes = directoryFileSize
  nodup : ([freeMapSector, directorySector].flatMap (ownSectors (headerAt d))).Nodup

namespace Layout

variable {d d' : Disk}

def tableSectors (d : Disk) : List ℕ :=
  (headerAt d freeMapSector).fileSectors ++ (headerAt d directorySector).fileSectors

theorem notMem_tableSectors {s : ℕ} : s ∉ tableSectors d ↔
    s ∉ (headerAt d freeMapSector).fileSectors ∧ s ∉ (headerAt d directorySector).fileSectors := by
  rw [tableSectors, List.mem_append, not_or]

theorem split (h : Layout d) : (tableSectors d).Nodup ∧ freeMapSector ∉ tableSectors d ∧
    directorySector ∉ tableSectors d := by
  have hperm : ([freeMapSector, directorySector].flatMap (ownSectors (headerAt d))).Perm
      (freeMapSector :: directorySector :: tableSectors d) := by
    simp only [List.flatMap_cons, List.flatMap_nil, List.append_nil, ownSectors, tableSectors,
      List.cons_append]
    exact List.Perm.cons _ List.perm_middle
  have hnd := hperm.nodup_iff.mp h.nodup
  rw [List.nodup_cons, List.nodup_cons, List.mem_cons, not_or] at hnd
  exact ⟨hnd.2.2, hnd.1.2, hnd.2.1⟩

theorem congr (h : Layout d) (h0 : d' freeMapSector = d freeMapSector)
    (h1 : d' directorySector = d directorySector) :
    Layout d' ∧ headerAt d' freeMapSector = headerAt d freeMapSector ∧
      headerAt d' directorySector = headerAt d directorySector := by
  have e0 := headerAt_congr h0
  have e1 := headerAt_congr h1
  refine ⟨⟨?_, ?_, ?_, ?_, ?_⟩, e0, e1⟩
  · rw [e0]
    exact h.mapWf
  · rw [e1]
    exact h.dirWf
  · rw [e0]
    exact h.mapSize
  · rw [e1]
    exact h.dirSize
  · have hnd := h.nodup
    simp only [List.flatMap_cons, List.flatMap_nil, ownSectors] at hnd ⊢
    rw [e0, e1]
    exact hnd

theorem freeMapOf_congr (h : Layout d) (h0 : d' freeMapSector = d freeMapSector)
    (hs : ∀ s ∈ (headerAt d freeMapSector).fileSectors, d' s = d s) :
    freeMapOf d' = freeMapOf d := by
  rw [freeMapOf, headerAt_congr h0]
  refine BitMap.stored_congr h.mapWf ?_ hs
  rw [h.mapSize]
  decide

theorem directoryOf_congr (h : Layout d) (h1 : d' directorySector = d directorySector)
    (hs : ∀ s ∈ (headerAt d directorySector).fileSectors, d' s = d s) :
    directoryOf d' = directoryOf d := by
  rw [directoryOf, headerAt_congr h1]
  refine Directory.stored_congr h.dirWf ?_ hs
  rw [h.dirSize]
  decide

theorem fetchDirectory (h : Layout d) (junk : Buffer) :
    (Directory.new numDirEntries junk).fetchFrom (headerAt d directorySector) d =
      .ok (directoryOf d) := by
  have hlen : (Directory.new numDirEntries junk).table.length = numDirEntries := by
    simp [Directory.new]
  rw [Directory.fetchFrom_ok h.dirWf, hlen]
  · rfl
  · rw [hlen, h.dirSize]
    decide

theorem fetchFreeMap (h : Layout d) :
    (BitMap.empty numSectorsOnDisk).fetchFrom (headerAt d freeMapSector) d = .ok (freeMapOf d) := by
  rw [BitMap.fetchFrom_ok h.mapWf]
  · rfl
  · rw [h.mapSize]
    decide

theorem writeDirectory (h : Layout d) {dir : Directory} (hlen : dir.table.length = numDirEntries)
    (junk : Buffer) :
    ∃ d', dir.writeBack (headerAt d directorySector) d junk = .ok d' ∧ directoryOf d' = dir ∧
      freeMapOf d' = freeMapOf d ∧ ∀ s, s ∉ (headerAt d directorySector).fileSectors →
        d' s = d s := by
  obtain ⟨hnd, h0, h1⟩ := h.split
  obtain ⟨-, hnd', hdis⟩ := List.nodup_append.mp hnd
  have hsize : dir.table.length * dirEntrySize ≤
      (headerAt d directorySector).numBytes.toNat := by
    rw [hlen, h.dirSize]
    decide
  obtain ⟨d', hwrite, hstored, hrest⟩ := Directory.writeBack_ok (d := d) h.dirWf hnd' junk hsize
  rw [hlen] at hstored
  have h1' : directorySector ∉ (headerAt d directorySector).fileSectors :=
    fun hmem => h1 (List.mem_append_right _ hmem)
  have h0' : freeMapSector ∉ (headerAt d directorySector).fileSectors :=
    fun hmem => h0 (List.mem_append_right _ hmem)
  refine ⟨d', hwrite, ?_, ?_, hrest⟩
  · rw [directoryOf, headerAt_congr (hrest _ h1')]
    exact hstored
  · exact h.freeMapOf_congr (hrest _ h0') fun s hs => hrest s fun hs' => hdis s hs s hs' rfl

theorem writeFreeMap (h : Layout d) (m : BitMap numSectorsOnDisk) (junk : Buffer) :
    ∃ d', m.writeBack (headerAt d freeMapSector) d junk = .ok d' ∧ freeMapOf d' = m ∧
      directoryOf d' = directoryOf d ∧
      ∀ s, s ∉ (headerAt d freeMapSector).fileSectors → d' s = d s := by
  obtain ⟨hnd, h0, h1⟩ := h.split
  obtain ⟨hnd', -, hdis⟩ := List.nodup_append.mp hnd
  obtain ⟨d', hwrite, hstored, hrest⟩ := BitMap.writeBack_ok (d := d) (m := m) h.mapWf hnd' junk
    (by rw [h.mapSize]; decide)
  have h0' : freeMapSector ∉ (headerAt d freeMapSector).fileSectors :=
    fun hmem => h0 (List.mem_append_left _ hmem)
  have h1' : directorySector ∉ (headerAt d freeMapSector).fileSectors :=
    fun hmem => h1 (List.mem_append_left _ hmem)
  refine ⟨d', hwrite, ?_, ?_, hrest⟩
  · rw [freeMapOf, headerAt_congr (hrest _ h0')]
    exact hstored
  · exact h.directoryOf_congr (hrest _ h1') fun s hs => hrest s fun hs' => hdis s hs' s hs rfl

end Layout

/-- What the operations of the file system rely on. -/
structure FileSystem.Sound (fs : FileSystem) : Prop where
  layout : Layout fs.disk
  freeMapFile : fs.freeMapFile.hdr = headerAt fs.disk freeMapSector
  directoryFile : fs.directoryFile.hdr = headerAt fs.disk directorySector
  marks : Marks (freeMapOf fs.disk) (usedSectors (headerAt fs.disk) (directoryOf fs.disk))
  names : (directoryOf fs.disk).files.Pairwise fun e e' =>
    strncmpEq e.nameString e'.nameString fileNameMaxLen 0 = false
  wf : ∀ s ∈ (directoryOf fs.disk).headers, (headerAt fs.disk s).Wf

theorem FileSystem.Sound.consistent {fs : FileSystem} (h : fs.Sound) : Consistent fs.disk :=
  ⟨h.marks.bit, h.marks.nodup, h.names⟩

namespace FileSystem

variable {fs : FileSystem} {d₁ d' : Disk}

theorem usedSectors_eq (hdr : ℕ → FileHeader) (dir : Directory) :
    usedSectors hdr dir =
      [freeMapSector, directorySector].flatMap (ownSectors hdr) ++
        dir.headers.flatMap (ownSectors hdr) := by
  rw [← List.flatMap_append]
  rfl

theorem mem_tables {s : ℕ} {d : Disk} :
    s ∈ [freeMapSector, directorySector].flatMap (ownSectors (headerAt d)) ↔
      s = freeMapSector ∨ s = directorySector ∨ s ∈ Layout.tableSectors d := by
  simp only [List.flatMap_cons, List.flatMap_nil, List.append_nil, ownSectors, List.mem_append,
    List.mem_cons, Layout.tableSectors]
  tauto

theorem files_apart {d : Disk} {dir : Directory} (hnd : (usedSectors (headerAt d) dir).Nodup)
    {s t : ℕ} (ht : t ∈ dir.headers) (hs : s ∈ ownSectors (headerAt d) t) :
    s ≠ freeMapSector ∧ s ≠ directorySector ∧ s ∉ Layout.tableSectors d := by
  rw [usedSectors_eq] at hnd
  obtain ⟨-, -, hdis⟩ := List.nodup_append.mp hnd
  have hn : s ∉ [freeMapSector, directorySector].flatMap (ownSectors (headerAt d)) :=
    fun hs' => hdis s hs' s (List.mem_flatMap.mpr ⟨t, ht, hs⟩) rfl
  rw [mem_tables, not_or, not_or] at hn
  exact hn

theorem Sound.of_tables (hl : Layout d₁) (hmap : fs.freeMapFile.hdr = headerAt d₁ freeMapSector)
    (hdir : fs.directoryFile.hdr = headerAt d₁ directorySector)
    (hrest : ∀ s, s ∉ Layout.tableSectors d₁ → d' s = d₁ s)
    (hmarks : Marks (freeMapOf d') (usedSectors (headerAt d₁) (directoryOf d')))
    (hnames : (directoryOf d').files.Pairwise fun e e' =>
      strncmpEq e.nameString e'.nameString fileNameMaxLen 0 = false)
    (hwf : ∀ s ∈ (directoryOf d').headers, (headerAt d₁ s).Wf) :
    Sound { fs with disk := d' } := by
  obtain ⟨-, h0, h1⟩ := hl.split
  obtain ⟨hl', e0, e1⟩ := hl.congr (hrest _ h0) (hrest _ h1)
  have hhdr : ∀ s ∈ (directoryOf d').headers, headerAt d' s = headerAt d₁ s := fun s hs =>
    headerAt_congr (hrest s (files_apart hmarks.nodup hs (List.mem_cons_self ..)).2.2)
  refine ⟨hl', hmap.trans e0.symm, hdir.trans e1.symm, ?_, hnames, fun s hs => ?_⟩
  · have hused : usedSectors (headerAt d') (directoryOf d') =
        usedSectors (headerAt d₁) (directoryOf d') := by
      refine usedSectors_congr fun s hs => ?_
      rw [List.mem_cons, List.mem_cons] at hs
      obtain rfl | rfl | hs := hs
      · exact e0
      · exact e1
      · exact hhdr s hs
    rw [hused]
    exact hmarks
  · rw [hhdr s hs]
    exact hwf s hs

/-- A write to the data sectors of a file leaves the tables and all headers. -/
theorem Sound.writeFile (h : fs.Sound) {t : ℕ} (ht : t ∈ (directoryOf fs.disk).headers)
    (hrest : ∀ s, s ∉ (headerAt fs.disk t).fileSectors → d' s = fs.disk s) :
    Sound { fs with disk := d' } ∧ directoryOf d' = directoryOf fs.disk ∧
      ∀ s ∈ (directoryOf fs.disk).headers, headerAt d' s = headerAt fs.disk s := by
  have hapart : ∀ s ∈ (headerAt fs.disk t).fileSectors, s ≠ freeMapSector ∧ s ≠ directorySector ∧
      s ∉ Layout.tableSectors fs.disk := fun s hs =>
    files_apart h.marks.nodup ht (List.mem_cons_of_mem _ hs)
  have h0 := hrest freeMapSector fun hs => (hapart _ hs).1 rfl
  have h1 := hrest directorySector fun hs => (hapart _ hs).2.1 rfl
  have htab : ∀ s ∈ Layout.tableSectors fs.disk, d' s = fs.disk s := fun s hs =>
    hrest s fun hs' => (hapart s hs').2.2 hs
  have hhdr : ∀ s ∈ (directoryOf fs.disk).headers, headerAt d' s = headerAt fs.disk s := by
    intro s hs
    refine headerAt_congr (hrest s fun hs' => ?_)
    by_cases hst : s = t
    · have hnd := (List.nodup_flatMap.mp h.marks.nodup).1 t
        (List.mem_cons_of_mem _ (List.mem_cons_of_mem _ ht))
      exact (List.nodup_cons.mp hnd).1 (hst ▸ hs')
    · exact own_disjoint h.marks.nodup (List.mem_cons_of_mem _ (List.mem_cons_of_mem _ hs))
        (List.mem_cons_of_mem _ (List.mem_cons_of_mem _ ht)) hst (List.mem_cons_self ..)
        (List.mem_cons_of_mem _ hs')
  obtain ⟨hl', e0, e1⟩ := h.layout.congr h0 h1
  have hdir : directoryOf d' = directoryOf fs.disk :=
    h.layout.directoryOf_congr h1 fun s hs => htab s (List.mem_append_right _ hs)
  have hmap : freeMapOf d' = freeMapOf fs.disk :=
    h.layout.freeMapOf_congr h0 fun s hs => htab s (List.mem_append_left _ hs)
  have hused : usedSectors (headerAt d') (directoryOf fs.disk) =
      usedSectors (headerAt fs.disk) (directoryOf fs.disk) := by
    refine usedSectors_congr fun s hs => ?_
    rw [List.mem_cons, List.mem_cons] at hs
    obtain rfl | rfl | hs := hs
    · exact e0
    · exact e1
    · exact hhdr s hs
  refine ⟨⟨hl', h.freeMapFile.trans e0.symm, h.directoryFile.trans e1.symm, ?_, ?_, ?_⟩, hdir, hhdr⟩
  · rw [hmap, hdir, hused]
    exact h.marks
  · rw [hdir]
    exact h.names
  · intro s hs
    rw [hdir] at hs
    rw [hhdr s hs]
    exact h.wf s hs

theorem Sound.fetchDirectory (h : fs.Sound) (junk : Buffer) :
    fs.fetchDirectory junk = .ok (directoryOf fs.disk) := by
  rw [FileSystem.fetchDirectory, h.directoryFile]
  exact h.layout.fetchDirectory junk

theorem Sound.fetchFreeMap (h : fs.Sound) : fs.fetchFreeMap = .ok (freeMapOf fs.disk) := by
  rw [FileSystem.fetchFreeMap, h.freeMapFile]
  exact h.layout.fetchFreeMap

theorem Sound.length_directory (fs : FileSystem) :
    (directoryOf fs.disk).table.length = numDirEntries := Directory.length_ofBuffer _ _

theorem Sound.sector_toInt (h : fs.Sound) {e : DirectoryEntry}
    (he : e ∈ (directoryOf fs.disk).files) :
    e.sector.toNat ∈ (directoryOf fs.disk).headers ∧ e.sector.toInt = (e.sector.toNat : ℤ) ∧
      e.sector.toNat < numSectorsOnDisk := by
  have hmem : e.sector.toNat ∈ (directoryOf fs.disk).headers := List.mem_map.mpr ⟨e, he, rfl⟩
  have hlt := h.marks.lt (mem_used_of_own (List.mem_cons_of_mem _ (List.mem_cons_of_mem _ hmem))
    (List.mem_cons_self ..))
  refine ⟨hmem, BitVec.toInt_eq_toNat_of_lt ?_, hlt⟩
  simp only [numSectorsOnDisk] at hlt
  omega

theorem Sound.nodup_fileSectors (h : fs.Sound) {t : ℕ} (ht : t ∈ (directoryOf fs.disk).headers) :
    (headerAt fs.disk t).fileSectors.Nodup := by
  have hnd := (List.nodup_flatMap.mp h.marks.nodup).1 t
    (List.mem_cons_of_mem _ (List.mem_cons_of_mem _ ht))
  exact (List.nodup_cons.mp hnd).2

theorem Sound.openFile_cases (h : fs.Sound) (junk : ℕ → Buffer) (name : CString) :
    ((directoryOf fs.disk).findIndex name = none ∧ fs.lookup junk name = .ok (-1) ∧
      fs.openFile junk name = .ok none) ∨
    ∃ e ∈ (directoryOf fs.disk).files, strncmpEq e.nameString name fileNameMaxLen 0 = true ∧
      fs.lookup junk name = .ok (e.sector.toNat : ℤ) ∧
      fs.openFile junk name = .ok (some ⟨headerAt fs.disk e.sector.toNat, 0⟩) := by
  have hlook : fs.lookup junk name = .ok ((directoryOf fs.disk).find name) := by
    simp only [lookup, h.fetchDirectory, bind, Except.bind]
    rfl
  obtain ⟨hnone, hfind⟩ | ⟨e, -, he, hfind, -, hname, -⟩ := (directoryOf fs.disk).find_cases name
  · rw [hfind] at hlook
    refine .inl ⟨hnone, hlook, ?_⟩
    simp only [openFile, hlook, bind, Except.bind]
    rfl
  · obtain ⟨-, hint, hlt⟩ := h.sector_toInt he
    rw [hfind, hint] at hlook
    refine .inr ⟨e, he, hname, hlook, ?_⟩
    have hpos : (0 : ℤ) ≤ (e.sector.toNat : ℕ) := Int.natCast_nonneg _
    simp only [openFile, hlook, bind, Except.bind, if_pos hpos, OpenFile.new, FileHeader.fetchFrom,
      Disk.readSector_ok hlt]
    rfl

theorem strncmpEq_comm (a b : CString) :
    strncmpEq a b fileNameMaxLen 0 = strncmpEq b a fileNameMaxLen 0 := by
  rw [Bool.eq_iff_iff, strncmpEq_iff, strncmpEq_iff]
  exact ⟨fun h k hk => (h k hk).symm, fun h k hk => (h k hk).symm⟩

theorem names_perm {l l' : List DirectoryEntry} (hp : l.Perm l') :
    (l.Pairwise fun e e' => strncmpEq e.nameString e'.nameString fileNameMaxLen 0 = false) ↔
      l'.Pairwise fun e e' => strncmpEq e.nameString e'.nameString fileNameMaxLen 0 = false :=
  hp.pairwise_iff fun h => (strncmpEq_comm _ _).trans h

theorem Sound.remove_cases (h : fs.Sound) (junk : ℕ → Buffer) (name : CString) :
    (fs.remove junk name = .ok (false, fs) ∧ fs.lookup junk name = .ok (-1)) ∨
    ∃ d' e, fs.remove junk name = .ok (true, { fs with disk := d' }) ∧
      fs.lookup junk name = .ok e.sector.toInt ∧ Sound { fs with disk := d' } ∧
      (directoryOf fs.disk).files.Perm (e :: (directoryOf d').files) ∧
      ∀ s, s ∉ Layout.tableSectors fs.disk → d' s = fs.disk s := by
  obtain ⟨-, hfind⟩ | ⟨e, dir', he, hfind, hrem, -, hlen, hperm⟩ :=
    (directoryOf fs.disk).find_cases name
  · refine .inl ⟨?_, ?_⟩
    · simp only [remove, h.fetchDirectory, hfind, bind, Except.bind, if_true]
      rfl
    · simp only [lookup, h.fetchDirectory, hfind, bind, Except.bind]
      rfl
  · right
    obtain ⟨hmem, hint, hlt⟩ := h.sector_toInt he
    have hused := usedSectors_cons (headerAt fs.disk) hperm
    have hmarks := h.marks.perm hused
    obtain ⟨hnd, -, -⟩ := List.nodup_append.mp hmarks.nodup
    obtain ⟨m₁, hdealloc, hm₁⟩ := FileHeader.deallocate_ok (m := freeMapOf fs.disk) (h.wf _ hmem)
      (List.nodup_cons.mp hnd).2 fun s hs => (h.marks.bit s).mpr
        (mem_used_of_own (List.mem_cons_of_mem _ (List.mem_cons_of_mem _ hmem))
          (List.mem_cons_of_mem _ hs))
    obtain ⟨d₁, hw₁, hmap₁, hdir₁, hrest₁⟩ :=
      h.layout.writeFreeMap (m₁.clearBit e.sector.toNat) (junk 1)
    obtain ⟨-, h0, h1⟩ := h.layout.split
    rw [Layout.notMem_tableSectors] at h0 h1
    obtain ⟨hl₁, e0, e1⟩ := h.layout.congr (hrest₁ _ h0.1) (hrest₁ _ h1.1)
    obtain ⟨d', hw₂, hdir₂, hmap₂, hrest₂⟩ := hl₁.writeDirectory (hlen.trans (length_directory fs))
      (junk 2)
    rw [e1] at hw₂ hrest₂
    have hrest : ∀ s, s ∉ Layout.tableSectors fs.disk → d' s = fs.disk s := by
      intro s hs
      rw [Layout.notMem_tableSectors] at hs
      exact (hrest₂ s hs.2).trans (hrest₁ s hs.1)
    refine ⟨d', e, ?_, ?_, Sound.of_tables h.layout h.freeMapFile h.directoryFile hrest ?_ ?_ ?_,
      ?_, hrest⟩
    · have hne : ((e.sector.toNat : ℕ) : ℤ) ≠ -1 := by omega
      simp only [remove, h.fetchDirectory, hfind, hint, bind, Except.bind, if_neg hne,
        FileHeader.fetchFrom, Disk.readSector_ok hlt, h.fetchFreeMap, BitMap.clear_ok _ hlt,
        hrem, Option.getD_some, h.freeMapFile, h.directoryFile]
      rw [headerAt] at hdealloc
      simp only [pure, Except.pure, hdealloc, hw₁, hw₂]
    · simp only [lookup, h.fetchDirectory, hfind, bind, Except.bind]
      rfl
    · rw [hmap₂, hmap₁, hdir₂]
      refine hmarks.drop fun s => ?_
      rw [BitMap.bit_clearBit _ hlt, hm₁]
      simp only [ownSectors, List.mem_cons, not_or, Bool.decide_and]
      rw [Bool.and_left_comm]
    · rw [hdir₂]
      exact (List.pairwise_cons.mp ((names_perm hperm).mp h.names)).2
    · rw [hdir₂]
      intro s hs
      exact h.wf s ((hperm.map _).mem_iff.mpr (List.mem_cons_of_mem _ hs))
    · rw [hdir₂]
      exact hperm

theorem Sound.writeHeader (h : fs.Sound) (hdr : FileHeader) {s : ℕ}
    (hs : s ∉ usedSectors (headerAt fs.disk) (directoryOf fs.disk))
    (hd₁ : d₁ = Function.update fs.disk s hdr.toBuffer) :
    Layout d₁ ∧ headerAt d₁ s = hdr ∧ (∀ t, t ≠ s → headerAt d₁ t = headerAt fs.disk t) ∧
      freeMapOf d₁ = freeMapOf fs.disk ∧ directoryOf d₁ = directoryOf fs.disk ∧
      Layout.tableSectors d₁ = Layout.tableSectors fs.disk := by
  have hother : ∀ t, t ≠ s → d₁ t = fs.disk t := fun t ht => by rw [hd₁, Function.update_of_ne ht]
  have hused : ∀ t ∈ usedSectors (headerAt fs.disk) (directoryOf fs.disk), t ≠ s :=
    fun t ht heq => hs (heq ▸ ht)
  rw [usedSectors_eq] at hused
  have hsys : ∀ t, t = freeMapSector ∨ t = directorySector ∨ t ∈ Layout.tableSectors fs.disk →
      t ≠ s :=
    fun t ht => hused t (List.mem_append_left _ (mem_tables.mpr ht))
  have h0 := hother _ (hsys _ (.inl rfl))
  have h1 := hother _ (hsys _ (.inr (.inl rfl)))
  obtain ⟨hl, e0, e1⟩ := h.layout.congr h0 h1
  refine ⟨hl, ?_, fun t ht => headerAt_congr (hother t ht), ?_, ?_, ?_⟩
  · rw [headerAt, hd₁, Function.update_self, FileHeader.ofBuffer_toBuffer]
  · exact h.layout.freeMapOf_congr h0 fun t ht =>
      hother t (hsys t (.inr (.inr (List.mem_append_left _ ht))))
  · exact h.layout.directoryOf_congr h1 fun t ht =>
      hother t (hsys t (.inr (.inr (List.mem_append_right _ ht))))
  · rw [Layout.tableSectors, e0, e1, Layout.tableSectors]

theorem Sound.marks_new (h : fs.Sound) {hdr : FileHeader} {m' : BitMap numSectorsOnDisk} {s : ℕ}
    (hs : s < numSectorsOnDisk) (hfree : (freeMapOf fs.disk).bit s = false)
    (hnd : hdr.fileSectors.Nodup)
    (hfree' : ∀ x ∈ hdr.fileSectors, ((freeMapOf fs.disk).setBit s).bit x = false)
    (hm' : ∀ x, m'.bit x =
      (((freeMapOf fs.disk).setBit s).bit x || decide (x ∈ hdr.fileSectors))) :
    Marks m' ((s :: hdr.fileSectors) ++ usedSectors (headerAt fs.disk) (directoryOf fs.disk)) := by
  simp only [BitMap.bit_setBit _ hs, Bool.or_eq_false_iff, decide_eq_false_iff_not] at hfree' hm'
  refine h.marks.add (List.nodup_cons.mpr ⟨fun hmem => (hfree' s hmem).1 rfl, hnd⟩ : _) ?_ ?_
  · intro x hx
    rw [List.mem_cons] at hx
    obtain rfl | hx := hx
    · exact hfree
    · exact (hfree' x hx).2
  · intro x
    rw [hm']
    simp only [List.mem_cons, Bool.decide_or]
    rw [Bool.or_comm (decide (x = s)), Bool.or_assoc]

/-- `Create` within the limit: it fails and changes nothing, or there is one more file, with the
name and the size it was asked for, and all sectors in use before are as they were, the tables
apart. -/
theorem Sound.create_cases (h : fs.Sound) (junk : ℕ → Buffer) (name : CString) {size : ℤ}
    (hlow : -2 ^ 31 ≤ size) (hsize : size ≤ maxFileSize) :
    fs.create junk name size = .ok (false, fs) ∨
    ∃ d' e, fs.create junk name size = .ok (true, { fs with disk := d' }) ∧
      Sound { fs with disk := d' } ∧
        (directoryOf d').files.Perm (e :: (directoryOf fs.disk).files) ∧
      (∀ k < fileNameMaxLen, nameKey e.nameString k = nameKey name k) ∧
      (headerAt d' e.sector.toNat).numBytes = size ∧
      e.sector.toNat ∉ usedSectors (headerAt fs.disk) (directoryOf fs.disk) ∧
      ∀ s ∈ usedSectors (headerAt fs.disk) (directoryOf fs.disk),
        s ∉ Layout.tableSectors fs.disk → d' s = fs.disk s := by
  simp only [create, h.fetchDirectory, h.fetchFreeMap, bind, Except.bind]
  obtain ⟨hnone, hfind⟩ | ⟨e, -, he, hfind, -⟩ := (directoryOf fs.disk).find_cases name
  swap
  · obtain ⟨-, hint, -⟩ := h.sector_toInt he
    have hne : (directoryOf fs.disk).find name ≠ -1 := by omega
    rw [if_pos hne]
    exact .inl rfl
  simp only [hfind, ne_eq, not_true_eq_false, if_false]
  obtain ⟨hfull, -⟩ | ⟨s, hs, hfree, hbit, -⟩ := (freeMapOf fs.disk).find_cases
  · rw [hfull]
    exact .inl rfl
  have hne : ¬(s : ℤ) = -1 := by omega
  simp only [hfree, if_neg hne]
  obtain hadd | ⟨e, dir', hadd, hsec, hkey, hlen, hperm⟩ := Directory.add_cases s hnone
  · rw [hadd]
    exact .inl rfl
  rw [hadd]
  simp only [allocateFile, bind, Except.bind]
  obtain ⟨hdr, hno, -⟩ | ⟨hdr, m', hyes, hbytes, -, hwf, hnd, hnew, hm'⟩ := FileHeader.allocate_ok
    (h := FileHeader.ofBuffer (junk 1)) (m := (freeMapOf fs.disk).setBit s) hlow hsize
  · rw [hno]
    exact .inl rfl
  right
  have hsn : e.sector.toNat = s := by
    rw [hsec, BitVec.ofInt_natCast, BitVec.toNat_ofNat]
    exact Nat.mod_eq_of_lt (lt_trans hs (by norm_num))
  have hsu : s ∉ usedSectors (headerAt fs.disk) (directoryOf fs.disk) := by
    rw [← h.marks.bit, hbit]
    simp
  obtain ⟨hl₁, hhdr, hold, hmap₁, hdir₁, htab⟩ := h.writeHeader hdr hsu rfl
  obtain ⟨d₂, hw₂, hdir₂, hmap₂, hrest₂⟩ := hl₁.writeDirectory (hlen.trans (length_directory fs))
    (junk 2)
  have hsys := fun t ht (heq : t = s) => hsu (heq ▸ mem_used_of_own (t := t) ht
    (List.mem_cons_self ..))
  have e0 := hold freeMapSector (hsys _ (by simp))
  have e1 := hold directorySector (hsys _ (by simp))
  obtain ⟨-, h0, h1⟩ := hl₁.split
  rw [Layout.notMem_tableSectors] at h0 h1
  obtain ⟨hl₂, e0', e1'⟩ := hl₁.congr (hrest₂ _ h0.2) (hrest₂ _ h1.2)
  obtain ⟨d', hw₃, hmap₃, hdir₃, hrest₃⟩ := hl₂.writeFreeMap m' (junk 3)
  rw [e0'] at hw₃ hrest₃
  have hrest : ∀ x, x ∉ Layout.tableSectors (Function.update fs.disk s hdr.toBuffer) →
      d' x = Function.update fs.disk s hdr.toBuffer x := by
    intro x hx
    rw [Layout.notMem_tableSectors] at hx
    exact (hrest₃ x hx.1).trans (hrest₂ x hx.2)
  have hdir' : directoryOf d' = dir' := hdir₃.trans hdir₂
  have hcongr : usedSectors (headerAt (Function.update fs.disk s hdr.toBuffer))
      (directoryOf fs.disk) =
      usedSectors (headerAt fs.disk) (directoryOf fs.disk) :=
    usedSectors_congr fun t ht => hold t (hsys t ht)
  refine ⟨d', e, ?_, Sound.of_tables hl₁ (h.freeMapFile.trans e0.symm)
    (h.directoryFile.trans e1.symm) hrest ?_ ?_ ?_, hdir' ▸ hperm, hkey, ?_, hsn ▸ hsu, ?_⟩
  · rw [e1] at hw₂
    rw [e0] at hw₃
    simp only [hyes, FileHeader.writeBack, Disk.writeSector_ok _ hs, h.freeMapFile, h.directoryFile,
      hw₂, hw₃]
    rfl
  · rw [hmap₃, hdir']
    refine Marks.perm ?_ (usedSectors_cons _ hperm).symm
    rw [hcongr, ownSectors, hsn, hhdr]
    exact h.marks_new hs hbit hnd (fun x hx => (hnew x hx).2) hm'
  · rw [hdir', names_perm hperm, List.pairwise_cons]
    refine ⟨fun e' he' => ?_, h.names⟩
    rw [strncmpEq_comm, ← Directory.findIndex_none hnone e' he', Bool.eq_iff_iff, strncmpEq_iff,
      strncmpEq_iff]
    exact forall₂_congr fun k hk => by rw [hkey k hk]
  · rw [hdir']
    intro t ht
    obtain rfl | ht := List.mem_cons.mp ((hperm.map _).mem_iff.mp ht)
    · rw [hsn, hhdr]
      exact hwf
    · rw [hold t (hsys t (List.mem_cons_of_mem _ (List.mem_cons_of_mem _ ht)))]
      exact h.wf t ht
  · have hst : s ∉ Layout.tableSectors fs.disk := by
      intro hmem
      refine hsu ?_
      rw [usedSectors_eq, List.mem_append]
      exact .inl (mem_tables.mpr (.inr (.inr hmem)))
    rw [hsn, headerAt_congr (hrest s (htab ▸ hst)), hhdr, hbytes]
  · intro x hx hxt
    have hxs : x ≠ s := by
      rintro rfl
      exact hsu hx
    rw [hrest x (htab ▸ hxt), Function.update_of_ne hxs]

theorem format_of {d d₁ d₂ d₃ d₄ : Disk} {junk : ℕ → Buffer}
    {m₀ m₁ m₂ m₃ : BitMap numSectorsOnDisk} {mapHdr dirHdr : FileHeader}
    {mapFile dirFile : OpenFile}
    (h₁ : (BitMap.empty numSectorsOnDisk).mark freeMapSector = .ok m₀)
    (h₂ : m₀.mark directorySector = .ok m₁)
    (h₃ : (FileHeader.ofBuffer (junk 0)).allocate m₁ freeMapFileSize = .ok (true, mapHdr, m₂))
    (h₄ : (FileHeader.ofBuffer (junk 1)).allocate m₂ directoryFileSize = .ok (true, dirHdr, m₃))
    (h₅ : mapHdr.writeBack d freeMapSector = .ok d₁)
    (h₆ : dirHdr.writeBack d₁ directorySector = .ok d₂)
    (h₇ : OpenFile.new d₂ freeMapSector = .ok mapFile)
    (h₈ : OpenFile.new d₂ directorySector = .ok dirFile)
    (h₉ : m₃.writeBack mapFile.hdr d₂ (junk 2) = .ok d₃)
    (h₁₀ : (Directory.new numDirEntries (junk 3)).writeBack dirFile.hdr d₃ (junk 4) = .ok d₄) :
    format d junk = .ok ⟨d₄, mapFile, dirFile⟩ := by
  unfold format
  rw [h₁]
  dsimp only [bind, Except.bind]
  rw [h₂]
  dsimp only
  rw [h₃]
  dsimp only
  rw [if_neg (by decide), h₄]
  dsimp only
  rw [if_neg (by decide), h₅]
  dsimp only
  rw [h₆]
  dsimp only
  rw [h₇]
  dsimp only
  rw [h₈]
  dsimp only
  rw [h₉]
  dsimp only
  rw [h₁₀]
  rfl

theorem format_ok (d : Disk) (junk : ℕ → Buffer) :
    ∃ fs, format d junk = .ok fs ∧ fs.Sound ∧ (directoryOf fs.disk).files = [] := by
  have hempty : Marks (BitMap.empty numSectorsOnDisk) [] :=
    ⟨List.nodup_nil, fun s => by simp [BitMap.bit_empty]⟩
  have hboth : Marks (((BitMap.empty numSectorsOnDisk).setBit freeMapSector).setBit directorySector)
      ([directorySector, freeMapSector] ++ []) := by
    refine hempty.add (by decide) (fun s _ => BitMap.bit_empty s) fun s => ?_
    rw [BitMap.bit_setBit _ (by norm_num), BitMap.bit_setBit _ (by norm_num), BitMap.bit_empty]
    simp only [List.mem_cons, List.not_mem_nil, or_false, Bool.or_false, Bool.false_or,
      Bool.decide_or]
  have hdisk : numSectorsOnDisk = 1024 := rfl
  have hclear := hboth.numClear
  simp only [List.append_nil, List.length_cons, List.length_nil] at hclear
  have hmapLow : -2 ^ 31 ≤ (freeMapFileSize : ℤ) := by norm_num
  obtain ⟨_, -, hlt⟩ | ⟨mapHdr, m₁, halloc₁, hnb₁, hns₁, hwf₁, hnd₁, hnew₁, hm₁⟩ :=
    FileHeader.allocate_ok (h := FileHeader.ofBuffer (junk 0))
      (m := ((BitMap.empty numSectorsOnDisk).setBit freeMapSector).setBit directorySector)
      hmapLow (by norm_num)
  · rw [show divRoundUpInt freeMapFileSize sectorSize = 1 by decide] at hlt
    omega
  have hmarks₁ := hboth.add hnd₁ (fun s hs => (hnew₁ s hs).2) hm₁
  have hclear₁ := hmarks₁.numClear
  have hlen₁ : mapHdr.fileSectors.length = 1 := by
    rw [FileHeader.fileSectors, List.length_map, List.length_range, hns₁]
    decide
  rw [List.length_append, hlen₁] at hclear₁
  simp only [List.length_append, List.length_cons, List.length_nil] at hclear₁
  have hdirLow : -2 ^ 31 ≤ (directoryFileSize : ℤ) := by norm_num
  obtain ⟨_, -, hlt⟩ | ⟨dirHdr, m₂, halloc₂, hnb₂, hns₂, hwf₂, hnd₂, hnew₂, hm₂⟩ :=
    FileHeader.allocate_ok (h := FileHeader.ofBuffer (junk 1)) (m := m₁) hdirLow (by norm_num)
  · rw [show divRoundUpInt directoryFileSize sectorSize = 2 by decide] at hlt
    omega
  have hmarks₂ := hmarks₁.add hnd₂ (fun s hs => (hnew₂ s hs).2) hm₂
  generalize hd₂ : Function.update (Function.update d freeMapSector mapHdr.toBuffer) directorySector
    dirHdr.toBuffer = d₂
  have e0 : headerAt d₂ freeMapSector = mapHdr := by
    rw [headerAt, ← hd₂, Function.update_of_ne (by decide), Function.update_self,
      FileHeader.ofBuffer_toBuffer]
  have e1 : headerAt d₂ directorySector = dirHdr := by
    rw [headerAt, ← hd₂, Function.update_self, FileHeader.ofBuffer_toBuffer]
  have hperm : (dirHdr.fileSectors ++
      (mapHdr.fileSectors ++ ([directorySector, freeMapSector] ++ []))).Perm
      ([freeMapSector, directorySector].flatMap (ownSectors (headerAt d₂))) := by
    simp only [List.flatMap_cons, List.flatMap_nil, ownSectors, e0, e1, List.append_nil]
    refine List.perm_iff_count.mpr fun a => ?_
    simp only [List.count_append, List.count_cons, List.count_nil]
    omega
  have hmarks := hmarks₂.perm hperm
  have hl : Layout d₂ := ⟨e0 ▸ hwf₁, e1 ▸ hwf₂, e0 ▸ hnb₁, e1 ▸ hnb₂, hmarks.nodup⟩
  obtain ⟨d₃, hw₃, hmap₃, -, hrest₃⟩ := hl.writeFreeMap m₂ (junk 2)
  obtain ⟨-, h0, h1⟩ := hl.split
  rw [Layout.notMem_tableSectors] at h0 h1
  obtain ⟨hl₃, e0', e1'⟩ := hl.congr (hrest₃ _ h0.1) (hrest₃ _ h1.1)
  have hlen : (Directory.new numDirEntries (junk 3)).table.length = numDirEntries := by
    simp [Directory.new]
  obtain ⟨d', hw₄, hdir₄, hmap₄, hrest₄⟩ := hl₃.writeDirectory hlen (junk 4)
  rw [e1'] at hw₄ hrest₄
  have hfiles : (directoryOf d').files = [] := by rw [hdir₄, Directory.files_new]
  refine ⟨⟨d', ⟨mapHdr, 0⟩, ⟨dirHdr, 0⟩⟩, ?_,
    @Sound.of_tables ⟨d₂, ⟨mapHdr, 0⟩, ⟨dirHdr, 0⟩⟩ _ _ hl e0.symm e1.symm ?_ ?_ ?_ ?_, hfiles⟩
  · have hopen : ∀ {s : ℕ}, s < numSectorsOnDisk →
        OpenFile.new d₂ s = .ok ⟨headerAt d₂ s, 0⟩ := by
      intro s hs
      simp only [OpenFile.new, FileHeader.fetchFrom, Disk.readSector_ok hs, bind, Except.bind]
      rfl
    have hmapHdr : mapHdr.writeBack d freeMapSector =
        .ok (Function.update d freeMapSector mapHdr.toBuffer) := by
      rw [FileHeader.writeBack, Disk.writeSector_ok _ (by norm_num)]
    refine format_of (BitMap.mark_ok _ (by norm_num))
      (BitMap.mark_ok _ (by norm_num)) halloc₁ halloc₂
      hmapHdr ?_ ?_ ?_ (e0 ▸ hw₃) (e1 ▸ hw₄)
    · rw [FileHeader.writeBack, Disk.writeSector_ok _ (by norm_num), hd₂]
    · rw [hopen (by norm_num), e0]
    · rw [hopen (by norm_num), e1]
  · intro s hs
    rw [Layout.notMem_tableSectors] at hs
    exact (hrest₄ s hs.2).trans (hrest₃ s hs.1)
  · rw [hmap₄, hmap₃, usedSectors_eq, Directory.headers, hfiles, List.map_nil, List.flatMap_nil,
      List.append_nil]
    exact hmarks
  · rw [hfiles]
    exact List.Pairwise.nil
  · rw [Directory.headers, hfiles]
    simp

end FileSystem

end Nachos
