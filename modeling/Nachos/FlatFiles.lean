import Nachos.DirectoryMap
import Nachos.FileCreation
import Nachos.FileRemoval
import Nachos.FlatStore

/-! What the file system is for: a store of named bytes. `filesOf` is the store that a disk holds,
the names as `strncmp` sees them with the bytes of their files; `diskLimits` is what a disk has
room for. -/
namespace Nachos

open ByteBuffer Directory

abbrev FileMap := Finmap fun _ : Key => List Byte

def FileHeader.contents (h : FileHeader) (d : Disk) : List Byte :=
  (List.range h.numBytes.toNat).map (h.fileByte d)

def contentsAt (d : Disk) (sector : ℕ) : List Byte := (headerAt d sector).contents d

def fileBindings (d : Disk) : List (Σ _ : Key, List Byte) :=
  (directoryOf d).files.map fun e => ⟨key e.nameString, contentsAt d e.sector.toNat⟩

def filesOf (d : Disk) : FileMap := (fileBindings d).toFinmap

/-- The sectors of a file: its header and its data. -/
def fileCost (size : ℕ) : ℕ := 1 + (divRoundUpInt size sectorSize).toNat

/-- Ten names, and the sectors beside the headers and the data of the two tables. -/
def diskLimits : FlatStore.Limits where
  names := numDirEntries
  blocks := numSectorsOnDisk - 5
  cost := fileCost

/-- Every header has the data sectors that its file needs, and no more. -/
structure Tight (d : Disk) : Prop where
  freeMap : (headerAt d freeMapSector).numSectors = 1
  directory : (headerAt d directorySector).numSectors = 2
  files : ∀ t ∈ (directoryOf d).headers, 0 ≤ (headerAt d t).numBytes ∧
    (headerAt d t).numSectors = divRoundUpInt (headerAt d t).numBytes sectorSize

theorem entries_toFinmap {l : List (Σ _ : Key, List Byte)} (h : l.NodupKeys) :
    l.toFinmap.entries = (l : Multiset (Σ _ : Key, List Byte)) := by
  induction l with
  | nil => rfl
  | cons x l ih =>
    obtain ⟨hx, hl⟩ := List.nodupKeys_cons.mp h
    have hnot : x.1 ∉ l.toFinmap := fun hmem =>
      hx (List.mem_keys.mpr ((Finmap.mem_list_toFinmap _ _).mp hmem))
    rw [Finmap.toFinmap_cons, Finmap.entries_insert_of_notMem hnot, ih hl]
    rfl

@[simp] theorem FileHeader.length_contents (h : FileHeader) (d : Disk) :
    (h.contents d).length = h.numBytes.toNat := by simp [contents]

theorem FileHeader.getElem_contents (h : FileHeader) (d : Disk) {x : ℕ}
    (hx : x < (h.contents d).length) : (h.contents d)[x] = h.fileByte d x := by
  simp [contents]

namespace FileSystem

variable {fs : FileSystem} {d d' : Disk} {e e' : DirectoryEntry} {k : Key}

theorem Sound.nodupKeys (h : fs.Sound) : (fileBindings fs.disk).NodupKeys := by
  have hkeys : (fileBindings fs.disk).keys =
      (directoryOf fs.disk).files.map fun e => key e.nameString := by
    rw [List.keys, fileBindings, List.map_map]
    rfl
  rw [List.NodupKeys, hkeys, List.Nodup, List.pairwise_map]
  refine h.names.imp fun {e e'} hne heq => ?_
  rw [(strncmpEq_iff_key _ _).mpr heq] at hne
  cases hne

theorem Sound.eq_of_key (h : fs.Sound) (he : e ∈ (directoryOf fs.disk).files)
    (he' : e' ∈ (directoryOf fs.disk).files) (hkey : key e.nameString = key e'.nameString) :
    e = e' := by
  have hnd : ((directoryOf fs.disk).files.map fun e => key e.nameString).Nodup := by
    have hnk := h.nodupKeys
    rwa [List.NodupKeys, List.keys, fileBindings, List.map_map] at hnk
  exact List.inj_on_of_nodup_map hnd he he' hkey

theorem mem_filesOf : k ∈ filesOf d ↔ ∃ e ∈ (directoryOf d).files, key e.nameString = k := by
  rw [filesOf, Finmap.mem_list_toFinmap]
  simp only [fileBindings, List.mem_map, Sigma.mk.injEq]
  constructor
  · rintro ⟨b, e, he, hkey, -⟩
    exact ⟨e, he, hkey⟩
  · rintro ⟨e, he, hkey⟩
    exact ⟨contentsAt d e.sector.toNat, e, he, hkey, HEq.rfl⟩

theorem Sound.lookup_filesOf (h : fs.Sound) (he : e ∈ (directoryOf fs.disk).files) :
    (filesOf fs.disk).lookup (key e.nameString) = some (contentsAt fs.disk e.sector.toNat) := by
  rw [filesOf, Finmap.dlookup_list_toFinmap]
  exact List.mem_dlookup h.nodupKeys (List.mem_map.mpr ⟨e, he, rfl⟩)

theorem Sound.filesOf_eq (h : fs.Sound) {M : FileMap}
    (hkeys : ∀ k, k ∈ M ↔ ∃ e ∈ (directoryOf fs.disk).files, key e.nameString = k)
    (hbytes : ∀ e ∈ (directoryOf fs.disk).files,
      M.lookup (key e.nameString) = some (contentsAt fs.disk e.sector.toNat)) :
    filesOf fs.disk = M := by
  refine Finmap.ext_lookup fun k => ?_
  by_cases hk : k ∈ M
  · obtain ⟨e, he, rfl⟩ := (hkeys k).mp hk
    rw [h.lookup_filesOf he, hbytes e he]
  · have hk' : k ∉ filesOf fs.disk := fun hmem => hk ((hkeys k).mpr (mem_filesOf.mp hmem))
    rw [Finmap.lookup_eq_none.mpr hk, Finmap.lookup_eq_none.mpr hk']

theorem Sound.card_keys_filesOf (h : fs.Sound) :
    (filesOf fs.disk).keys.card = (directoryOf fs.disk).files.length := by
  have hkeys : (filesOf fs.disk).keys = (fileBindings fs.disk).keys.toFinset := by
    ext k
    rw [Finmap.mem_keys, filesOf, Finmap.mem_list_toFinmap, List.mem_toFinset, List.mem_keys]
  rw [hkeys, List.toFinset_card_of_nodup h.nodupKeys, List.keys, List.length_map, fileBindings,
    List.length_map]

theorem contentsAt_congr {t : ℕ} (hw : (headerAt d t).Wf)
    (hown : ∀ s ∈ ownSectors (headerAt d) t, d' s = d s) : contentsAt d' t = contentsAt d t := by
  have hhdr : headerAt d' t = headerAt d t := headerAt_congr (hown t List.mem_cons_self)
  rw [contentsAt, contentsAt, hhdr]
  refine List.map_congr_left fun x hx => ?_
  exact FileHeader.fileByte_congr hw (List.mem_range.mp hx) fun s hs =>
    hown s (List.mem_cons_of_mem _ hs)

theorem length_ownSectors (hdr : ℕ → FileHeader) (t : ℕ) :
    (ownSectors hdr t).length = 1 + (hdr t).numSectors.toNat := by
  rw [ownSectors, List.length_cons, FileHeader.fileSectors, List.length_map, List.length_range,
    Nat.add_comm]

theorem Sound.used_filesOf (h : fs.Sound) (ht : Tight fs.disk)
    (handles : List (FlatStore.Handle Key)) :
    FlatStore.Store.used diskLimits ⟨filesOf fs.disk, handles⟩ + (freeMapOf fs.disk).numClear =
      diskLimits.blocks := by
  have hfiles : FlatStore.Store.used diskLimits ⟨filesOf fs.disk, handles⟩ =
      ((directoryOf fs.disk).headers.flatMap (ownSectors (headerAt fs.disk))).length := by
    rw [FlatStore.Store.used]
    dsimp only
    rw [filesOf, entries_toFinmap h.nodupKeys, Multiset.map_coe, Multiset.sum_coe, fileBindings,
      List.map_map, Directory.headers, List.length_flatMap, List.map_map]
    refine congrArg List.sum (List.map_congr_left fun e he => ?_)
    obtain ⟨h0, hsectors⟩ := ht.files _ (h.sector_toInt he).1
    have hlen : (((headerAt fs.disk e.sector.toNat).numBytes.toNat : ℕ) : ℤ) =
        (headerAt fs.disk e.sector.toNat).numBytes := Int.toNat_of_nonneg h0
    simp only [Function.comp_apply, contentsAt, FileHeader.length_contents, diskLimits, fileCost,
      length_ownSectors, hlen, hsectors]
  have htables : ([freeMapSector, directorySector].flatMap
      (ownSectors (headerAt fs.disk))).length = 5 := by
    simp only [List.flatMap_cons, List.flatMap_nil, List.append_nil, List.length_append,
      length_ownSectors, ht.freeMap, ht.directory]
    rfl
  have hclear := h.marks.numClear
  rw [usedSectors_eq, List.length_append, htables, ← hfiles] at hclear
  simp only [diskLimits, numSectorsOnDisk] at *
  omega

theorem Sound.creatable_iff (h : fs.Sound) (ht : Tight fs.disk) (name : CString) {size : ℤ}
    (h0 : 0 ≤ size) (handles : List (FlatStore.Handle Key)) : Creatable fs.disk name size ↔
      FlatStore.Store.Room diskLimits ⟨filesOf fs.disk, handles⟩ (key name) size.toNat := by
  have hcost : (diskLimits.cost size.toNat : ℤ) = 1 + divRoundUpInt size sectorSize := by
    have hpos : 0 ≤ divRoundUpInt size sectorSize := by
      have hdiv := Int.tdiv_nonneg h0 (show (0 : ℤ) ≤ (sectorSize : ℕ) by norm_num)
      unfold divRoundUpInt
      split_ifs <;> omega
    have hsize : ((size.toNat : ℕ) : ℤ) = size := Int.toNat_of_nonneg h0
    simp only [diskLimits, fileCost, hsize]
    omega
  have hused := h.used_filesOf ht handles
  have hfresh : (∀ e ∈ (directoryOf fs.disk).files,
      strncmpEq e.nameString name fileNameMaxLen 0 = false) ↔ key name ∉ filesOf fs.disk := by
    rw [mem_filesOf]
    simp only [not_exists, not_and, ← strncmpEq_iff_key, Bool.not_eq_true]
  have hentry : (∃ e ∈ (directoryOf fs.disk).table, e.inUse = false) ↔
      (filesOf fs.disk).keys.card < diskLimits.names := by
    have hle : (directoryOf fs.disk).files.length ≤ (directoryOf fs.disk).table.length :=
      List.length_filter_le ..
    have hfull := @Directory.length_files_iff (directoryOf fs.disk)
    rw [List.findIdx?_eq_none_iff] at hfull
    rw [h.card_keys_filesOf, diskLimits]
    rw [Sound.length_directory] at hle hfull
    constructor
    · rintro ⟨e, he, huse⟩
      refine lt_of_le_of_ne hle fun heq => ?_
      have := hfull.mpr heq e he
      simp [huse] at this
    · intro hlt
      by_contra hno
      refine hlt.ne (hfull.mp fun e he => ?_)
      cases huse : e.inUse with
      | false => exact absurd ⟨e, he, huse⟩ hno
      | true => rfl
  constructor
  · rintro ⟨h1, h2, h3⟩
    refine ⟨hfresh.mp h1, hentry.mp h2, ?_⟩
    omega
  · rintro ⟨h1, h2, h3⟩
    refine ⟨hfresh.mpr h1, hentry.mpr h2, ?_⟩
    omega

theorem allocateFile_writes {junk : ℕ → Buffer} {dir : Directory}
    {m m' : BitMap numSectorsOnDisk} {sector size : ℤ} {hdr : FileHeader} {fs' : FileSystem}
    (halloc : (FileHeader.ofBuffer (junk 1)).allocate m size = .ok (true, hdr, m'))
    (hrun : fs.allocateFile junk dir m sector size = .ok (true, fs')) :
    ∃ d₁ d₂, hdr.writeBack fs.disk sector = .ok d₁ ∧
      dir.writeBack fs.directoryFile.hdr d₁ (junk 2) = .ok d₂ ∧
      m'.writeBack fs.freeMapFile.hdr d₂ (junk 3) = .ok fs'.disk := by
  rw [allocateFile] at hrun
  obtain ⟨r, hr, hrun⟩ := except_bind_eq_ok hrun
  obtain rfl := Except.ok.inj (halloc.symm.trans hr)
  obtain ⟨d₁, h₁, hrun⟩ := except_bind_eq_ok hrun
  obtain ⟨d₂, h₂, hrun⟩ := except_bind_eq_ok hrun
  obtain ⟨d₃, h₃, hrun⟩ := except_bind_eq_ok hrun
  have hfs : { fs with disk := d₃ } = fs' := (Prod.mk.inj (Except.ok.inj hrun)).2
  exact ⟨d₁, d₂, h₁, h₂, hfs ▸ h₃⟩

theorem Sound.create_numSectors (h : fs.Sound) {junk : ℕ → Buffer} {name : CString} {size : ℤ}
    (hlow : -2 ^ 31 ≤ size) (hsize : size ≤ maxFileSize) {fs' : FileSystem}
    (hcreate : fs.create junk name size = .ok (true, fs')) {t : ℕ}
    (ht : t ∈ (directoryOf fs'.disk).headers) (hnew : t ∉ (directoryOf fs.disk).headers) :
    (headerAt fs'.disk t).numSectors = divRoundUpInt size sectorSize := by
  simp only [create, h.fetchDirectory, h.fetchFreeMap, bind, Except.bind] at hcreate
  obtain ⟨hnone, hfind⟩ | ⟨e, -, he, hfind, -⟩ := (directoryOf fs.disk).find_cases name
  swap
  · obtain ⟨-, hint, -⟩ := h.sector_toInt he
    rw [if_pos (show (directoryOf fs.disk).find name ≠ -1 by omega)] at hcreate
    cases hcreate
  rw [if_neg (by rw [hfind]; decide)] at hcreate
  obtain ⟨hfull, -⟩ | ⟨s, hs, hfree, hbit, -⟩ := (freeMapOf fs.disk).find_cases
  · rw [hfull] at hcreate
    cases hcreate
  simp only [hfree, if_neg (show ¬(s : ℤ) = -1 by omega)] at hcreate
  obtain hadd | ⟨e, dir', hadd, hsec, -, hlen, hperm⟩ := Directory.add_cases s hnone
  · rw [hadd] at hcreate
    cases hcreate
  rw [hadd] at hcreate
  change fs.allocateFile junk dir' _ _ size = _ at hcreate
  obtain ⟨hdr, hfalse, -⟩ | ⟨hdr, m', htrue, -, hns, -⟩ :=
    FileHeader.allocate_ok (h := FileHeader.ofBuffer (junk 1))
      (m := (freeMapOf fs.disk).setBit s) hlow hsize
  · rw [allocateFile_false hfalse] at hcreate
    cases hcreate
  obtain ⟨d₁, d₂, h₁, h₂, h₃⟩ := allocateFile_writes htrue hcreate
  generalize fs'.disk = d₃ at ht h₃ ⊢
  rw [FileHeader.writeBack, Disk.writeSector_ok _ hs] at h₁
  have hd₁ := (Except.ok.inj h₁).symm
  have hsu : s ∉ usedSectors (headerAt fs.disk) (directoryOf fs.disk) := by
    rw [← h.marks.bit, hbit]
    simp
  obtain ⟨hl₁, hhdr, hold, -, -, htab⟩ := h.writeHeader hdr hsu hd₁
  have hsys := fun t ht (heq : t = s) => hsu (heq ▸ mem_used_of_own (t := t) ht
    (List.mem_cons_self ..))
  have e0 := hold freeMapSector (hsys _ (by simp))
  have e1 := hold directorySector (hsys _ (by simp))
  obtain ⟨d₂', hw₂, hdir₂, -, hrest₂⟩ := hl₁.writeDirectory (hlen.trans (length_directory fs))
    (junk 2)
  rw [h.directoryFile, ← e1, hw₂] at h₂
  obtain rfl := Except.ok.inj h₂
  obtain ⟨-, h0, h1⟩ := hl₁.split
  rw [Layout.notMem_tableSectors] at h0 h1
  obtain ⟨hl₂, e0', -⟩ := hl₁.congr (hrest₂ _ h0.2) (hrest₂ _ h1.2)
  obtain ⟨d₃', hw₃, -, hdir₃, hrest₃⟩ := hl₂.writeFreeMap m' (junk 3)
  rw [h.freeMapFile, ← e0, ← e0', hw₃] at h₃
  obtain rfl := Except.ok.inj h₃
  have hsn : e.sector.toNat = s := by
    rw [hsec, BitVec.ofInt_natCast, BitVec.toNat_ofNat]
    exact Nat.mod_eq_of_lt (lt_trans hs (by norm_num))
  have hts : t = s := by
    have hheaders : (directoryOf d₃').headers.Perm (s :: (directoryOf fs.disk).headers) := by
      rw [hdir₃, hdir₂, ← hsn]
      exact hperm.map _
    exact (List.mem_cons.mp (hheaders.mem_iff.mp ht)).resolve_right hnew
  -- the sector of the header is none of those of the tables, which are written last
  have hst : s ∉ Layout.tableSectors d₁ := by
    intro hmem
    refine hsu ?_
    rw [usedSectors_eq, List.mem_append]
    exact .inl (mem_tables.mpr (.inr (.inr (htab ▸ hmem))))
  rw [Layout.notMem_tableSectors] at hst
  rw [e0'] at hrest₃
  rw [hts, headerAt_congr ((hrest₃ s hst.1).trans (hrest₂ s hst.2)), hhdr, hns]

theorem Sound.tables_same (h : fs.Sound) (h' : Sound { fs with disk := d' }) :
    headerAt d' freeMapSector = headerAt fs.disk freeMapSector ∧
      headerAt d' directorySector = headerAt fs.disk directorySector :=
  ⟨h'.freeMapFile.symm.trans h.freeMapFile, h'.directoryFile.symm.trans h.directoryFile⟩

theorem Sound.contentsAt_kept (h : fs.Sound) {t : ℕ} (ht : t ∈ (directoryOf fs.disk).headers)
    (hk : KeepsUsed fs.disk d') : contentsAt d' t = contentsAt fs.disk t := by
  refine contentsAt_congr (h.wf t ht) fun s hs => hk s ?_ ?_
  · exact mem_used_of_own (List.mem_cons_of_mem _ (List.mem_cons_of_mem _ ht)) hs
  · exact (files_apart h.marks.nodup ht hs).2.2

theorem key_of_nameKey {a b : CString} (h : ∀ k < fileNameMaxLen, nameKey a k = nameKey b k) :
    key a = key b := (strncmpEq_iff_key a b).mp ((strncmpEq_iff a b).mpr h)

/-- `Create` on the store. -/
theorem Sound.create_files (h : fs.Sound) (ht : Tight fs.disk) (junk : ℕ → Buffer) (name : CString)
    {size : ℤ} (h0 : 0 ≤ size) (hsize : size ≤ maxFileSize) :
    (¬ Creatable fs.disk name size ∧ fs.create junk name size = .ok (false, fs)) ∨
    ∃ d' fresh, Creatable fs.disk name size ∧
      fs.create junk name size = .ok (true, { fs with disk := d' }) ∧
      Sound { fs with disk := d' } ∧ Tight d' ∧ fresh.length = size.toNat ∧
      filesOf d' = (filesOf fs.disk).insert (key name) fresh ∧
      ∀ e ∈ (directoryOf fs.disk).files, e ∈ (directoryOf d').files := by
  by_cases hok : Creatable fs.disk name size
  swap
  · exact .inl ⟨hok, h.create_false (by omega) hsize hok⟩
  right
  obtain hno | ⟨d', e, hyes, h', hperm, hname, hbytes, hnew, hk⟩ :=
    h.create_cases junk name (by omega) hsize
  · exact absurd hno (h.create_true h0 hsize hok)
  have hkey : key e.nameString = key name := key_of_nameKey hname
  have hold : ∀ e ∈ (directoryOf fs.disk).files, e ∈ (directoryOf d').files := fun e he =>
    hperm.mem_iff.mpr (List.mem_cons_of_mem _ he)
  have hmem : e.sector.toNat ∈ (directoryOf d').headers :=
    List.mem_map.mpr ⟨e, hperm.mem_iff.mpr List.mem_cons_self, rfl⟩
  have hfresh : e.sector.toNat ∉ (directoryOf fs.disk).headers := fun hin =>
    hnew (mem_used_of_own (List.mem_cons_of_mem _ (List.mem_cons_of_mem _ hin)) List.mem_cons_self)
  obtain ⟨htab0, htab1⟩ := h.tables_same h'
  refine ⟨d', contentsAt d' e.sector.toNat, hok, hyes, h', ⟨htab0 ▸ ht.freeMap,
    htab1 ▸ ht.directory, fun t htm => ?_⟩, ?_, ?_, hold⟩
  · by_cases hin : t ∈ (directoryOf fs.disk).headers
    · rw [h.headers_kept hk (List.mem_cons_of_mem _ (List.mem_cons_of_mem _ hin))]
      exact ht.files t hin
    · have hsector : t = e.sector.toNat :=
        (List.mem_cons.mp ((hperm.map _).mem_iff.mp htm)).resolve_right hin
      have hns := h.create_numSectors (by omega) hsize hyes hmem hfresh
      rw [hsector, hns, hbytes]
      exact ⟨h0, rfl⟩
  · rw [contentsAt, FileHeader.length_contents, hbytes]
  · refine h'.filesOf_eq (fun k => ?_) fun e' he' => ?_
    · rw [Finmap.mem_insert, mem_filesOf]
      constructor
      · rintro (rfl | ⟨e', he', rfl⟩)
        · exact ⟨e, hperm.mem_iff.mpr List.mem_cons_self, hkey⟩
        · exact ⟨e', hold e' he', rfl⟩
      · rintro ⟨e', he', rfl⟩
        obtain rfl | he' := List.mem_cons.mp (hperm.mem_iff.mp he')
        · exact .inl hkey
        · exact .inr ⟨e', he', rfl⟩
    · obtain rfl | he' := List.mem_cons.mp (hperm.mem_iff.mp he')
      · rw [hkey, Finmap.lookup_insert]
      · have hne : key e'.nameString ≠ key name := by
          intro heq
          have hdiff := hok.fresh e' he'
          rw [(strncmpEq_iff_key _ _).mpr heq] at hdiff
          cases hdiff
        rw [Finmap.lookup_insert_of_ne _ hne, h.lookup_filesOf he',
          h.contentsAt_kept (h.sector_toInt he').1 hk]

/-- `Remove` on the store. -/
theorem Sound.remove_files (h : fs.Sound) (ht : Tight fs.disk) (junk : ℕ → Buffer)
    (name : CString) :
    (key name ∉ filesOf fs.disk ∧ fs.remove junk name = .ok (false, fs) ∧
      fs.lookup junk name = .ok (-1)) ∨
    ∃ d' e, e ∈ (directoryOf fs.disk).files ∧ key e.nameString = key name ∧
      fs.remove junk name = .ok (true, { fs with disk := d' }) ∧
      fs.lookup junk name = .ok e.sector.toInt ∧ Sound { fs with disk := d' } ∧ Tight d' ∧
      filesOf d' = (filesOf fs.disk).erase (key name) ∧
      ∀ e' ∈ (directoryOf fs.disk).files, key e'.nameString ≠ key name →
        e' ∈ (directoryOf d').files := by
  by_cases hin : key name ∈ filesOf fs.disk
  swap
  · obtain ⟨hno, hlook⟩ | ⟨d', e, -, hlook, -, hperm, -⟩ := h.remove_cases junk name
    · exact .inl ⟨hin, hno, hlook⟩
    · obtain ⟨-, hlook', -⟩ | ⟨e', he', hname, -⟩ := h.openFile_cases junk name
      · have he : e ∈ (directoryOf fs.disk).files := hperm.mem_iff.mpr List.mem_cons_self
        have hneg := Except.ok.inj (hlook.symm.trans hlook')
        have hint := (h.sector_toInt he).2.1
        omega
      · exact absurd (mem_filesOf.mpr ⟨e', he', (strncmpEq_iff_key _ _).mp hname⟩) hin
  right
  obtain ⟨e, he, hkey⟩ := mem_filesOf.mp hin
  have hname := (strncmpEq_iff _ _).mp ((strncmpEq_iff_key _ _).mpr hkey)
  obtain ⟨d', hrem, h', hperm, hrest⟩ := h.remove_of_mem he hname junk
  have hlook := h.lookup_of_mem he hname junk
  rw [← (h.sector_toInt he).2.1] at hlook
  have hk : KeepsUsed fs.disk d' := fun s _ hs => hrest s hs
  have hold : ∀ e' ∈ (directoryOf d').files, e' ∈ (directoryOf fs.disk).files ∧
      key e'.nameString ≠ key name := by
    intro e' he'
    have hmem := hperm.mem_iff.mpr (List.mem_cons_of_mem _ he')
    refine ⟨hmem, fun heq => ?_⟩
    obtain rfl := h.eq_of_key hmem he (heq.trans hkey.symm)
    have hnd := (hperm.map fun e => key e.nameString).nodup_iff.mp (by
      have hnk := h.nodupKeys
      rwa [List.NodupKeys, List.keys, fileBindings, List.map_map] at hnk)
    exact (List.nodup_cons.mp hnd).1 (List.mem_map.mpr ⟨_, he', rfl⟩)
  have hkept : ∀ e' ∈ (directoryOf fs.disk).files, key e'.nameString ≠ key name →
      e' ∈ (directoryOf d').files := by
    intro e' he' hne
    refine (List.mem_cons.mp (hperm.mem_iff.mp he')).resolve_left ?_
    rintro rfl
    exact hne hkey
  obtain ⟨htab0, htab1⟩ := h.tables_same h'
  refine ⟨d', e, he, hkey, hrem, hlook, h', ⟨htab0 ▸ ht.freeMap, htab1 ▸ ht.directory,
    fun t htm => ?_⟩, ?_, hkept⟩
  · obtain ⟨e', he', rfl⟩ := List.mem_map.mp htm
    have hin' := (h.sector_toInt (hold e' he').1).1
    rw [h.headers_kept hk (List.mem_cons_of_mem _ (List.mem_cons_of_mem _ hin'))]
    exact ht.files _ hin'
  · refine h'.filesOf_eq (fun k => ?_) fun e' he' => ?_
    · rw [Finmap.mem_erase, mem_filesOf]
      constructor
      · rintro ⟨hne, e', he', rfl⟩
        exact ⟨e', hkept e' he' hne, rfl⟩
      · rintro ⟨e', he', rfl⟩
        exact ⟨(hold e' he').2, e', (hold e' he').1, rfl⟩
    · obtain ⟨hmem, hne⟩ := hold e' he'
      rw [Finmap.lookup_erase_ne hne, h.lookup_filesOf hmem,
        h.contentsAt_kept (h.sector_toInt hmem).1 hk]

/-- Writes to the data sectors of one file, on the store. -/
theorem Sound.write_files (h : fs.Sound) (ht : Tight fs.disk)
    (he : e ∈ (directoryOf fs.disk).files)
    (hrest : ∀ s, s ∉ (headerAt fs.disk e.sector.toNat).fileSectors → d' s = fs.disk s) :
    Sound { fs with disk := d' } ∧ Tight d' ∧ directoryOf d' = directoryOf fs.disk ∧
      filesOf d' = (filesOf fs.disk).insert (key e.nameString)
        (contentsAt d' e.sector.toNat) := by
  have hmem := (h.sector_toInt he).1
  obtain ⟨h', hdir, hhdr⟩ := h.writeFile hmem hrest
  obtain ⟨htab0, htab1⟩ := h.tables_same h'
  refine ⟨h', ⟨htab0 ▸ ht.freeMap, htab1 ▸ ht.directory, fun t htm => ?_⟩, hdir, ?_⟩
  · rw [hdir] at htm
    rw [hhdr t htm]
    exact ht.files t htm
  · refine h'.filesOf_eq (fun k => ?_) fun e' he' => ?_
    · rw [Finmap.mem_insert, mem_filesOf]
      dsimp only
      rw [hdir]
      constructor
      · rintro (rfl | hex)
        · exact ⟨e, he, rfl⟩
        · exact hex
      · exact .inr
    · dsimp only at he' ⊢
      rw [hdir] at he'
      by_cases heq : key e'.nameString = key e.nameString
      · obtain rfl := h.eq_of_key he' he heq
        rw [Finmap.lookup_insert]
      · rw [Finmap.lookup_insert_of_ne _ heq, h.lookup_filesOf he']
        have hmem' := (h.sector_toInt he').1
        have hne : e'.sector.toNat ≠ e.sector.toNat := fun hs =>
          heq (by rw [h.entry_unique he' he hs])
        refine congrArg some
          (contentsAt_congr (h.wf _ hmem') fun s hs => hrest s fun hin => ?_).symm
        exact own_disjoint h.marks.nodup
          (List.mem_cons_of_mem _ (List.mem_cons_of_mem _ hmem'))
          (List.mem_cons_of_mem _ (List.mem_cons_of_mem _ hmem)) hne hs
          (List.mem_cons_of_mem _ hin)

end FileSystem

end Nachos
