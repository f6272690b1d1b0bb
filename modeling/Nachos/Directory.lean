import Nachos.OpenFile

/-! Directories (`directory.cc`): a table of named header sectors, kept in a file. An entry
takes 20 bytes there, as the compiler lays the class out; the padding carries nothing. -/
namespace Nachos

open ByteBuffer

abbrev fileNameMaxLen : ℕ := 9
abbrev dirEntrySize : ℕ := 20

abbrev CString := ℕ → Byte

/-- Whether `strncmp` finds no difference in `n` characters from index `i` on. -/
def strncmpEq (a b : CString) : ℕ → ℕ → Bool
  | 0, _ => true
  | n + 1, i => if a i != b i then false else if a i == 0 then true else strncmpEq a b n (i + 1)

structure DirectoryEntry where
  inUse : Bool
  sector : Word
  name : Fin (fileNameMaxLen + 1) → Byte

namespace DirectoryEntry

def nameString (e : DirectoryEntry) : CString := fun i =>
  if hi : i < fileNameMaxLen + 1 then e.name ⟨i, hi⟩ else 0

/-- `strncpy` of at most `FileNameMaxLen` characters: behind the end of the string it writes
zeros, and the last character of the array stays. -/
def setName (e : DirectoryEntry) (src : CString) : DirectoryEntry :=
  { e with name := fun i =>
      if i.val < fileNameMaxLen then if ∃ j < i.val, src j = 0 then 0 else src i else e.name i }

def byte (e : DirectoryEntry) (r : ℕ) : Byte :=
  if r = 0 then if e.inUse then 1 else 0
  else if 4 ≤ r ∧ r < 8 then e.sector.extractLsb' (8 * (r - 4)) 8
  else if 8 ≤ r then e.nameString (r - 8) else 0

def ofBuffer (b : Buffer) (k : ℕ) : DirectoryEntry :=
  ⟨b (k * dirEntrySize) != 0, wordAt b (5 * k + 1), fun i => b (k * dirEntrySize + 8 + i)⟩

end DirectoryEntry

@[ext]
structure Directory where
  table : List DirectoryEntry

namespace Directory

/-- The constructor: only `inUse` is set in the entries of the new table. -/
def new (size : ℕ) (junk : Buffer) : Directory :=
  ⟨(List.range size).map fun k => { DirectoryEntry.ofBuffer junk k with inUse := false }⟩

def toBuffer (dir : Directory) : Buffer := fun j =>
  ((dir.table[j / dirEntrySize]?).map fun e => e.byte (j % dirEntrySize)).getD 0

def ofBuffer (size : ℕ) (b : Buffer) : Directory :=
  ⟨(List.range size).map (DirectoryEntry.ofBuffer b)⟩

def fetchFrom (dir : Directory) (file : FileHeader) (d : Disk) : Except Trap Directory := do
  let (_, b) ← file.readAt d dir.toBuffer (dir.table.length * dirEntrySize : ℕ) 0
  return ofBuffer dir.table.length b

def writeBack (dir : Directory) (file : FileHeader) (d : Disk) (junk : Buffer) :
    Except Trap Disk := do
  let (_, d) ← file.writeAt d junk dir.toBuffer (dir.table.length * dirEntrySize : ℕ) 0
  return d

/-- Nothing where the source returns -1. -/
def findIndex (dir : Directory) (name : CString) : Option ℕ :=
  dir.table.findIdx? fun e => e.inUse && strncmpEq e.nameString name fileNameMaxLen 0

def find (dir : Directory) (name : CString) : ℤ :=
  match dir.findIndex name with
  | some i => ((dir.table[i]?).map fun e => e.sector.toInt).getD (-1)
  | none => -1

def add (dir : Directory) (name : CString) (newSector : ℤ) : Option Directory :=
  if (dir.findIndex name).isSome then none
  else (dir.table.findIdx? fun e => !e.inUse).map fun i =>
    ⟨dir.table.modify i fun e =>
      { e.setName name with inUse := true, sector := BitVec.ofInt 32 newSector }⟩

def remove (dir : Directory) (name : CString) : Option Directory :=
  (dir.findIndex name).map fun i => ⟨dir.table.modify i fun e => { e with inUse := false }⟩

end Directory

/-- The characters that `strncmp` compares: a string ends at its zero. -/
def nameKey (s : CString) (i : ℕ) : Byte := if ∃ j < i, s j = 0 then 0 else s i

theorem strncmpEq_iff_from (a b : CString) (n i : ℕ) (hi : ∀ j < i, a j ≠ 0 ∧ b j ≠ 0) :
    strncmpEq a b n i = true ↔ ∀ k, i ≤ k → k < i + n → nameKey a k = nameKey b k := by
  induction n generalizing i with
  | zero =>
    simp only [strncmpEq, true_iff]
    intro k h1 h2
    omega
  | succ n ih =>
    have hkey : nameKey a i = a i ∧ nameKey b i = b i := by
      constructor
      · exact if_neg fun ⟨j, hj, h⟩ => (hi j hj).1 h
      · exact if_neg fun ⟨j, hj, h⟩ => (hi j hj).2 h
    rw [strncmpEq]
    split_ifs with hne hz
    · simp only [false_iff]
      intro h
      have := h i le_rfl (by omega)
      rw [hkey.1, hkey.2] at this
      simp [this] at hne
    · simp only [true_iff]
      have hab : a i = b i := by simpa using hne
      have ha : a i = 0 := by simpa using hz
      intro k h1 h2
      by_cases hk : k = i
      · rw [hk, hkey.1, hkey.2, hab]
      · have h0 : nameKey a k = 0 := if_pos ⟨i, by omega, ha⟩
        have h0' : nameKey b k = 0 := if_pos ⟨i, by omega, by rw [← hab, ha]⟩
        rw [h0, h0']
    · have hab : a i = b i := by simpa using hne
      have ha : a i ≠ 0 := by simpa using hz
      rw [ih (i + 1) fun j hj => ?_]
      · constructor
        · intro h k h1 h2
          by_cases hk : k = i
          · rw [hk, hkey.1, hkey.2, hab]
          · exact h k (by omega) (by omega)
        · intro h k h1 h2
          exact h k (by omega) (by omega)
      · by_cases hji : j = i
        · rw [hji]
          exact ⟨ha, by rw [← hab]; exact ha⟩
        · exact hi j (by omega)

theorem strncmpEq_iff (a b : CString) :
    strncmpEq a b fileNameMaxLen 0 = true ↔ ∀ k < fileNameMaxLen, nameKey a k = nameKey b k := by
  rw [strncmpEq_iff_from a b fileNameMaxLen 0 (by simp)]
  simp

namespace DirectoryEntry

theorem nameKey_setName (e : DirectoryEntry) (src : CString) {k : ℕ} (hk : k < fileNameMaxLen) :
    nameKey (e.setName src).nameString k = nameKey src k := by
  have hname : ∀ j < fileNameMaxLen, (e.setName src).nameString j = nameKey src j := by
    intro j hj
    have hj' : j < fileNameMaxLen + 1 := by omega
    simp [nameString, setName, hj', hj, nameKey]
  have hzero : ∀ j < fileNameMaxLen, nameKey src j = 0 → ∃ i ≤ j, src i = 0 := by
    intro j hj h0
    unfold nameKey at h0
    split_ifs at h0 with hex
    · obtain ⟨i, hi, h⟩ := hex
      exact ⟨i, by omega, h⟩
    · exact ⟨j, le_rfl, h0⟩
  by_cases hex : ∃ j < k, (e.setName src).nameString j = 0
  · obtain ⟨j, hj, h0⟩ := hex
    rw [hname j (by omega)] at h0
    obtain ⟨i, hi, h⟩ := hzero j (by omega) h0
    rw [nameKey, if_pos ⟨j, hj, by rw [hname j (by omega)]; exact h0⟩, nameKey,
      if_pos ⟨i, by omega, h⟩]
  · rw [nameKey, if_neg hex, hname k hk]

theorem ofBuffer_congr {b b' : Buffer} {k : ℕ}
    (h : ∀ j, k * dirEntrySize ≤ j → j < (k + 1) * dirEntrySize → b j = b' j) :
    ofBuffer b k = ofBuffer b' k := by
  simp only [dirEntrySize] at h
  simp only [ofBuffer, mk.injEq, dirEntrySize]
  refine ⟨by rw [h _ le_rfl (by omega)], wordAt_congr fun j h1 h2 => h j (by omega) (by omega), ?_⟩
  funext i
  exact h _ (by omega) (by have := i.isLt; simp only [fileNameMaxLen] at this; omega)

theorem ofBuffer_byte (e : DirectoryEntry) {b : Buffer} {k : ℕ}
    (h : ∀ r < dirEntrySize, b (k * dirEntrySize + r) = e.byte r) : ofBuffer b k = e := by
  have hword : wordAt b (5 * k + 1) = e.sector := by
    have hb : ∀ i < 4, b (4 * (5 * k + 1) + i) = e.sector.extractLsb' (8 * i) 8 := by
      intro i hi
      have := h (4 + i) (by simp only [dirEntrySize]; omega)
      simp only [dirEntrySize, byte] at this
      rw [show 4 * (5 * k + 1) + i = k * 20 + (4 + i) by ring, this, if_neg (by omega),
        if_pos (by omega), Nat.add_sub_cancel_left]
    have h0 := hb 0 (by norm_num)
    rw [Nat.add_zero] at h0
    rw [wordAt, hb 3 (by norm_num), hb 2 (by norm_num), hb 1 (by norm_num), h0]
    exact extract_bytes e.sector
  have hinUse : (b (k * dirEntrySize) != 0) = e.inUse := by
    have := h 0 (by norm_num)
    rw [Nat.add_zero] at this
    rw [this, byte, if_pos rfl]
    cases e.inUse <;> simp
  have hname : (fun i : Fin (fileNameMaxLen + 1) => b (k * dirEntrySize + 8 + i)) = e.name := by
    funext i
    have hi := i.isLt
    simp only [fileNameMaxLen] at hi
    have := h (8 + i) (by simp only [dirEntrySize]; omega)
    rw [Nat.add_assoc, this, byte, if_neg (by omega), if_neg (by omega), if_pos (by omega),
      Nat.add_sub_cancel_left, nameString, dif_pos i.isLt]
  rw [ofBuffer, hword, hinUse, hname]

end DirectoryEntry

namespace Directory

variable {dir : Directory} {file : FileHeader} {d : Disk}

theorem length_ofBuffer (size : ℕ) (b : Buffer) : (ofBuffer size b).table.length = size := by
  simp [ofBuffer]

theorem ofBuffer_congr {b b' : Buffer} {size : ℕ} (h : ∀ j < size * dirEntrySize, b j = b' j) :
    ofBuffer size b = ofBuffer size b' := by
  ext1
  refine List.map_congr_left fun k hk => DirectoryEntry.ofBuffer_congr fun j _ hj => h j ?_
  have := List.mem_range.mp hk
  exact lt_of_lt_of_le hj (Nat.mul_le_mul_right _ this)

theorem ofBuffer_toBuffer (dir : Directory) : ofBuffer dir.table.length dir.toBuffer = dir := by
  ext1
  refine List.ext_getElem (length_ofBuffer _ _) fun k h1 h2 => ?_
  simp only [ofBuffer, List.getElem_map, List.getElem_range]
  refine DirectoryEntry.ofBuffer_byte _ fun r hr => ?_
  have hdiv : (k * dirEntrySize + r) / dirEntrySize = k ∧
      (k * dirEntrySize + r) % dirEntrySize = r := by
    simp only [dirEntrySize] at *
    omega
  rw [toBuffer, hdiv.1, hdiv.2, List.getElem?_eq_getElem h2]
  rfl

def stored (size : ℕ) (file : FileHeader) (d : Disk) : Directory := ofBuffer size (file.fileByte d)

theorem fetchFrom_ok (hw : file.Wf) (hn : dir.table.length * dirEntrySize ≤ file.numBytes.toNat) :
    dir.fetchFrom file d = .ok (stored dir.table.length file d) := by
  obtain ⟨b, hread, hbytes⟩ := FileHeader.readAt_table (d := d) hw dir.toBuffer hn
  simp only [fetchFrom, hread, bind, Except.bind]
  exact congrArg Except.ok (ofBuffer_congr hbytes)

theorem writeBack_ok (hw : file.Wf) (hd : file.fileSectors.Nodup) (junk : Buffer)
    (hn : dir.table.length * dirEntrySize ≤ file.numBytes.toNat) :
    ∃ d', dir.writeBack file d junk = .ok d' ∧ stored dir.table.length file d' = dir ∧
      ∀ s, s ∉ file.fileSectors → d' s = d s := by
  obtain ⟨d', hwrite, hbytes, hrest⟩ := FileHeader.writeAt_table (d := d) hw hd junk dir.toBuffer hn
  refine ⟨d', ?_, ?_, hrest⟩
  · simp only [writeBack, hwrite, bind, Except.bind]
    rfl
  · exact (ofBuffer_congr hbytes).trans (ofBuffer_toBuffer dir)

theorem stored_congr {d' : Disk} {size : ℕ} (hw : file.Wf)
    (hn : size * dirEntrySize ≤ file.numBytes.toNat)
    (hs : ∀ s ∈ file.fileSectors, d' s = d s) : stored size file d' = stored size file d :=
  ofBuffer_congr fun _ hj => FileHeader.fileByte_congr hw (lt_of_lt_of_le hj hn) hs

def files (dir : Directory) : List DirectoryEntry := dir.table.filter DirectoryEntry.inUse

theorem findIndex_none {name : CString} (h : dir.findIndex name = none) :
    ∀ e ∈ dir.files, strncmpEq e.nameString name fileNameMaxLen 0 = false := by
  intro e he
  obtain ⟨hmem, huse⟩ := List.mem_filter.mp he
  have := List.findIdx?_eq_none_iff.mp h e hmem
  simpa [huse] using this

theorem split_modify {p : DirectoryEntry → Bool} {i : ℕ} (f : DirectoryEntry → DirectoryEntry)
    (h : dir.table.findIdx? p = some i) :
    ∃ l₁ e l₂, dir.table = l₁ ++ e :: l₂ ∧ dir.table[i]? = some e ∧ p e = true ∧
      dir.table.modify i f = l₁ ++ f e :: l₂ := by
  obtain ⟨hi, hp, -⟩ := List.findIdx?_eq_some_iff_getElem.mp h
  refine ⟨dir.table.take i, dir.table[i], dir.table.drop (i + 1), ?_, ?_, hp, ?_⟩
  · rw [← List.drop_eq_getElem_cons hi, List.take_append_drop]
  · exact List.getElem?_eq_getElem hi
  · exact List.modify_eq_take_cons_drop hi

theorem find_cases (dir : Directory) (name : CString) :
    (dir.findIndex name = none ∧ dir.find name = -1) ∨
    ∃ e dir', e ∈ dir.files ∧ dir.find name = e.sector.toInt ∧ dir.remove name = some dir' ∧
      strncmpEq e.nameString name fileNameMaxLen 0 = true ∧
      dir'.table.length = dir.table.length ∧ dir.files.Perm (e :: dir'.files) := by
  cases hf : dir.findIndex name with
  | none => exact .inl ⟨rfl, by simp only [find, hf]⟩
  | some i =>
    obtain ⟨l₁, e, l₂, htable, hget, hp, hmod⟩ :=
      split_modify (fun e => { e with inUse := false }) hf
    obtain ⟨huse, hname⟩ := Bool.and_eq_true_iff.mp hp
    refine .inr ⟨e, ⟨dir.table.modify i fun e => { e with inUse := false }⟩, ?_, ?_, ?_, hname, ?_,
      ?_⟩
    · exact List.mem_filter.mpr ⟨List.mem_of_getElem? hget, huse⟩
    · simp only [find, hf, hget]
      rfl
    · simp only [remove, hf]
      rfl
    · exact List.length_modify ..
    · simp only [files, hmod]
      simp only [htable, List.filter_append, List.filter_cons, huse, if_true, Bool.false_eq_true,
        if_false]
      exact List.perm_middle

theorem add_cases {name : CString} (newSector : ℤ) (h : dir.findIndex name = none) :
    dir.add name newSector = none ∨
    ∃ e dir', dir.add name newSector = some dir' ∧ e.sector = BitVec.ofInt 32 newSector ∧
      (∀ k < fileNameMaxLen, nameKey e.nameString k = nameKey name k) ∧
      dir'.table.length = dir.table.length ∧ dir'.files.Perm (e :: dir.files) := by
  simp only [add, h, Option.isSome_none, Bool.false_eq_true, if_false]
  cases hf : dir.table.findIdx? fun e => !e.inUse with
  | none => exact .inl rfl
  | some i =>
    obtain ⟨l₁, e, l₂, htable, hget, hp, hmod⟩ := split_modify (fun e =>
      { e.setName name with inUse := true, sector := BitVec.ofInt 32 newSector }) hf
    have huse : e.inUse = false := by simpa using hp
    refine .inr ⟨{ e.setName name with inUse := true, sector := BitVec.ofInt 32 newSector },
      _, rfl, rfl, fun k hk => ?_, ?_, ?_⟩
    · exact DirectoryEntry.nameKey_setName e name hk
    · exact List.length_modify ..
    · simp only [files, hmod]
      simp only [htable, List.filter_append, List.filter_cons, huse, if_true, Bool.false_eq_true,
        if_false]
      exact List.perm_middle

theorem files_new (size : ℕ) (junk : Buffer) : (new size junk).files = [] := by
  simp [files, new]

end Directory

end Nachos
