import Mathlib.Data.Finmap
import Nachos.BitMapSet

/-! A directory over its whole life (`directory.cc`): a new table, used, written to a file and
read back from it, behaves as a map of bounded size. A key is what `strncmp` sees of a name in
`FileNameMaxLen` characters; the names left in the entries that are not in use do not matter. -/
namespace Nachos.Directory

open ByteBuffer

abbrev Key := List Byte

def key (name : CString) : Key := ((List.range fileNameMaxLen).map name).takeWhile (· != 0)

abbrev SectorMap := Finmap fun _ : Key => Word

inductive Call where
  | add (name : CString) (newSector : Word)
  | remove (name : CString)
  | find (name : CString)
  | writeBack (junk : Buffer)
  | fetchFrom
  | reopen (junk : Buffer)

inductive Answer where
  | done
  | result (b : Bool)
  | find (sector : ℤ)
  deriving DecidableEq, Repr

/-- A call on a directory that is kept in `file`. The file system reopens a directory: it makes
a new table and fetches it. -/
def call (file : FileHeader) :
    Directory × Disk → Call → Except Trap ((Directory × Disk) × Answer)
  | (dir, d), .add name newSector =>
    return (((dir.add name newSector.toInt).getD dir, d),
      .result (dir.add name newSector.toInt).isSome)
  | (dir, d), .remove name =>
    return (((dir.remove name).getD dir, d), .result (dir.remove name).isSome)
  | (dir, d), .find name => return ((dir, d), .find (dir.find name))
  | (dir, d), .writeBack junk => do
    let d ← dir.writeBack file d junk
    return ((dir, d), .done)
  | (dir, d), .fetchFrom => do
    let dir ← dir.fetchFrom file d
    return ((dir, d), .done)
  | (dir, d), .reopen junk => do
    let dir ← (new dir.table.length junk).fetchFrom file d
    return ((dir, d), .done)

def Call.reads : Call → Bool
  | .fetchFrom | .reopen _ => true
  | _ => false

def Call.writes : Call → Bool
  | .writeBack _ => true
  | _ => false

/-- Nothing is read from the file before the directory was written to it. -/
def RoundTrips : Bool → List Call → Prop
  | _, [] => True
  | written, c :: cs => (c.reads = true → written = true) ∧ RoundTrips (written || c.writes) cs

def mapAdd (n : ℕ) (M : SectorMap) (name : CString) (newSector : Word) : Option SectorMap :=
  if key name ∈ M ∨ M.keys.card = n then none else some (M.insert (key name) newSector)

def mapRemove (M : SectorMap) (name : CString) : Option SectorMap :=
  if key name ∈ M then some (M.erase (key name)) else none

def mapFind (M : SectorMap) (name : CString) : ℤ :=
  ((M.lookup (key name)).map BitVec.toInt).getD (-1)

def mapCall (n : ℕ) : SectorMap × SectorMap → Call → (SectorMap × SectorMap) × Answer
  | (M, F), .add name newSector =>
    (((mapAdd n M name newSector).getD M, F), .result (mapAdd n M name newSector).isSome)
  | (M, F), .remove name => (((mapRemove M name).getD M, F), .result (mapRemove M name).isSome)
  | (M, F), .find name => ((M, F), .find (mapFind M name))
  | (M, _), .writeBack _ => ((M, M), .done)
  | (_, F), .fetchFrom | (_, F), .reopen _ => ((F, F), .done)

def bindings (dir : Directory) : List (Σ _ : Key, Word) :=
  dir.files.map fun e => ⟨key e.nameString, e.sector⟩

def toFinmap (dir : Directory) : SectorMap := dir.bindings.toFinmap

def Distinct (dir : Directory) : Prop := dir.bindings.NodupKeys

theorem strncmpEq_iff_takeWhile (a b : CString) (n i : ℕ) :
    strncmpEq a b n i = true ↔ ((List.range' i n).map a).takeWhile (· != 0) =
      ((List.range' i n).map b).takeWhile (· != 0) := by
  induction n generalizing i with
  | zero => simp [strncmpEq]
  | succ n ih =>
    rw [strncmpEq, List.range'_succ, List.map_cons, List.map_cons, List.takeWhile_cons,
      List.takeWhile_cons]
    by_cases hab : a i = b i
    · by_cases hzero : b i = 0#8
      · simp [hab, hzero]
      · simp [hab, hzero, ih]
    · by_cases hzero : b i = 0#8
      · have ha : ¬ a i = 0#8 := fun h => hab (h.trans hzero.symm)
        simp [hzero, ha]
      · by_cases ha : a i = 0#8
        · simp [ha, hzero, Ne.symm hzero]
        · simp [hab, hzero, ha]

theorem strncmpEq_iff_key (a b : CString) :
    strncmpEq a b fileNameMaxLen 0 = true ↔ key a = key b := by
  rw [strncmpEq_iff_takeWhile, key, key, List.range_eq_range']

variable {dir dir' : Directory} {e : DirectoryEntry} {name : CString}

theorem mem_toFinmap : key name ∈ dir.toFinmap ↔ ∃ e ∈ dir.files, key e.nameString = key name := by
  rw [toFinmap, Finmap.mem_list_toFinmap]
  simp only [bindings, List.mem_map, Sigma.mk.injEq]
  constructor
  · rintro ⟨b, e, he, hkey, -⟩
    exact ⟨e, he, hkey⟩
  · rintro ⟨e, he, hkey⟩
    exact ⟨e.sector, e, he, hkey, HEq.rfl⟩

theorem lookup_toFinmap (h : dir.Distinct) (he : e ∈ dir.files) :
    dir.toFinmap.lookup (key e.nameString) = some e.sector := by
  rw [toFinmap, Finmap.dlookup_list_toFinmap]
  exact List.mem_dlookup h (List.mem_map.mpr ⟨e, he, rfl⟩)

theorem card_keys (h : dir.Distinct) : dir.toFinmap.keys.card = dir.files.length := by
  have hkeys : dir.toFinmap.keys = dir.bindings.keys.toFinset := by
    ext k
    rw [Finmap.mem_keys, toFinmap, Finmap.mem_list_toFinmap, List.mem_toFinset, List.mem_keys]
  rw [hkeys, List.toFinset_card_of_nodup h, List.keys, List.length_map, bindings, List.length_map]

theorem card_keys_le (h : dir.Distinct) : dir.toFinmap.keys.card ≤ dir.table.length := by
  rw [card_keys h]
  exact List.length_filter_le ..

theorem distinct_cons_iff (hperm : dir.files.Perm (e :: dir'.files)) :
    dir.Distinct ↔ key e.nameString ∉ dir'.toFinmap ∧ dir'.Distinct := by
  have hbind : dir.bindings.Perm (⟨key e.nameString, e.sector⟩ :: dir'.bindings) := hperm.map _
  rw [Distinct, List.perm_nodupKeys hbind, List.nodupKeys_cons, toFinmap,
    Finmap.mem_list_toFinmap, List.mem_keys]
  rfl

theorem toFinmap_cons (h : dir.Distinct) (hperm : dir.files.Perm (e :: dir'.files)) :
    dir.toFinmap = dir'.toFinmap.insert (key e.nameString) e.sector := by
  have hbind : dir.bindings.Perm (⟨key e.nameString, e.sector⟩ :: dir'.bindings) := hperm.map _
  rw [toFinmap, toFinmap, ← Finmap.toFinmap_cons]
  refine Finmap.ext_lookup fun k => ?_
  rw [Finmap.dlookup_list_toFinmap, Finmap.dlookup_list_toFinmap]
  exact List.perm_dlookup k h hbind

theorem erase_insert {k : Key} (M : SectorMap) (s : Word) (hk : k ∉ M) :
    (M.insert k s).erase k = M := by
  refine Finmap.ext_lookup fun j => ?_
  by_cases hjk : j = k
  · rw [hjk, Finmap.lookup_erase, Finmap.lookup_eq_none.mpr hk]
  · rw [Finmap.lookup_erase_ne hjk, Finmap.lookup_insert_of_ne M hjk]

theorem findIndex_eq_none_iff : dir.findIndex name = none ↔ key name ∉ dir.toFinmap := by
  rw [mem_toFinmap]
  constructor
  · rintro hnone ⟨e, he, hkey⟩
    have := findIndex_none hnone e he
    rw [(strncmpEq_iff_key _ _).mpr hkey] at this
    cases this
  · intro hkeys
    obtain ⟨hnone, -⟩ | ⟨e, -, he, -, -, hcmp, -⟩ := dir.find_cases name
    · exact hnone
    · exact absurd ⟨e, he, (strncmpEq_iff_key _ _).mp hcmp⟩ hkeys

theorem find_eq (h : dir.Distinct) (name : CString) :
    dir.find name = mapFind dir.toFinmap name := by
  obtain ⟨hnone, hfind⟩ | ⟨e, -, he, hfind, -, hcmp, -⟩ := dir.find_cases name
  · rw [hfind, mapFind, Finmap.lookup_eq_none.mpr (findIndex_eq_none_iff.mp hnone)]
    rfl
  · rw [hfind, mapFind, ← (strncmpEq_iff_key _ _).mp hcmp, lookup_toFinmap h he]
    rfl

theorem remove_cases (h : dir.Distinct) (name : CString) :
    (key name ∉ dir.toFinmap ∧ dir.remove name = none) ∨
    ∃ dir', key name ∈ dir.toFinmap ∧ dir.remove name = some dir' ∧ dir'.Distinct ∧
      dir'.table.length = dir.table.length ∧ dir'.toFinmap = dir.toFinmap.erase (key name) := by
  obtain ⟨hnone, -⟩ | ⟨e, dir', he, -, hremove, hcmp, hlength, hperm⟩ := dir.find_cases name
  · refine .inl ⟨findIndex_eq_none_iff.mp hnone, ?_⟩
    rw [remove, hnone]
    rfl
  · have hkey := (strncmpEq_iff_key _ _).mp hcmp
    obtain ⟨hnot, hdistinct⟩ := (distinct_cons_iff hperm).mp h
    refine .inr ⟨dir', mem_toFinmap.mpr ⟨e, he, hkey⟩, hremove, hdistinct, hlength, ?_⟩
    rw [toFinmap_cons h hperm, ← hkey, erase_insert _ _ hnot]

theorem length_files_iff :
    (dir.table.findIdx? fun e => !e.inUse) = none ↔ dir.files.length = dir.table.length := by
  rw [List.findIdx?_eq_none_iff, files, List.length_filter_eq_length_iff]
  simp

theorem add_cases_map (h : dir.Distinct) (name : CString) (newSector : Word) :
    ((key name ∈ dir.toFinmap ∨ dir.toFinmap.keys.card = dir.table.length) ∧
      dir.add name newSector.toInt = none) ∨
    ∃ dir', key name ∉ dir.toFinmap ∧ dir.toFinmap.keys.card ≠ dir.table.length ∧
      dir.add name newSector.toInt = some dir' ∧ dir'.Distinct ∧
      dir'.table.length = dir.table.length ∧
      dir'.toFinmap = dir.toFinmap.insert (key name) newSector := by
  by_cases hmem : key name ∈ dir.toFinmap
  · refine .inl ⟨.inl hmem, ?_⟩
    have hsome : (dir.findIndex name).isSome = true := by
      rw [Option.isSome_iff_ne_none]
      exact fun hnone => findIndex_eq_none_iff.mp hnone hmem
    rw [add, if_pos hsome]
  · have hnone := findIndex_eq_none_iff.mpr hmem
    obtain hadd | ⟨e, dir', hadd, hsector, hname, hlength, hperm⟩ :=
      add_cases newSector.toInt hnone
    · refine .inl ⟨.inr ?_, hadd⟩
      rw [card_keys h, ← length_files_iff]
      simpa [add, hnone] using hadd
    · have hkey : key e.nameString = key name :=
        (strncmpEq_iff_key _ _).mp ((strncmpEq_iff _ _).mpr hname)
      rw [BitVec.ofInt_toInt] at hsector
      have hdistinct : dir'.Distinct := by
        rw [distinct_cons_iff hperm, hkey]
        exact ⟨hmem, h⟩
      refine .inr ⟨dir', hmem, fun hfull => ?_, hadd, hdistinct, hlength, ?_⟩
      · have hle := card_keys_le hdistinct
        rw [card_keys hdistinct, hperm.length_eq, List.length_cons, ← card_keys h] at hle
        omega
      · rw [toFinmap_cons hdistinct hperm, hkey, hsector]

/-- The directory and the file hold the two maps, the file only once it was written. -/
structure Represents (n : ℕ) (file : FileHeader) (written : Bool) (dir : Directory) (d : Disk)
    (M F : SectorMap) : Prop where
  length : dir.table.length = n
  distinct : dir.Distinct
  map : dir.toFinmap = M
  stored : written = true → (stored n file d).Distinct ∧ (stored n file d).toFinmap = F

variable {n : ℕ} {file : FileHeader} {written : Bool} {d : Disk} {M F : SectorMap}

theorem mapAdd_eq (hr : Represents n file written dir d M F) (name : CString) (newSector : Word) :
    ((dir.add name newSector.toInt).isSome = (mapAdd n M name newSector).isSome) ∧
      Represents n file written ((dir.add name newSector.toInt).getD dir) d
        ((mapAdd n M name newSector).getD M) F := by
  obtain ⟨rfl, hdistinct, rfl, hstored⟩ := hr
  obtain ⟨hno, hadd⟩ | ⟨dir', hnot, hfree, hadd, hdistinct', hlength, hmap⟩ :=
    add_cases_map hdistinct name newSector
  · rw [hadd, mapAdd, if_pos hno]
    exact ⟨rfl, rfl, hdistinct, rfl, hstored⟩
  · rw [hadd, mapAdd, if_neg (not_or.mpr ⟨hnot, hfree⟩)]
    exact ⟨rfl, hlength, hdistinct', hmap, hstored⟩

theorem mapRemove_eq (hr : Represents n file written dir d M F) (name : CString) :
    ((dir.remove name).isSome = (mapRemove M name).isSome) ∧
      Represents n file written ((dir.remove name).getD dir) d ((mapRemove M name).getD M) F := by
  obtain ⟨rfl, hdistinct, rfl, hstored⟩ := hr
  obtain ⟨hnot, hremove⟩ | ⟨dir', hmem, hremove, hdistinct', hlength, hmap⟩ :=
    remove_cases hdistinct name
  · rw [hremove, mapRemove, if_neg hnot]
    exact ⟨rfl, rfl, hdistinct, rfl, hstored⟩
  · rw [hremove, mapRemove, if_pos hmem]
    exact ⟨rfl, hlength, hdistinct', hmap, hstored⟩

/-- What is read back is what was written last, whichever object reads it. -/
theorem fetch_represents (hr : Represents n file true dir d M F) :
    Represents n file true (stored n file d) d F F :=
  ⟨length_ofBuffer _ _, (hr.stored rfl).1, (hr.stored rfl).2, hr.stored⟩

theorem call_represents (hr : Represents n file written dir d M F) {c : Call}
    (hc : c.reads = true → written = true)
    (hfile : c.reads = true ∨ c.writes = true → file.HasRoom (n * dirEntrySize)) :
    ∃ dir' d', call file (dir, d) c = .ok ((dir', d'), (mapCall n (M, F) c).2) ∧
      Represents n file (written || c.writes) dir' d' (mapCall n (M, F) c).1.1
        (mapCall n (M, F) c).1.2 := by
  have hkeep : ∀ {dir' M'}, Represents n file written dir' d M' F →
      Represents n file (written || false) dir' d M' F := by
    intro dir' M' h
    rwa [Bool.or_false]
  cases c with
  | add name newSector =>
    obtain ⟨hanswer, hadd⟩ := mapAdd_eq hr name newSector
    refine ⟨_, d, ?_, hkeep hadd⟩
    simp only [call, mapCall, hanswer]
    rfl
  | remove name =>
    obtain ⟨hanswer, hremove⟩ := mapRemove_eq hr name
    refine ⟨_, d, ?_, hkeep hremove⟩
    simp only [call, mapCall, hanswer]
    rfl
  | find name =>
    refine ⟨dir, d, ?_, hkeep hr⟩
    rw [mapCall, call, find_eq hr.distinct, hr.map]
    rfl
  | writeBack junk =>
    obtain ⟨hw, hd, hn⟩ := hfile (.inr rfl)
    obtain ⟨rfl, hdistinct, rfl, -⟩ := hr
    obtain ⟨d', hwrite, hstored, -⟩ := writeBack_ok (d := d) hw hd junk hn
    refine ⟨dir, d', ?_, rfl, hdistinct, rfl, fun _ => ?_⟩
    · simp only [call, hwrite]
      rfl
    · rw [hstored]
      exact ⟨hdistinct, rfl⟩
  | fetchFrom =>
    obtain rfl := hc rfl
    obtain ⟨hw, -, hn⟩ := hfile (.inl rfl)
    refine ⟨stored n file d, d, ?_, fetch_represents hr⟩
    obtain ⟨rfl, -⟩ := hr
    simp only [call, fetchFrom_ok hw hn]
    rfl
  | reopen junk =>
    obtain rfl := hc rfl
    obtain ⟨hw, -, hn⟩ := hfile (.inl rfl)
    refine ⟨stored n file d, d, ?_, fetch_represents hr⟩
    have hlength : (new dir.table.length junk).table.length = n := by
      rw [hr.length]
      simp [new]
    subst hlength
    simp only [call, fetchFrom_ok hw hn]
    rfl

def Ready (n : ℕ) (file : FileHeader) (cs : List Call) (s : Directory × Disk)
    (t : SectorMap × SectorMap) : Prop :=
  ∃ written, Represents n file written s.1 s.2 t.1 t.2 ∧ RoundTrips written cs ∧
    ∀ c ∈ cs, c.reads = true ∨ c.writes = true → file.HasRoom (n * dirEntrySize)

theorem call_ready (c : Call) (cs : List Call) (s : Directory × Disk) (t : SectorMap × SectorMap)
    (h : Ready n file (c :: cs) s t) :
    ∃ s', call file s c = .ok (s', (mapCall n t c).2) ∧ Ready n file cs s' (mapCall n t c).1 := by
  obtain ⟨written, hr, hcs, hfile⟩ := h
  obtain ⟨dir', d', hcall, hr'⟩ := call_represents hr hcs.1 (hfile c List.mem_cons_self)
  exact ⟨(dir', d'), hcall, _, hr', hcs.2, fun b hb => hfile b (List.mem_cons_of_mem c hb)⟩

theorem new_represents (size : ℕ) (junk : Buffer) (d : Disk) (F : SectorMap) :
    Represents size file false (new size junk) d ∅ F := by
  have hempty : (new size junk).bindings = [] := by rw [bindings, files_new, List.map_nil]
  refine ⟨by simp [new], ?_, ?_, nofun⟩
  · rw [Distinct, hempty]
    exact List.nodupKeys_nil
  · rw [toFinmap, hempty, Finmap.toFinmap_nil]

/-- Every life of a directory is that of a map of at most `n` keys that starts empty, whatever
the memory of the new table and the file held before. -/
theorem calls_eq_mapCalls (junk : Buffer) (d : Disk) (F : SectorMap) (cs : List Call)
    (hcs : RoundTrips false cs)
    (hfile : ∀ c ∈ cs, c.reads = true ∨ c.writes = true → file.HasRoom (n * dirEntrySize)) :
    ∃ dir' d', CallRuns.run (call file) cs (new n junk, d) =
        .ok ((dir', d'), (CallRuns.plainRun (mapCall n) cs (∅, F)).2) ∧
      dir'.toFinmap = (CallRuns.plainRun (mapCall n) cs (∅, F)).1.1 ∧ dir'.Distinct ∧
      dir'.table.length = n ∧ dir'.toFinmap.keys.card ≤ n := by
  have hready : Ready n file cs (new n junk, d) (∅, F) :=
    ⟨false, new_represents n junk d F, hcs, hfile⟩
  obtain ⟨⟨dir', d'⟩, hrun, written', ⟨rfl, hdistinct, hmap, -⟩, -, -⟩ :=
    CallRuns.run_simulates (call file) (mapCall n) (Ready n file) call_ready hready
  exact ⟨dir', d', hrun, hmap, hdistinct, rfl, card_keys_le hdistinct⟩

def letters (k : ℕ) : CString := fun i => if i < k then BitVec.ofNat 8 (97 + i) else 0

/-- Names of which one is the beginning of the other, up to and beyond the length that counts. -/
def lettersCalls : List Call :=
  [.add (letters 12) 3, .add (letters 9) 4, .add (letters 8) 5, .find (letters 10),
    .remove (letters 3), .writeBack fun _ => 0, .remove (letters 9), .add (letters 2) 6,
    .find (letters 9), .reopen fun _ => 1, .find (letters 9), .find (letters 2), .find (letters 8)]

def lettersAnswers : List Answer :=
  [.result true, .result false, .result true, .find 3, .result false, .done, .result true,
    .result true, .find (-1), .done, .find 3, .find (-1), .find 5]

theorem calls_eq_mapCalls_letters : ∃ dir' d',
    CallRuns.run (call BitMap.oneSector) lettersCalls (new 6 fun _ => 97, fun _ _ => 0) =
      .ok ((dir', d'), lettersAnswers) := by
  have hroom : BitMap.oneSector.HasRoom (6 * dirEntrySize) :=
    ⟨BitMap.oneSector_wf, by decide, by decide⟩
  obtain ⟨dir', d', hrun, -⟩ := calls_eq_mapCalls (fun _ => 97) (fun _ _ => 0) ∅ lettersCalls
    (by simp [lettersCalls, RoundTrips, Call.reads, Call.writes]) fun _ _ _ => hroom
  have has : (CallRuns.plainRun (mapCall 6) lettersCalls (∅, ∅)).2 = lettersAnswers := by
    decide +kernel
  rw [has] at hrun
  exact ⟨dir', d', hrun⟩

end Nachos.Directory
