import Nachos.FileCreation
import Nachos.FileIsolation
import Nachos.FileRequests

/-! `Remove` after `Create` and after writes to the new file. The map and the list of files
determine each other, so it is enough that `Remove` finds the entry that `Create` has made and
that the sectors of the other files stay. Writes that the request check does not hold reach the
tables. -/
namespace Nachos

open ByteBuffer

structure WriteCall where
  junk : Buffer
  src : Buffer
  numBytes : Word
  position : Word

def OpenFile.runWrites (f : OpenFile) : List WriteCall → Disk → Except Trap Disk
  | [], d => .ok d
  | w :: ws, d => do
    let (_, d) ← f.writeAt d w.junk w.src w.numBytes w.position
    f.runWrites ws d

/-- The free map bit by bit, the names with their header sectors, and what the files read. -/
structure Restored (d d' : Disk) : Prop where
  freeMap : ∀ s, (freeMapOf d').bit s = (freeMapOf d).bit s
  entries : ((directoryOf d').files.map fun e => (e.name, e.sector)).Perm
    ((directoryOf d).files.map fun e => (e.name, e.sector))
  files : ∀ e ∈ (directoryOf d).files, headerAt d' e.sector.toNat = headerAt d e.sector.toNat ∧
    ∀ (into : Buffer) (numBytes position : Word), OpenFile.Ordinary numBytes position →
      (headerAt d' e.sector.toNat).readAt d' into numBytes.toInt position.toInt =
        (headerAt d e.sector.toNat).readAt d into numBytes.toInt position.toInt

theorem OpenFile.writeAt_checked {f : OpenFile} {d : Disk} (hw : f.hdr.Wf) (hd : f.hdr.Distinct)
    (junk src : Buffer) {numBytes position : Word} (hc : Checked f.hdr numBytes position) :
    ∃ k d', f.writeAt d junk src numBytes position = .ok (k, d') ∧
      ∀ s, s ∉ f.hdr.fileSectors → d' s = d s := by
  by_cases he : numBytes.toInt ≤ 0 ∨ f.hdr.numBytes ≤ position.toInt
  · refine ⟨0, d, ?_, fun _ _ => rfl⟩
    rw [writeAt, FileHeader.writeAt, if_pos he]
    rfl
  · obtain ⟨hn, hp⟩ := not_or.mp he
    obtain ⟨d', hrun, -, hrest⟩ :=
      writeAt_exact (d := d) hw hd ((hc.resolve_left hn).resolve_left hp) junk src
    exact ⟨_, d', hrun, hrest⟩

namespace FileSystem

variable {fs : FileSystem} {d d' : Disk} {t : ℕ}

theorem nodup_headers {hdr : ℕ → FileHeader} {dir : Directory}
    (h : (usedSectors hdr dir).Nodup) : dir.headers.Nodup := by
  have hpw := (List.nodup_flatMap.mp h).2
  have hne : (freeMapSector :: directorySector :: dir.headers).Pairwise (· ≠ ·) := by
    refine hpw.imp fun {s t} hdis heq => ?_
    exact hdis List.mem_cons_self (heq ▸ List.mem_cons_self)
  exact (List.pairwise_cons.mp (List.pairwise_cons.mp hne).2).2

theorem Sound.entry_unique (h : fs.Sound) {e e' : DirectoryEntry}
    (he : e ∈ (directoryOf fs.disk).files) (he' : e' ∈ (directoryOf fs.disk).files)
    (hs : e.sector.toNat = e'.sector.toNat) : e = e' :=
  List.inj_on_of_nodup_map (nodup_headers h.marks.nodup) he he' hs

theorem Sound.runWrites (h : fs.Sound) (ht : t ∈ (directoryOf fs.disk).headers) {f : OpenFile}
    (hf : f.hdr = headerAt fs.disk t) {ws : List WriteCall}
    (hws : ∀ w ∈ ws, OpenFile.Checked f.hdr w.numBytes w.position) :
    ∃ d', f.runWrites ws fs.disk = .ok d' ∧ ∀ s, s ∉ f.hdr.fileSectors → d' s = fs.disk s := by
  have hw : f.hdr.Wf := hf ▸ h.wf t ht
  have hd : f.hdr.Distinct := FileHeader.nodup_fileSectors.mp (hf ▸ h.nodup_fileSectors ht)
  clear hf
  generalize fs.disk = d
  induction ws generalizing d with
  | nil => exact ⟨d, rfl, fun _ _ => rfl⟩
  | cons w ws ih =>
    obtain ⟨k, d₁, hrun, hrest⟩ := OpenFile.writeAt_checked (d := d) hw hd w.junk w.src
      (hws w List.mem_cons_self)
    obtain ⟨d', hruns, hrest'⟩ := ih (fun w' hw' => hws w' (List.mem_cons_of_mem _ hw')) d₁
    refine ⟨d', ?_, fun s hs => (hrest' s hs).trans (hrest s hs)⟩
    simp only [OpenFile.runWrites, hrun, bind, Except.bind]
    exact hruns

def KeepsUsed (d d' : Disk) : Prop :=
  ∀ s ∈ usedSectors (headerAt d) (directoryOf d), s ∉ Layout.tableSectors d → d' s = d s

theorem Sound.headers_kept (h : fs.Sound) (hk : KeepsUsed fs.disk d') {t : ℕ}
    (ht : t ∈ freeMapSector :: directorySector :: (directoryOf fs.disk).headers) :
    headerAt d' t = headerAt fs.disk t := by
  refine headerAt_congr (hk t (mem_used_of_own ht List.mem_cons_self) ?_)
  obtain ⟨-, h0, h1⟩ := h.layout.split
  rw [List.mem_cons, List.mem_cons] at ht
  obtain rfl | rfl | ht := ht
  · exact h0
  · exact h1
  · exact (files_apart h.marks.nodup ht List.mem_cons_self).2.2

theorem Sound.tableSectors_kept (h : fs.Sound) (hk : KeepsUsed fs.disk d') :
    Layout.tableSectors d' = Layout.tableSectors fs.disk := by
  rw [Layout.tableSectors, h.headers_kept hk List.mem_cons_self,
    h.headers_kept hk (List.mem_cons_of_mem _ List.mem_cons_self), Layout.tableSectors]

theorem Sound.new_apart (h : fs.Sound) (hk : KeepsUsed fs.disk d')
    (hnd : (usedSectors (headerAt d') (directoryOf d')).Nodup) {e : DirectoryEntry}
    (hperm : (directoryOf d').files.Perm (e :: (directoryOf fs.disk).files)) {s : ℕ}
    (hs : s ∈ usedSectors (headerAt fs.disk) (directoryOf fs.disk)) :
    s ∉ ownSectors (headerAt d') e.sector.toNat := by
  have hsplit := (usedSectors_cons (headerAt d') hperm).nodup_iff.mp hnd
  obtain ⟨-, -, hdis⟩ := List.nodup_append.mp hsplit
  rw [usedSectors_congr fun t ht => h.headers_kept hk ht] at hdis
  exact fun hown => hdis s hown s hs rfl

/-- Disks with the same files, of which the second one kept the sectors of the first. -/
theorem Sound.restored (h : fs.Sound) {fs' : FileSystem} (h' : fs'.Sound)
    (hperm : (directoryOf fs'.disk).files.Perm (directoryOf fs.disk).files)
    (hk : KeepsUsed fs.disk fs'.disk) : Restored fs.disk fs'.disk := by
  constructor
  case freeMap =>
    intro s
    have hheaders : (directoryOf fs'.disk).headers.Perm (directoryOf fs.disk).headers :=
      hperm.map _
    have hused : (usedSectors (headerAt fs'.disk) (directoryOf fs'.disk)).Perm
        (usedSectors (headerAt fs.disk) (directoryOf fs.disk)) := by
      rw [← usedSectors_congr fun t ht => h.headers_kept hk ht]
      exact ((hheaders.cons _).cons _).flatMap_right _
    rw [Bool.eq_iff_iff, h'.marks.bit, h.marks.bit]
    exact hused.mem_iff
  case entries => exact hperm.map _
  case files =>
    intro e he
    have ht : e.sector.toNat ∈ (directoryOf fs.disk).headers := (h.sector_toInt he).1
    have ht' := List.mem_cons_of_mem freeMapSector (List.mem_cons_of_mem directorySector ht)
    have hhdr := h.headers_kept hk ht'
    refine ⟨hhdr, fun into numBytes position ho => ?_⟩
    have hfit := ho.2
    rw [hhdr, ho.position_eq]
    rw [ho.position_eq] at hfit
    refine FileHeader.readAt_congr (h.wf _ ht) (fun s hs => hk s ?_ ?_) into hfit
    · exact mem_used_of_own ht' (List.mem_cons_of_mem _ hs)
    · exact (files_apart h.marks.nodup ht (List.mem_cons_of_mem _ hs)).2.2

theorem Sound.remove_of_mem (h : fs.Sound) {e : DirectoryEntry} {name : CString}
    (he : e ∈ (directoryOf fs.disk).files)
    (hkey : ∀ k < fileNameMaxLen, nameKey e.nameString k = nameKey name k) (junk : ℕ → Buffer) :
    ∃ d', fs.remove junk name = .ok (true, { fs with disk := d' }) ∧
      Sound { fs with disk := d' } ∧
      (directoryOf fs.disk).files.Perm (e :: (directoryOf d').files) ∧
      ∀ s, s ∉ Layout.tableSectors fs.disk → d' s = fs.disk s := by
  have hlook := h.lookup_of_mem he hkey junk
  obtain ⟨-, hno⟩ | ⟨d', e', hrem, hlook', hs', hperm, hrest⟩ := h.remove_cases junk name
  · rw [hlook] at hno
    have hneg := Except.ok.inj hno
    omega
  · rw [hlook, (h.sector_toInt (hperm.mem_iff.mpr List.mem_cons_self)).2.1] at hlook'
    have heq : e.sector.toNat = e'.sector.toNat := by exact_mod_cast Except.ok.inj hlook'
    obtain rfl := h.entry_unique he (hperm.mem_iff.mpr List.mem_cons_self) heq
    exact ⟨d', hrem, hs', hperm, hrest⟩

/-- `Remove` takes back what `Create` has done, whatever has been written to the new file by
writes that the request check holds. -/
theorem remove_undoes_create (fs fs₁ : FileSystem) (h : fs.Sound) (junk junk' junk'' : ℕ → Buffer)
    (name : CString) (size : Word) (hsize : size.toInt ≤ maxFileSize)
    (hcreate : fs.create junk name size.toInt = .ok (true, fs₁)) (f : OpenFile)
    (hopen : fs₁.openFile junk' name = .ok (some f)) (ws : List WriteCall)
    (hws : ∀ w ∈ ws, OpenFile.Checked f.hdr w.numBytes w.position) :
    ∃ d₂ fs₃, f.runWrites ws fs₁.disk = .ok d₂ ∧
      FileSystem.remove { fs₁ with disk := d₂ } junk'' name = .ok (true, fs₃) ∧
      Restored fs.disk fs₃.disk := by
  obtain hno | ⟨d₁, e, hyes, h₁, hperm₁, hkey, -, -, hk₁⟩ :=
    h.create_cases junk name (BitVec.le_toInt size) hsize
  · rw [hno] at hcreate
    cases hcreate
  rw [hyes] at hcreate
  obtain ⟨-, rfl⟩ := Prod.mk.inj (Except.ok.inj hcreate)
  have he₁ : e ∈ (directoryOf d₁).files := hperm₁.mem_iff.mpr List.mem_cons_self
  have ht : e.sector.toNat ∈ (directoryOf d₁).headers := (h₁.sector_toInt he₁).1
  rw [h₁.openFile_of_mem he₁ hkey junk'] at hopen
  obtain rfl := Option.some.inj (Except.ok.inj hopen)
  obtain ⟨d₂, hwrites, hrest₂⟩ := h₁.runWrites ht rfl hws
  obtain ⟨h₂, hdir₂, -⟩ := h₁.writeFile ht hrest₂
  have hk₂ : KeepsUsed fs.disk d₂ := fun s hs hst =>
    (hrest₂ s fun hmem => h.new_apart hk₁ h₁.marks.nodup hperm₁ hs
      (List.mem_cons_of_mem _ hmem)).trans (hk₁ s hs hst)
  obtain ⟨d₃, hrem, h₃, hperm₃, hrest₃⟩ := h₂.remove_of_mem (e := e) (by rw [hdir₂]; exact he₁) hkey
    junk''
  refine ⟨d₂, _, hwrites, hrem, h.restored h₃ ?_ fun s hs hst => ?_⟩
  · rw [hdir₂] at hperm₃
    exact (List.perm_cons e).mp (hperm₃.symm.trans hperm₁)
  · refine (hrest₃ s ?_).trans (hk₂ s hs hst)
    rw [h.tableSectors_kept hk₂]
    exact hst

theorem remove_undoes_create_blank : ∃ fs₁ f d₂ fs₃,
    Session.blank.fs.create (fun _ _ => 0) Session.fileA (128 : Word).toInt = .ok (true, fs₁) ∧
      fs₁.openFile (fun _ _ => 0) Session.fileA = .ok (some f) ∧
      f.runWrites [⟨fun _ => 0, fun _ => 7, 10, 5⟩] fs₁.disk = .ok d₂ ∧
      FileSystem.remove { fs₁ with disk := d₂ } (fun _ _ => 0) Session.fileA = .ok (true, fs₃) ∧
      Restored Session.blank.fs.disk fs₃.disk := by
  have hs := (Session.inv_init Session.init_blank).sound
  obtain ⟨fs₁, hcreate⟩ := create_blank
  rw [show (128 : ℤ) = (128 : Word).toInt by decide] at hcreate
  obtain hno | ⟨d₁, e, hyes, h₁, hperm₁, hkey, -⟩ :=
    hs.create_cases (fun _ _ => 0) Session.fileA (BitVec.le_toInt (128 : Word)) (by decide)
  · rw [hno] at hcreate
    cases hcreate
  rw [hyes] at hcreate
  obtain ⟨-, rfl⟩ := Prod.mk.inj (Except.ok.inj hcreate)
  have hopen := h₁.openFile_of_mem (hperm₁.mem_iff.mpr List.mem_cons_self) hkey fun _ _ => 0
  obtain ⟨d₂, fs₃, hrun, hrem, hres⟩ := remove_undoes_create Session.blank.fs _ hs (fun _ _ => 0)
    (fun _ _ => 0) (fun _ _ => 0) Session.fileA 128 (by decide) hyes _ hopen
    [⟨fun _ => 0, fun _ => 7, 10, 5⟩] (by
      intro w hw
      rw [List.mem_singleton.mp hw]
      exact .inr (.inr (by unfold OpenFile.Ordinary; decide)))
  exact ⟨_, _, d₂, fs₃, hyes, hopen, hrun, hrem, hres⟩

/-- 128 bytes at position -256 of a file of two bytes, whose length is taken for a sector. -/
def misplaced : WriteCall := ⟨fun _ => 0, fun _ => 255, 128, -256⟩

def misplacedRemoval : Except Trap Bool := do
  let (ok, fs₁) ← Session.blank.fs.create (fun _ _ => 0) Session.fileA 2
  let file ← fs₁.openFile (fun _ _ => 0) Session.fileA
  let some f := file | throw .assertion
  let d₂ ← f.runWrites [misplaced] fs₁.disk
  let (ok', fs₃) ← FileSystem.remove { fs₁ with disk := d₂ } (fun _ _ => 0) Session.fileA
  return (ok && ok' && (freeMapOf fs₃.disk).bit 7 && !(freeMapOf Session.blank.fs.disk).bit 7)

theorem remove_after_misplaced : ∃ fs₁ f d₂ fs₃,
    Session.blank.fs.create (fun _ _ => 0) Session.fileA 2 = .ok (true, fs₁) ∧
      fs₁.openFile (fun _ _ => 0) Session.fileA = .ok (some f) ∧
      f.runWrites [misplaced] fs₁.disk = .ok d₂ ∧
      FileSystem.remove { fs₁ with disk := d₂ } (fun _ _ => 0) Session.fileA = .ok (true, fs₃) ∧
      ¬ Restored Session.blank.fs.disk fs₃.disk := by
  have hrun : misplacedRemoval.toOption = some true := by
    unfold misplacedRemoval Session.blank FileSystem.create FileSystem.allocateFile
      FileSystem.format
    simp only [FileHeader.allocate_eq]
    decide +kernel
  obtain ⟨⟨ok, fs₁⟩, hcreate, hrun⟩ := except_bind_eq_ok (toOption_eq_some hrun)
  obtain ⟨file, hopen, hrun⟩ := except_bind_eq_ok hrun
  cases file with
  | none => cases hrun
  | some f =>
    obtain ⟨d₂, hwrites, hrun⟩ := except_bind_eq_ok hrun
    obtain ⟨⟨ok', fs₃⟩, hrem, hrun⟩ := except_bind_eq_ok hrun
    have hall := Except.ok.inj hrun
    simp only [Bool.and_eq_true, Bool.not_eq_true'] at hall
    obtain ⟨⟨⟨rfl, rfl⟩, hafter⟩, hbefore⟩ := hall
    refine ⟨fs₁, f, d₂, fs₃, hcreate, hopen, hwrites, hrem, fun hres => ?_⟩
    rw [hres.freeMap, hbefore] at hafter
    cases hafter

end FileSystem

end Nachos
