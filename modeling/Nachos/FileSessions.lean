import Nachos.FileSystemConsistency
import Nachos.StatePost

/-! Runs of the file system: what every step of a session does to the disk and to the open
files, and consistency of the disk in every state reached. `WriteAt` does not refuse a negative
position, so the steps are those whose writes are in range. -/
namespace Nachos

open ByteBuffer

theorem FileHeader.writeAt_effect {h : FileHeader} {d d' : Disk} {junk src : Buffer} {n r pos : ℤ}
    (hw : h.Wf) (hd : h.fileSectors.Nodup)
    (hrange : 0 < n → pos < h.numBytes → 0 ≤ pos ∧ pos + n < 2 ^ 31)
    (hrun : h.writeAt d junk src n pos = .ok (r, d')) :
    (∀ s, s ∉ h.fileSectors → d' s = d s) ∧
      ∀ x : ℕ, x < h.numBytes.toNat → h.fileByte d' x =
        if pos ≤ x ∧ x < pos + n then src (x - pos).toNat else h.fileByte d x := by
  by_cases hcheck : n ≤ 0 ∨ h.numBytes ≤ pos
  · rw [writeAt, if_pos hcheck] at hrun
    obtain ⟨-, rfl⟩ := Prod.mk.inj (Except.ok.inj hrun)
    refine ⟨fun s _ => rfl, fun x hx => ?_⟩
    rw [if_neg (by omega)]
  · obtain ⟨hn, hp⟩ := not_or.mp hcheck
    obtain ⟨hpos, hfit⟩ := hrange (not_le.mp hn) (not_le.mp hp)
    obtain ⟨p, rfl⟩ := Int.eq_ofNat_of_zero_le hpos
    obtain ⟨d'', hrun', hbytes, hrest⟩ :=
      writeAt_ok (d := d) hw (nodup_fileSectors.mp hd) junk src hfit
    rw [hrun'] at hrun
    obtain ⟨-, rfl⟩ := Prod.mk.inj (Except.ok.inj hrun)
    refine ⟨fun s hs => hrest s fun i hi heq => hs (mem_fileSectors.mpr ⟨i, hi, heq⟩),
      fun x hx => ?_⟩
    rw [hbytes x hx]
    unfold clamp
    split_ifs with h1 h2 h2
    · congr 1
      omega
    · omega
    · omega
    · rfl

namespace Session

variable {s s' : Session} {junk : ℕ → Buffer} {e : Event}

/-- Sizes are within the limit, and the files that are written are still there. -/
def Step (s s' : Session) : Prop := ∃ junk e, s.Proper e ∧ s.step junk e = some s'

def StepInRange (s s' : Session) : Prop :=
  ∃ junk e, s.Proper e ∧ s.InRange e ∧ s.step junk e = some s'

/-- An open file whose file is still there has the header that is on the disk. -/
def Live (fs : FileSystem) (f : Handle) : Prop :=
  ∃ t ∈ (directoryOf fs.disk).headers, f.sector = (t : ℤ) ∧ f.file.hdr = headerAt fs.disk t

structure Inv (s : Session) : Prop where
  sound : s.fs.Sound
  live : ∀ id f, s.handle id = some f → f.removed = false → Live s.fs f

theorem handle_set (s : Session) (id : ℕ) (o : Option Handle) (k : ℕ) :
    handle { s with handles := s.handles.set id o } k =
      if id = k then (if id < s.handles.length then o else none) else s.handle k := by
  simp only [handle, List.getElem?_set]
  split_ifs <;> rfl

theorem lt_of_handle {id : ℕ} {f : Handle} (h : s.handle id = some f) : id < s.handles.length := by
  by_contra hge
  rw [handle, List.getElem?_eq_none (not_lt.mp hge)] at h
  cases h

theorem handle_setFile {id k : ℕ} {f : Handle} (h : s.handle id = some f) (file : OpenFile) :
    (s.setFile id f file).handle k =
      if id = k then some { f with file := file } else s.handle k := by
  rw [setFile, handle_set, if_pos (lt_of_handle h)]

theorem Inv.setFile (h : s.Inv) {id : ℕ} {f : Handle} (hf : s.handle id = some f) {file : OpenFile}
    (hhdr : file.hdr = f.file.hdr) : (s.setFile id f file).Inv := by
  refine ⟨h.sound, fun k g hg hlive => ?_⟩
  rw [handle_setFile hf] at hg
  split_ifs at hg with hk
  · obtain rfl := Option.some.inj hg
    obtain ⟨t, ht, hs, hh⟩ := h.live id f hf hlive
    exact ⟨t, ht, hs, hhdr.trans hh⟩
  · exact h.live k g hg hlive

theorem Inv.setDisk (h : s.Inv) {d' : Disk} (hs : FileSystem.Sound { s.fs with disk := d' })
    (hheaders : ∀ t ∈ (directoryOf s.fs.disk).headers, t ∈ (directoryOf d').headers)
    (hhdr : ∀ t ∈ (directoryOf s.fs.disk).headers, headerAt d' t = headerAt s.fs.disk t) :
    Inv { s with fs := { s.fs with disk := d' } } := by
  refine ⟨hs, fun id f hf hlive => ?_⟩
  obtain ⟨t, ht, hsec, hh⟩ := h.live id f hf hlive
  exact ⟨t, hheaders t ht, hsec, hh.trans (hhdr t ht).symm⟩

def Touches (s : Session) (e : Event) (t : ℕ) : Prop :=
  ∃ r, s.writeRequest e = some r ∧ r.1.sector = (t : ℤ)

def Removes (s : Session) (junk : ℕ → Buffer) (e : Event) (t : ℕ) : Prop :=
  ∃ name, e = .remove name ∧ s.fs.lookup junk name = .ok (t : ℤ)

/-- What a step leaves of the disk: the invariant, the files that it does not remove, their
headers, and the sectors of the files that it does not write to. -/
structure Keeps (s : Session) (junk : ℕ → Buffer) (e : Event) (s' : Session) : Prop where
  inv : s'.Inv
  headers : ∀ t ∈ (directoryOf s.fs.disk).headers, ¬s.Removes junk e t →
    t ∈ (directoryOf s'.fs.disk).headers
  header : ∀ t ∈ (directoryOf s.fs.disk).headers, headerAt s'.fs.disk t = headerAt s.fs.disk t
  sectors : ∀ t ∈ (directoryOf s.fs.disk).headers, ¬s.Touches e t →
    ∀ x ∈ ownSectors (headerAt s.fs.disk) t, s'.fs.disk x = s.fs.disk x

theorem Keeps.of_fs (h : s'.Inv) (hfs : s'.fs = s.fs) : s.Keeps junk e s' := by
  refine ⟨h, fun t ht _ => ?_, fun t _ => ?_, fun t _ _ x _ => ?_⟩
  · rw [hfs]
    exact ht
  · rw [hfs]
  · rw [hfs]

theorem Inv.create (h : s.Inv) {name : CString} {size : Word} (hsize : size.toInt ≤ maxFileSize)
    (hstep : s.step junk (.create name size) = some s') : s.Keeps junk (.create name size) s' := by
  obtain hno | ⟨d', e, hyes, hs, hperm, -, -, -, hrest⟩ :=
    h.sound.create_cases junk name (BitVec.le_toInt size) hsize
  · simp only [step, hno] at hstep
    obtain rfl := Option.some.inj hstep
    exact Keeps.of_fs h rfl
  · simp only [step, hyes] at hstep
    obtain rfl := Option.some.inj hstep
    have hkeep : ∀ t ∈ (directoryOf s.fs.disk).headers,
        ∀ x ∈ ownSectors (headerAt s.fs.disk) t, d' x = s.fs.disk x := by
      intro t ht x hx
      refine hrest x (mem_used_of_own (List.mem_cons_of_mem _ (List.mem_cons_of_mem _ ht)) hx) ?_
      exact (FileSystem.files_apart h.sound.marks.nodup ht hx).2.2
    have hheaders : ∀ t ∈ (directoryOf s.fs.disk).headers, t ∈ (directoryOf d').headers :=
      fun t ht => (hperm.map _).mem_iff.mpr (List.mem_cons_of_mem _ ht)
    have hheader : ∀ t ∈ (directoryOf s.fs.disk).headers, headerAt d' t = headerAt s.fs.disk t :=
      fun t ht => headerAt_congr (hkeep t ht t (List.mem_cons_self ..))
    exact ⟨h.setDisk hs hheaders hheader, fun t ht _ => hheaders t ht, hheader,
      fun t ht _ => hkeep t ht⟩

theorem handle_forget (s : Session) (sector : ℤ) (id : ℕ) :
    (s.forget sector).handle id = (s.handle id).map fun f =>
      if f.sector = sector then { f with removed := true } else f := by
  simp only [handle, forget, List.getElem?_map]
  cases s.handles[id]? with
  | none => rfl
  | some o => cases o <;> rfl

theorem Inv.remove (h : s.Inv) {name : CString} (hstep : s.step junk (.remove name) = some s') :
    s.Keeps junk (.remove name) s' := by
  obtain ⟨hno, hlook⟩ | ⟨d', e, hyes, hlook, hs, hperm, hrest⟩ := h.sound.remove_cases junk name
  · simp only [step, hno, hlook] at hstep
    obtain rfl := Option.some.inj hstep
    exact Keeps.of_fs h rfl
  · simp only [step, hyes, hlook] at hstep
    have hs' : s' = ({ s with fs := { s.fs with disk := d' } } : Session).forget e.sector.toInt :=
      (Option.some.inj hstep).symm
    subst hs'
    have he : e ∈ (directoryOf s.fs.disk).files := hperm.mem_iff.mpr (List.mem_cons_self ..)
    obtain ⟨-, hint, -⟩ := h.sound.sector_toInt he
    have hkeep : ∀ t ∈ (directoryOf s.fs.disk).headers,
        ∀ x ∈ ownSectors (headerAt s.fs.disk) t, d' x = s.fs.disk x := fun t ht x hx =>
      hrest x (FileSystem.files_apart h.sound.marks.nodup ht hx).2.2
    have hheaders : ∀ t ∈ (directoryOf s.fs.disk).headers, t ≠ e.sector.toNat →
        t ∈ (directoryOf d').headers := fun t ht hne =>
      (List.mem_cons.mp ((hperm.map _).mem_iff.mp ht)).resolve_left hne
    have hheader : ∀ t ∈ (directoryOf s.fs.disk).headers, headerAt d' t = headerAt s.fs.disk t :=
      fun t ht => headerAt_congr (hkeep t ht t (List.mem_cons_self ..))
    refine ⟨⟨hs, fun id f hf hlive => ?_⟩, fun t ht hn => hheaders t ht ?_, hheader,
      fun t ht _ => hkeep t ht⟩
    · rw [handle_forget, Option.map_eq_some_iff] at hf
      obtain ⟨g, hg, rfl⟩ := hf
      split_ifs at hlive ⊢ with hsec
      obtain ⟨t, ht, hgt, hh⟩ := h.live id g hg hlive
      refine ⟨t, hheaders t ht fun heq => hsec ?_, hgt, hh.trans ?_⟩
      · rw [hgt, hint, heq]
      · exact (hheader t ht).symm
    · rintro rfl
      exact hn ⟨name, rfl, by rw [hlook, hint]⟩

theorem Inv.writeDisk (h : s.Inv) {id : ℕ} {f : Handle} {src : Buffer} {n pos r : ℤ} {d' : Disk}
    (hf : s.handle id = some f) (hlive : f.removed = false)
    (hrange : 0 < n → pos < f.file.hdr.numBytes → 0 ≤ pos ∧ pos + n < 2 ^ 31)
    (hreq : s.writeRequest e = some (f, n, pos))
    (hrun : f.file.hdr.writeAt s.fs.disk (junk 0) src n pos = .ok (r, d')) :
    s.Keeps junk e { s with fs := { s.fs with disk := d' } } := by
  obtain ⟨t, ht, hsec, hh⟩ := h.live id f hf hlive
  rw [hh] at hrange hrun
  obtain ⟨hrest, -⟩ := FileHeader.writeAt_effect (h.sound.wf t ht) (h.sound.nodup_fileSectors ht)
    hrange hrun
  obtain ⟨hs, hdir, hhdr⟩ := h.sound.writeFile ht hrest
  have hheaders : ∀ u ∈ (directoryOf s.fs.disk).headers, u ∈ (directoryOf d').headers := by
    rw [hdir]
    exact fun u hu => hu
  refine ⟨h.setDisk hs hheaders hhdr, fun u hu _ => hheaders u hu, hhdr,
    fun u hu hn x hx => hrest x ?_⟩
  intro hx'
  have hut : u ≠ t := by
    rintro rfl
    exact hn ⟨_, hreq, hsec⟩
  exact own_disjoint h.sound.marks.nodup (List.mem_cons_of_mem _ (List.mem_cons_of_mem _ hu))
    (List.mem_cons_of_mem _ (List.mem_cons_of_mem _ ht)) hut hx (List.mem_cons_of_mem _ hx')

theorem Inv.openFile (h : s.Inv) {name : CString} (hstep : s.step junk (.openFile name) = some s') :
    s'.Inv ∧ s'.fs = s.fs := by
  obtain ⟨-, hlook, hopen⟩ | ⟨e, he, -, hlook, hopen⟩ := h.sound.openFile_cases junk name
  · simp only [step, hlook, hopen] at hstep
    obtain rfl := Option.some.inj hstep
    refine ⟨⟨h.sound, fun id f hf hlive => h.live id f ?_ hlive⟩, rfl⟩
    simp only [handle, List.getElem?_append] at hf ⊢
    split_ifs at hf with hlt
    · exact hf
    · rw [List.getElem?_singleton] at hf
      split_ifs at hf <;> cases hf
  · obtain ⟨hmem, -, -⟩ := h.sound.sector_toInt he
    simp only [step, hlook, hopen] at hstep
    obtain rfl := Option.some.inj hstep
    refine ⟨⟨h.sound, fun id f hf hlive => ?_⟩, rfl⟩
    simp only [handle, List.getElem?_append] at hf
    split_ifs at hf with hlt'
    · exact h.live id f hf hlive
    · rw [List.getElem?_singleton] at hf
      split_ifs at hf
      · obtain rfl := Option.some.inj hf
        exact ⟨_, hmem, rfl, rfl⟩
      · cases hf

theorem Inv.step (h : s.Inv) (hp : s.Proper e) (hr : s.InRange e)
    (hstep : s.step junk e = some s') :
    s.Keeps junk e s' := by
  cases e with
  | create name size => exact h.create hp.1 hstep
  | openFile name =>
    obtain ⟨hi, hfs⟩ := h.openFile hstep
    exact Keeps.of_fs hi hfs
  | remove name => exact h.remove hstep
  | seek id position =>
    obtain ⟨f, hf, hstep⟩ := Option.bind_eq_some_iff.mp hstep
    obtain rfl := Option.some.inj hstep
    exact Keeps.of_fs (h.setFile hf rfl) rfl
  | readAt id into numBytes position =>
    obtain ⟨f, hf, hstep⟩ := Option.bind_eq_some_iff.mp hstep
    obtain ⟨r, -, hstep⟩ := Option.bind_eq_some_iff.mp hstep
    obtain rfl := Option.some.inj hstep
    exact Keeps.of_fs h rfl
  | writeAt id src numBytes position =>
    obtain ⟨f, hf, hstep⟩ := Option.bind_eq_some_iff.mp hstep
    obtain ⟨⟨r, d'⟩, hrun, hstep⟩ := Option.bind_eq_some_iff.mp hstep
    obtain rfl := Option.some.inj hstep
    have hreq : s.writeRequest (.writeAt id src numBytes position) =
        some (f, numBytes.toInt, position.toInt) := by rw [writeRequest, hf]; rfl
    exact h.writeDisk hf (hp.2 _ hreq) (hr _ hreq) hreq (toOption_eq_some hrun)
  | read id into numBytes =>
    obtain ⟨f, hf, hstep⟩ := Option.bind_eq_some_iff.mp hstep
    obtain ⟨⟨r, b, file⟩, hrun, hstep⟩ := Option.bind_eq_some_iff.mp hstep
    obtain rfl := Option.some.inj hstep
    obtain ⟨⟨r', b'⟩, -, hfile⟩ := except_bind_eq_ok (toOption_eq_some hrun)
    obtain ⟨-, -, rfl⟩ := by simpa using Except.ok.inj hfile
    exact Keeps.of_fs (h.setFile hf rfl) rfl
  | write id src numBytes =>
    obtain ⟨f, hf, hstep⟩ := Option.bind_eq_some_iff.mp hstep
    obtain ⟨⟨r, d', file⟩, hrun, hstep⟩ := Option.bind_eq_some_iff.mp hstep
    obtain rfl := Option.some.inj hstep
    obtain ⟨⟨r', d''⟩, hrun', hfile⟩ := except_bind_eq_ok (toOption_eq_some hrun)
    obtain ⟨-, rfl, rfl⟩ := by simpa using Except.ok.inj hfile
    have hreq : s.writeRequest (.write id src numBytes) =
        some (f, numBytes.toInt, f.file.seekPosition.toInt) := by rw [writeRequest, hf]; rfl
    obtain ⟨hi, hheaders, hheader, hsectors⟩ := h.writeDisk hf (hp.2 _ hreq) (hr _ hreq) hreq hrun'
    exact ⟨hi.setFile hf rfl, hheaders, hheader, hsectors⟩
  | close id =>
    obtain ⟨f, hf, hstep⟩ := Option.bind_eq_some_iff.mp hstep
    obtain rfl := Option.some.inj hstep
    refine Keeps.of_fs ⟨h.sound, fun k g hg hlive => ?_⟩ rfl
    rw [handle_set] at hg
    split_ifs at hg
    exact h.live k g hg hlive

theorem inv_init (h : s.Init) : s.Inv := by
  obtain ⟨hh, d, junk, hformat⟩ := h
  obtain ⟨fs, hformat', hsound, -⟩ := FileSystem.format_ok d junk
  rw [hformat] at hformat'
  obtain rfl := Except.ok.inj hformat'
  refine ⟨hsound, fun id f hf _ => ?_⟩
  rw [handle, hh] at hf
  cases hf

theorem inv_reachable (h : Reachable Init StepInRange s) : s.Inv := by
  refine h.invariant (fun _ => inv_init) fun s s' hi hstep => ?_
  obtain ⟨junk, e, hp, hr, hstep⟩ := hstep
  exact (hi.step hp hr hstep).inv

/-- In every run whose writes are in range the disk is consistent, and no `ASSERT` of
`Remove` fires. -/
theorem disk_consistent (h : Reachable Init StepInRange s) :
    Consistent s.fs.disk ∧ ∀ junk name, ∃ r, s.fs.remove junk name = .ok r := by
  have hi := inv_reachable h
  refine ⟨hi.sound.consistent, fun junk name => ?_⟩
  obtain ⟨hno, -⟩ | ⟨d', e, hyes, -⟩ := hi.sound.remove_cases junk name
  · exact ⟨_, hno⟩
  · exact ⟨_, hyes⟩

def blank : Session :=
  ⟨((FileSystem.format (fun _ _ => 0) fun _ _ => 0).toOption.getD ⟨fun _ _ => 0, ⟨⟨fun _ => 0⟩, 0⟩,
    ⟨⟨fun _ => 0⟩, 0⟩⟩), []⟩

theorem init_blank : blank.Init := by
  obtain ⟨fs, hformat, -⟩ := FileSystem.format_ok (fun _ _ => 0) fun _ _ => 0
  refine ⟨rfl, fun _ _ => 0, fun _ _ => 0, ?_⟩
  rw [blank, hformat]
  rfl

/-- A run with memory that is zero, for as long as its steps meet the condition. -/
def runWhile (p : Session → Event → Bool) (s : Session) (evs : List Event) : Option Session :=
  evs.foldlM (fun s e => if p s e then s.step (fun _ _ => 0) e else none) s

theorem runWhile_reachable {p : Session → Event → Bool} {Q : Session → Session → Prop}
    {evs : List Event} (hq : ∀ s e s', p s e = true → s.step (fun _ _ => 0) e = some s' → Q s s')
    (h : blank.runWhile p evs = some s) : Reachable Init Q s := by
  refine Reachable.of_foldlM (fun s e s' hstep => ?_) (.init init_blank) h
  split_ifs at hstep with hp
  exact hq s e s' hp hstep

def fileA : CString := fun i => if i = 0 then 97 else 0

def wrongHeader : Buffer := fun j => if j = 4 then 1 else 0

theorem oneFile_run : ∃ s f, blank.runWhile (fun s e => s.Proper e && s.InRange e)
    [.create fileA 128, .openFile fileA] = some s ∧ s.handle 0 = some f ∧ f.removed = false ∧
      f.file.hdr.numBytes = 128 := by
  have hrun : (blank.runWhile (fun s e => s.Proper e && s.InRange e)
      [.create fileA 128, .openFile fileA]).any (fun s : Session =>
        (s.handle 0).any fun f : Handle => !f.removed && decide (f.file.hdr.numBytes = 128)) =
      true := by
    unfold runWhile step FileSystem.create FileSystem.allocateFile blank FileSystem.format
    simp only [FileHeader.allocate_eq]
    decide +kernel
  obtain ⟨s, hs, hh⟩ := (Option.any_eq_true _ _).mp hrun
  obtain ⟨f, hf, hlive⟩ := (Option.any_eq_true _ _).mp hh
  rw [Bool.and_eq_true, Bool.not_eq_true', decide_eq_true_eq] at hlive
  exact ⟨s, f, hs, hf, hlive⟩

theorem runWhile_inRange {evs : List Event}
    (h : blank.runWhile (fun s e => s.Proper e && s.InRange e) evs = some s) :
    Reachable Init StepInRange s := by
  refine runWhile_reachable (fun s e s' hp hstep => ?_) h
  simp only [Bool.and_eq_true, decide_eq_true_eq] at hp
  exact ⟨_, e, hp.1, hp.2, hstep⟩

theorem oneFile_consistent : ∃ s f, Reachable Init StepInRange s ∧ s.handle 0 = some f ∧
    Consistent s.fs.disk ∧ ∃ r, s.fs.remove (fun _ _ => 0) fileA = .ok r := by
  obtain ⟨s, f, hs, hf, -⟩ := oneFile_run
  have hr := runWhile_inRange hs
  exact ⟨s, f, hr, hf, (disk_consistent hr).1, (disk_consistent hr).2 _ _⟩

/-- `WriteAt` with position -128 overwrites the header of the directory. -/
theorem negativePosition_inconsistent : ∃ s, blank.runWhile (fun s e => s.Proper e)
    [.create fileA 128, .openFile fileA, .writeAt 0 wrongHeader 128 (-128)] = some s ∧
      Reachable Init Step s ∧ ¬Consistent s.fs.disk := by
  have hrun : (blank.runWhile (fun s e => s.Proper e)
      [.create fileA 128, .openFile fileA, .writeAt 0 wrongHeader 128 (-128)]).any
        (fun s : Session =>
        (headerAt s.fs.disk directorySector).fileSectors == [0]) = true := by
    unfold runWhile step FileSystem.create FileSystem.allocateFile blank FileSystem.format
    simp only [FileHeader.allocate_eq]
    decide +kernel
  obtain ⟨s, hs, hsectors⟩ := (Option.any_eq_true _ _).mp hrun
  refine ⟨s, hs, runWhile_reachable (fun s e s' hp hstep => ⟨_, e, by simpa using hp, hstep⟩) hs,
    ?_⟩
  intro hc
  have hmem : freeMapSector ∈ ownSectors (headerAt s.fs.disk) directorySector := by
    rw [ownSectors, beq_iff_eq.mp hsectors]
    decide
  have hdir : directorySector ∈ freeMapSector :: directorySector ::
      (directoryOf s.fs.disk).headers := by
    simp
  exact own_disjoint hc.distinct List.mem_cons_self hdir (by decide) List.mem_cons_self hmem

end Session

end Nachos
