import Nachos.FlatFiles

/-! Sessions on the file system are runs of the store. A program keeps to sizes within the limit,
open handles, files that are still there and requests that the check of a request handles; then
every call returns, with the answer of the store, from the formatted disk on and through reboots
(`FileSystem(false)`). -/
namespace Nachos

open ByteBuffer Directory FlatStore

namespace FileHeader

variable {h : FileHeader} {d : Disk}

theorem transferred_eq_within (h0 : 0 ≤ h.numBytes) (numBytes position : ℤ) :
    h.transferred numBytes position = within (h.contents d).length numBytes position := by
  rw [length_contents, transferred, within, Int.toNat_of_nonneg h0]

theorem slice_contents {numBytes : ℤ} {position : ℕ} :
    slice (h.contents d) numBytes position =
      (List.range (within (h.contents d).length numBytes position).toNat).map fun j =>
        h.fileByte d (position + j) := by
  refine List.ext_getElem ?_ fun j h1 h2 => ?_
  · simp only [slice, within, List.length_take, List.length_drop, List.length_map,
      List.length_range, Int.toNat_natCast]
    omega
  · simp only [slice, List.getElem_take, List.getElem_drop, getElem_contents, List.getElem_map,
      List.getElem_range, Int.toNat_natCast]

end FileHeader

namespace OpenFile

variable {f : OpenFile} {d : Disk} {numBytes position : Word}

theorem within_of_empty (length : ℕ) {n p : ℤ} (h : n ≤ 0 ∨ length ≤ p) :
    within length n p = 0 := by
  unfold within
  omega

theorem readAt_slice (hw : f.hdr.Wf) (h0 : 0 ≤ f.hdr.numBytes)
    (hc : Checked f.hdr numBytes position) (into : Buffer) :
    ∃ b, f.readAt d into numBytes position =
        .ok (within (f.hdr.contents d).length numBytes.toInt position.toInt, b) ∧
      (List.range (within (f.hdr.contents d).length numBytes.toInt position.toInt).toNat).map b =
        slice (f.hdr.contents d) numBytes.toInt position.toInt := by
  have hlen : ((f.hdr.contents d).length : ℤ) = f.hdr.numBytes := by
    rw [FileHeader.length_contents, Int.toNat_of_nonneg h0]
  by_cases he : numBytes.toInt ≤ 0 ∨ f.hdr.numBytes ≤ position.toInt
  · have hzero := within_of_empty (f.hdr.contents d).length (hlen ▸ he)
    refine ⟨into, ?_, ?_⟩
    · rw [readAt, FileHeader.readAt, if_pos he, hzero]
      rfl
    · rw [slice, hzero]
      rfl
  · obtain ⟨hn, hp⟩ := not_or.mp he
    have ho : Ordinary numBytes position := (hc.resolve_left hn).resolve_left hp
    have hread := readAt_exact (d := d) hw ho into
    rw [FileHeader.transferred_eq_within (d := d) h0] at hread
    refine ⟨_, hread, ?_⟩
    rw [ho.position_eq, FileHeader.slice_contents]
    refine List.map_congr_left fun j hj => ?_
    have hlt := List.mem_range.mp hj
    rw [overlay_in (Nat.zero_le j) (by omega), Nat.sub_zero]

theorem writeAt_splice (hw : f.hdr.Wf) (hd : f.hdr.Distinct) (h0 : 0 ≤ f.hdr.numBytes)
    (hc : Checked f.hdr numBytes position) (junk src : Buffer) :
    ∃ d', f.writeAt d junk src numBytes position =
        .ok (within (f.hdr.contents d).length numBytes.toInt position.toInt, d') ∧
      f.hdr.contents d' = splice (f.hdr.contents d) src numBytes.toInt position.toInt ∧
      ∀ s, s ∉ f.hdr.fileSectors → d' s = d s := by
  have hlen : ((f.hdr.contents d).length : ℤ) = f.hdr.numBytes := by
    rw [FileHeader.length_contents, Int.toNat_of_nonneg h0]
  by_cases he : numBytes.toInt ≤ 0 ∨ f.hdr.numBytes ≤ position.toInt
  · have hzero := within_of_empty (f.hdr.contents d).length (hlen ▸ he)
    refine ⟨d, ?_, ?_, fun s _ => rfl⟩
    · rw [writeAt, FileHeader.writeAt, if_pos he, hzero]
      rfl
    · refine List.ext_getElem (by simp) fun x h1 h2 => ?_
      simp only [splice, List.getElem_mapIdx, hzero]
      rw [if_neg (by omega)]
  · obtain ⟨hn, hp⟩ := not_or.mp he
    have ho : Ordinary numBytes position := (hc.resolve_left hn).resolve_left hp
    obtain ⟨d', hwrite, hbytes, hrest⟩ := writeAt_exact (d := d) hw hd ho junk src
    rw [FileHeader.transferred_eq_within (d := d) h0] at hwrite hbytes
    refine ⟨d', hwrite, ?_, hrest⟩
    refine List.ext_getElem (by simp) fun x h1 h2 => ?_
    rw [FileHeader.length_contents] at h1
    simp only [splice, List.getElem_mapIdx, FileHeader.getElem_contents]
    rw [hbytes x h1, ho.position_eq]
    split_ifs with hin
    · congr 1
      omega
    · rfl

theorem position_add (hc : Checked f.hdr numBytes position) (h0 : 0 ≤ f.hdr.numBytes) :
    (position + BitVec.ofInt 32
      (within (f.hdr.contents d).length numBytes.toInt position.toInt)).toInt =
      position.toInt + within (f.hdr.contents d).length numBytes.toInt position.toInt := by
  have hlen : ((f.hdr.contents d).length : ℤ) = f.hdr.numBytes := by
    rw [FileHeader.length_contents, Int.toNat_of_nonneg h0]
  by_cases he : numBytes.toInt ≤ 0 ∨ f.hdr.numBytes ≤ position.toInt
  · rw [within_of_empty _ (hlen ▸ he)]
    simp
  · obtain ⟨hn, hp⟩ := not_or.mp he
    obtain ⟨h1, h2⟩ := (hc.resolve_left hn).resolve_left hp
    have hk : 0 ≤ within (f.hdr.contents d).length numBytes.toInt position.toInt ∧
        within (f.hdr.contents d).length numBytes.toInt position.toInt ≤ numBytes.toInt := by
      unfold within
      omega
    have hp' := BitVec.toInt_lt (x := position)
    generalize within (f.hdr.contents d).length numBytes.toInt position.toInt = k at *
    rw [BitVec.toInt_add, BitVec.toInt_ofInt]
    simp only [Int.bmod_def]
    omega

end OpenFile

/-- The constructor, with `format` false. -/
def FileSystem.mount (d : Disk) : Except Trap FileSystem := do
  let freeMapFile ← OpenFile.new d freeMapSector
  let directoryFile ← OpenFile.new d directorySector
  return ⟨d, freeMapFile, directoryFile⟩

theorem FileSystem.format_numSectors {d : Disk} {junk : ℕ → Buffer} {fs : FileSystem}
    (h : FileSystem.format d junk = .ok fs) :
    fs.freeMapFile.hdr.numSectors = 1 ∧ fs.directoryFile.hdr.numSectors = 2 := by
  have hcount : ∀ {hdr hdr' : FileHeader} {m m' : BitMap numSectorsOnDisk} {size : ℕ},
      size ≤ maxFileSize → hdr.allocate m size = .ok (true, hdr', m') →
      hdr'.numSectors = divRoundUpInt size sectorSize := by
    intro hdr hdr' m m' size hsize hrun
    obtain ⟨_, hno, -⟩ | ⟨_, _, hyes, -, hns, -⟩ :=
      @FileHeader.allocate_ok hdr m size (by omega)
        (by exact_mod_cast hsize)
    · rw [hno] at hrun
      cases hrun
    · rw [hyes] at hrun
      obtain ⟨-, hpair⟩ := Prod.mk.inj (Except.ok.inj hrun)
      rw [← (Prod.mk.inj hpair).1, hns]
  rw [FileSystem.format] at h
  obtain ⟨m₀, -, h⟩ := except_bind_eq_ok h
  obtain ⟨m₁, -, h⟩ := except_bind_eq_ok h
  obtain ⟨⟨ok, mapHdr, m₂⟩, hmap, h⟩ := except_bind_eq_ok h
  cases ok with
  | false => cases h
  | true =>
  obtain ⟨⟨ok, dirHdr, m₃⟩, hdir, h⟩ := except_bind_eq_ok h
  cases ok with
  | false => cases h
  | true =>
  obtain ⟨d₁, h₁, h⟩ := except_bind_eq_ok h
  obtain ⟨d₂, h₂, h⟩ := except_bind_eq_ok h
  obtain ⟨mapFile, h₃, h⟩ := except_bind_eq_ok h
  obtain ⟨dirFile, h₄, h⟩ := except_bind_eq_ok h
  obtain ⟨d₃, -, h⟩ := except_bind_eq_ok h
  obtain ⟨d₄, -, h⟩ := except_bind_eq_ok h
  obtain rfl := Except.ok.inj h
  have hopen : ∀ {d : Disk} {u : ℕ} {file : OpenFile}, u < numSectorsOnDisk →
      OpenFile.new d u = .ok file → file.hdr = FileHeader.ofBuffer (d u) := by
    intro d u file hu hrun
    simp only [OpenFile.new, FileHeader.fetchFrom, Disk.readSector_ok hu, bind, Except.bind] at hrun
    rw [← Except.ok.inj hrun]
  rw [FileHeader.writeBack, Disk.writeSector_ok _ (by norm_num)] at h₁ h₂
  obtain rfl := Except.ok.inj h₁
  obtain rfl := Except.ok.inj h₂
  have hm := hcount (by decide) hmap
  have hd := hcount (by decide) hdir
  constructor
  · rw [hopen (by norm_num) h₃, Function.update_of_ne (by decide), Function.update_self,
      FileHeader.ofBuffer_toBuffer, hm]
    decide
  · rw [hopen (by norm_num) h₄, Function.update_self, FileHeader.ofBuffer_toBuffer, hd]
    decide

namespace Session

inductive Call
  | event (e : Event)
  | reboot

def Event.request : Event → Request Key Byte
  | .create name size => .create (key name) size.toInt.toNat
  | .openFile name => .openFile (key name)
  | .remove name => .remove (key name)
  | .seek id position => .seek id position.toInt
  | .readAt id _ numBytes position => .readAt id numBytes.toInt position.toInt
  | .writeAt id src numBytes position => .writeAt id src numBytes.toInt position.toInt
  | .read id _ numBytes => .read id numBytes.toInt
  | .write id src numBytes => .write id src numBytes.toInt
  | .close id => .close id

def Call.request : Call → Request Key Byte
  | .event e => e.request
  | .reboot => .reboot

def answer (s : Session) (junk : ℕ → Buffer) : Event → Option (Answer Byte)
  | .create name initialSize => do
    let (ok, _) ← (s.fs.create junk name initialSize.toInt).toOption
    return .result ok
  | .openFile name => do
    let file ← (s.fs.openFile junk name).toOption
    return .result file.isSome
  | .remove name => do
    let (ok, _) ← (s.fs.remove junk name).toOption
    return .result ok
  | .seek id _ | .close id => do
    let _ ← s.handle id
    return .done
  | .readAt id into numBytes position => do
    let f ← s.handle id
    let (n, b) ← (f.file.readAt s.fs.disk into numBytes position).toOption
    return .data n ((List.range n.toNat).map b)
  | .writeAt id src numBytes position => do
    let f ← s.handle id
    let (n, _) ← (f.file.writeAt s.fs.disk (junk 0) src numBytes position).toOption
    return .count n
  | .read id into numBytes => do
    let f ← s.handle id
    let (n, b, _) ← (f.file.read s.fs.disk into numBytes).toOption
    return .data n ((List.range n.toNat).map b)
  | .write id src numBytes => do
    let f ← s.handle id
    let (n, _, _) ← (f.file.write s.fs.disk (junk 0) src numBytes).toOption
    return .count n

/-- A step with its answer, or the machine is started again on the disk. -/
def call (s : Session) (junk : ℕ → Buffer) : Call → Option (Session × Answer Byte)
  | .event e => do
    let a ← s.answer junk e
    let s ← s.step junk e
    return (s, a)
  | .reboot => do
    let fs ← (FileSystem.mount s.fs.disk).toOption
    return (⟨fs, []⟩, .done)

def Event.handleId : Event → Option ℕ
  | .seek id _ | .readAt id _ _ _ | .writeAt id _ _ _ | .read id _ _ | .write id _ _ | .close id =>
    some id
  | _ => none

def transfer (s : Session) : Event → Option (Handle × Word × Word)
  | .readAt id _ numBytes position | .writeAt id _ numBytes position =>
    (s.handle id).map fun f => (f, numBytes, position)
  | .read id _ numBytes | .write id _ numBytes =>
    (s.handle id).map fun f => (f, numBytes, f.file.seekPosition)
  | _ => none

/-- Sizes within the limit, handles that are open, transfers to files that are still there, and
requests that the check of a request handles. -/
structure Permits (s : Session) (e : Event) : Prop where
  size : 0 ≤ e.createSize ∧ e.createSize ≤ maxFileSize
  opened : ∀ id ∈ e.handleId, (s.handle id).isSome
  live : ∀ r ∈ s.transfer e, r.1.removed = false
  checked : ∀ r ∈ s.transfer e, OpenFile.Checked r.1.file.hdr r.2.1 r.2.2

def Allows (s : Session) : Call → Prop
  | .event e => s.Permits e
  | .reboot => True

def Called (s : Session) (l : Request Key Byte × Answer Byte) (s' : Session) : Prop :=
  ∃ c junk, s.Allows c ∧ s.call junk c = some (s', l.2) ∧ l.1 = c.request

inductive HandleShown (dir : Directory) : Option Handle → FlatStore.Handle Key → Prop
  | closed : HandleShown dir none .closed
  | stale {f : Handle} (hf : f.removed = true) : HandleShown dir (some f) .stale
  | on {f : Handle} {e : DirectoryEntry} (hf : f.removed = false) (he : e ∈ dir.files)
      (hs : f.sector = (e.sector.toNat : ℤ)) :
      HandleShown dir (some f) (.on (key e.nameString) f.file.seekPosition.toInt)

/-- The session shows the store. -/
structure Shows (s : Session) (t : Store Key Byte) : Prop where
  inv : s.Inv
  tight : Tight s.fs.disk
  files : t.files = filesOf s.fs.disk
  handles : List.Forall₂ (HandleShown (directoryOf s.fs.disk)) s.handles t.handles

variable {s s' : Session} {t : Store Key Byte} {junk : ℕ → Buffer} {e : Event}

theorem Permits.proper (h : s.Permits e) : s.Proper e := by
  refine ⟨h.size.2, fun r hr => ?_⟩
  cases e with
  | writeAt id src numBytes position | write id src numBytes =>
    obtain ⟨f, hf, rfl⟩ := Option.map_eq_some_iff.mp hr
    exact h.live _ (Option.map_eq_some_iff.mpr ⟨f, hf, rfl⟩)
  | _ => cases hr

theorem Permits.inRange (h : s.Permits e) : s.InRange e := by
  intro r hr hn hp
  cases e with
  | writeAt id src numBytes position | write id src numBytes =>
    obtain ⟨f, hf, rfl⟩ := Option.map_eq_some_iff.mp hr
    have hc := h.checked _ (Option.map_eq_some_iff.mpr ⟨f, hf, rfl⟩)
    exact (hc.resolve_left (not_le.mpr hn)).resolve_left (not_le.mpr hp)
  | _ => cases hr

theorem Shows.handle_some (h : s.Shows t) {id : ℕ} {f : Handle} (hf : s.handle id = some f) :
    HandleShown (directoryOf s.fs.disk) (some f) (t.handle id) := by
  have hget : s.handles[id]? = some (some f) := by
    rw [handle] at hf
    exact Option.join_eq_some_iff.mp hf
  obtain ⟨hlt, hfl⟩ := List.getElem?_eq_some_iff.mp hget
  have hlt' : id < t.handles.length := h.handles.length_eq ▸ hlt
  have hshown := h.handles.get hlt hlt'
  rw [List.get_eq_getElem, List.get_eq_getElem, hfl] at hshown
  rw [Store.handle, List.getElem?_eq_getElem hlt', Option.getD_some]
  exact hshown

theorem Shows.live (h : s.Shows t) {id : ℕ} {f : Handle} (hf : s.handle id = some f)
    (hlive : f.removed = false) :
    ∃ e ∈ (directoryOf s.fs.disk).files, f.sector = (e.sector.toNat : ℤ) ∧
      f.file.hdr = headerAt s.fs.disk e.sector.toNat ∧
      t.handle id = .on (key e.nameString) f.file.seekPosition.toInt ∧
      t.fileAt id = some (key e.nameString, f.file.seekPosition.toInt,
        f.file.hdr.contents s.fs.disk) := by
  have hshown := h.handle_some hf
  obtain ⟨u, hu, hsec, hhdr⟩ := h.inv.live id f hf hlive
  generalize hh : t.handle id = x at hshown
  cases hshown with
  | stale hf' =>
    rw [hlive] at hf'
    cases hf'
  | @on _ e _ he hs =>
    obtain rfl : u = e.sector.toNat := Int.natCast_inj.mp (hsec.symm.trans hs)
    refine ⟨e, he, hs, hhdr, rfl, ?_⟩
    rw [Store.fileAt, hh]
    dsimp only
    rw [h.files, h.inv.sound.lookup_filesOf he, Option.map_some, hhdr, contentsAt]

theorem HandleShown.mono {dir dir' : Directory} {o : Option Handle} {x : FlatStore.Handle Key}
    (h : HandleShown dir o x) (hdir : ∀ e ∈ dir.files, e ∈ dir'.files) : HandleShown dir' o x := by
  cases h with
  | closed => exact .closed
  | stale hf => exact .stale hf
  | on hf he hs => exact .on hf (hdir _ he) hs

/-- The session makes the call, and the store goes with it. -/
def Matched (s : Session) (junk : ℕ → Buffer) (t : Store Key Byte) (c : Call) : Prop :=
  ∃ s' a t', s.call junk c = some (s', a) ∧ Store.Step diskLimits t (c.request, a) t' ∧ s'.Shows t'

theorem Shows.matched (h : s.Shows t) (hp : s.Permits e) (s' : Session) (a : Answer Byte)
    (t' : Store Key Byte) (fresh : List Byte) (ha : s.answer junk e = some a)
    (hs : s.step junk e = some s')
    (hfresh : ∀ key size, e.request = .create key size → fresh.length = size)
    (ht : t.call diskLimits fresh e.request = some (t', a)) (htight : Tight s'.fs.disk)
    (hfiles : t'.files = filesOf s'.fs.disk)
    (hhandles : List.Forall₂ (HandleShown (directoryOf s'.fs.disk)) s'.handles t'.handles) :
    s.Matched junk t (.event e) := by
  refine ⟨s', a, t', ?_, ⟨fresh, hfresh, ht⟩, ?_, htight, hfiles, hhandles⟩
  · rw [call, ha, hs]
    rfl
  · exact (h.inv.step hp.proper hp.inRange hs).inv

theorem Shows.create (h : s.Shows t) {name : CString} {size : Word}
    (hp : s.Permits (.create name size)) : s.Matched junk t (.event (.create name size)) := by
  obtain ⟨files, handles⟩ := t
  obtain rfl : files = filesOf s.fs.disk := h.files
  have h0 : 0 ≤ size.toInt := hp.size.1
  have hroom := h.inv.sound.creatable_iff h.tight name h0 handles
  obtain ⟨hno, hrun⟩ | ⟨d', fresh, hok, hrun, -, htight, hlen, hfiles, hold⟩ :=
    h.inv.sound.create_files h.tight junk name h0 hp.size.2
  · refine h.matched hp s (.result false) _ (List.replicate size.toInt.toNat 0) ?_ ?_ ?_
      (if_neg (mt hroom.mpr hno)) h.tight rfl h.handles
    · simp only [answer, hrun]
      rfl
    · simp only [step, hrun]
      rfl
    · rintro key size' heq
      obtain ⟨-, rfl⟩ := Request.create.inj heq
      exact List.length_replicate
  · refine h.matched hp { s with fs := { s.fs with disk := d' } } (.result true) _ fresh ?_ ?_ ?_
      (if_pos (hroom.mp hok)) htight hfiles.symm ?_
    · simp only [answer, hrun]
      rfl
    · simp only [step, hrun]
      rfl
    · rintro key size' heq
      obtain ⟨-, rfl⟩ := Request.create.inj heq
      exact hlen
    · exact h.handles.imp fun o x ho => ho.mono hold

theorem Shows.openFile (h : s.Shows t) {name : CString} (hp : s.Permits (.openFile name)) :
    s.Matched junk t (.event (.openFile name)) := by
  obtain ⟨files, handles⟩ := t
  obtain rfl : files = filesOf s.fs.disk := h.files
  obtain ⟨hnone, hlook, hopen⟩ | ⟨e, he, hname, hlook, hopen⟩ :=
    h.inv.sound.openFile_cases junk name
  · have hno : key name ∉ filesOf s.fs.disk := by
      rw [FileSystem.mem_filesOf]
      rintro ⟨e, he, hkey⟩
      exact Directory.findIndex_eq_none_iff.mp hnone
        (Directory.mem_toFinmap.mpr ⟨e, he, hkey⟩)
    refine h.matched hp { s with handles := s.handles ++ [none] } (.result false) _ [] ?_ ?_
      (by rintro _ _ ⟨⟩) (if_neg hno) h.tight rfl ?_
    · simp only [answer, hopen]
      rfl
    · simp only [step, hlook, hopen]
      rfl
    · exact List.rel_append h.handles (.cons .closed .nil)
  · have hkey : key e.nameString = key name := (strncmpEq_iff_key _ _).mp hname
    have hyes : key name ∈ filesOf s.fs.disk := FileSystem.mem_filesOf.mpr ⟨e, he, hkey⟩
    refine h.matched hp { s with handles := s.handles ++
      [some ⟨⟨headerAt s.fs.disk e.sector.toNat, 0⟩, e.sector.toNat, false⟩] } (.result true) _ []
      ?_ ?_ (by rintro _ _ ⟨⟩) (if_pos hyes) h.tight rfl ?_
    · simp only [answer, hopen]
      rfl
    · simp only [step, hlook, hopen]
      rfl
    · refine List.rel_append h.handles (.cons ?_ .nil)
      rw [← hkey]
      exact .on rfl he rfl

theorem Shows.remove (h : s.Shows t) {name : CString} (hp : s.Permits (.remove name)) :
    s.Matched junk t (.event (.remove name)) := by
  obtain ⟨files, handles⟩ := t
  obtain rfl : files = filesOf s.fs.disk := h.files
  obtain ⟨hno, hrun, hlook⟩ | ⟨d', e, he, hkey, hrun, hlook, -, htight, hfiles, hold⟩ :=
    h.inv.sound.remove_files h.tight junk name
  · refine h.matched hp s (.result false) _ [] ?_ ?_ (by rintro _ _ ⟨⟩)
      (if_neg hno) h.tight rfl h.handles
    · simp only [answer, hrun]
      rfl
    · simp only [step, hrun, hlook]
      rfl
  · have hyes : key name ∈ filesOf s.fs.disk := FileSystem.mem_filesOf.mpr ⟨e, he, hkey⟩
    refine h.matched hp (({ s with fs := { s.fs with disk := d' } } : Session).forget
      e.sector.toInt) (.result true) _ [] ?_ ?_ (by rintro _ _ ⟨⟩) (if_pos hyes) htight
      hfiles.symm ?_
    · simp only [answer, hrun]
      rfl
    · simp only [step, hrun, hlook]
      rfl
    · refine List.forall₂_map_left_iff.mpr (List.forall₂_map_right_iff.mpr
        (h.handles.imp fun o x ho => ?_))
      cases ho with
      | closed => exact .closed
      | stale hf =>
        refine .stale ?_
        dsimp only
        split_ifs
        · rfl
        · exact hf
      | @on f e' hf he' hs =>
        have hint := (h.inv.sound.sector_toInt he).2.1
        by_cases hsame : key e'.nameString = key name
        · obtain rfl := h.inv.sound.eq_of_key he' he (hsame.trans hkey.symm)
          rw [Store.Handle.forget, if_pos hsame]
          refine .stale ?_
          dsimp only
          rw [if_pos (hs.trans hint.symm)]
        · rw [Store.Handle.forget, if_neg hsame]
          have hne : f.sector ≠ e.sector.toInt := by
            intro heq
            have hsec : e'.sector.toNat = e.sector.toNat := by omega
            rw [h.inv.sound.entry_unique he' he hsec] at hsame
            exact hsame hkey
          change HandleShown (directoryOf d')
            (some (if f.sector = e.sector.toInt then { f with removed := true } else f)) _
          rw [if_neg hne]
          exact .on hf (hold e' he' hsame) hs

theorem Permits.handle (hp : s.Permits e) {id : ℕ} (hid : e.handleId = some id) :
    ∃ f, s.handle id = some f :=
  Option.isSome_iff_exists.mp (hp.opened id hid)

theorem Shows.seek (h : s.Shows t) {id : ℕ} {position : Word} (hp : s.Permits (.seek id position)) :
    s.Matched junk t (.event (.seek id position)) := by
  obtain ⟨f, hf⟩ := hp.handle rfl
  have hshown := h.handle_some hf
  have ha : s.answer junk (.seek id position) = some .done := by
    rw [answer, hf]
    rfl
  have hs : s.step junk (.seek id position) = some (s.setFile id f (f.file.seek position)) := by
    rw [step, hf]
    rfl
  generalize hh : t.handle id = x at hshown
  cases hshown with
  | stale hremoved =>
    refine h.matched hp _ _ t [] ha hs (by rintro _ _ ⟨⟩) ?_ h.tight h.files ?_
    · simp only [Event.request, Store.call, hh]
    · -- the handle of the store is stale already
      have hset : t.handles = t.handles.set id .stale := by
        refine List.ext_getElem? fun k => ?_
        rw [List.getElem?_set]
        split_ifs with hk hlt
        · subst hk
          rw [Store.handle, List.getElem?_eq_getElem hlt, Option.getD_some] at hh
          rw [List.getElem?_eq_getElem hlt, hh]
        · subst hk
          exact List.getElem?_eq_none (not_lt.mp hlt)
        · rfl
      rw [hset]
      exact Simulation.forall₂_set h.handles
        (.stale (f := { f with file := f.file.seek position }) hremoved) id
  | @on _ e _ he hsec =>
    rename_i hlive
    refine h.matched hp _ _ (t.setHandle id (.on (key e.nameString) position.toInt)) [] ha hs
      (by rintro _ _ ⟨⟩) ?_ h.tight h.files ?_
    · simp only [Event.request, Store.call, hh]
    · exact Simulation.forall₂_set h.handles
        (.on (f := { f with file := f.file.seek position }) hlive he hsec) id

theorem Shows.close (h : s.Shows t) {id : ℕ} (hp : s.Permits (.close id)) :
    s.Matched junk t (.event (.close id)) := by
  obtain ⟨f, hf⟩ := hp.handle rfl
  have hshown := h.handle_some hf
  refine h.matched hp { s with handles := s.handles.set id none } .done (t.setHandle id .closed) []
    ?_ ?_ (by rintro _ _ ⟨⟩) ?_ h.tight h.files ?_
  · rw [answer, hf]
    rfl
  · rw [step, hf]
    rfl
  · generalize hh : t.handle id = x at hshown
    cases hshown <;> simp only [Event.request, Store.call, hh]
  · exact Simulation.forall₂_set h.handles .closed id

structure Transfers (s : Session) (t : Store Key Byte) (id : ℕ) (f : Handle) (n p : Word)
    (e : DirectoryEntry) : Prop where
  live : f.removed = false
  entry : e ∈ (directoryOf s.fs.disk).files
  sector : f.sector = (e.sector.toNat : ℤ)
  header : f.file.hdr = headerAt s.fs.disk e.sector.toNat
  wf : f.file.hdr.Wf
  distinct : f.file.hdr.Distinct
  length : 0 ≤ f.file.hdr.numBytes
  checked : OpenFile.Checked f.file.hdr n p
  file : t.fileAt id =
    some (key e.nameString, f.file.seekPosition.toInt, f.file.hdr.contents s.fs.disk)

theorem Shows.transfer_shown (h : s.Shows t) (hp : s.Permits e) {id : ℕ} {f : Handle} {n p : Word}
    (hf : s.handle id = some f) (hreq : s.transfer e = some (f, n, p)) :
    ∃ entry, s.Transfers t id f n p entry := by
  have hlive : f.removed = false := hp.live _ hreq
  obtain ⟨entry, he, hsec, hhdr, -, hfile⟩ := h.live hf hlive
  have hmem := (h.inv.sound.sector_toInt he).1
  have hw : f.file.hdr.Wf := hhdr ▸ h.inv.sound.wf _ hmem
  have hd : f.file.hdr.Distinct :=
    hhdr ▸ FileHeader.nodup_fileSectors.mp (h.inv.sound.nodup_fileSectors hmem)
  exact ⟨entry, hlive, he, hsec, hhdr, hw, hd, hhdr ▸ (h.tight.files _ hmem).1, hp.checked _ hreq,
    hfile⟩

theorem Shows.readAt (h : s.Shows t) {id : ℕ} {into : Buffer} {n p : Word}
    (hp : s.Permits (.readAt id into n p)) :
    s.Matched junk t (.event (.readAt id into n p)) := by
  obtain ⟨f, hf⟩ := hp.handle rfl
  obtain ⟨entry, hx⟩ := h.transfer_shown hp hf (by rw [transfer, hf]; rfl)
  obtain ⟨b, hrun, hbytes⟩ := OpenFile.readAt_slice (d := s.fs.disk) hx.wf hx.length hx.checked into
  refine h.matched hp s (.data (within (f.file.hdr.contents s.fs.disk).length n.toInt p.toInt)
    (slice (f.file.hdr.contents s.fs.disk) n.toInt p.toInt)) t [] ?_ ?_ (by rintro _ _ ⟨⟩) ?_
    h.tight h.files h.handles
  · rw [answer, hf, Option.bind_eq_bind, Option.bind_some, hrun, ← hbytes]
    rfl
  · rw [step, hf, Option.bind_eq_bind, Option.bind_some, hrun]
    rfl
  · rw [Event.request, Store.call, hx.file]
    rfl

theorem Shows.read (h : s.Shows t) {id : ℕ} {into : Buffer} {n : Word}
    (hp : s.Permits (.read id into n)) : s.Matched junk t (.event (.read id into n)) := by
  obtain ⟨f, hf⟩ := hp.handle rfl
  obtain ⟨entry, hx⟩ := h.transfer_shown hp hf (by rw [transfer, hf]; rfl)
  obtain ⟨b, hrun, hbytes⟩ := OpenFile.readAt_slice (d := s.fs.disk) hx.wf hx.length hx.checked into
  generalize hk : within (f.file.hdr.contents s.fs.disk).length n.toInt
    f.file.seekPosition.toInt = k at hrun hbytes
  have hpos : (f.file.seekPosition + BitVec.ofInt 32 k).toInt = f.file.seekPosition.toInt + k := by
    rw [← hk]
    exact OpenFile.position_add hx.checked hx.length
  have hread : f.file.read s.fs.disk into n =
      .ok (k, b, f.file.seek (f.file.seekPosition + BitVec.ofInt 32 k)) := by
    rw [OpenFile.read, hrun]
    rfl
  refine h.matched hp (s.setFile id f (f.file.seek (f.file.seekPosition + BitVec.ofInt 32 k)))
    (.data k (slice (f.file.hdr.contents s.fs.disk) n.toInt f.file.seekPosition.toInt))
    (t.setHandle id (.on (key entry.nameString) (f.file.seekPosition + BitVec.ofInt 32 k).toInt))
    [] ?_ ?_ (by rintro _ _ ⟨⟩) ?_ h.tight h.files ?_
  · rw [answer, hf, Option.bind_eq_bind, Option.bind_some, hread, ← hbytes]
    rfl
  · rw [step, hf, Option.bind_eq_bind, Option.bind_some, hread]
    rfl
  · rw [Event.request, Store.call, hx.file, hpos, ← hk]
    rfl
  · exact Simulation.forall₂_set h.handles
      (.on (f := { f with file := f.file.seek (f.file.seekPosition + BitVec.ofInt 32 k) }) hx.live
        hx.entry hx.sector) id

theorem Shows.write_file (h : s.Shows t) {id : ℕ} {f : Handle} {n p : Word} {e : DirectoryEntry}
    (hx : s.Transfers t id f n p e) {d' : Disk} {c : List Byte}
    (hc : f.file.hdr.contents d' = c) (hrest : ∀ s', s' ∉ f.file.hdr.fileSectors →
      d' s' = s.fs.disk s') :
    Tight d' ∧ t.files.insert (key e.nameString) c = filesOf d' ∧
      directoryOf d' = directoryOf s.fs.disk := by
  rw [hx.header] at hrest
  obtain ⟨-, htight, hdir, hfiles⟩ := h.inv.sound.write_files h.tight hx.entry hrest
  refine ⟨htight, ?_, hdir⟩
  have hhdr : headerAt d' e.sector.toNat = f.file.hdr := by
    rw [hx.header]
    exact (h.inv.sound.writeFile (h.inv.sound.sector_toInt hx.entry).1 hrest).2.2 _
      (h.inv.sound.sector_toInt hx.entry).1
  rw [hfiles, h.files, contentsAt, hhdr, hc]

theorem Shows.writeAt (h : s.Shows t) {id : ℕ} {src : Buffer} {n p : Word}
    (hp : s.Permits (.writeAt id src n p)) : s.Matched junk t (.event (.writeAt id src n p)) := by
  obtain ⟨f, hf⟩ := hp.handle rfl
  obtain ⟨entry, hx⟩ := h.transfer_shown hp hf (by rw [transfer, hf]; rfl)
  obtain ⟨d', hrun, hc, hrest⟩ := OpenFile.writeAt_splice (d := s.fs.disk) hx.wf hx.distinct
    hx.length hx.checked (junk 0) src
  obtain ⟨htight, hfiles, hdir⟩ := h.write_file hx hc hrest
  refine h.matched hp { s with fs := { s.fs with disk := d' } }
    (.count (within (f.file.hdr.contents s.fs.disk).length n.toInt p.toInt))
    ⟨t.files.insert (key entry.nameString)
      (splice (f.file.hdr.contents s.fs.disk) src n.toInt p.toInt), t.handles⟩ [] ?_ ?_
    (by rintro _ _ ⟨⟩) ?_ htight hfiles ?_
  · rw [answer, hf, Option.bind_eq_bind, Option.bind_some, hrun]
    rfl
  · rw [step, hf, Option.bind_eq_bind, Option.bind_some, hrun]
    rfl
  · rw [Event.request, Store.call, hx.file]
    rfl
  · rw [hdir]
    exact h.handles

theorem Shows.write (h : s.Shows t) {id : ℕ} {src : Buffer} {n : Word}
    (hp : s.Permits (.write id src n)) : s.Matched junk t (.event (.write id src n)) := by
  obtain ⟨f, hf⟩ := hp.handle rfl
  obtain ⟨entry, hx⟩ := h.transfer_shown hp hf (by rw [transfer, hf]; rfl)
  obtain ⟨d', hrun, hc, hrest⟩ := OpenFile.writeAt_splice (d := s.fs.disk) hx.wf hx.distinct
    hx.length hx.checked (junk 0) src
  obtain ⟨htight, hfiles, hdir⟩ := h.write_file hx hc hrest
  generalize hk : within (f.file.hdr.contents s.fs.disk).length n.toInt
    f.file.seekPosition.toInt = k at hrun
  have hpos : (f.file.seekPosition + BitVec.ofInt 32 k).toInt = f.file.seekPosition.toInt + k := by
    rw [← hk]
    exact OpenFile.position_add hx.checked hx.length
  have hwrite : f.file.write s.fs.disk (junk 0) src n =
      .ok (k, d', f.file.seek (f.file.seekPosition + BitVec.ofInt 32 k)) := by
    rw [OpenFile.write, hrun]
    rfl
  refine h.matched hp ({ s with fs := { s.fs with disk := d' } }.setFile id f
      (f.file.seek (f.file.seekPosition + BitVec.ofInt 32 k))) (.count k)
    (Store.setHandle ⟨t.files.insert (key entry.nameString)
      (splice (f.file.hdr.contents s.fs.disk) src n.toInt f.file.seekPosition.toInt), t.handles⟩ id
      (.on (key entry.nameString) (f.file.seekPosition + BitVec.ofInt 32 k).toInt))
    [] ?_ ?_ ?_ ?_ ?_ ?_ ?_
  · rw [answer, hf, Option.bind_eq_bind, Option.bind_some, hwrite]
    rfl
  · rw [step, hf, Option.bind_eq_bind, Option.bind_some, hwrite]
    rfl
  · rintro _ _ ⟨⟩
  · rw [Event.request, Store.call, hx.file, hpos, ← hk]
    rfl
  · exact htight
  · exact hfiles
  · have hmoved : HandleShown (directoryOf s.fs.disk)
        (some { f with file := f.file.seek (f.file.seekPosition + BitVec.ofInt 32 k) })
        (.on (key entry.nameString) (f.file.seekPosition + BitVec.ofInt 32 k).toInt) :=
      .on hx.live hx.entry hx.sector
    rw [← hdir] at hmoved
    have hhandles := h.handles
    rw [← hdir] at hhandles
    exact Simulation.forall₂_set hhandles hmoved id

theorem Shows.reboot (h : s.Shows t) (junk : ℕ → Buffer) : s.Matched junk t .reboot := by
  have hopen : ∀ {u : ℕ}, u < numSectorsOnDisk →
      OpenFile.new s.fs.disk u = .ok ⟨headerAt s.fs.disk u, 0⟩ := by
    intro u hu
    simp only [OpenFile.new, FileHeader.fetchFrom, Disk.readSector_ok hu, bind, Except.bind]
    rfl
  have hmount : FileSystem.mount s.fs.disk = .ok ⟨s.fs.disk, ⟨headerAt s.fs.disk freeMapSector, 0⟩,
      ⟨headerAt s.fs.disk directorySector, 0⟩⟩ := by
    rw [FileSystem.mount, hopen (by norm_num), hopen (by norm_num)]
    rfl
  have hs := h.inv.sound
  refine ⟨⟨⟨s.fs.disk, ⟨headerAt s.fs.disk freeMapSector, 0⟩,
      ⟨headerAt s.fs.disk directorySector, 0⟩⟩, []⟩, .done, { t with handles := [] }, ?_,
    ⟨[], (by rintro _ _ ⟨⟩), rfl⟩,
    ⟨⟨hs.layout, rfl, rfl, hs.marks, hs.names, hs.wf⟩, fun id f hf => ?_⟩, h.tight, h.files, .nil⟩
  · rw [call, hmount]
    rfl
  · cases hf

/-- Every call that the session allows returns, and is a call on the store. -/
theorem Shows.call (h : s.Shows t) {c : Call} (hc : s.Allows c) (junk : ℕ → Buffer) :
    s.Matched junk t c := by
  cases c with
  | reboot => exact h.reboot junk
  | event e =>
    cases e with
    | create name size => exact h.create hc
    | openFile name => exact h.openFile hc
    | remove name => exact h.remove hc
    | seek id position => exact h.seek hc
    | readAt id into numBytes position => exact h.readAt hc
    | writeAt id src numBytes position => exact h.writeAt hc
    | read id into numBytes => exact h.read hc
    | write id src numBytes => exact h.write hc
    | close id => exact h.close hc

theorem shows_init (h : s.Init) : s.Shows ⟨∅, []⟩ := by
  have hinv := inv_init h
  obtain ⟨hhandles, d, junk, hformat⟩ := h
  obtain ⟨fs, hformat', -, hfiles⟩ := FileSystem.format_ok d junk
  obtain rfl := Except.ok.inj (hformat.symm.trans hformat')
  obtain ⟨hmap, hdir⟩ := FileSystem.format_numSectors hformat
  refine ⟨hinv, ⟨?_, ?_, fun t ht => ?_⟩, ?_, ?_⟩
  · rw [← hinv.sound.freeMapFile, hmap]
  · rw [← hinv.sound.directoryFile, hdir]
  · rw [Directory.headers, hfiles] at ht
    cases ht
  · rw [filesOf, fileBindings, hfiles]
    rfl
  · rw [hhandles]
    exact .nil

/-- Every run of the file system, on any disk that has been formatted and through any number of
reboots, is a run of the store with the same answers, and ends with the files of the store. No call
that the session allows stops the program. -/
theorem session_refines_store {ls : List (Request Key Byte × Answer Byte)} (hs : s.Init)
    (hrun : Simulation.Run Called s ls s') :
    (∃ t, Simulation.Run (Store.Step diskLimits) ⟨∅, []⟩ ls t ∧ t.files = filesOf s'.fs.disk) ∧
      ∀ c, s'.Allows c → ∀ junk, ∃ s'' a, s'.call junk c = some (s'', a) := by
  obtain ⟨t, ht, hshows⟩ := hrun.simulate (shows_init hs) fun s t l s' h hl => by
    obtain ⟨c, junk, hc, hcall, hreq⟩ := hl
    obtain ⟨s'', a, t', hcall', hstep, h'⟩ := h.call hc junk
    obtain ⟨rfl, ha⟩ := Prod.mk.inj (Option.some.inj (hcall.symm.trans hcall'))
    have hl : l = (c.request, a) := Prod.ext hreq ha
    exact ⟨t', hl ▸ hstep, h'⟩
  refine ⟨⟨t, ht, hshows.files⟩, fun c hc junk => ?_⟩
  obtain ⟨s'', a, -, hcall, -⟩ := hshows.call hc junk
  exact ⟨s'', a, hcall⟩

/-- A file is created, the machine is started again, and the file is opened. -/
theorem created_file_rebooted : ∃ s' a₁ a₂ t,
    Simulation.Run Called blank [(.create (key fileA) 128, a₁), (.reboot, .done),
      (.openFile (key fileA), a₂)] s' ∧
    Simulation.Run (Store.Step diskLimits) ⟨∅, []⟩ [(.create (key fileA) 128, a₁), (.reboot, .done),
      (.openFile (key fileA), a₂)] t ∧ t.files = filesOf s'.fs.disk := by
  have hcreate (s : Session) : s.Permits (.create fileA 128) :=
    ⟨by decide, fun id hid => (by cases hid), fun r hr => (by cases hr), fun r hr => (by cases hr)⟩
  have hopen (s : Session) : s.Permits (.openFile fileA) :=
    ⟨by decide, fun id hid => (by cases hid), fun r hr => (by cases hr), fun r hr => (by cases hr)⟩
  obtain ⟨s₁, a₁, t₁, h₁, -, hs₁⟩ := (shows_init init_blank).call (c := .event (.create fileA 128))
    (hcreate _) fun _ _ => 0
  obtain ⟨s₂, a, t₂, h₂, ⟨fresh, -, ha⟩, hs₂⟩ := hs₁.reboot fun _ _ => 0
  obtain ⟨-, rfl⟩ := Prod.mk.inj (Option.some.inj ha)
  obtain ⟨s₃, a₃, t₃, h₃, -, -⟩ := hs₂.call (c := .event (.openFile fileA)) (hopen _) fun _ _ => 0
  have hrun : Simulation.Run Called blank [(.create (key fileA) 128, a₁), (.reboot, .done),
      (.openFile (key fileA), a₃)] s₃ :=
    .cons ⟨.event (.create fileA 128), _, hcreate _, h₁, rfl⟩
      (.cons ⟨.reboot, _, trivial, h₂, rfl⟩
        (.cons ⟨.event (.openFile fileA), _, hopen _, h₃, rfl⟩ (.nil s₃)))
  obtain ⟨⟨t, ht, hfiles⟩, -⟩ := session_refines_store init_blank hrun
  exact ⟨s₃, a₁, a₃, t, hrun, ht, hfiles⟩

end Session

end Nachos
