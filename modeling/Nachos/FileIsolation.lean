import Nachos.FileSessions

/-! Isolation of the files of a session: a write through a handle changes no other file, and
stays what the file yields until the file is written again or removed. There is no table of
open files, so `Remove` gives the sectors of a file away while handles on it are open, and a
write through such a handle goes to whatever the sectors are then. -/
namespace Nachos

open ByteBuffer

namespace FileHeader

variable {h : FileHeader} {d d' : Disk}

theorem readAt_congr (hw : h.Wf) (hs : ∀ s ∈ h.fileSectors, d' s = d s) (into : Buffer) {n : ℤ}
    {pos : ℕ} (hfit : pos + n < 2 ^ 31) : h.readAt d' into n pos = h.readAt d into n pos := by
  rw [readAt_ok hw into hfit, readAt_ok hw into hfit]
  refine congrArg (fun b => Except.ok (_, b)) (overlay_congr fun j hj => ?_)
  refine fileByte_congr hw ?_ hs
  unfold clamp at hj
  omega

end FileHeader

namespace Session

variable {s s' s'' : Session} {junk : ℕ → Buffer} {e : Event}

def Event.source : Event → Buffer
  | .writeAt _ src _ _ => src
  | .write _ src _ => src
  | _ => fun _ => 0

/-- A step in range that neither writes to nor removes the file with its header in `t`. -/
def StepBeside (t : ℕ) (s s' : Session) : Prop :=
  ∃ junk e, s.Proper e ∧ s.InRange e ∧ ¬s.Touches e t ∧ ¬s.Removes junk e t ∧
    s.step junk e = some s'

theorem StepBeside.keeps {t : ℕ} (h : s.Inv) (ht : t ∈ (directoryOf s.fs.disk).headers)
    (hstep : StepBeside t s s') : s'.Inv ∧ t ∈ (directoryOf s'.fs.disk).headers ∧
      ∀ x ∈ ownSectors (headerAt s.fs.disk) t, s'.fs.disk x = s.fs.disk x := by
  obtain ⟨junk, e, hp, hr, htouch, hrem, hstep⟩ := hstep
  obtain ⟨hi, hheaders, -, hsectors⟩ := h.step hp hr hstep
  exact ⟨hi, hheaders t ht hrem, hsectors t ht htouch⟩

/-- A file that is not written and not removed stays as it is, over any number of steps. -/
theorem run_beside {t : ℕ} (h : s.Inv) (ht : t ∈ (directoryOf s.fs.disk).headers)
    (hrun : Relation.ReflTransGen (StepBeside t) s s') :
    s'.Inv ∧ t ∈ (directoryOf s'.fs.disk).headers ∧ headerAt s'.fs.disk t = headerAt s.fs.disk t ∧
      ∀ x ∈ (headerAt s.fs.disk t).fileSectors, s'.fs.disk x = s.fs.disk x := by
  induction hrun with
  | refl => exact ⟨h, ht, rfl, fun x _ => rfl⟩
  | tail _ hstep ih =>
    obtain ⟨hi, ht', hhdr, hdata⟩ := ih
    obtain ⟨hi', ht'', hown⟩ := hstep.keeps hi ht'
    have hhdr' := headerAt_congr (hown t (List.mem_cons_self ..))
    refine ⟨hi', ht'', hhdr'.trans hhdr, fun x hx => ?_⟩
    rw [← hhdr] at hx
    rw [hown x (List.mem_cons_of_mem _ hx), hdata x (hhdr ▸ hx)]

theorem Inv.written (h : s.Inv) (hp : s.Proper e) (hr : s.InRange e)
    (hstep : s.step junk e = some s') {f : Handle} {n pos : ℤ}
    (hreq : s.writeRequest e = some (f, n, pos)) :
    ∃ t ∈ (directoryOf s.fs.disk).headers, f.sector = (t : ℤ) ∧ f.file.hdr = headerAt s.fs.disk t ∧
      ∀ x : ℕ, x < f.file.hdr.numBytes.toNat → pos ≤ x → x < pos + n →
        f.file.hdr.fileByte s'.fs.disk x = e.source (x - pos).toNat := by
  have hlive := hp.2 _ hreq
  have hrange := hr _ hreq
  have heffect : ∀ {id : ℕ} {src : Buffer} {r : ℤ} {d' : Disk}, s.handle id = some f →
      f.file.hdr.writeAt s.fs.disk (junk 0) src n pos = .ok (r, d') →
      ∃ t ∈ (directoryOf s.fs.disk).headers, f.sector = (t : ℤ) ∧
        f.file.hdr = headerAt s.fs.disk t ∧
        ∀ x : ℕ, x < f.file.hdr.numBytes.toNat → pos ≤ x → x < pos + n →
          f.file.hdr.fileByte d' x = src (x - pos).toNat := by
    intro id src r d' hf hrun
    obtain ⟨t, ht, hsec, hh⟩ := h.live id f hf hlive
    obtain ⟨-, hbytes⟩ := FileHeader.writeAt_effect (hh ▸ h.sound.wf t ht)
      (hh ▸ h.sound.nodup_fileSectors ht) hrange hrun
    refine ⟨t, ht, hsec, hh, fun x hx h1 h2 => ?_⟩
    rw [hbytes x hx, if_pos ⟨h1, h2⟩]
  cases e with
  | writeAt id src numBytes position =>
    obtain ⟨g, hg, hstep⟩ := Option.bind_eq_some_iff.mp hstep
    obtain ⟨⟨r, d'⟩, hrun, hstep⟩ := Option.bind_eq_some_iff.mp hstep
    obtain rfl := Option.some.inj hstep
    rw [writeRequest, hg] at hreq
    obtain ⟨rfl, rfl, rfl⟩ := by simpa using hreq
    exact heffect hg (toOption_eq_some hrun)
  | write id src numBytes =>
    obtain ⟨g, hg, hstep⟩ := Option.bind_eq_some_iff.mp hstep
    obtain ⟨⟨r, d', file⟩, hrun, hstep⟩ := Option.bind_eq_some_iff.mp hstep
    obtain rfl := Option.some.inj hstep
    obtain ⟨⟨r', d''⟩, hrun', hfile⟩ := except_bind_eq_ok (toOption_eq_some hrun)
    obtain ⟨-, rfl, rfl⟩ := by simpa using Except.ok.inj hfile
    rw [writeRequest, hg] at hreq
    obtain ⟨rfl, rfl, rfl⟩ := by simpa using hreq
    exact heffect hg hrun'
  | _ => cases hreq

def KeepsHandle (s : Session) (junk : ℕ → Buffer) (e : Event) (f g : Handle) : Prop :=
  g.sector = f.sector ∧ g.file.hdr = f.file.hdr ∧
    (f.removed = false → (∀ t : ℕ, f.sector = (t : ℤ) → ¬s.Removes junk e t) → g.removed = false)

theorem KeepsHandle.refl (f : Handle) : s.KeepsHandle junk e f f := ⟨rfl, rfl, fun h _ => h⟩

theorem keepsHandle_setFile {s₀ : Session} {id k : ℕ} {f g : Handle} {file : OpenFile}
    (hf : s.handle id = some f) (hg : (s.setFile id f file).handle k = some g)
    (hhdr : file.hdr = f.file.hdr) : ∃ f', s.handle k = some f' ∧ s₀.KeepsHandle junk e f' g := by
  rw [handle_setFile hf] at hg
  split_ifs at hg with hk
  · obtain rfl := Option.some.inj hg
    exact ⟨f, hk ▸ hf, rfl, hhdr, fun h _ => h⟩
  · exact ⟨g, hg, KeepsHandle.refl g⟩

theorem Inv.step_handles (h : s.Inv) (hstep : s.step junk e = some s') :
    s.handles.length ≤ s'.handles.length ∧ ∀ id g, id < s.handles.length → s'.handle id = some g →
      ∃ f, s.handle id = some f ∧ s.KeepsHandle junk e f g := by
  cases e with
  | create name size =>
    obtain ⟨⟨ok, fs⟩, -, hstep⟩ := Option.bind_eq_some_iff.mp hstep
    obtain rfl := Option.some.inj hstep
    exact ⟨le_rfl, fun id g _ hg => ⟨g, hg, KeepsHandle.refl g⟩⟩
  | openFile name =>
    obtain ⟨sector, -, hstep⟩ := Option.bind_eq_some_iff.mp hstep
    obtain ⟨file, -, hstep⟩ := Option.bind_eq_some_iff.mp hstep
    obtain rfl := Option.some.inj hstep
    refine ⟨by simp, fun id g hid hg => ⟨g, ?_, KeepsHandle.refl g⟩⟩
    rw [handle, List.getElem?_append_left hid] at hg
    exact hg
  | remove name =>
    obtain ⟨hno, hlook⟩ | ⟨d', e, hyes, hlook, -⟩ := h.sound.remove_cases junk name
    · simp only [Session.step, hno, hlook] at hstep
      obtain rfl := Option.some.inj hstep
      exact ⟨le_rfl, fun id g _ hg => ⟨g, hg, KeepsHandle.refl g⟩⟩
    · simp only [Session.step, hyes, hlook] at hstep
      have hs' : s' = ({ s with fs := { s.fs with disk := d' } } : Session).forget e.sector.toInt :=
        (Option.some.inj hstep).symm
      subst hs'
      refine ⟨by simp [forget], fun id g _ hg => ?_⟩
      rw [handle_forget, Option.map_eq_some_iff] at hg
      obtain ⟨f, hf, rfl⟩ := hg
      refine ⟨f, hf, ?_⟩
      split_ifs with hsec
      · refine ⟨rfl, rfl, fun hlive hn => ?_⟩
        obtain ⟨t, -, hft, -⟩ := h.live id f hf hlive
        exact absurd ⟨name, rfl, by rw [hlook, ← hsec, hft]⟩ (hn t hft)
      · exact KeepsHandle.refl f
  | seek id position =>
    obtain ⟨f, hf, hstep⟩ := Option.bind_eq_some_iff.mp hstep
    obtain rfl := Option.some.inj hstep
    exact ⟨by simp [Session.setFile], fun k g _ hg => keepsHandle_setFile hf hg rfl⟩
  | readAt id into numBytes position =>
    obtain ⟨f, hf, hstep⟩ := Option.bind_eq_some_iff.mp hstep
    obtain ⟨r, -, hstep⟩ := Option.bind_eq_some_iff.mp hstep
    obtain rfl := Option.some.inj hstep
    exact ⟨le_rfl, fun id g _ hg => ⟨g, hg, KeepsHandle.refl g⟩⟩
  | writeAt id src numBytes position =>
    obtain ⟨f, hf, hstep⟩ := Option.bind_eq_some_iff.mp hstep
    obtain ⟨⟨r, d'⟩, -, hstep⟩ := Option.bind_eq_some_iff.mp hstep
    obtain rfl := Option.some.inj hstep
    exact ⟨le_rfl, fun id g _ hg => ⟨g, hg, KeepsHandle.refl g⟩⟩
  | read id into numBytes =>
    obtain ⟨f, hf, hstep⟩ := Option.bind_eq_some_iff.mp hstep
    obtain ⟨⟨r, b, file⟩, hrun, hstep⟩ := Option.bind_eq_some_iff.mp hstep
    obtain rfl := Option.some.inj hstep
    obtain ⟨⟨r', b'⟩, -, hfile⟩ := except_bind_eq_ok (toOption_eq_some hrun)
    obtain ⟨-, -, rfl⟩ := by simpa using Except.ok.inj hfile
    exact ⟨by simp [Session.setFile], fun k g _ hg => keepsHandle_setFile hf hg rfl⟩
  | write id src numBytes =>
    obtain ⟨f, hf, hstep⟩ := Option.bind_eq_some_iff.mp hstep
    obtain ⟨⟨r, d', file⟩, hrun, hstep⟩ := Option.bind_eq_some_iff.mp hstep
    obtain rfl := Option.some.inj hstep
    obtain ⟨⟨r', d''⟩, -, hfile⟩ := except_bind_eq_ok (toOption_eq_some hrun)
    obtain ⟨-, rfl, rfl⟩ := by simpa using Except.ok.inj hfile
    refine ⟨by simp [Session.setFile], fun k g _ hg => ?_⟩
    exact keepsHandle_setFile (s := { s with fs := { s.fs with disk := d'' } }) hf hg rfl
  | close id =>
    obtain ⟨f, hf, hstep⟩ := Option.bind_eq_some_iff.mp hstep
    obtain rfl := Option.some.inj hstep
    refine ⟨by simp, fun k g _ hg => ⟨g, ?_, KeepsHandle.refl g⟩⟩
    rw [handle_set] at hg
    split_ifs at hg
    exact hg

theorem run_handle {t id : ℕ} {g : Handle} (h : s.Inv)
    (ht : t ∈ (directoryOf s.fs.disk).headers) (hid : id < s.handles.length)
    (hf : ∀ g, s.handle id = some g → g.sector = (t : ℤ) ∧ g.removed = false)
    (hrun : Relation.ReflTransGen (StepBeside t) s s') (hg : s'.handle id = some g) :
    g.sector = (t : ℤ) ∧ g.removed = false := by
  have hall : s'.Inv ∧ t ∈ (directoryOf s'.fs.disk).headers ∧ id < s'.handles.length ∧
      ∀ g, s'.handle id = some g → g.sector = (t : ℤ) ∧ g.removed = false := by
    clear hg
    induction hrun with
    | refl => exact ⟨h, ht, hid, hf⟩
    | tail _ hstep ih =>
      obtain ⟨hi, ht', hid', hf'⟩ := ih
      obtain ⟨hi', ht'', -⟩ := hstep.keeps hi ht'
      obtain ⟨junk, e, -, -, -, hrem, hstep⟩ := hstep
      obtain ⟨hlen, hhandles⟩ := hi.step_handles hstep
      refine ⟨hi', ht'', lt_of_lt_of_le hid' hlen, fun g hg => ?_⟩
      obtain ⟨f', hf'', hsec, -, hlive⟩ := hhandles id g hid' hg
      obtain ⟨hft, hfl⟩ := hf' f' hf''
      refine ⟨hsec.trans hft, hlive hfl fun u hu => ?_⟩
      rw [hft] at hu
      rw [← Int.natCast_inj.mp hu]
      exact hrem
  exact hall.2.2.2 g hg

/-- Writes in range, to a file that is still there: no other file changes or shares a sector
with it, and every handle that is open on it reads what was written, until a step writes to
the file or removes it. -/
theorem writes_isolated (h : Reachable Init StepInRange s) (hp : s.Proper e) (hr : s.InRange e)
    (hstep : s.step junk e = some s') {f : Handle} {n pos : ℤ}
    (hreq : s.writeRequest e = some (f, n, pos)) :
    (∀ t ∈ (directoryOf s.fs.disk).headers, f.sector ≠ (t : ℤ) →
      (∀ x ∈ f.file.hdr.fileSectors, x ∉ ownSectors (headerAt s.fs.disk) t) ∧
      headerAt s'.fs.disk t = headerAt s.fs.disk t ∧
      ∀ (into : Buffer) (k : ℤ) (p : ℕ), p + k < 2 ^ 31 →
        (headerAt s.fs.disk t).readAt s'.fs.disk into k p =
          (headerAt s.fs.disk t).readAt s.fs.disk into k p) ∧
    ∀ t : ℕ, f.sector = (t : ℤ) → ∀ s'', Relation.ReflTransGen (StepBeside t) s' s'' →
      ∀ id g, s''.handle id = some g →
        s.handle id = some f ∨ g.sector = (t : ℤ) ∧ g.removed = false →
        ∀ (into : Buffer) (k : ℤ) (p : ℕ), p + k < 2 ^ 31 →
          ∃ b, g.file.hdr.readAt s''.fs.disk into k p = .ok ((g.file.hdr.clamp k p : ℤ), b) ∧
            ∀ j < g.file.hdr.clamp k p, pos ≤ (p + j : ℕ) → (p + j : ℕ) < pos + n →
              b j = e.source ((p + j : ℕ) - pos).toNat := by
  have hi := inv_reachable h
  obtain ⟨hi', hheaders, hheader, hsectors⟩ := hi.step hp hr hstep
  obtain ⟨u, hu, hfu, hfh, hbytes⟩ := hi.written hp hr hstep hreq
  refine ⟨fun t ht hne => ?_, fun t hft s'' hrun id g hg hid into k p hfit => ?_⟩
  · have htouch : ¬s.Touches e t := by
      rintro ⟨r, hr', hsec⟩
      rw [hreq] at hr'
      obtain rfl := Option.some.inj hr'
      exact hne hsec
    have hown := hsectors t ht htouch
    refine ⟨fun x hx => ?_, headerAt_congr (hown t (List.mem_cons_self ..)),
      fun into k p hfit => ?_⟩
    · rw [hfh] at hx
      refine own_disjoint hi.sound.marks.nodup (List.mem_cons_of_mem _ (List.mem_cons_of_mem _ hu))
        (List.mem_cons_of_mem _ (List.mem_cons_of_mem _ ht)) ?_ (List.mem_cons_of_mem _ hx)
      rintro rfl
      exact hne hfu
    · exact FileHeader.readAt_congr (hi.sound.wf t ht)
        (fun x hx => hown x (List.mem_cons_of_mem _ hx)) into hfit
  · obtain rfl : u = t := Int.natCast_inj.mp (hfu.symm.trans hft)
    have hnorem : ∀ v : ℕ, ¬s.Removes junk e v := by
      rintro v ⟨name, rfl, -⟩
      cases hreq
    have hu' := hheaders u hu (hnorem u)
    obtain ⟨hi'', hu'', hhdr, hdata⟩ := run_beside hi' hu' hrun
    obtain ⟨hlen, hhandles⟩ := hi.step_handles hstep
    have hgl : g.sector = (u : ℤ) ∧ g.removed = false := by
      obtain hid | hgl := hid
      · have hlt := lt_of_handle hid
        refine run_handle hi' hu' (lt_of_lt_of_le hlt hlen) (fun g' hg' => ?_) hrun hg
        obtain ⟨f', hf', hsec, -, hlive⟩ := hhandles id g' hlt hg'
        obtain rfl := Option.some.inj (hid.symm.trans hf')
        exact ⟨hsec.trans hft, hlive (hp.2 _ hreq) fun v _ => hnorem v⟩
      · exact hgl
    obtain ⟨v, hv, hgv, hgh⟩ := hi''.live id g hg hgl.2
    obtain rfl : v = u := Int.natCast_inj.mp (hgv.symm.trans hgl.1)
    have hsame : g.file.hdr = f.file.hdr := by rw [hgh, hhdr, hheader v hu, hfh]
    rw [hsame]
    have hwf : f.file.hdr.Wf := hfh ▸ hi.sound.wf v hu
    refine ⟨_, FileHeader.readAt_ok hwf into hfit, fun j hj h1 h2 => ?_⟩
    have hx : p + j < f.file.hdr.numBytes.toNat := by
      unfold FileHeader.clamp at hj
      omega
    rw [overlay_in (Nat.zero_le j) (by omega), Nat.sub_zero, ← hbytes _ hx h1 h2]
    refine FileHeader.fileByte_congr hwf hx fun x hx' => hdata x ?_
    rw [hheader v hu, ← hfh]
    exact hx'

theorem step_writeAt {id : ℕ} {f : Handle} {src : Buffer} {n pos : Word} {r : ℤ} {d' : Disk}
    (hf : s.handle id = some f) (hw : f.file.writeAt s.fs.disk (junk 0) src n pos = .ok (r, d')) :
    s.step junk (.writeAt id src n pos) = some { s with fs := { s.fs with disk := d' } } := by
  rw [step, hf, Option.bind_eq_bind, Option.bind_some, hw]
  rfl

def fileB : CString := fun i => if i = 0 then 98 else 0

theorem twoFiles_run : ∃ s f g, blank.runWhile (fun s e => s.Proper e && s.InRange e)
    [.create fileA 128, .create fileB 128, .openFile fileA, .openFile fileB] = some s ∧
      s.handle 0 = some f ∧ s.handle 1 = some g ∧ f.removed = false ∧ g.removed = false ∧
      f.sector ≠ g.sector := by
  have hrun : (blank.runWhile (fun s e => s.Proper e && s.InRange e)
      [.create fileA 128, .create fileB 128, .openFile fileA, .openFile fileB]).any
      (fun s : Session => (s.handle 0).any fun f : Handle => (s.handle 1).any fun g : Handle =>
        !f.removed && !g.removed && decide (f.sector ≠ g.sector)) = true := by
    unfold runWhile step FileSystem.create FileSystem.allocateFile blank FileSystem.format
    simp only [FileHeader.allocate_eq]
    decide +kernel
  obtain ⟨s, hs, hh⟩ := (Option.any_eq_true _ _).mp hrun
  obtain ⟨f, hf, hh⟩ := (Option.any_eq_true _ _).mp hh
  obtain ⟨g, hg, hh⟩ := (Option.any_eq_true _ _).mp hh
  simp only [Bool.and_eq_true, Bool.not_eq_true', decide_eq_true_eq] at hh
  exact ⟨s, f, g, hs, hf, hg, hh.1.1, hh.1.2, hh.2⟩

/-- A write to the first file: the second reads as before, and the first reads what was written
as long as no step writes to it or removes it. -/
theorem twoFiles_rewritten : ∃ s f g s', ∃ t : ℕ,
    blank.runWhile (fun s e => s.Proper e && s.InRange e)
      [.create fileA 128, .create fileB 128, .openFile fileA, .openFile fileB] = some s ∧
      s.handle 0 = some f ∧ s.handle 1 = some g ∧ f.sector = (t : ℤ) ∧
      s.step (fun _ _ => 0) (.writeAt 0 (fun _ => 7) 5 3) = some s' ∧
      g.file.hdr.readAt s'.fs.disk (fun _ => 0) 128 0 =
        g.file.hdr.readAt s.fs.disk (fun _ => 0) 128 0 ∧
      ∀ s'', Relation.ReflTransGen (StepBeside t) s' s'' → ∀ f', s''.handle 0 = some f' →
        ∃ b,
          f'.file.hdr.readAt s''.fs.disk (fun _ => 0) 5 3 = .ok ((f'.file.hdr.clamp 5 3 : ℤ), b) ∧
          ∀ j < f'.file.hdr.clamp 5 3, b j = 7 := by
  obtain ⟨s, f, g, hs, hf, hg, hlive, hlive', hne⟩ := twoFiles_run
  have hreach := runWhile_inRange hs
  have hi := inv_reachable hreach
  obtain ⟨t, ht, hsec, hh⟩ := hi.live 0 f hf hlive
  obtain ⟨u, hu, hsec', hh'⟩ := hi.live 1 g hg hlive'
  have hfit : ((3 : ℕ) : ℤ) + 5 < 2 ^ 31 := by norm_num
  obtain ⟨d', hwrite, -⟩ := FileHeader.writeAt_ok (d := s.fs.disk) (hi.sound.wf t ht)
    (FileHeader.nodup_fileSectors.mp (hi.sound.nodup_fileSectors ht)) (fun _ => 0) (fun _ => 7) hfit
  have hstep : s.step (fun _ _ => 0) (.writeAt 0 (fun _ => 7) 5 3) =
      some { s with fs := { s.fs with disk := d' } } := by
    rw [← hh] at hwrite
    exact step_writeAt hf hwrite
  have hreq : s.writeRequest (.writeAt 0 (fun _ => 7) 5 3) = some (f, 5, 3) := by
    rw [writeRequest, hf]
    rfl
  have hproper : s.Proper (.writeAt 0 (fun _ => 7) 5 3) := by
    refine ⟨by decide, fun r hr => ?_⟩
    obtain rfl := Option.some.inj (hreq.symm.trans hr)
    exact hlive
  have hrange : s.InRange (.writeAt 0 (fun _ => 7) 5 3) := by
    intro r hr _ _
    obtain rfl := Option.some.inj (hreq.symm.trans hr)
    norm_num
  obtain ⟨hothers, hback⟩ := writes_isolated hreach hproper hrange hstep hreq
  refine ⟨s, f, g, _, t, hs, hf, hg, hsec, hstep, ?_, fun s'' hrun f' hf' => ?_⟩
  · obtain ⟨-, -, hread⟩ := hothers u hu (hsec' ▸ hne)
    rw [hh']
    exact hread (fun _ => 0) 128 0 (by norm_num)
  · obtain ⟨b, hread, hb⟩ := hback t hsec s'' hrun 0 f' hf' (.inl hf) (fun _ => 0) 5 3 (by norm_num)
    refine ⟨b, hread, fun j hj => hb j hj (by omega) ?_⟩
    unfold FileHeader.clamp at hj
    push_cast
    omega

theorem reuse_run : ∃ s f g,
    blank.runWhile (fun s e => decide (e.createSize ≤ maxFileSize) && s.InRange e)
    [.create fileA 128, .openFile fileA, .remove fileA, .create fileB 128, .openFile fileB] =
      some s ∧
      s.handle 0 = some f ∧ s.handle 1 = some g ∧ f.file.hdr = g.file.hdr ∧
        f.file.hdr.numBytes = 128 ∧
      f.file.hdr.numSectors = 1 ∧ f.file.hdr.sector 0 < numSectorsOnDisk ∧
      f.file.hdr.fileByte s.fs.disk 0 = 0 := by
  have hrun : (blank.runWhile (fun s e => decide (e.createSize ≤ maxFileSize) && s.InRange e)
      [.create fileA 128, .openFile fileA, .remove fileA, .create fileB 128, .openFile fileB]).any
      (fun s : Session => (s.handle 0).any fun f : Handle => (s.handle 1).any fun g : Handle =>
        decide (f.file.hdr.word = g.file.hdr.word) && decide (f.file.hdr.numBytes = 128) &&
        decide (f.file.hdr.numSectors = 1) && decide (f.file.hdr.sector 0 < numSectorsOnDisk) &&
        decide (f.file.hdr.fileByte s.fs.disk 0 = 0)) = true := by
    unfold runWhile step FileSystem.create FileSystem.allocateFile blank FileSystem.format
    simp only [FileHeader.allocate_eq]
    decide +kernel
  obtain ⟨s, hs, hh⟩ := (Option.any_eq_true _ _).mp hrun
  obtain ⟨f, hf, hh⟩ := (Option.any_eq_true _ _).mp hh
  obtain ⟨g, hg, hh⟩ := (Option.any_eq_true _ _).mp hh
  simp only [Bool.and_eq_true, decide_eq_true_eq] at hh
  obtain ⟨⟨⟨⟨h1, h2⟩, h3⟩, h4⟩, h5⟩ := hh
  exact ⟨s, f, g, hs, hf, hg, FileHeader.ext h1, h2, h3, h4, h5⟩

/-- A write through the handle of the removed file changes what the other file yields. -/
theorem removedFile_written : ∃ s s' g,
    blank.runWhile (fun s e => decide (e.createSize ≤ maxFileSize) && s.InRange e)
      [.create fileA 128, .openFile fileA, .remove fileA, .create fileB 128, .openFile fileB] =
        some s ∧
      s.handle 1 = some g ∧ s.step (fun _ _ => 0) (.writeAt 0 (fun _ => 7) 1 0) = some s' ∧
      ∃ b b', g.file.hdr.readAt s.fs.disk (fun _ => 0) 1 0 = .ok (1, b) ∧
        g.file.hdr.readAt s'.fs.disk (fun _ => 0) 1 0 = .ok (1, b') ∧ b 0 ≠ b' 0 := by
  obtain ⟨s, f, g, hs, hf, hg, hfg, hlen, hcount, hdisk, hzero⟩ := reuse_run
  have hwf : f.file.hdr.Wf := by
    refine ⟨by rw [hcount]; norm_num, by rw [hlen, hcount]; norm_num, fun i hi => ?_⟩
    obtain rfl : i = 0 := by omega
    exact hdisk
  have hdist : f.file.hdr.Distinct := by
    intro i j h1 h2 _
    omega
  have hclamp : f.file.hdr.clamp 1 (0 : ℕ) = 1 := by
    rw [FileHeader.clamp, hlen]
    rfl
  have hfit : ((0 : ℕ) : ℤ) + 1 < 2 ^ 31 := by norm_num
  obtain ⟨d', hwrite, hbytes, -⟩ := FileHeader.writeAt_ok (d := s.fs.disk) hwf hdist (fun _ => 0)
    (fun _ => 7) hfit
  have hread : ∀ d, g.file.hdr.readAt d (fun _ => 0) 1 0 = .ok (1,
      overlay (fun _ => 0) 0 1 fun j => g.file.hdr.fileByte d (0 + j)) := by
    intro d
    have := FileHeader.readAt_ok (d := d) (hfg ▸ hwf) (fun _ => 0) hfit
    rw [← hfg] at this ⊢
    rw [hclamp] at this
    exact this
  refine ⟨s, { s with fs := { s.fs with disk := d' } }, g, hs, hg, ?_, _, _, hread _, hread _, ?_⟩
  · exact step_writeAt hf hwrite
  · rw [overlay_in le_rfl (by norm_num), overlay_in le_rfl (by norm_num), ← hfg]
    have h0 := hbytes 0 (by rw [hlen]; decide)
    rw [if_pos ⟨le_rfl, by rw [hclamp]; norm_num⟩] at h0
    simp only [Nat.sub_self, Nat.add_zero, h0, hzero]
    decide

end Session

end Nachos
