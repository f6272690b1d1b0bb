import Nachos.FileSystem
import Nachos.StatePost

/-! Requests to an open file. A request with a position that is not negative and an end that is an
`int` moves exactly the bytes that lie in the file. The check of a request misses the others: a
negative position goes to sectors before the first one, and a sum that overflows is not cut down
to the length of the file. -/
namespace Nachos

open ByteBuffer

namespace FileHeader

/-- As many sectors as the bytes need, all different and on the disk. -/
structure Sized (h : FileHeader) : Prop where
  sectors : h.numSectors = divRoundUpInt h.numBytes sectorSize
  count : h.numSectors ≤ numDirect
  onDisk : ∀ i : ℕ, (i : ℤ) < h.numSectors → h.sector i < numSectorsOnDisk
  distinct : h.Distinct

def transferred (h : FileHeader) (numBytes position : ℤ) : ℤ :=
  max 0 (min numBytes (h.numBytes - position))

/-- The loop of a request goes through index `i` of `dataSectors`. -/
def Visits (h : FileHeader) (numBytes position i : ℤ) : Prop :=
  ¬(numBytes ≤ 0 ∨ h.numBytes ≤ position) ∧ position.tdiv sectorSize ≤ i ∧
    i ≤ (wrapInt (position + h.clampRequest numBytes position - 1)).tdiv sectorSize

/-- A request stays inside the file and the header, and its count inside the request. -/
def Contained (h : FileHeader) (numBytes position : Word) (count : Except Trap ℤ) : Prop :=
  ∃ k, count = .ok k ∧ 0 ≤ k ∧ k ≤ max 0 (h.numBytes - position.toInt) ∧
    k ≤ max 0 numBytes.toInt ∧
    (0 < k → 0 ≤ position.toInt ∧ position.toInt + k ≤ h.numBytes) ∧
    ∀ i, h.Visits numBytes.toInt position.toInt i → 0 ≤ i ∧ i < numDirect

variable {h : FileHeader} {d : Disk} {numBytes position : ℤ}

theorem Sized.wf (hf : h.Sized) : h.Wf where
  count := hf.count
  length := by
    have hdiv := Int.mul_tdiv_add_tmod h.numBytes sectorSize
    have hmod := Int.tmod_lt_of_pos h.numBytes (show (0 : ℤ) < (sectorSize : ℕ) by norm_num)
    rw [hf.sectors]
    unfold divRoundUpInt
    simp only [sectorSize] at *
    push_cast at *
    split_ifs
    · omega
    · omega
  onDisk := hf.onDisk

theorem clamp_eq_transferred (h : FileHeader) (numBytes : ℤ) (position : ℕ) :
    (h.clamp numBytes position : ℤ) = h.transferred numBytes position := by
  unfold clamp transferred
  omega

theorem readAt_count {into b : Buffer} {k : ℤ} (hn : 0 < numBytes) (hp : position < h.numBytes)
    (hrun : h.readAt d into numBytes position = .ok (k, b)) :
    k = h.clampRequest numBytes position := by
  rw [readAt, if_neg (by omega)] at hrun
  dsimp only at hrun
  split_ifs at hrun
  obtain ⟨buf, -, hret⟩ := except_bind_eq_ok hrun
  exact (Prod.mk.inj (Except.ok.inj hret)).1.symm

theorem writeAt_count {junk src : Buffer} {d' : Disk} {k : ℤ} (hn : 0 < numBytes)
    (hp : position < h.numBytes) (hrun : h.writeAt d junk src numBytes position = .ok (k, d')) :
    k = h.clampRequest numBytes position := by
  rw [writeAt, if_neg (by omega)] at hrun
  dsimp only at hrun
  split_ifs at hrun
  obtain ⟨buf, -, hrest⟩ := except_bind_eq_ok hrun
  obtain ⟨d₁, -, hret⟩ := except_bind_eq_ok hrest
  exact (Prod.mk.inj (Except.ok.inj hret)).1.symm

theorem clampRequest_bad {numBytes position : Word} (hn : 0 < numBytes.toInt)
    (hp : position.toInt < h.numBytes)
    (hbad : position.toInt < 0 ∨ 2 ^ 31 ≤ position.toInt + numBytes.toInt) :
    0 < h.clampRequest numBytes.toInt position.toInt ∧
      (0 ≤ position.toInt → h.numBytes - position.toInt <
        h.clampRequest numBytes.toInt position.toInt) := by
  have hn' := BitVec.toInt_lt (x := numBytes)
  have hp' := BitVec.le_toInt position
  have hp'' := BitVec.toInt_lt (x := position)
  have hlen : h.numBytes < 2 ^ 31 := BitVec.toInt_lt
  generalize numBytes.toInt = n at *
  generalize position.toInt = p at *
  unfold clampRequest
  by_cases hneg : p < 0
  · rw [wrapInt_eq (by omega) (by omega)]
    split_ifs with hlt
    · rw [wrapInt_eq (by omega) (by omega)]
      omega
    · omega
  · have hwrap : wrapInt (p + n) = p + n - 2 ^ 32 := by
      rw [← wrapInt_sub, wrapInt_eq (by omega) (by omega)]
    rw [hwrap, if_neg (by omega)]
    omega

theorem not_contained {numBytes position : Word} {count : Except Trap ℤ} (hn : 0 < numBytes.toInt)
    (hp : position.toInt < h.numBytes)
    (hbad : position.toInt < 0 ∨ 2 ^ 31 ≤ position.toInt + numBytes.toInt)
    (hcount : ∀ k, count = .ok k → k = h.clampRequest numBytes.toInt position.toInt) :
    ¬ h.Contained numBytes position count := by
  rintro ⟨k, hk, hk0, hmax, -, hin, -⟩
  obtain rfl := hcount k hk
  obtain ⟨hpos, hlong⟩ := clampRequest_bad hn hp hbad
  have h0 := (hin hpos).1
  have := hlong h0
  omega

theorem contained_of_ordinary (hf : h.Sized) {numBytes position : Word} (h0 : 0 ≤ position.toInt)
    (hfit : position.toInt + numBytes.toInt < 2 ^ 31) : h.Contained numBytes position
      (.ok (h.transferred numBytes.toInt position.toInt)) := by
  obtain ⟨p, hp⟩ := Int.eq_ofNat_of_zero_le h0
  have hlen := hf.wf.length
  have hcnt := hf.count
  rw [Contained]
  rw [hp] at hfit ⊢
  generalize numBytes.toInt = n at *
  refine ⟨_, rfl, ?_, ?_, ?_, ?_, ?_⟩
  · exact le_max_left _ _
  · exact max_le_max le_rfl (min_le_right _ _)
  · exact max_le_max le_rfl (min_le_left _ _)
  · unfold transferred
    omega
  · rintro i ⟨hgo, hlow, hhigh⟩
    obtain ⟨hn, hpl⟩ := not_or.mp hgo
    obtain ⟨hc, hpos, hend⟩ := clampRequest_eq (not_le.mp hn) (not_le.mp hpl) hfit
    obtain ⟨hfirst, hlast, -⟩ := request_sectors p hpos (hend.trans hf.wf.numBytes_le)
    rw [hfirst] at hlow
    rw [hc, hlast] at hhigh
    simp only [sectorSize] at *
    omega

theorem contained_of_empty {numBytes position : Word}
    (h0 : numBytes.toInt ≤ 0 ∨ h.numBytes ≤ position.toInt) :
    h.Contained numBytes position (.ok 0) :=
  ⟨0, rfl, le_rfl, le_max_left _ _, le_max_left _ _, fun hlt => absurd hlt (lt_irrefl 0),
    fun _ hv => absurd h0 hv.1⟩

end FileHeader

namespace OpenFile

def Ordinary (numBytes position : Word) : Prop :=
  0 ≤ position.toInt ∧ position.toInt + numBytes.toInt < 2 ^ 31

variable {f : OpenFile} {d : Disk} {numBytes position : Word}

theorem Ordinary.position_eq (ho : Ordinary numBytes position) :
    position.toInt = (position.toNat : ℤ) := by
  have hlt := position.isLt
  have h0 := ho.1
  rw [BitVec.toInt_eq_toNat_cond] at h0 ⊢
  split_ifs at h0 ⊢
  · rfl
  · omega

theorem readAt_exact (hw : f.hdr.Wf) (ho : Ordinary numBytes position) (into : Buffer) :
    f.readAt d into numBytes position =
      .ok (f.hdr.transferred numBytes.toInt position.toInt,
        overlay into 0 (f.hdr.transferred numBytes.toInt position.toInt).toNat
          fun j => f.hdr.fileByte d (position.toNat + j)) := by
  have hpos := ho.position_eq
  have hfit := ho.2
  rw [hpos] at hfit
  have hread := FileHeader.readAt_ok (d := d) hw into hfit
  rw [readAt, hpos, hread, ← FileHeader.clamp_eq_transferred, Int.toNat_natCast]

theorem writeAt_exact (hw : f.hdr.Wf) (hd : f.hdr.Distinct) (ho : Ordinary numBytes position)
    (junk src : Buffer) : ∃ d', f.writeAt d junk src numBytes position =
        .ok (f.hdr.transferred numBytes.toInt position.toInt, d') ∧
      (∀ x < f.hdr.numBytes.toNat, f.hdr.fileByte d' x =
        if position.toInt ≤ x ∧ x < position.toInt + f.hdr.transferred numBytes.toInt position.toInt
        then src (x - position.toNat) else f.hdr.fileByte d x) ∧
      ∀ s, s ∉ f.hdr.fileSectors → d' s = d s := by
  have hpos := ho.position_eq
  have hfit := ho.2
  rw [hpos] at hfit
  obtain ⟨d', hwrite, hbytes, hrest⟩ :=
    FileHeader.writeAt_ok (d := d) hw hd junk src hfit
  refine ⟨d', ?_, fun x hx => ?_, fun s hs => hrest s fun i hi heq => ?_⟩
  · rw [writeAt, hpos, hwrite, FileHeader.clamp_eq_transferred]
  · rw [hbytes x hx, hpos, ← FileHeader.clamp_eq_transferred]
    norm_cast
  · exact hs (FileHeader.mem_fileSectors.mpr ⟨i, hi, heq⟩)

def oneSector : OpenFile := ⟨⟨fun i => if i = 0 then 100 else if i = 1 then 1 else 5⟩, 0⟩

theorem oneSector_sized : oneSector.hdr.Sized where
  sectors := by decide
  count := by decide
  onDisk i hi := by
    have h1 : oneSector.hdr.numSectors = 1 := by decide
    obtain rfl : i = 0 := by omega
    decide
  distinct i j hi hj _ := by
    have h1 : oneSector.hdr.numSectors = 1 := by decide
    omega

/-- `WriteAt` replaces the bytes of the request that lie in the file, as every later `ReadAt`
shows, and no other sector; `ReadAt` gets the bytes of the request that lie in the file. -/
theorem requests_exact (f : OpenFile) (hf : f.hdr.Sized) :
    (∀ (d : Disk) (into : Buffer) (numBytes position : Word), Ordinary numBytes position →
      f.readAt d into numBytes position =
        .ok (f.hdr.transferred numBytes.toInt position.toInt,
          overlay into 0 (f.hdr.transferred numBytes.toInt position.toInt).toNat
            fun j => f.hdr.fileByte d (position.toNat + j))) ∧
    ∀ (d : Disk) (junk src : Buffer) (numBytes position : Word), Ordinary numBytes position →
      ∃ d', f.writeAt d junk src numBytes position =
          .ok (f.hdr.transferred numBytes.toInt position.toInt, d') ∧
        (∀ (into : Buffer) (n p : Word), Ordinary n p → f.readAt d' into n p =
          .ok (f.hdr.transferred n.toInt p.toInt,
            overlay into 0 (f.hdr.transferred n.toInt p.toInt).toNat fun j =>
              if position.toNat ≤ p.toNat + j ∧ ((p.toNat + j : ℕ) : ℤ) <
                position.toNat + f.hdr.transferred numBytes.toInt position.toInt
              then src (p.toNat + j - position.toNat) else f.hdr.fileByte d (p.toNat + j))) ∧
        ∀ s, s ∉ f.hdr.fileSectors → d' s = d s := by
  refine ⟨fun d into numBytes position ho => readAt_exact hf.wf ho into,
    fun d junk src numBytes position ho => ?_⟩
  obtain ⟨d', hwrite, hbytes, hrest⟩ := writeAt_exact (d := d) hf.wf hf.distinct ho junk src
  refine ⟨d', hwrite, fun into n p ho' => ?_, hrest⟩
  rw [readAt_exact hf.wf ho' into]
  refine congrArg (fun b => Except.ok (_, b)) (FileHeader.overlay_congr fun j hj => ?_)
  have hp := ho'.position_eq
  have hin : p.toNat + j < f.hdr.numBytes.toNat := by
    unfold FileHeader.transferred at hj
    omega
  rw [hbytes _ hin, ho.position_eq]
  norm_cast

theorem requests_exact_oneSector : ∃ d', oneSector.writeAt (fun _ _ => 0) (fun _ => 0)
    (fun _ => 1) 50 80 = .ok (20, d') ∧ ∀ s, s ∉ oneSector.hdr.fileSectors → d' s = fun _ => 0 := by
  obtain ⟨d', hwrite, -, hrest⟩ := (requests_exact oneSector oneSector_sized).2 (fun _ _ => 0)
    (fun _ => 0) (fun _ => 1) 50 80 (by unfold Ordinary; decide)
  exact ⟨d', hwrite, hrest⟩

def Checked (h : FileHeader) (numBytes position : Word) : Prop :=
  numBytes.toInt ≤ 0 ∨ h.numBytes ≤ position.toInt ∨ Ordinary numBytes position

theorem contained_iff {h : FileHeader} (hf : h.Sized) {count : Except Trap ℤ}
    (hempty : numBytes.toInt ≤ 0 ∨ h.numBytes ≤ position.toInt → count = .ok 0)
    (hord : Ordinary numBytes position →
      count = .ok (h.transferred numBytes.toInt position.toInt))
    (hcount : 0 < numBytes.toInt → position.toInt < h.numBytes → ∀ k, count = .ok k →
      k = h.clampRequest numBytes.toInt position.toInt) :
    h.Contained numBytes position count ↔ Checked h numBytes position := by
  constructor
  · intro hc
    by_contra hbad
    obtain ⟨hn, hp, ho⟩ := by simpa only [Checked, not_or, not_le] using hbad
    refine FileHeader.not_contained hn hp ?_ (hcount hn hp) hc
    rw [Ordinary, not_and_or, not_le, not_lt] at ho
    exact ho
  · intro hcheck
    by_cases he : numBytes.toInt ≤ 0 ∨ h.numBytes ≤ position.toInt
    · rw [hempty he]
      exact FileHeader.contained_of_empty he
    · obtain ⟨hn, hp⟩ := not_or.mp he
      have ho : Ordinary numBytes position := (hcheck.resolve_left hn).resolve_left hp
      rw [hord ho]
      exact FileHeader.contained_of_ordinary hf ho.1 ho.2

theorem map_fst_eq_ok {α : Type} {x : Except Trap (ℤ × α)} {k : ℤ}
    (h : x.map Prod.fst = .ok k) : ∃ a, x = .ok (k, a) := by
  cases x with
  | error t => cases h
  | ok r =>
    obtain rfl : r.1 = k := Except.ok.inj h
    exact ⟨r.2, rfl⟩

theorem readAt_contained_iff (hf : f.hdr.Sized) (d : Disk) (into : Buffer)
    (numBytes position : Word) :
    f.hdr.Contained numBytes position ((f.readAt d into numBytes position).map Prod.fst) ↔
      Checked f.hdr numBytes position := by
  refine contained_iff hf (fun he => ?_) (fun ho => ?_) fun hn hp k hk => ?_
  · rw [readAt, FileHeader.readAt, if_pos he]
    rfl
  · rw [readAt_exact hf.wf ho into]
    rfl
  · obtain ⟨b, hrun⟩ := map_fst_eq_ok hk
    exact FileHeader.readAt_count hn hp hrun

theorem writeAt_contained_iff (hf : f.hdr.Sized) (d : Disk) (junk src : Buffer)
    (numBytes position : Word) :
    f.hdr.Contained numBytes position ((f.writeAt d junk src numBytes position).map Prod.fst) ↔
      Checked f.hdr numBytes position := by
  refine contained_iff hf (fun he => ?_) (fun ho => ?_) fun hn hp k hk => ?_
  · rw [writeAt, FileHeader.writeAt, if_pos he]
    rfl
  · obtain ⟨d', hrun, -⟩ := writeAt_exact (d := d) hf.wf hf.distinct ho junk src
    rw [hrun]
    rfl
  · obtain ⟨d', hrun⟩ := map_fst_eq_ok hk
    exact FileHeader.writeAt_count hn hp hrun

theorem read_seek_count (f : OpenFile) (d : Disk) (into : Buffer) (numBytes position : Word) :
    ((f.seek position).read d into numBytes).map Prod.fst =
      (f.readAt d into numBytes position).map Prod.fst := by
  have hrun : (f.seek position).readAt d into numBytes (f.seek position).seekPosition =
      f.readAt d into numBytes position := rfl
  rw [read, hrun]
  cases f.readAt d into numBytes position with
  | error t => rfl
  | ok r => rfl

theorem write_seek_count (f : OpenFile) (d : Disk) (junk src : Buffer) (numBytes position : Word) :
    ((f.seek position).write d junk src numBytes).map Prod.fst =
      (f.writeAt d junk src numBytes position).map Prod.fst := by
  have hrun : (f.seek position).writeAt d junk src numBytes (f.seek position).seekPosition =
      f.writeAt d junk src numBytes position := rfl
  rw [write, hrun]
  cases f.writeAt d junk src numBytes position with
  | error t => rfl
  | ok r => rfl

/-- The request check of the four calls holds a request inside the file exactly when it has
nothing to move or is an ordinary one. -/
theorem requests_contained_iff (f : OpenFile) (hf : f.hdr.Sized) (d : Disk)
    (junk src into : Buffer) (numBytes position : Word) :
    (f.hdr.Contained numBytes position ((f.readAt d into numBytes position).map Prod.fst) ↔
      Checked f.hdr numBytes position) ∧
    (f.hdr.Contained numBytes position ((f.writeAt d junk src numBytes position).map Prod.fst) ↔
      Checked f.hdr numBytes position) ∧
    (f.hdr.Contained numBytes position (((f.seek position).read d into numBytes).map Prod.fst) ↔
      Checked f.hdr numBytes position) ∧
    (f.hdr.Contained numBytes position
        (((f.seek position).write d junk src numBytes).map Prod.fst) ↔
      Checked f.hdr numBytes position) := by
  rw [read_seek_count, write_seek_count]
  exact ⟨readAt_contained_iff hf d into numBytes position,
    writeAt_contained_iff hf d junk src numBytes position,
    readAt_contained_iff hf d into numBytes position,
    writeAt_contained_iff hf d junk src numBytes position⟩

theorem requests_contained_oneSector : oneSector.hdr.Contained 50 80
    ((oneSector.readAt (fun _ _ => 0) (fun _ => 0) 50 80).map Prod.fst) :=
  (requests_contained_iff oneSector oneSector_sized (fun _ _ => 0) (fun _ => 0) (fun _ => 0)
    (fun _ => 0) 50 80).1.mpr (by unfold Checked Ordinary; decide)

/-- A request at position -128. -/
theorem negativePosition_not_contained : ¬ oneSector.hdr.Contained 10 (-128)
    ((oneSector.readAt (fun _ _ => 0) (fun _ => 0) 10 (-128)).map Prod.fst) := by
  rw [readAt_contained_iff oneSector_sized]
  unfold Checked Ordinary
  decide

end OpenFile

end Nachos
