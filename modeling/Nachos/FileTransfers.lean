import Nachos.FileRequests
import Nachos.FileSessions

/-! Transfers in chunks (`fstest.cc`): `Copy` writes a UNIX file to a file of the file system, and
`Print` reads one, ten bytes at a time. A transfer in chunks through `Read` and `Write` moves the
bytes that one `ReadAt` or `WriteAt` of the whole range moves. A sum of position and length that
is not an `int` is not clamped to the length of the file. -/
namespace Nachos

open ByteBuffer

abbrev transferSize : ℕ := 10

namespace OpenFile

def writes (f : OpenFile) (d : Disk) (junk : ℕ → Buffer) (src : Buffer) :
    List ℕ → Except Trap (ℤ × Disk × OpenFile)
  | [] => .ok (0, d, f)
  | n :: ns => do
    let (result, d, f) ← f.write d (junk 0) src (BitVec.ofNat 32 n)
    let (results, d, f) ← f.writes d (fun i => junk (i + 1)) (fun j => src (n + j)) ns
    return (result + results, d, f)

def reads (f : OpenFile) (d : Disk) (into : Buffer) : List ℕ → Except Trap (ℤ × Buffer × OpenFile)
  | [] => .ok (0, into, f)
  | n :: ns => do
    let (result, into, f) ← f.read d into (BitVec.ofNat 32 n)
    let (results, rest, f) ← f.reads d (fun j => into (n + j)) ns
    return (result + results, (fun j => if j < n then into j else rest (j - n)), f)

def copyLoop (f : OpenFile) (d : Disk) (junk : ℕ → Buffer) (buffer : Buffer) (fp : List Byte) :
    Except Trap Disk :=
  let amountRead := min transferSize fp.length
  if 0 < amountRead then do
    let buffer := overlay buffer 0 amountRead fun j => fp.getD j 0
    let (_, d, f) ← f.write d (junk 0) buffer (BitVec.ofNat 32 amountRead)
    f.copyLoop d (fun i => junk (i + 1)) buffer (fp.drop amountRead)
  else .ok d
termination_by fp.length
decreasing_by
  rw [List.length_drop]
  omega

/-- What the loop of `Print` prints in at most `turns` turns, and whether it has ended. -/
def printLoop (f : OpenFile) (d : Disk) : ℕ → Buffer → Except Trap (List Byte × Bool)
  | 0, _ => .ok ([], false)
  | turns + 1, buffer => do
    let (amountRead, buffer, f) ← f.read d buffer (BitVec.ofNat 32 transferSize)
    if 0 < amountRead then
      let (out, ended) ← f.printLoop d turns buffer
      return ((List.range amountRead.toNat).map buffer ++ out, ended)
    else return ([], true)

end OpenFile

namespace FileSystem

inductive CopyFailure
  | openInput
  | createOutput
  deriving DecidableEq, Repr

/-- `Copy`, where `fp` is what `fopen` returns for the UNIX file. -/
def copy (fs : FileSystem) (junk : ℕ → Buffer) (fp : Option (List Byte)) (name : CString) :
    Except Trap (Option CopyFailure × FileSystem) :=
  match fp with
  | none => .ok (some .openInput, fs)
  | some fp => do
    let (ok, fs) ← fs.create junk name (wrapInt fp.length)
    if !ok then return (some .createOutput, fs)
    else
      match ← fs.openFile (fun i => junk (4 + i)) name with
      | none => throw .assertion
      | some openFile =>
        let d ← openFile.copyLoop fs.disk (fun i => junk (6 + i)) (junk 5) fp
        return (none, { fs with disk := d })

/-- `Print` for at most `turns` turns of its loop: nothing if the file cannot be opened. -/
def print (fs : FileSystem) (junk : ℕ → Buffer) (name : CString) (turns : ℕ) :
    Except Trap (Option (List Byte × Bool)) := do
  match ← fs.openFile junk name with
  | none => return none
  | some openFile =>
    let out ← openFile.printLoop fs.disk turns (junk 1)
    return some out

end FileSystem

namespace FileHeader

theorem clamp_le (h : FileHeader) (n p : ℕ) : h.clamp n p ≤ n := by
  unfold clamp
  omega

theorem clamp_add (h : FileHeader) (n m p : ℕ) :
    h.clamp (n + m : ℕ) p = h.clamp n p + h.clamp m (p + h.clamp n p) := by
  simp only [clamp, Int.toNat_natCast]
  omega

theorem clamp_eq_of_pos (h : FileHeader) {n m p : ℕ} (hm : 0 < h.clamp m (p + h.clamp n p)) :
    h.clamp n p = n := by
  unfold clamp at *
  omega

/-- `k` bytes of `src` have been written at position `p` of the file, and nothing else. -/
structure Written (h : FileHeader) (d : Disk) (src : Buffer) (p k : ℕ) (d' : Disk) : Prop where
  bytes : ∀ x < h.numBytes.toNat, h.fileByte d' x =
    if p ≤ x ∧ x < p + k then src (x - p) else h.fileByte d x
  rest : ∀ s, s ∉ h.fileSectors → d' s = d s

theorem Written.zero (h : FileHeader) (d : Disk) (src : Buffer) (p : ℕ) :
    h.Written d src p 0 d := by
  refine ⟨fun x _ => ?_, fun s _ => rfl⟩
  rw [if_neg (by omega)]

/-- Two chunks of a buffer, the second behind the first. -/
theorem Written.trans {h : FileHeader} {d d₁ d' : Disk} {src src' : Buffer} {p n k k' : ℕ}
    (hw : h.Written d src p k d₁) (hw' : h.Written d₁ src' (p + k) k' d')
    (hsrc : ∀ j < k', src' j = src (n + j)) (hfirst : 0 < k' → k = n) :
    h.Written d src p (k + k') d' := by
  refine ⟨fun x hx => ?_, fun s hs => (hw'.rest s hs).trans (hw.rest s hs)⟩
  rw [hw'.bytes x hx, hw.bytes x hx]
  by_cases h2 : p + k ≤ x ∧ x < p + k + k'
  · have hkn := hfirst (by omega)
    rw [if_pos h2, if_pos (by omega), hsrc _ (by omega)]
    congr 1
    omega
  · rw [if_neg h2]
    by_cases h1 : p ≤ x ∧ x < p + k
    · rw [if_pos h1, if_pos (by omega)]
    · rw [if_neg h1, if_neg (by omega)]

theorem Written.agree {h : FileHeader} {d d' d'' : Disk} {src : Buffer} {p k : ℕ}
    (hw : h.Written d src p k d') (hw' : h.Written d src p k d'') :
    (∀ x < h.numBytes.toNat, h.fileByte d' x = h.fileByte d'' x) ∧
      ∀ s, s ∉ h.fileSectors → d' s = d'' s :=
  ⟨fun x hx => (hw.bytes x hx).trans (hw'.bytes x hx).symm,
    fun s hs => (hw.rest s hs).trans (hw'.rest s hs).symm⟩

/-- A request of `n` bytes at position `p` that ends at an `int`, or starts behind the file. -/
def Fits (h : FileHeader) (n p : ℕ) : Prop := p + n < 2 ^ 31 ∨ h.numBytes ≤ p

theorem clamp_of_le {h : FileHeader} {p : ℕ} (hp : h.numBytes ≤ p) (n : ℕ) : h.clamp n p = 0 := by
  unfold clamp
  omega

theorem Fits.left {h : FileHeader} {n m p : ℕ} (hfit : h.Fits (n + m) p) : h.Fits n p := by
  unfold Fits at *
  omega

theorem Fits.right {h : FileHeader} {n m p : ℕ} (hfit : h.Fits (n + m) p) :
    h.Fits m (p + h.clamp n p) := by
  unfold Fits clamp at *
  omega

theorem add_clamp_lt {h : FileHeader} {p : ℕ} (hp : p < 2 ^ 31) (n : ℕ) :
    p + h.clamp n p < 2 ^ 31 := by
  have hlen : h.numBytes < 2 ^ 31 := BitVec.toInt_lt
  unfold clamp
  omega

theorem writeAt_written {h : FileHeader} {d : Disk} (hw : h.Wf) (hd : h.Distinct)
    (junk src : Buffer) {n p : ℕ} (hfit : h.Fits n p) :
    ∃ d', h.writeAt d junk src n p = .ok ((h.clamp n p : ℤ), d') ∧
      h.Written d src p (h.clamp n p) d' := by
  obtain hfit | hp := hfit
  · have hfit' : (p : ℤ) + (n : ℤ) < 2 ^ 31 := by exact_mod_cast hfit
    obtain ⟨d', hrun, hbytes, hrest⟩ := writeAt_ok (d := d) hw hd junk src hfit'
    exact ⟨d', hrun, hbytes, fun s hs => hrest s fun i hi heq =>
      hs (mem_fileSectors.mpr ⟨i, hi, heq⟩)⟩
  · refine ⟨d, ?_, ?_⟩
    · rw [writeAt, if_pos (.inr hp), clamp_of_le hp]
      rfl
    · rw [clamp_of_le hp]
      exact .zero _ _ _ _

theorem readAt_fits {h : FileHeader} {d : Disk} (hw : h.Wf) (into : Buffer) {n p : ℕ}
    (hfit : h.Fits n p) : h.readAt d into n p = .ok ((h.clamp n p : ℤ),
      overlay into 0 (h.clamp n p) fun j => h.fileByte d (p + j)) := by
  obtain hfit | hp := hfit
  · exact readAt_ok hw into (by exact_mod_cast hfit)
  · rw [readAt, if_pos (.inr hp), clamp_of_le hp]
    refine congrArg (fun b => Except.ok (0, b)) (funext fun j => ?_)
    rw [overlay_out (.inr (by omega))]

theorem clampRequest_of_not_fits {h : FileHeader} {n p : ℕ} (hn : n < 2 ^ 31)
    (hfit : ¬h.Fits n p) : (¬((n : ℤ) ≤ 0 ∨ h.numBytes ≤ p)) ∧ h.clampRequest n p = n := by
  have hmax : h.numBytes < 2 ^ 31 := BitVec.toInt_lt
  obtain ⟨hsum, hp⟩ := not_or.mp hfit
  refine ⟨by omega, if_neg ?_⟩
  have hwrap : wrapInt ((p : ℤ) + n) = (p : ℤ) + n - 2 ^ 32 := by
    rw [← wrapInt_sub, wrapInt_eq (by omega) (by omega)]
  rw [hwrap]
  omega

theorem writeAt_of_not_fits {h : FileHeader} {d d' : Disk} {junk src : Buffer} {n p : ℕ} {r : ℤ}
    (hn : n < 2 ^ 31) (hfit : ¬h.Fits n p)
    (hrun : h.writeAt d junk src n p = .ok (r, d')) : r = n := by
  obtain ⟨hcheck, hclamp⟩ := clampRequest_of_not_fits hn hfit
  obtain ⟨hpos, hp⟩ := not_or.mp hcheck
  rw [writeAt_count (not_le.mp hpos) (not_le.mp hp) hrun, hclamp]

theorem readAt_of_not_fits {h : FileHeader} {d : Disk} {into b : Buffer} {n p : ℕ} {r : ℤ}
    (hn : n < 2 ^ 31) (hfit : ¬h.Fits n p)
    (hrun : h.readAt d into n p = .ok (r, b)) : r = n := by
  obtain ⟨hcheck, hclamp⟩ := clampRequest_of_not_fits hn hfit
  obtain ⟨hpos, hp⟩ := not_or.mp hcheck
  rw [readAt_count (not_le.mp hpos) (not_le.mp hp) hrun, hclamp]

end FileHeader

theorem toInt_ofNat_of_lt {n : ℕ} (h : n < 2 ^ 31) : (BitVec.ofNat 32 n).toInt = n := by
  rw [BitVec.toInt_eq_toNat_of_lt] <;> rw [BitVec.toNat_ofNat, Nat.mod_eq_of_lt (by omega)]
  omega

namespace OpenFile

variable {f : OpenFile} {d : Disk}

theorem seek_hdr (f : OpenFile) (p : Word) : (f.seek p).hdr = f.hdr := rfl

theorem seek_seek (f : OpenFile) (p q : Word) : (f.seek p).seek q = f.seek q := rfl

theorem write_ok (hw : f.hdr.Wf) (hd : f.hdr.Distinct) (junk src : Buffer) {p n : ℕ}
    (hp : f.seekPosition = BitVec.ofNat 32 p) (hp' : p < 2 ^ 31) (hn : n < 2 ^ 31)
    (hfit : f.hdr.Fits n p) :
    ∃ d', f.write d junk src (BitVec.ofNat 32 n) =
        .ok ((f.hdr.clamp n p : ℤ), d', f.seek (BitVec.ofNat 32 (p + f.hdr.clamp n p))) ∧
      f.hdr.Written d src p (f.hdr.clamp n p) d' := by
  obtain ⟨d', hrun, hwritten⟩ := FileHeader.writeAt_written (d := d) hw hd junk src hfit
  refine ⟨d', ?_, hwritten⟩
  simp only [write, writeAt, hp, toInt_ofNat_of_lt hp', toInt_ofNat_of_lt hn, hrun, bind,
    Except.bind, BitVec.ofInt_natCast]
  rw [← BitVec.ofNat_add]
  rfl

theorem read_ok (hw : f.hdr.Wf) (into : Buffer) {p n : ℕ}
    (hp : f.seekPosition = BitVec.ofNat 32 p) (hp' : p < 2 ^ 31) (hn : n < 2 ^ 31)
    (hfit : f.hdr.Fits n p) :
    f.read d into (BitVec.ofNat 32 n) = .ok ((f.hdr.clamp n p : ℤ),
      overlay into 0 (f.hdr.clamp n p) (fun j => f.hdr.fileByte d (p + j)),
      f.seek (BitVec.ofNat 32 (p + f.hdr.clamp n p))) := by
  simp only [read, readAt, hp, toInt_ofNat_of_lt hp', toInt_ofNat_of_lt hn,
    FileHeader.readAt_fits hw into hfit, bind, Except.bind, BitVec.ofInt_natCast]
  rw [← BitVec.ofNat_add]
  rfl

theorem writes_ok (hw : f.hdr.Wf) (hd : f.hdr.Distinct) (junk : ℕ → Buffer) (src : Buffer) {p : ℕ}
    {ns : List ℕ} (hp : f.seekPosition = BitVec.ofNat 32 p) (hp' : p < 2 ^ 31)
    (hn : ns.sum < 2 ^ 31) (hfit : f.hdr.Fits ns.sum p) :
    ∃ d', f.writes d junk src ns = .ok ((f.hdr.clamp ns.sum p : ℤ), d',
        f.seek (BitVec.ofNat 32 (p + f.hdr.clamp ns.sum p))) ∧
      f.hdr.Written d src p (f.hdr.clamp ns.sum p) d' := by
  induction ns generalizing f d junk src p with
  | nil =>
    have hzero : f.hdr.clamp ([] : List ℕ).sum p = 0 := Nat.zero_min _
    rw [hzero, Nat.add_zero, ← hp]
    exact ⟨d, rfl, .zero _ _ _ _⟩
  | cons n ns ih =>
    rw [List.sum_cons] at hfit hn ⊢
    obtain ⟨d₁, hrun, hwritten⟩ := write_ok (d := d) hw hd (junk 0) src hp hp' (by omega) hfit.left
    obtain ⟨d', hruns, hwritten'⟩ := ih (f := f.seek (BitVec.ofNat 32 (p + f.hdr.clamp n p)))
      (d := d₁) hw hd (fun i => junk (i + 1)) (fun j => src (n + j)) rfl
      (FileHeader.add_clamp_lt hp' n) (by omega) hfit.right
    simp only [seek_hdr, seek_seek] at hruns hwritten'
    rw [f.hdr.clamp_add n ns.sum p, ← Nat.add_assoc]
    refine ⟨d', ?_, hwritten.trans hwritten' (fun j _ => rfl) f.hdr.clamp_eq_of_pos⟩
    simp only [writes, hrun, hruns, bind, Except.bind]
    rfl

theorem overlay_chunks (into g : Buffer) {n k k' : ℕ} (hle : k ≤ n) (hfirst : 0 < k' → k = n) :
    overlay into 0 (k + k') g = fun j => if j < n then overlay into 0 k g j else
      overlay (fun j => overlay into 0 k g (n + j)) 0 k' (fun j => g (k + j)) (j - n) := by
  funext j
  split_ifs with hj
  · by_cases hk : j < k
    · rw [overlay_in (Nat.zero_le j) (by omega), overlay_in (Nat.zero_le j) (by omega)]
    · rw [overlay_out (.inr (by omega)), overlay_out (.inr (by omega))]
  · have hsplit : n + (j - n) = j := by omega
    by_cases hk : j < k + k'
    · have hkn := hfirst (by omega)
      rw [overlay_in (Nat.zero_le j) (by omega), overlay_in (Nat.zero_le _) (by omega)]
      congr 1
      omega
    · rw [overlay_out (.inr (by omega)), overlay_out (.inr (by omega)),
        overlay_out (.inr (by omega)), hsplit]

theorem reads_ok (hw : f.hdr.Wf) (into : Buffer) {p : ℕ} {ns : List ℕ}
    (hp : f.seekPosition = BitVec.ofNat 32 p) (hp' : p < 2 ^ 31) (hn : ns.sum < 2 ^ 31)
    (hfit : f.hdr.Fits ns.sum p) :
    f.reads d into ns = .ok ((f.hdr.clamp ns.sum p : ℤ),
      overlay into 0 (f.hdr.clamp ns.sum p) (fun j => f.hdr.fileByte d (p + j)),
      f.seek (BitVec.ofNat 32 (p + f.hdr.clamp ns.sum p))) := by
  induction ns generalizing f into p with
  | nil =>
    have hzero : f.hdr.clamp ([] : List ℕ).sum p = 0 := Nat.zero_min _
    rw [hzero, Nat.add_zero, ← hp]
    refine congrArg (fun b => Except.ok (0, b, f)) (funext fun j => ?_)
    rw [overlay_out (.inr (by omega))]
  | cons n ns ih =>
    rw [List.sum_cons] at hfit hn ⊢
    have hle := f.hdr.clamp_le n p
    have hruns := fun into => ih (f := f.seek (BitVec.ofNat 32 (p + f.hdr.clamp n p))) hw into rfl
      (FileHeader.add_clamp_lt hp' n) (by omega) hfit.right
    simp only [seek_hdr, seek_seek] at hruns
    have hfirst := fun hpos => f.hdr.clamp_eq_of_pos (n := n) (m := ns.sum) (p := p) hpos
    have hrun := read_ok (d := d) hw into hp hp' (show n < 2 ^ 31 by omega) hfit.left
    simp only [reads, hrun, hruns, bind, Except.bind]
    rw [f.hdr.clamp_add n ns.sum p, ← Nat.add_assoc]
    generalize f.hdr.clamp n p = k at hle hfirst ⊢
    generalize f.hdr.clamp ns.sum (p + k) = k' at hfirst ⊢
    rw [overlay_chunks into _ hle hfirst]
    simp only [Nat.add_assoc]
    rfl

/-- `Write` of chunks has the effect of one `WriteAt` of their whole range. -/
def WritesAgree (f : OpenFile) (d : Disk) (ns : List ℕ) : Prop :=
  ∀ junk junk' src, ∃ result d₁ d₂,
    f.writes d junk src ns = .ok (result, d₁, f.seek (f.seekPosition + BitVec.ofInt 32 result)) ∧
    f.writeAt d junk' src (BitVec.ofNat 32 ns.sum) f.seekPosition = .ok (result, d₂) ∧
    (∀ x < f.hdr.numBytes.toNat, f.hdr.fileByte d₁ x = f.hdr.fileByte d₂ x) ∧
    ∀ s, s ∉ f.hdr.fileSectors → d₁ s = d₂ s

/-- `Read` of chunks has the effect of one `ReadAt` of their whole range. -/
def ReadsAgree (f : OpenFile) (d : Disk) (ns : List ℕ) : Prop :=
  ∀ into, ∃ result b,
    f.reads d into ns = .ok (result, b, f.seek (f.seekPosition + BitVec.ofInt 32 result)) ∧
    f.readAt d into (BitVec.ofNat 32 ns.sum) f.seekPosition = .ok (result, b)

theorem writesAgree_of_fits (hw : f.hdr.Wf) (hd : f.hdr.Distinct) {p : ℕ} {ns : List ℕ}
    (hp : f.seekPosition = BitVec.ofNat 32 p) (hp' : p < 2 ^ 31) (hn : ns.sum < 2 ^ 31)
    (hfit : f.hdr.Fits ns.sum p) : f.WritesAgree d ns := by
  intro junk junk' src
  obtain ⟨d₁, hruns, hwritten⟩ := writes_ok (d := d) hw hd junk src hp hp' hn hfit
  obtain ⟨d₂, hrun, hwritten'⟩ := FileHeader.writeAt_written (d := d) hw hd junk' src hfit
  refine ⟨(f.hdr.clamp ns.sum p : ℤ), d₁, d₂, ?_, ?_, hwritten.agree hwritten'⟩
  · rw [hruns, hp, BitVec.ofInt_natCast, ← BitVec.ofNat_add]
  · rw [writeAt, hp, toInt_ofNat_of_lt hp', toInt_ofNat_of_lt hn, hrun]

theorem readsAgree_of_fits (hw : f.hdr.Wf) {p : ℕ} {ns : List ℕ}
    (hp : f.seekPosition = BitVec.ofNat 32 p) (hp' : p < 2 ^ 31) (hn : ns.sum < 2 ^ 31)
    (hfit : f.hdr.Fits ns.sum p) : f.ReadsAgree d ns := by
  intro into
  refine ⟨(f.hdr.clamp ns.sum p : ℤ), overlay into 0 (f.hdr.clamp ns.sum p)
    fun j => f.hdr.fileByte d (p + j), ?_, ?_⟩
  · rw [reads_ok hw into hp hp' hn hfit, hp, BitVec.ofInt_natCast, ← BitVec.ofNat_add]
  · rw [readAt, hp, toInt_ofNat_of_lt hp', toInt_ofNat_of_lt hn,
      FileHeader.readAt_fits hw into hfit]

theorem not_agree_of_not_fits (hw : f.hdr.Wf) (hd : f.hdr.Distinct) {p k n : ℕ}
    (hp : f.seekPosition = BitVec.ofNat 32 p) (hk : f.hdr.numBytes = (p + k : ℕ)) (hn : n < 2 ^ 31)
    (hfit : ¬f.hdr.Fits n p) : ¬f.WritesAgree d [k, n - k] ∧ ¬f.ReadsAgree d [k, n - k] := by
  have hmax : f.hdr.numBytes < 2 ^ 31 := BitVec.toInt_lt
  obtain ⟨hsum, hlt⟩ := not_or.mp hfit
  have hclamp : f.hdr.clamp k p = k := by
    unfold FileHeader.clamp
    omega
  have hend : f.hdr.clamp (n - k : ℕ) (p + k) = 0 := FileHeader.clamp_of_le hk.le _
  have hfirst : f.hdr.Fits k p := .inl (by omega)
  have hrest : f.hdr.Fits (n - k) (p + k) := .inr hk.le
  have hwhole : [k, n - k].sum = n := by
    simp only [List.sum_cons, List.sum_nil]
    omega
  refine ⟨fun hagree => ?_, fun hagree => ?_⟩
  · obtain ⟨r, d₁, d₂, hruns, hrun, -⟩ := hagree (fun _ _ => 0) (fun _ => 0) fun _ => 0
    obtain ⟨d₃, hw₃, -⟩ := write_ok (d := d) hw hd (fun _ => 0) (fun _ => 0) hp (by omega)
      (by omega) hfirst
    obtain ⟨d₄, hw₄, -⟩ := write_ok (f := f.seek (BitVec.ofNat 32 (p + k))) (d := d₃) hw hd
      (fun _ => 0) (fun _ => 0) rfl (by omega) (show n - k < 2 ^ 31 by omega) hrest
    rw [hclamp] at hw₃
    rw [seek_hdr, hend] at hw₄
    simp only [writes, hw₃, hw₄, bind, Except.bind] at hruns
    have hr : (k : ℤ) + (0 + 0) = r := (Prod.mk.inj (Except.ok.inj hruns)).1
    rw [writeAt, hwhole, hp, toInt_ofNat_of_lt hn, toInt_ofNat_of_lt (by omega)] at hrun
    have := FileHeader.writeAt_of_not_fits hn hfit hrun
    omega
  · obtain ⟨r, b, hruns, hrun⟩ := hagree fun _ => 0
    have hr₃ := read_ok (d := d) hw (fun _ => 0) hp (by omega) (by omega) hfirst
    have hr₄ := fun into => read_ok (f := f.seek (BitVec.ofNat 32 (p + k))) (d := d) hw into rfl
      (by omega) (show n - k < 2 ^ 31 by omega) hrest
    rw [hclamp] at hr₃
    simp only [seek_hdr, hend] at hr₄
    simp only [reads, hr₃, hr₄, bind, Except.bind] at hruns
    have hr : (k : ℤ) + (0 + 0) = r := (Prod.mk.inj (Except.ok.inj hruns)).1
    rw [readAt, hwhole, hp, toInt_ofNat_of_lt hn, toInt_ofNat_of_lt (by omega)] at hrun
    have := FileHeader.readAt_of_not_fits hn hfit hrun
    omega

theorem copyLoop_ok (hw : f.hdr.Wf) (hd : f.hdr.Distinct) (junk : ℕ → Buffer) (buffer : Buffer)
    {p : ℕ} {fp : List Byte} (hp : f.seekPosition = BitVec.ofNat 32 p)
    (hlen : f.hdr.numBytes = (p + fp.length : ℕ)) :
    ∃ d', f.copyLoop d junk buffer fp = .ok d' ∧
      f.hdr.Written d (fun j => fp.getD j 0) p fp.length d' := by
  induction hn : fp.length using Nat.strongRecOn generalizing f d junk buffer p fp with
  | ind n ih =>
    have hmax : f.hdr.numBytes < 2 ^ 31 := BitVec.toInt_lt
    rw [copyLoop]
    by_cases hpos : 0 < min transferSize fp.length
    · simp only [if_pos hpos]
      obtain ⟨k, hk⟩ : ∃ k, min transferSize fp.length = k := ⟨_, rfl⟩
      have hclamp : f.hdr.clamp k p = k := by
        unfold FileHeader.clamp
        omega
      rw [hk] at hpos ⊢
      obtain ⟨d₁, hrun, hwritten⟩ := write_ok (d := d) hw hd (junk 0)
        (overlay buffer 0 k fun j => fp.getD j 0) hp (by omega) (show k < 2 ^ 31 by omega)
        (.inl (by omega))
      rw [hclamp] at hrun hwritten
      have hdrop : (fp.drop k).length = n - k := by rw [List.length_drop, hn]
      obtain ⟨d', hloop, hwritten'⟩ := ih (n - k) (by omega)
        (f := f.seek (BitVec.ofNat 32 (p + k))) (d := d₁) hw hd (fun i => junk (i + 1))
        (overlay buffer 0 k fun j => fp.getD j 0) rfl (by rw [seek_hdr, hdrop, hlen]; omega) hdrop
      refine ⟨d', by simp only [hrun, hloop, bind, Except.bind], ?_⟩
      have hfirst : f.hdr.Written d (fun j => fp.getD j 0) p k d₁ := by
        refine ⟨fun x hx => ?_, hwritten.rest⟩
        rw [hwritten.bytes x hx]
        split_ifs with hin
        · rw [overlay_in (Nat.zero_le _) (by omega), Nat.sub_zero]
        · rfl
      have hall := hfirst.trans (n := k) hwritten' (fun j _ => by simp) fun _ => rfl
      rwa [show k + (n - k) = n by omega] at hall
    · rw [if_neg hpos]
      have hzero : n = 0 := by
        simp only [transferSize] at hpos
        omega
      rw [hzero]
      exact ⟨d, rfl, .zero _ _ _ _⟩

theorem printLoop_ok (hw : f.hdr.Wf) {p turns : ℕ} (hp : f.seekPosition = BitVec.ofNat 32 p)
    (hp' : p ≤ f.hdr.numBytes.toNat) (hturns : f.hdr.numBytes.toNat - p < turns) (buffer : Buffer) :
    f.printLoop d turns buffer = .ok
      ((List.range (f.hdr.numBytes.toNat - p)).map fun j => f.hdr.fileByte d (p + j), true) := by
  have hmax := hw.numBytes_le
  simp only [maxFileSize, numDirect, sectorSize] at hmax
  induction turns generalizing f p buffer with
  | zero => omega
  | succ turns ih =>
    have hrun := read_ok (d := d) hw buffer hp (by omega) (show transferSize < 2 ^ 31 by decide)
      (.inl (by simp only [transferSize]; omega))
    have hclamp : f.hdr.clamp transferSize p = min transferSize (f.hdr.numBytes.toNat - p) := rfl
    obtain ⟨k, hk⟩ : ∃ k, f.hdr.clamp transferSize p = k := ⟨_, rfl⟩
    rw [hk] at hrun hclamp
    simp only [printLoop, hrun, bind, Except.bind]
    by_cases hpos : 0 < k
    · have hrest := ih (f := f.seek (BitVec.ofNat 32 (p + k))) (p := p + k) hw rfl
        (by rw [seek_hdr]; omega) (by rw [seek_hdr]; omega)
        (overlay buffer 0 k fun j => f.hdr.fileByte d (p + j)) hmax
      rw [if_pos (by omega), hrest]
      have hsplit : f.hdr.numBytes.toNat - p = k + (f.hdr.numBytes.toNat - (p + k)) := by omega
      simp only [seek_hdr, Int.toNat_natCast]
      rw [hsplit, List.range_add, List.map_append, List.map_map]
      refine congrArg (fun l => Except.ok (l, true)) ?_
      congr 1
      · refine List.map_congr_left fun j hj => ?_
        rw [overlay_in (Nat.zero_le j) (by simpa using hj), Nat.sub_zero]
      · refine List.map_congr_left fun j _ => ?_
        rw [Function.comp_apply, Nat.add_assoc]
    · rw [if_neg (by omega),
        show f.hdr.numBytes.toNat - p = 0 by simp only [transferSize] at hclamp; omega]
      rfl

end OpenFile

namespace FileSystem

variable {fs : FileSystem}

theorem Sound.distinct (h : fs.Sound) {t : ℕ} (ht : t ∈ (directoryOf fs.disk).headers) :
    (headerAt fs.disk t).Distinct :=
  FileHeader.nodup_fileSectors.mp (h.nodup_fileSectors ht)

theorem Sound.name_unique (h : fs.Sound) {e e' : DirectoryEntry} {name : CString}
    (he : e ∈ (directoryOf fs.disk).files)
    (hkey : ∀ k < fileNameMaxLen, nameKey e.nameString k = nameKey name k)
    (he' : e' ∈ (directoryOf fs.disk).files)
    (hname : strncmpEq e'.nameString name fileNameMaxLen 0 = true) : e = e' := by
  by_contra hne
  have hsymm : Std.Symm fun e e' : DirectoryEntry =>
      strncmpEq e.nameString e'.nameString fileNameMaxLen 0 = false :=
    ⟨fun a b hab => (strncmpEq_comm _ _).trans hab⟩
  have hfalse := h.names.forall he he' hne
  rw [(strncmpEq_iff _ _).mpr fun k hk =>
    (hkey k hk).trans ((strncmpEq_iff _ _).mp hname k hk).symm] at hfalse
  cases hfalse

theorem Sound.found_of_mem (h : fs.Sound) {e : DirectoryEntry} {name : CString}
    (he : e ∈ (directoryOf fs.disk).files)
    (hkey : ∀ k < fileNameMaxLen, nameKey e.nameString k = nameKey name k) (junk : ℕ → Buffer) :
    fs.lookup junk name = .ok (e.sector.toNat : ℤ) ∧
      fs.openFile junk name = .ok (some ⟨headerAt fs.disk e.sector.toNat, 0⟩) := by
  obtain ⟨hnone, -⟩ | ⟨e', he', hname, hlook, hopen⟩ := h.openFile_cases junk name
  · have hfalse := Directory.findIndex_none hnone e he
    rw [(strncmpEq_iff _ _).mpr hkey] at hfalse
    cases hfalse
  · rw [h.name_unique he hkey he' hname]
    exact ⟨hlook, hopen⟩

theorem Sound.lookup_of_mem (h : fs.Sound) {e : DirectoryEntry} {name : CString}
    (he : e ∈ (directoryOf fs.disk).files)
    (hkey : ∀ k < fileNameMaxLen, nameKey e.nameString k = nameKey name k) (junk : ℕ → Buffer) :
    fs.lookup junk name = .ok (e.sector.toNat : ℤ) := (h.found_of_mem he hkey junk).1

theorem Sound.openFile_of_mem (h : fs.Sound) {e : DirectoryEntry} {name : CString}
    (he : e ∈ (directoryOf fs.disk).files)
    (hkey : ∀ k < fileNameMaxLen, nameKey e.nameString k = nameKey name k) (junk : ℕ → Buffer) :
    fs.openFile junk name = .ok (some ⟨headerAt fs.disk e.sector.toNat, 0⟩) :=
  (h.found_of_mem he hkey junk).2

theorem Sound.copy_ok (h : fs.Sound) {junk : ℕ → Buffer} {name : CString} {fp : List Byte}
    (hlen : fp.length ≤ maxFileSize) {fs₁ : FileSystem}
    (hcreate : fs.create junk name fp.length = .ok (true, fs₁)) :
    ∃ fs', fs.copy junk (some fp) name = .ok (none, fs') ∧ fs'.Sound ∧
      ∀ junk' turns, fp.length < turns → fs'.print junk' name turns = .ok (some (fp, true)) := by
  have hsize : (fp.length : ℤ) ≤ (maxFileSize : ℕ) := by exact_mod_cast hlen
  have hwrap : wrapInt fp.length = fp.length := by
    simp only [maxFileSize, numDirect, sectorSize] at hlen
    exact wrapInt_eq (by omega) (by omega)
  obtain hno | ⟨d', e, hyes, hs, hperm, hkey, hbytes, -⟩ :=
    h.create_cases junk name (by omega) hsize
  · rw [hno] at hcreate
    cases hcreate
  have he : e ∈ (directoryOf d').files := hperm.mem_iff.mpr List.mem_cons_self
  obtain ⟨ht, -, -⟩ := hs.sector_toInt he
  have hwf := hs.wf _ ht
  have hopen := fun junk => hs.openFile_of_mem he hkey junk
  obtain ⟨d'', hloop, hwritten⟩ := OpenFile.copyLoop_ok
    (f := ⟨headerAt d' e.sector.toNat, 0⟩) (d := d') (p := 0) hwf (hs.distinct ht)
    (fun i => junk (6 + i)) (junk 5) rfl (by rw [hbytes, Nat.zero_add])
  obtain ⟨hs'', hdir, hhdr⟩ := hs.writeFile ht hwritten.rest
  refine ⟨{ fs with disk := d'' }, ?_, hs'', fun junk' turns hturns => ?_⟩
  · simp only [copy, hwrap, hyes, hopen, hloop, bind, Except.bind]
    rfl
  · have he'' : e ∈ (directoryOf d'').files := by rwa [hdir]
    have hopen'' := hs''.openFile_of_mem he'' hkey junk'
    have hlen'' : (headerAt d'' e.sector.toNat).numBytes.toNat = fp.length := by
      rw [hhdr _ ht, hbytes, Int.toNat_natCast]
    have hprint := OpenFile.printLoop_ok (f := ⟨headerAt d'' e.sector.toNat, 0⟩) (d := d'') (p := 0)
      (by rw [hhdr _ ht]; exact hwf) rfl (Nat.zero_le _) (show _ < turns by rw [hlen'']; omega)
      (junk' 1)
    have hout : (List.range (headerAt d'' e.sector.toNat).numBytes.toNat).map
        (fun j => (headerAt d'' e.sector.toNat).fileByte d'' j) = fp := by
      refine List.ext_getElem (by simp [hlen'']) fun x h1 h2 => ?_
      rw [List.getElem_map, List.getElem_range, hhdr _ ht,
        hwritten.bytes x (by rw [hbytes, Int.toNat_natCast]; exact h2), if_pos (by omega)]
      simp [h2]
    simp only [print, hopen'', hprint, bind, Except.bind, Nat.sub_zero, Nat.zero_add, hout]
    rfl

/-- `Copy` and then `Print` is the identity, and a transfer in chunks from a position of a file
agrees with the transfer of the whole range, however it is cut, exactly when the range ends at
an `int` or starts behind the file. -/
theorem Sound.transfers (h : fs.Sound) :
    (∀ junk name (fp : List Byte) fs₁, fp.length ≤ maxFileSize →
      fs.create junk name fp.length = .ok (true, fs₁) →
      ∃ fs', fs.copy junk (some fp) name = .ok (none, fs') ∧
        ∀ junk', ∃ n, ∀ turns ≥ n, fs'.print junk' name turns = .ok (some (fp, true))) ∧
    ∀ t ∈ (directoryOf fs.disk).headers, ∀ p < 2 ^ 31, ∀ n < 2 ^ 31,
      (∀ ns : List ℕ, ns.sum = n →
        OpenFile.WritesAgree ⟨headerAt fs.disk t, BitVec.ofNat 32 p⟩ fs.disk ns ∧
        OpenFile.ReadsAgree ⟨headerAt fs.disk t, BitVec.ofNat 32 p⟩ fs.disk ns) ↔
      p + n < 2 ^ 31 ∨ (headerAt fs.disk t).numBytes ≤ p := by
  refine ⟨fun junk name fp fs₁ hlen hcreate => ?_, fun t ht p hp n hn => ⟨fun hall => ?_, ?_⟩⟩
  · obtain ⟨fs', hcopy, -, hprint⟩ := h.copy_ok hlen hcreate
    exact ⟨fs', hcopy, fun junk' => ⟨fp.length + 1, fun turns hturns => hprint junk' turns hturns⟩⟩
  · by_contra hfit
    obtain ⟨hsum, hlt⟩ := not_or.mp hfit
    have hmax : (headerAt fs.disk t).numBytes < 2 ^ 31 := BitVec.toInt_lt
    obtain ⟨k, hk⟩ : ∃ k : ℕ, (headerAt fs.disk t).numBytes = (p + k : ℕ) :=
      ⟨(headerAt fs.disk t).numBytes.toNat - p, by omega⟩
    have hcut : [k, n - k].sum = n := by
      simp only [List.sum_cons, List.sum_nil]
      omega
    exact (OpenFile.not_agree_of_not_fits (f := ⟨headerAt fs.disk t, BitVec.ofNat 32 p⟩) (h.wf t ht)
      (h.distinct ht) rfl hk hn hfit).1 (hall _ hcut).1
  · rintro hfit ns rfl
    let f : OpenFile := ⟨headerAt fs.disk t, BitVec.ofNat 32 p⟩
    exact ⟨OpenFile.writesAgree_of_fits (f := f) (h.wf t ht) (h.distinct ht) rfl hp hn hfit,
      OpenFile.readsAgree_of_fits (f := f) (h.wf t ht) rfl hp hn hfit⟩

theorem create_blank : ∃ fs₁, Session.blank.fs.create (fun _ _ => 0) Session.fileA 128 =
    .ok (true, fs₁) := by
  have hrun : (Session.blank.fs.create (fun _ _ => 0) Session.fileA 128).toOption.any
      (fun r => r.1) = true := by
    unfold FileSystem.create allocateFile Session.blank format
    simp only [FileHeader.allocate_eq]
    decide +kernel
  obtain ⟨⟨ok, fs₁⟩, hcreate, hok⟩ := (Option.any_eq_true _ _).mp hrun
  obtain rfl : ok = true := hok
  exact ⟨fs₁, toOption_eq_some hcreate⟩

theorem oneSector_printed : ∃ fs', Session.blank.fs.copy (fun _ _ => 0)
      (some (List.replicate 128 7)) Session.fileA = .ok (none, fs') ∧
    ∃ n, ∀ turns ≥ n, fs'.print (fun _ _ => 0) Session.fileA turns =
      .ok (some (List.replicate 128 7, true)) := by
  obtain ⟨fs₁, hcreate⟩ := create_blank
  have hs := (Session.inv_init Session.init_blank).sound
  obtain ⟨fs', hcopy, hprint⟩ := hs.transfers.1 (fun _ _ => 0) Session.fileA (List.replicate 128 7)
    fs₁ (by simp [maxFileSize]) (by rw [List.length_replicate]; exact hcreate)
  exact ⟨fs', hcopy, hprint _⟩

/-- 2147483647 bytes at position 1 of a file of 128 bytes, cut after the first 127. -/
theorem longRequest_not_agree : ∃ s f, Reachable Session.Init Session.StepInRange s ∧
    s.handle 0 = some f ∧ f.file.hdr.numBytes = 128 ∧
    ¬(f.file.seek 1).WritesAgree s.fs.disk [127, 2147483520] ∧
    ¬(f.file.seek 1).ReadsAgree s.fs.disk [127, 2147483520] := by
  obtain ⟨s, f, hs, hf, hlive, hlen⟩ := Session.oneFile_run
  have hreach := Session.runWhile_inRange hs
  have hi := Session.inv_reachable hreach
  obtain ⟨t, ht, -, hh⟩ := hi.live 0 f hf hlive
  have hfit : ¬f.file.hdr.Fits 2147483647 1 := by
    rw [FileHeader.Fits, hlen]
    omega
  have hno := OpenFile.not_agree_of_not_fits (f := f.file.seek 1) (d := s.fs.disk) (p := 1)
    (k := 127) (n := 2147483647) (hh ▸ hi.sound.wf t ht) (hh ▸ hi.sound.distinct ht) rfl hlen
    (by norm_num) hfit
  norm_num at hno
  exact ⟨s, f, hreach, hf, hlen, hno⟩

end FileSystem

end Nachos
