import Nachos.AddrSpace
import Nachos.ByteBuffer
import Nachos.StatePost

/-! The converter from COFF to NOFF (`coff2noff.c`): the sections of a COFF file are copied one by
one behind the header of the NOFF file and recorded in its three segments. A second `.text`
takes the place of the first in the header, and the test for a `.bss` and a `.sbss` that are
contiguous rejects the files it is meant to let through. -/
namespace Nachos.Coff

open ByteBuffer

abbrev fileHdrSize : ℕ := 20
abbrev aoutHdrSize : ℕ := 56
abbrev scnHdrSize : ℕ := 40
abbrev noffHdrSize : ℕ := 40

abbrev mipselMagic : BitVec 16 := 0x0162
abbrev oMagic : BitVec 16 := 0x0107
abbrev noffMagic : Word := 0xbadfad

structure SectionHeader where
  name : Fin 8 → Byte
  paddr : Word
  size : Word
  scnptr : Word

inductive SectionKind
  | text
  | data
  | bss
  deriving DecidableEq, Repr

structure Segment where
  virtualAddr : Word
  inFileAddr : Word
  size : Word

structure NoffHeader where
  noffMagic : Word
  code : Segment
  initData : Segment
  uninitData : Segment

inductive ConvertError
  | tooShort
  | notMipsel
  | notOmagic
  | dataAndRdata
  | bssAndSbss
  | unknownSegment (name : Fin 8 → Byte)

def bufferAt (file : HostFile) (offset : ℕ) : Buffer := fun j => file.getD (offset + j) 0

def halfAt (b : Buffer) (i : ℕ) : BitVec 16 := b (2 * i + 1) ++ b (2 * i)

namespace SectionHeader

def ofBuffer (b : Buffer) : SectionHeader := ⟨fun i => b i, wordAt b 2, wordAt b 4, wordAt b 5⟩

/-- `!strcmp(s_name, literal)`: the literals are shorter than the field. -/
def named (s : SectionHeader) (literal : List Byte) : Bool :=
  (List.ofFn s.name).take (literal.length + 1) == literal ++ [0]

def isText (s : SectionHeader) : Bool := s.named [46, 116, 101, 120, 116]

def isData (s : SectionHeader) : Bool :=
  s.named [46, 100, 97, 116, 97] || s.named [46, 114, 100, 97, 116, 97]

def isBss (s : SectionHeader) : Bool :=
  s.named [46, 98, 115, 115] || s.named [46, 115, 98, 115, 115]

def kind (s : SectionHeader) : Option SectionKind :=
  if s.isText then some .text
  else if s.isData then some .data
  else if s.isBss then some .bss
  else none

end SectionHeader

namespace NoffHeader

def word (h : NoffHeader) : ℕ → Word
  | 0 => h.noffMagic
  | 1 => h.code.virtualAddr
  | 2 => h.code.inFileAddr
  | 3 => h.code.size
  | 4 => h.initData.virtualAddr
  | 5 => h.initData.inFileAddr
  | 6 => h.initData.size
  | 7 => h.uninitData.virtualAddr
  | 8 => h.uninitData.inFileAddr
  | 9 => h.uninitData.size
  | _ => 0

def toBytes (h : NoffHeader) : HostFile := (List.range noffHdrSize).map (ofWords h.word)

def ofBuffer (b : Buffer) : NoffHeader where
  noffMagic := wordAt b 0
  code := ⟨wordAt b 1, wordAt b 2, wordAt b 3⟩
  initData := ⟨wordAt b 4, wordAt b 5, wordAt b 6⟩
  uninitData := ⟨wordAt b 7, wordAt b 8, wordAt b 9⟩

/-- The header before the loop: the rest of it is what the stack held. -/
def start (junk : NoffHeader) : NoffHeader where
  noffMagic := Coff.noffMagic
  code := { junk.code with size := 0 }
  initData := { junk.initData with size := 0 }
  uninitData := { junk.uninitData with size := 0 }

end NoffHeader

/-- `Read`. A size of -1 is what `read` and `write` return when they fail, so it passes. -/
def readBytes (file : HostFile) (position : ℕ) (nBytes : ℤ) : Except ConvertError (List Byte) :=
  if nBytes = -1 then .ok []
  else
    let bytes := file.readAt nBytes.toNat position
    if (bytes.length : ℤ) = nBytes then .ok bytes else .error .tooShort

/-- The converter in its loop: `written` is what is in the NOFF file behind the header. -/
structure Output where
  noffH : NoffHeader
  inNoffFile : Word
  written : List Byte
  position : ℕ

/-- The copy of a section: `lseek` to a negative position fails and leaves the position. -/
def copySection (coff : HostFile) (s : SectionHeader) (o : Output) :
    Except ConvertError (Segment × Output) := do
  let position := if s.scnptr.toInt < 0 then o.position else s.scnptr.toNat
  let bytes ← readBytes coff position s.size.toInt
  return (⟨s.paddr, o.inNoffFile, s.size⟩,
    { o with inNoffFile := o.inNoffFile + s.size, written := o.written ++ bytes
             position := position + bytes.length })

def addSection (coff : HostFile) (o : Output) (s : SectionHeader) : Except ConvertError Output :=
  if s.size = 0 then .ok o
  else match s.kind with
    | some .text => do
      let (segment, o) ← copySection coff s o
      return { o with noffH := { o.noffH with code := segment } }
    | some .data =>
      if o.noffH.initData.size ≠ 0 then .error .dataAndRdata
      else do
        let (segment, o) ← copySection coff s o
        return { o with noffH := { o.noffH with initData := segment } }
    | some .bss =>
      let segment := o.noffH.uninitData
      if segment.size ≠ 0 then
        if s.paddr = segment.virtualAddr + segment.size then .error .bssAndSbss
        else
          let segment := { segment with size := segment.size + s.size }
          .ok { o with noffH := { o.noffH with uninitData := segment } }
      else
        let segment := { segment with virtualAddr := s.paddr, size := s.size }
        .ok { o with noffH := { o.noffH with uninitData := segment } }
    | none => .error (.unknownSegment s.name)

def numSections (coff : HostFile) : ℕ := (halfAt (bufferAt coff 0) 1).toNat

def sections (coff : HostFile) : List SectionHeader :=
  (List.range (numSections coff)).map fun i =>
    .ofBuffer (bufferAt coff (fileHdrSize + aoutHdrSize + scnHdrSize * i))

def loopStart (junk : NoffHeader) (coff : HostFile) : Output where
  noffH := .start junk
  inNoffFile := BitVec.ofNat 32 noffHdrSize
  written := []
  position := fileHdrSize + aoutHdrSize + numSections coff * scnHdrSize

def coff2noff (junk : NoffHeader) (coff : HostFile) : Except ConvertError HostFile := do
  let _ ← readBytes coff 0 fileHdrSize
  if halfAt (bufferAt coff 0) 0 ≠ mipselMagic then throw .notMipsel
  else
    let _ ← readBytes coff fileHdrSize aoutHdrSize
    if halfAt (bufferAt coff fileHdrSize) 0 ≠ oMagic then throw .notOmagic
    else
      let _ ← readBytes coff (fileHdrSize + aoutHdrSize) (numSections coff * scnHdrSize : ℕ)
      let o ← (sections coff).foldlM (addSection coff) (loopStart junk coff)
      return o.noffH.toBytes ++ o.written

/-- Byte `b` is at address `a` when `size` bytes of a file are placed at `addr`. -/
def Places (file : HostFile) (addr offset size : Word) (a : ℤ) (b : Byte) : Prop :=
  ∃ i : ℕ, (i : ℤ) < size.toInt ∧ a = addr.toInt + i ∧ file[offset.toNat + i]? = some b

def Zeros (addr size : Word) (a : ℤ) (b : Byte) : Prop :=
  addr.toInt ≤ a ∧ a < addr.toInt + size.toInt ∧ b = 0

/-- The memory image that a NOFF file describes. -/
def noffImage (noff : HostFile) (a : ℤ) (b : Byte) : Prop :=
  let h := NoffHeader.ofBuffer (bufferAt noff 0)
  Places noff h.code.virtualAddr h.code.inFileAddr h.code.size a b ∨
    Places noff h.initData.virtualAddr h.initData.inFileAddr h.initData.size a b ∨
    Zeros h.uninitData.virtualAddr h.uninitData.size a b

def SectionHeader.places (s : SectionHeader) (coff : HostFile) (a : ℤ) (b : Byte) : Prop :=
  match s.kind with
  | some .text => Places coff s.paddr s.scnptr s.size a b
  | some .data => Places coff s.paddr s.scnptr s.size a b
  | some .bss => Zeros s.paddr s.size a b
  | none => False

/-- The memory image of the sections of a COFF file that are not empty. -/
def coffImage (coff : HostFile) (a : ℤ) (b : Byte) : Prop :=
  ∃ s ∈ sections coff, s.size ≠ 0 ∧ s.places coff a b

def ofKind (ss : List SectionHeader) (k : SectionKind) : List SectionHeader :=
  ss.filter fun s => decide (s.size ≠ 0 ∧ s.kind = some k)

/-- The bytes that a list of sections has in its file. -/
def fileBytes (ss : List SectionHeader) : ℕ :=
  ((ofKind ss .text ++ ofKind ss .data).map fun s => s.size.toNat).sum

/-- No section that is copied has a negative size or file pointer, and the offsets in the NOFF file
are `int`s. -/
structure InRange (ss : List SectionHeader) : Prop where
  signs : ∀ s ∈ ofKind ss .text ++ ofKind ss .data, 0 ≤ s.size.toInt ∧ 0 ≤ s.scnptr.toInt
  fits : noffHdrSize + fileBytes ss < 2 ^ 31

def Contiguous (ss : List SectionHeader) : Prop := ss.IsChain fun s t => t.paddr = s.paddr + s.size

/-- A MIPSEL OMAGIC file that is complete, has known sections only, at most one `.text` and one of
`.data` and `.rdata` that is not empty, and contiguous uninitialised data. -/
structure Acceptable (coff : HostFile) : Prop where
  mipsel : halfAt (bufferAt coff 0) 0 = mipselMagic
  omagic : halfAt (bufferAt coff fileHdrSize) 0 = oMagic
  headers : fileHdrSize + aoutHdrSize + numSections coff * scnHdrSize ≤ coff.length
  known : ∀ s ∈ sections coff, s.size ≠ 0 → s.kind ≠ none
  present : ∀ s ∈ sections coff, s.size ≠ 0 → s.kind ≠ some .bss →
    s.scnptr.toNat + s.size.toNat ≤ coff.length
  text : (ofKind (sections coff) .text).length ≤ 1
  data : (ofKind (sections coff) .data).length ≤ 1
  contiguous : Contiguous (ofKind (sections coff) .bss)

/-- A file that the converter accepts has the image of its sections, and it accepts those it
should. -/
def Preserves (junk : NoffHeader) (coff : HostFile) : Prop :=
  (∀ noff, coff2noff junk coff = .ok noff → ∀ a b, noffImage noff a b ↔ coffImage coff a b) ∧
    (Acceptable coff → ∃ noff, coff2noff junk coff = .ok noff)

variable {coff : HostFile} {s : SectionHeader} {o o' : Output}

theorem toInt_of_nonneg {w : Word} (h : 0 ≤ w.toInt) : w.toInt = (w.toNat : ℤ) := by
  rw [BitVec.toInt_eq_toNat_cond] at *
  split_ifs at * with hw
  · rfl
  · have := w.isLt
    omega

theorem readBytes_ok {position n : ℕ} {bytes : List Byte}
    (h : readBytes coff position n = .ok bytes) :
    bytes.length = n ∧ ∀ i < n, bytes[i]? = coff[position + i]? := by
  rw [readBytes, if_neg (by omega), Int.toNat_natCast] at h
  dsimp only at h
  split_ifs at h with hlen
  obtain rfl := Except.ok.inj h
  refine ⟨by exact_mod_cast hlen, fun i hi => ?_⟩
  rw [HostFile.readAt, List.getElem?_take_of_lt hi, List.getElem?_drop]

theorem readBytes_of_le {position n : ℕ} (h : position + n ≤ coff.length) :
    ∃ bytes, readBytes coff position n = .ok bytes := by
  refine ⟨coff.readAt n position, ?_⟩
  rw [readBytes, if_neg (by omega), Int.toNat_natCast]
  refine if_pos ?_
  rw [HostFile.readAt, List.length_take, List.length_drop]
  omega

theorem copySection_ok {segment : Segment} (hsize : 0 ≤ s.size.toInt) (hptr : 0 ≤ s.scnptr.toInt)
    (h : copySection coff s o = .ok (segment, o')) :
    ∃ bytes : List Byte, bytes.length = s.size.toNat ∧
      (∀ i < s.size.toNat, bytes[i]? = coff[s.scnptr.toNat + i]?) ∧
      segment = ⟨s.paddr, o.inNoffFile, s.size⟩ ∧ o'.noffH = o.noffH ∧
      o'.inNoffFile = o.inNoffFile + s.size ∧ o'.written = o.written ++ bytes := by
  unfold copySection at h
  rw [toInt_of_nonneg hsize, if_neg (by omega)] at h
  obtain ⟨bytes, hread, h⟩ := except_bind_eq_ok h
  obtain ⟨hlen, hbytes⟩ := readBytes_ok hread
  obtain ⟨rfl, rfl⟩ := Prod.mk.inj (Except.ok.inj h)
  exact ⟨bytes, hlen, hbytes, rfl, rfl, rfl, rfl⟩

theorem copySection_of_le (hsize : 0 ≤ s.size.toInt) (hptr : 0 ≤ s.scnptr.toInt)
    (h : s.scnptr.toNat + s.size.toNat ≤ coff.length) : ∃ r, copySection coff s o = .ok r := by
  unfold copySection
  rw [toInt_of_nonneg hsize, if_neg (by omega)]
  obtain ⟨bytes, hread⟩ := readBytes_of_le h
  dsimp only
  rw [hread]
  exact ⟨_, rfl⟩

/-- A segment of the header that holds the one section of its kind, if there is one. -/
def SegmentOf (coff : HostFile) (written : List Byte) (ss : List SectionHeader)
    (segment : Segment) : Prop :=
  (ss = [] ∧ segment.size = 0) ∨
  ∃ s k, ss = [s] ∧ segment.virtualAddr = s.paddr ∧ segment.size = s.size ∧
    0 ≤ s.size.toInt ∧ segment.inFileAddr.toNat = noffHdrSize + k ∧
    k + s.size.toNat ≤ written.length ∧
    ∀ i < s.size.toNat, written[k + i]? = coff[s.scnptr.toNat + i]?

theorem SegmentOf.append {written : List Byte} {ss : List SectionHeader} {segment : Segment}
    (h : SegmentOf coff written ss segment) (bytes : List Byte) :
    SegmentOf coff (written ++ bytes) ss segment := by
  obtain h | ⟨s, k, hss, haddr, hsize, hpos, hfile, hlen, hbytes⟩ := h
  · exact .inl h
  · refine .inr ⟨s, k, hss, haddr, hsize, hpos, hfile, ?_, fun i hi => ?_⟩
    · rw [List.length_append]
      omega
    · rw [List.getElem?_append_left (by omega), hbytes i hi]

theorem SegmentOf.copied {written bytes : List Byte} {inNoffFile : Word}
    (hoff : inNoffFile.toNat = noffHdrSize + written.length) (hpos : 0 ≤ s.size.toInt)
    (hlen : bytes.length = s.size.toNat)
    (hbytes : ∀ i < s.size.toNat, bytes[i]? = coff[s.scnptr.toNat + i]?) :
    SegmentOf coff (written ++ bytes) [s] ⟨s.paddr, inNoffFile, s.size⟩ := by
  refine .inr ⟨s, written.length, rfl, rfl, rfl, hpos, hoff, ?_, fun i hi => ?_⟩
  · rw [List.length_append, hlen]
  · rw [List.getElem?_append_right (by omega), Nat.add_sub_cancel_left, hbytes i hi]

theorem SegmentOf.places {written header : List Byte} {ss : List SectionHeader} {segment : Segment}
    (h : SegmentOf coff written ss segment) (hh : header.length = noffHdrSize) (a : ℤ) (b : Byte) :
    Places (header ++ written) segment.virtualAddr segment.inFileAddr segment.size a b ↔
      ∃ s ∈ ss, Places coff s.paddr s.scnptr s.size a b := by
  obtain ⟨rfl, hzero⟩ | ⟨s, k, rfl, haddr, hsize, hpos, hfile, hlen, hbytes⟩ := h
  · simp only [Places, hzero, List.not_mem_nil, false_and, exists_false, iff_false]
    rintro ⟨i, hi, -⟩
    have hzero : (0 : Word).toInt = 0 := rfl
    omega
  · simp only [List.mem_singleton, exists_eq_left, Places, haddr, hsize, hfile]
    refine exists_congr fun i => and_congr_right fun hi => and_congr_right fun _ => ?_
    rw [toInt_of_nonneg hpos] at hi
    rw [List.getElem?_append_right (by omega), hh, Nat.add_assoc, Nat.add_sub_cancel_left,
      hbytes i (by omega)]

theorem ofKind_same {k : SectionKind} (hsize : s.size ≠ 0) (hk : s.kind = some k)
    (done : List SectionHeader) : ofKind (done ++ [s]) k = ofKind done k ++ [s] := by
  have hyes : decide (s.size ≠ 0 ∧ s.kind = some k) = true := decide_eq_true ⟨hsize, hk⟩
  rw [ofKind, List.filter_append, List.filter_cons_of_pos (by exact hyes), List.filter_nil, ofKind]

theorem ofKind_other {k : SectionKind} (h : s.size = 0 ∨ s.kind ≠ some k)
    (done : List SectionHeader) : ofKind (done ++ [s]) k = ofKind done k := by
  have hno : ¬decide (s.size ≠ 0 ∧ s.kind = some k) = true := by
    rw [decide_eq_true_eq]
    tauto
  rw [ofKind, List.filter_append, List.filter_cons_of_neg (by exact hno), List.filter_nil,
    List.append_nil, ofKind]

theorem mem_ofKind {ss : List SectionHeader} {k : SectionKind} :
    s ∈ ofKind ss k ↔ s ∈ ss ∧ s.size ≠ 0 ∧ s.kind = some k := by
  simp [ofKind]

theorem fileBytes_eq (ss : List SectionHeader) : fileBytes ss =
    ((ofKind ss .text).map fun s => s.size.toNat).sum +
      ((ofKind ss .data).map fun s => s.size.toNat).sum := by
  rw [fileBytes, List.map_append, List.sum_append]

structure Converted (coff : HostFile) (done : List SectionHeader) (o : Output) : Prop where
  offset : o.inNoffFile.toNat = noffHdrSize + o.written.length
  length : o.written.length = fileBytes done
  code : SegmentOf coff o.written (ofKind done .text) o.noffH.code
  initData : SegmentOf coff o.written (ofKind done .data) o.noffH.initData
  uninitData : (ofKind done .bss = [] ∧ o.noffH.uninitData.size = 0) ∨
    ∃ s, ofKind done .bss = [s] ∧ o.noffH.uninitData.virtualAddr = s.paddr ∧
      o.noffH.uninitData.size = s.size

theorem converted_start (junk : NoffHeader) (position : ℕ) :
    Converted coff [] ⟨.start junk, BitVec.ofNat 32 noffHdrSize, [], position⟩ :=
  ⟨rfl, rfl, .inl ⟨rfl, rfl⟩, .inl ⟨rfl, rfl⟩, .inl ⟨rfl, rfl⟩⟩

theorem SegmentOf.eq_nil {written : List Byte} {ss : List SectionHeader} {segment : Segment}
    (h : SegmentOf coff written ss segment) (hss : ∀ s ∈ ss, s.size ≠ 0)
    (hsize : segment.size = 0) :
    ss = [] := by
  obtain ⟨rfl, -⟩ | ⟨s, -, rfl, -, hs, -⟩ := h
  · rfl
  · exact absurd (hs.symm.trans hsize) (hss s (List.mem_singleton_self s))

variable {done : List SectionHeader}

theorem Converted.copied (h : Converted coff done o) (hk : s.kind ≠ some .bss)
    (hfits : noffHdrSize + fileBytes (done ++ [s]) < 2 ^ 31)
    (hbytes : fileBytes (done ++ [s]) = fileBytes done + s.size.toNat) {bytes : List Byte}
    (hlen : bytes.length = s.size.toNat) (hoff : o'.inNoffFile = o.inNoffFile + s.size)
    (hwritten : o'.written = o.written ++ bytes)
    (huninit : o'.noffH.uninitData = o.noffH.uninitData)
    (hcode : SegmentOf coff o'.written (ofKind (done ++ [s]) .text) o'.noffH.code)
    (hdata : SegmentOf coff o'.written (ofKind (done ++ [s]) .data) o'.noffH.initData) :
    Converted coff (done ++ [s]) o' := by
  have hlength : o'.written.length = fileBytes (done ++ [s]) := by
    rw [hwritten, List.length_append, h.length, hlen, hbytes]
  refine ⟨?_, hlength, hcode, hdata, ?_⟩
  · rw [hlength, hbytes, hoff, BitVec.toNat_add, h.offset, h.length, Nat.mod_eq_of_lt,
      Nat.add_assoc]
    rw [hbytes] at hfits
    omega
  · rw [huninit, ofKind_other (.inr hk)]
    exact h.uninitData

theorem Converted.step (h : Converted coff done o) (hr : InRange (done ++ [s]))
    (htext : (ofKind (done ++ [s]) .text).length ≤ 1)
    (hbss : Contiguous (ofKind (done ++ [s]) .bss))
    (hs : addSection coff o s = .ok o') : Converted coff (done ++ [s]) o' := by
  have hfits := hr.fits
  unfold addSection at hs
  by_cases hsize : s.size = 0
  · rw [if_pos hsize] at hs
    obtain rfl := Except.ok.inj hs
    have hsame : ∀ k, ofKind (done ++ [s]) k = ofKind done k := fun k =>
      ofKind_other (.inl hsize) done
    refine ⟨h.offset, ?_, ?_, ?_, ?_⟩
    · rw [fileBytes, hsame, hsame]
      exact h.length
    · rw [hsame]
      exact h.code
    · rw [hsame]
      exact h.initData
    · rw [hsame]
      exact h.uninitData
  · rw [if_neg hsize] at hs
    cases hk : s.kind with
    | none =>
      simp only [hk] at hs
      cases hs
    | some k =>
      have hother : ∀ k', k' ≠ k → ofKind (done ++ [s]) k' = ofKind done k' := fun k' hne =>
        ofKind_other (.inr (by rw [hk]; simpa using Ne.symm hne)) done
      have hsame := ofKind_same hsize hk done
      cases k with
      | text =>
        have hsigns := hr.signs s
          (List.mem_append_left _ (mem_ofKind.mpr ⟨by simp, hsize, hk⟩))
        simp only [hk] at hs
        obtain ⟨⟨segment, o₁⟩, hcopy, hs⟩ := except_bind_eq_ok hs
        obtain ⟨bytes, hlen, hbytes, rfl, hhdr, hoff, hwritten⟩ :=
          copySection_ok hsigns.1 hsigns.2 hcopy
        obtain rfl := Except.ok.inj hs
        have hnil : ofKind done .text = [] := by
          rw [hsame, List.length_append, List.length_singleton] at htext
          exact List.eq_nil_of_length_eq_zero (by omega)
        refine h.copied (by rw [hk]; decide) hfits ?_ hlen hoff hwritten ?_ ?_ ?_
        · rw [fileBytes_eq, fileBytes_eq, hsame, hother .data (by decide), hnil]
          simp [Nat.add_comm]
        · simp only [hhdr]
        · simp only [hwritten, hsame, hnil, List.nil_append]
          exact .copied h.offset hsigns.1 hlen hbytes
        · simp only [hwritten, hhdr, hother .data (by decide)]
          exact h.initData.append bytes
      | data =>
        have hsigns := hr.signs s
          (List.mem_append_right _ (mem_ofKind.mpr ⟨by simp, hsize, hk⟩))
        simp only [hk] at hs
        split_ifs at hs with hinit
        obtain ⟨⟨segment, o₁⟩, hcopy, hs⟩ := except_bind_eq_ok hs
        obtain ⟨bytes, hlen, hbytes, rfl, hhdr, hoff, hwritten⟩ :=
          copySection_ok hsigns.1 hsigns.2 hcopy
        obtain rfl := Except.ok.inj hs
        have hnil : ofKind done .data = [] :=
          h.initData.eq_nil (fun s hs => (mem_ofKind.mp hs).2.1) (not_not.mp hinit)
        refine h.copied (by rw [hk]; decide) hfits ?_ hlen hoff hwritten ?_ ?_ ?_
        · rw [fileBytes_eq, fileBytes_eq, hsame, hother .text (by decide), hnil]
          simp
        · simp only [hhdr]
        · simp only [hwritten, hhdr, hother .text (by decide)]
          exact h.code.append bytes
        · simp only [hwritten, hsame, hnil, List.nil_append]
          exact .copied h.offset hsigns.1 hlen hbytes
      | bss =>
        simp only [hk] at hs
        obtain ⟨hnil, hzero⟩ | ⟨s', hs', haddr, hsize'⟩ := h.uninitData
        swap
        · have hmem : s' ∈ ofKind done .bss := hs' ▸ List.mem_singleton_self s'
          rw [hsame, hs'] at hbss
          rw [if_pos (hsize' ▸ (mem_ofKind.mp hmem).2.1), haddr, hsize',
            if_pos (List.isChain_pair.mp hbss)] at hs
          cases hs
        rw [if_neg (not_not.mpr hzero)] at hs
        obtain rfl := Except.ok.inj hs
        refine ⟨h.offset, ?_, ?_, ?_, .inr ⟨s, ?_, rfl, rfl⟩⟩
        · rw [fileBytes, hother .text (by decide), hother .data (by decide)]
          exact h.length
        · rw [hother .text (by decide)]
          exact h.code
        · rw [hother .data (by decide)]
          exact h.initData
        · rw [hsame, hnil, List.nil_append]

theorem ofKind_append (ss ss' : List SectionHeader) (k : SectionKind) :
    ofKind (ss ++ ss') k = ofKind ss k ++ ofKind ss' k := List.filter_append ..

theorem InRange.left {ss ss' : List SectionHeader} (h : InRange (ss ++ ss')) : InRange ss := by
  refine ⟨fun s hs => h.signs s ?_, lt_of_le_of_lt ?_ h.fits⟩
  · rw [ofKind_append, ofKind_append]
    obtain hs | hs := List.mem_append.mp hs
    · exact List.mem_append_left _ (List.mem_append_left _ hs)
    · exact List.mem_append_right _ (List.mem_append_left _ hs)
  · simp only [fileBytes_eq, ofKind_append, List.map_append, List.sum_append]
    omega

theorem length_ofKind_left {ss ss' : List SectionHeader} {k : SectionKind} {n : ℕ}
    (h : (ofKind (ss ++ ss') k).length ≤ n) : (ofKind ss k).length ≤ n := by
  rw [ofKind_append, List.length_append] at h
  omega

/-- The sections one after the other. -/
theorem Converted.run {rest : List SectionHeader} (h : Converted coff done o)
    (hr : InRange (done ++ rest)) (htext : (ofKind (done ++ rest) .text).length ≤ 1)
    (hbss : Contiguous (ofKind (done ++ rest) .bss))
    (hs : rest.foldlM (addSection coff) o = .ok o') : Converted coff (done ++ rest) o' := by
  induction rest generalizing done o with
  | nil =>
    obtain rfl := Except.ok.inj hs
    rwa [List.append_nil]
  | cons s rest ih =>
    obtain ⟨o₁, hstep, hs⟩ := except_bind_eq_ok hs
    rw [List.append_cons] at hr htext hbss ⊢
    have hbss' : Contiguous (ofKind (done ++ [s]) .bss) := by
      rw [ofKind_append] at hbss
      exact hbss.left_of_append
    exact ih (h.step hr.left (length_ofKind_left htext) hbss' hstep) hr htext hbss hs

theorem Converted.bss_le (h : Converted coff done o) : (ofKind done .bss).length ≤ 1 := by
  obtain ⟨hnil, -⟩ | ⟨s, hs, -⟩ := h.uninitData
  · simp [hnil]
  · simp [hs]

theorem length_toBytes (h : NoffHeader) : h.toBytes.length = noffHdrSize := by
  rw [NoffHeader.toBytes, List.length_map, List.length_range]

theorem ofBuffer_toBytes (h : NoffHeader) (written : List Byte) :
    NoffHeader.ofBuffer (bufferAt (h.toBytes ++ written) 0) = h := by
  have hword : ∀ i < 10, wordAt (bufferAt (h.toBytes ++ written) 0) i = h.word i := by
    intro i hi
    rw [← wordAt_ofWords h.word i]
    refine wordAt_congr fun j _ hj => ?_
    have hj' : j < noffHdrSize := lt_of_lt_of_le hj (by simp only [noffHdrSize]; omega)
    rw [bufferAt, Nat.zero_add, List.getD_eq_getElem?_getD,
      List.getElem?_append_left (by rwa [length_toBytes])]
    simp [NoffHeader.toBytes, hj']
  simp only [NoffHeader.ofBuffer, hword 0 (by decide), hword 1 (by decide), hword 2 (by decide),
    hword 3 (by decide), hword 4 (by decide), hword 5 (by decide), hword 6 (by decide),
    hword 7 (by decide), hword 8 (by decide), hword 9 (by decide)]
  rfl

theorem Converted.zeros (h : Converted coff done o) (a : ℤ) (b : Byte) :
    Zeros o.noffH.uninitData.virtualAddr o.noffH.uninitData.size a b ↔
      ∃ s ∈ ofKind done .bss, Zeros s.paddr s.size a b := by
  obtain ⟨hnil, hzero⟩ | ⟨s, hs, haddr, hsize⟩ := h.uninitData
  · simp only [hnil, hzero, List.not_mem_nil, false_and, exists_false, iff_false, Zeros]
    have hzero : (0 : Word).toInt = 0 := rfl
    omega
  · simp only [hs, List.mem_singleton, exists_eq_left, haddr, hsize]

theorem Converted.image (h : Converted coff (sections coff) o) (a : ℤ) (b : Byte) :
    noffImage (o.noffH.toBytes ++ o.written) a b ↔ coffImage coff a b := by
  unfold noffImage
  rw [ofBuffer_toBytes]
  dsimp only
  rw [h.code.places (length_toBytes _), h.initData.places (length_toBytes _), h.zeros]
  simp only [mem_ofKind, coffImage]
  constructor
  · rintro (⟨s, ⟨hs, hsize, hk⟩, hp⟩ | ⟨s, ⟨hs, hsize, hk⟩, hp⟩ | ⟨s, ⟨hs, hsize, hk⟩, hp⟩)
    all_goals
      refine ⟨s, hs, hsize, ?_⟩
      rw [SectionHeader.places, hk]
      exact hp
  · rintro ⟨s, hs, hsize, hp⟩
    rw [SectionHeader.places] at hp
    cases hk : s.kind with
    | none =>
      rw [hk] at hp
      exact hp.elim
    | some k =>
      rw [hk] at hp
      cases k with
      | text => exact .inl ⟨s, ⟨hs, hsize, hk⟩, hp⟩
      | data => exact .inr (.inl ⟨s, ⟨hs, hsize, hk⟩, hp⟩)
      | bss => exact .inr (.inr ⟨s, ⟨hs, hsize, hk⟩, hp⟩)

variable {junk : NoffHeader}

theorem coff2noff_inv {noff : HostFile} (h : coff2noff junk coff = .ok noff) :
    ∃ o, (sections coff).foldlM (addSection coff) (loopStart junk coff) = .ok o ∧
      noff = o.noffH.toBytes ++ o.written := by
  unfold coff2noff at h
  obtain ⟨-, -, h⟩ := except_bind_eq_ok h
  by_cases hmagic : halfAt (bufferAt coff 0) 0 = mipselMagic
  swap
  · rw [if_pos hmagic] at h
    cases h
  rw [if_neg (not_not.mpr hmagic)] at h
  obtain ⟨-, -, h⟩ := except_bind_eq_ok h
  by_cases homagic : halfAt (bufferAt coff fileHdrSize) 0 = oMagic
  swap
  · rw [if_pos homagic] at h
    cases h
  rw [if_neg (not_not.mpr homagic)] at h
  obtain ⟨-, -, h⟩ := except_bind_eq_ok h
  obtain ⟨o, hloop, h⟩ := except_bind_eq_ok h
  exact ⟨o, hloop, (Except.ok.inj h).symm⟩

theorem coff2noff_of_loop (h : Acceptable coff)
    (hloop : (sections coff).foldlM (addSection coff) (loopStart junk coff) = .ok o) :
    coff2noff junk coff = .ok (o.noffH.toBytes ++ o.written) := by
  have hlen := h.headers
  obtain ⟨b₁, hread₁⟩ := readBytes_of_le (show 0 + fileHdrSize ≤ coff.length by omega)
  obtain ⟨b₂, hread₂⟩ := readBytes_of_le (show fileHdrSize + aoutHdrSize ≤ coff.length by omega)
  obtain ⟨b₃, hread₃⟩ := readBytes_of_le hlen
  simp only [coff2noff, hread₁, hread₂, hread₃, hloop, h.mipsel, h.omagic, bind, Except.bind, ne_eq,
    not_true_eq_false, if_false]
  rfl

theorem Converted.accepts (h : Converted coff done o) (hr : InRange (done ++ [s]))
    (hknown : s.size ≠ 0 → s.kind ≠ none)
    (hpresent : s.size ≠ 0 → s.kind ≠ some .bss → s.scnptr.toNat + s.size.toNat ≤ coff.length)
    (hdata : (ofKind (done ++ [s]) .data).length ≤ 1)
    (hbss : (ofKind (done ++ [s]) .bss).length ≤ 1) : ∃ o', addSection coff o s = .ok o' := by
  unfold addSection
  by_cases hzero : s.size = 0
  · exact ⟨o, if_pos hzero⟩
  rw [if_neg hzero]
  have hfirst : ∀ k, s.kind = some k → (ofKind (done ++ [s]) k).length ≤ 1 →
      ofKind done k = [] := by
    intro k hk hle
    rw [ofKind_same hzero hk, List.length_append, List.length_singleton] at hle
    exact List.eq_nil_of_length_eq_zero (by omega)
  cases hk : s.kind with
  | none => exact absurd hk (hknown hzero)
  | some k =>
    cases k with
    | text =>
      obtain ⟨hsize, hptr⟩ := hr.signs s
        (List.mem_append_left _ (mem_ofKind.mpr ⟨by simp, hzero, hk⟩))
      obtain ⟨r, hcopy⟩ := copySection_of_le (o := o) hsize hptr
        (hpresent hzero (by rw [hk]; decide))
      simp only [hcopy]
      exact ⟨_, rfl⟩
    | data =>
      obtain ⟨hsize, hptr⟩ := hr.signs s
        (List.mem_append_right _ (mem_ofKind.mpr ⟨by simp, hzero, hk⟩))
      obtain ⟨r, hcopy⟩ := copySection_of_le (o := o) hsize hptr
        (hpresent hzero (by rw [hk]; decide))
      have hinit : o.noffH.initData.size = 0 := by
        obtain ⟨-, hinit⟩ | ⟨s', -, hs', -⟩ := h.initData
        · exact hinit
        · rw [hfirst _ hk hdata] at hs'
          cases hs'
      simp only [hinit, ne_eq, not_true_eq_false, if_false, hcopy]
      exact ⟨_, rfl⟩
    | bss =>
      have huninit : o.noffH.uninitData.size = 0 := by
        obtain ⟨-, huninit⟩ | ⟨s', hs', -⟩ := h.uninitData
        · exact huninit
        · rw [hfirst _ hk hbss] at hs'
          cases hs'
      simp only [huninit, ne_eq, not_true_eq_false, if_false]
      exact ⟨_, rfl⟩

theorem contiguous_of_le {ss : List SectionHeader} (h : ss.length ≤ 1) : Contiguous ss := by
  match ss, h with
  | [], _ => exact .nil
  | [s], _ => exact .singleton s

theorem Converted.accepts_all {rest : List SectionHeader} (h : Converted coff done o)
    (hr : InRange (done ++ rest)) (hknown : ∀ s ∈ rest, s.size ≠ 0 → s.kind ≠ none)
    (hpresent : ∀ s ∈ rest, s.size ≠ 0 → s.kind ≠ some .bss →
      s.scnptr.toNat + s.size.toNat ≤ coff.length)
    (htext : (ofKind (done ++ rest) .text).length ≤ 1)
    (hdata : (ofKind (done ++ rest) .data).length ≤ 1)
    (hbss : (ofKind (done ++ rest) .bss).length ≤ 1) :
    ∃ o', rest.foldlM (addSection coff) o = .ok o' := by
  induction rest generalizing done o with
  | nil => exact ⟨o, rfl⟩
  | cons s rest ih =>
    rw [List.append_cons] at hr htext hdata hbss
    obtain ⟨o₁, hstep⟩ := h.accepts hr.left (hknown s List.mem_cons_self)
      (hpresent s List.mem_cons_self) (length_ofKind_left hdata) (length_ofKind_left hbss)
    have h₁ := h.step hr.left (length_ofKind_left htext)
      (contiguous_of_le (length_ofKind_left hbss)) hstep
    obtain ⟨o', hrest⟩ := ih h₁ hr (fun s hs => hknown s (List.mem_cons_of_mem _ hs))
      (fun s hs => hpresent s (List.mem_cons_of_mem _ hs)) htext hdata hbss
    exact ⟨o', by rw [List.foldlM_cons, hstep]; exact hrest⟩

theorem accepted_image (hr : InRange (sections coff))
    (htext : (ofKind (sections coff) .text).length ≤ 1)
    (hbss : Contiguous (ofKind (sections coff) .bss)) {noff : HostFile}
    (h : coff2noff junk coff = .ok noff) :
    (ofKind (sections coff) .bss).length ≤ 1 ∧ ∀ a b, noffImage noff a b ↔ coffImage coff a b := by
  obtain ⟨o, hloop, rfl⟩ := coff2noff_inv h
  have hall : Converted coff (sections coff) o :=
    (converted_start junk _).run hr htext hbss hloop
  exact ⟨hall.bss_le, hall.image⟩

/-- With at most one `.text` and at most one `.bss` or `.sbss` that is not empty the image is
preserved, and of the files that should be accepted only those with at most one `.bss` or `.sbss`
are. -/
theorem coff2noff_preserves (junk : NoffHeader) (hr : InRange (sections coff)) :
    ((ofKind (sections coff) .text).length ≤ 1 → (ofKind (sections coff) .bss).length ≤ 1 →
      Preserves junk coff) ∧
    (Acceptable coff → (Preserves junk coff ↔ (ofKind (sections coff) .bss).length ≤ 1)) := by
  have hsimple : (ofKind (sections coff) .text).length ≤ 1 →
      (ofKind (sections coff) .bss).length ≤ 1 → Preserves junk coff := by
    intro htext hbss
    refine ⟨fun noff h => (accepted_image hr htext (contiguous_of_le hbss) h).2, fun h => ?_⟩
    obtain ⟨o, hloop⟩ := (converted_start junk _).accepts_all hr h.known h.present htext
      h.data hbss
    exact ⟨_, coff2noff_of_loop h hloop⟩
  refine ⟨hsimple, fun h => ⟨fun hp => ?_, hsimple h.text⟩⟩
  obtain ⟨noff, haccept⟩ := hp.2 h
  exact (accepted_image hr h.text h.contiguous haccept).1

def hasSection (coff : HostFile) (k : SectionKind) (paddr size scnptr : Word) : Bool :=
  (sections coff).any fun s =>
    decide (s.kind = some k ∧ s.paddr = paddr ∧ s.size = size ∧ s.scnptr = scnptr)

theorem exists_of_hasSection {k : SectionKind} {paddr size scnptr : Word}
    (h : hasSection coff k paddr size scnptr = true) :
    ∃ s ∈ sections coff, s.kind = some k ∧ s.paddr = paddr ∧ s.size = size ∧ s.scnptr = scnptr := by
  obtain ⟨s, hs, hx⟩ := List.any_eq_true.mp h
  exact ⟨s, hs, of_decide_eq_true hx⟩

def smallCoff (headers : List (List Byte × Byte × Byte × Byte)) (contents : List Byte) : HostFile :=
  [0x62, 0x01, BitVec.ofNat 8 headers.length, 0] ++ List.replicate 16 0 ++ [0x07, 0x01] ++
    List.replicate 54 0 ++
    headers.flatMap (fun (name, paddr, size, scnptr) => name ++ [paddr, 0, 0, 0, 0, 0, 0, 0] ++
      [size, 0, 0, 0, scnptr, 0, 0, 0] ++ List.replicate 16 0) ++ contents

def dotText : List Byte := [46, 116, 101, 120, 116, 0, 0, 0]

def dotBss : List Byte := [46, 98, 115, 115, 0, 0, 0, 0]

def dotSbss : List Byte := [46, 115, 98, 115, 115, 0, 0, 0]

def zeroHeader : NoffHeader := ⟨0, ⟨0, 0, 0⟩, ⟨0, 0, 0⟩, ⟨0, 0, 0⟩⟩

def codeAndBss : HostFile := smallCoff [(dotText, 0, 4, 156), (dotBss, 4, 8, 0)] [1, 2, 3, 4]

theorem codeAndBss_preserved : ∃ noff, coff2noff zeroHeader codeAndBss = .ok noff ∧
    noffImage noff 2 3 ∧ noffImage noff 11 0 := by
  have hr : InRange (sections codeAndBss) := ⟨by decide +kernel, by decide +kernel⟩
  have hp := (coff2noff_preserves zeroHeader hr).1 (by decide +kernel) (by decide +kernel)
  have ha : Acceptable codeAndBss :=
    ⟨by decide +kernel, by decide +kernel, by decide +kernel, by decide +kernel, by decide +kernel,
      by decide +kernel, by decide +kernel, contiguous_of_le (by decide +kernel)⟩
  obtain ⟨noff, hok⟩ := hp.2 ha
  obtain ⟨s, hs, hk, haddr, hsize, hptr⟩ := exists_of_hasSection
    (show hasSection codeAndBss .text 0 4 156 = true by decide +kernel)
  obtain ⟨s', hs', hk', haddr', hsize', -⟩ := exists_of_hasSection
    (show hasSection codeAndBss .bss 4 8 0 = true by decide +kernel)
  refine ⟨noff, hok, (hp.1 noff hok 2 3).mpr ⟨s, hs, ?_, ?_⟩,
    (hp.1 noff hok 11 0).mpr ⟨s', hs', ?_, ?_⟩⟩
  · rw [hsize]
    decide
  · simp only [SectionHeader.places, hk, haddr, hsize, hptr]
    exact ⟨2, by decide, by decide, by decide +kernel⟩
  · rw [hsize']
    decide
  · simp only [SectionHeader.places, hk', haddr', hsize']
    exact ⟨by decide, by decide, rfl⟩

def contiguousBss : HostFile := smallCoff [(dotBss, 0, 8, 0), (dotSbss, 8, 8, 0)] []

def bssWithGap : HostFile := smallCoff [(dotBss, 0, 8, 0), (dotSbss, 16, 8, 0)] []

def twoTexts : HostFile :=
  smallCoff [(dotText, 0, 4, 156), (dotText, 4, 4, 160)] [1, 2, 3, 4, 5, 6, 7, 8]

theorem header_of_loop {noff : HostFile} {p : NoffHeader → Bool}
    (hloop : ((sections coff).foldlM (addSection coff) (loopStart junk coff)).toOption.any
      (fun o : Output => p o.noffH) = true)
    (h : coff2noff junk coff = .ok noff) : p (NoffHeader.ofBuffer (bufferAt noff 0)) = true := by
  obtain ⟨o, ho, hp⟩ := (Option.any_eq_true _ _).mp hloop
  obtain ⟨o', ho', rfl⟩ := coff2noff_inv h
  rw [toOption_eq_some ho] at ho'
  obtain rfl := Except.ok.inj ho'
  rwa [ofBuffer_toBytes]

theorem sections_not_preserved : ¬Preserves zeroHeader contiguousBss ∧
    ¬Preserves zeroHeader bssWithGap ∧ ¬Preserves zeroHeader twoTexts := by
  refine ⟨fun hp => ?_, fun hp => ?_, fun hp => ?_⟩
  · have ha : Acceptable contiguousBss :=
      ⟨by decide +kernel, by decide +kernel, by decide +kernel, by decide +kernel,
        by decide +kernel,
        by decide +kernel, by decide +kernel, by unfold Contiguous; decide +kernel⟩
    have hr : InRange (sections contiguousBss) := ⟨by decide +kernel, by decide +kernel⟩
    obtain ⟨noff, hok⟩ := hp.2 ha
    have hle := (accepted_image hr ha.text ha.contiguous hok).1
    revert hle
    decide +kernel
  · have hok : (coff2noff zeroHeader bssWithGap).toOption.any (fun _ => true) = true := by
      decide +kernel
    obtain ⟨noff, hok, -⟩ := (Option.any_eq_true _ _).mp hok
    have hok := toOption_eq_some hok
    have hheader := header_of_loop (p := fun h => decide (h.uninitData.virtualAddr = 0 ∧
      h.uninitData.size = 16)) (by decide +kernel) hok
    obtain ⟨haddr, hsize⟩ := of_decide_eq_true hheader
    have himage : noffImage noff 8 0 := by
      refine .inr (.inr ?_)
      rw [haddr, hsize]
      exact ⟨by decide, by decide, rfl⟩
    obtain ⟨s, hs, -, hplaces⟩ := (hp.1 noff hok 8 0).mp himage
    have hno : ∀ s ∈ sections bssWithGap, s.kind = some .bss ∧
        (s.paddr.toInt + s.size.toInt ≤ 8 ∨ 8 < s.paddr.toInt) := by decide +kernel
    obtain ⟨hk, hrange⟩ := hno s hs
    rw [SectionHeader.places, hk] at hplaces
    obtain ⟨h1, h2, -⟩ := hplaces
    omega
  · have hok : (coff2noff zeroHeader twoTexts).toOption.any (fun _ => true) = true := by
      decide +kernel
    obtain ⟨noff, hok, -⟩ := (Option.any_eq_true _ _).mp hok
    have hok := toOption_eq_some hok
    have hheader := header_of_loop (p := fun h => decide (h.code.virtualAddr = 4 ∧
      h.initData.size = 0 ∧ h.uninitData.size = 0)) (by decide +kernel) hok
    obtain ⟨haddr, hinit, huninit⟩ := of_decide_eq_true hheader
    obtain ⟨s, hs, hk, haddr', hsize, hptr⟩ := exists_of_hasSection
      (show hasSection twoTexts .text 0 4 156 = true by decide +kernel)
    have himage : coffImage twoTexts 0 1 := by
      refine ⟨s, hs, by rw [hsize]; decide, ?_⟩
      simp only [SectionHeader.places, hk, haddr', hsize, hptr]
      exact ⟨0, by decide, by decide, by decide +kernel⟩
    have hzero : (0 : Word).toInt = 0 := rfl
    have hfour : (4 : Word).toInt = 4 := rfl
    obtain ⟨i, -, hi, -⟩ | ⟨i, hi, -⟩ | ⟨h1, h2, -⟩ := (hp.1 noff hok 0 1).mpr himage
    · rw [haddr] at hi
      omega
    · rw [hinit] at hi
      omega
    · rw [huninit] at h2
      omega

end Nachos.Coff
