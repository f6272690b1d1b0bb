import Mathlib.Data.BitVec
import Mathlib.Tactic

/-! Address translation of the simulated machine (`machine.h`, `translate.h`,
`translate.cc`). A C `int` that indexes a table stays an integer, a machine word is a
32-bit vector. Everything that stops the simulator itself is a `Trap`; what the
simulated program sees is an `ExceptionType`. The two `ASSERT`s that ask for exactly one
of TLB and page table are carried by the type `Mmu`. -/
namespace Nachos

abbrev Byte := BitVec 8
abbrev Word := BitVec 32
abbrev Memory := ℕ → Byte

/-- What ends the host process: a failed `ASSERT`, an access outside a host object, a
host division without a value, a negative file offset. -/
inductive Trap where
  | assertion
  | memory
  | arithmetic
  deriving DecidableEq, Repr

inductive ExceptionType where
  | syscall
  | pageFault
  | readOnly
  | busError
  | addressError
  | overflow
  | illegalInstr
  deriving DecidableEq, Repr

abbrev pageSize : ℕ := 128
abbrev numPhysPages : ℕ := 32
abbrev memorySize : ℕ := numPhysPages * pageSize
abbrev tlbSize : ℕ := 4

instance : NeZero numPhysPages := ⟨by decide⟩

instance : NeZero tlbSize := ⟨by decide⟩

/-- What `ReadMem` assembles from `mainMemory`, an array of `char`: one byte is
sign-extended, two are not. Other sizes fail its `ASSERT`. -/
def Memory.read (mem : Memory) (pa size : ℕ) : Option Word :=
  match size with
  | 1 => some ((mem pa).signExtend 32)
  | 2 => some ((mem (pa + 1) ++ mem pa : BitVec 16).zeroExtend 32)
  | 4 => some (mem (pa + 3) ++ mem (pa + 2) ++ mem (pa + 1) ++ mem pa)
  | _ => none

def Memory.store (mem : Memory) (pa size : ℕ) (value : Word) : Memory := fun a =>
  if pa ≤ a ∧ a < pa + size then value.extractLsb' (8 * (a - pa)) 8 else mem a

structure TranslationEntry where
  virtualPage : ℤ
  physicalPage : ℤ
  valid : Bool
  readOnly : Bool
  use : Bool
  dirty : Bool
  deriving DecidableEq, Repr

abbrev Tlb := Fin tlbSize → TranslationEntry

inductive Mmu where
  | tlb (entries : Tlb)
  | pageTable (entries : List TranslationEntry)

def Tlb.lookup (t : Tlb) (vpn : ℤ) : Option (Fin tlbSize) :=
  (List.finRange tlbSize).find? fun i => (t i).valid && (t i).virtualPage == vpn

def TranslationEntry.touch (entry : TranslationEntry) (writing : Bool) : TranslationEntry :=
  { entry with use := true, dirty := entry.dirty || writing }

/-- The part of `Translate` after the entry is found: access check, frame check, use and
dirty bits, and the closing `ASSERT` on the physical address. -/
def TranslationEntry.access (entry : TranslationEntry) (offset size : ℕ) (writing : Bool) :
    Except Trap (Except ExceptionType (ℕ × TranslationEntry)) :=
  if entry.readOnly && writing then .ok (.error .readOnly)
  else if entry.physicalPage < 0 ∨ numPhysPages ≤ entry.physicalPage then .ok (.error .busError)
  else
    let physAddr := entry.physicalPage.toNat * pageSize + offset
    if physAddr + size ≤ memorySize then
      .ok (.ok (physAddr, entry.touch writing))
    else .error .assertion

def misaligned (virtAddr : Word) (size : ℕ) : Bool :=
  (size == 4 && virtAddr.toNat % 4 != 0) || (size == 2 && virtAddr.toNat % 2 != 0)

def translate (mmu : Mmu) (virtAddr : Word) (size : ℕ) (writing : Bool) :
    Except Trap (Except ExceptionType (ℕ × Mmu)) :=
  if misaligned virtAddr size then .ok (.error .addressError)
  else
    let vpn := virtAddr.toNat / pageSize
    let offset := virtAddr.toNat % pageSize
    match mmu with
    | .pageTable entries =>
      match entries[vpn]? with
      | none => .ok (.error .addressError)
      | some entry =>
        if !entry.valid then .ok (.error .pageFault)
        else do
          match ← entry.access offset size writing with
          | .error e => .ok (.error e)
          | .ok (pa, entry') => .ok (.ok (pa, .pageTable (entries.set vpn entry')))
    | .tlb entries =>
      match entries.lookup vpn with
      | none => .ok (.error .pageFault)
      | some i => do
        match ← (entries i).access offset size writing with
        | .error e => .ok (.error e)
        | .ok (pa, entry') => .ok (.ok (pa, .tlb (Function.update entries i entry')))

private theorem extract_append_low {w : ℕ} (x : BitVec w) (y : Byte) :
    (x ++ y).extractLsb' 0 8 = y := by
  ext i hi
  simp [BitVec.getLsbD_append, hi]

private theorem extract_append_high {w : ℕ} (x : BitVec w) (y : Byte) (k : ℕ) :
    (x ++ y).extractLsb' (8 + k) 8 = x.extractLsb' k 8 := by
  ext i hi
  have hge : ¬8 + k + i < 8 := by omega
  have hsub : 8 + k + i - 8 = k + i := by omega
  simp [BitVec.getLsbD_append, hge, hsub]

private theorem extract_zeroExtend (x : BitVec 16) {k : ℕ} (hk : k + 8 ≤ 16) :
    (x.zeroExtend 32).extractLsb' k 8 = x.extractLsb' k 8 := by
  ext i hi
  have hlt : k + i < 32 := by omega
  simp [hlt]

theorem Memory.extract_read {mem : Memory} {pa size : ℕ} {v : Word} (h : mem.read pa size = some v)
    {j : ℕ} (hj : j < size) : v.extractLsb' (8 * j) 8 = mem (pa + j) := by
  unfold Memory.read at h
  split at h
  · obtain rfl := Option.some.inj h
    obtain rfl : j = 0 := by omega
    ext i hi
    have h32 : i < 32 := by omega
    simp [BitVec.getElem_signExtend, hi, h32]
  · obtain rfl := Option.some.inj h
    rw [extract_zeroExtend _ (by omega)]
    interval_cases j
    · exact extract_append_low _ _
    · exact (extract_append_high _ _ 0).trans (BitVec.extractLsb'_eq_self)
  · obtain rfl := Option.some.inj h
    interval_cases j
    · exact extract_append_low _ _
    · exact (extract_append_high _ _ 0).trans (extract_append_low _ _)
    · exact ((extract_append_high _ _ 8).trans (extract_append_high _ _ 0)).trans
        (extract_append_low _ _)
    · exact ((extract_append_high _ _ 16).trans (extract_append_high _ _ 8)).trans
        ((extract_append_high _ _ 0).trans BitVec.extractLsb'_eq_self)
  · cases h

theorem Tlb.lookup_eq_some {t : Tlb} {vpn : ℤ} {i : Fin tlbSize} (h : t.lookup vpn = some i) :
    (t i).valid = true ∧ (t i).virtualPage = vpn := by
  simpa using List.find?_some h

theorem Tlb.lookup_eq_none {t : Tlb} {vpn : ℤ} :
    t.lookup vpn = none ↔ ∀ i, (t i).valid = true → (t i).virtualPage ≠ vpn := by
  simp [Tlb.lookup]

theorem Tlb.lookup_isSome {t : Tlb} {vpn : ℤ} :
    (t.lookup vpn).isSome ↔ ∃ i, (t i).valid = true ∧ (t i).virtualPage = vpn := by
  simp [Tlb.lookup]

theorem translate_tlb_miss {t : Tlb} {virtAddr : Word} {size : ℕ} (writing : Bool)
    (ha : misaligned virtAddr size = false)
    (h : t.lookup (virtAddr.toNat / pageSize : ℕ) = none) :
    translate (.tlb t) virtAddr size writing = .ok (.error .pageFault) := by
  simp only [translate, ha, Bool.false_eq_true, if_false, h]

theorem translate_tlb_hit {t : Tlb} {virtAddr : Word} {size : ℕ} {writing : Bool}
    {i : Fin tlbSize} {f : Fin numPhysPages} (ha : misaligned virtAddr size = false)
    (h : t.lookup (virtAddr.toNat / pageSize : ℕ) = some i)
    (hro : ((t i).readOnly && writing) = false) (hf : (t i).physicalPage = (f.val : ℤ))
    (hoff : virtAddr.toNat % pageSize + size ≤ pageSize) :
    translate (.tlb t) virtAddr size writing =
      .ok (.ok (f * pageSize + virtAddr.toNat % pageSize,
        .tlb (Function.update t i ((t i).touch writing)))) := by
  have hfit : f.val * pageSize + virtAddr.toNat % pageSize + size ≤ memorySize := by
    have := f.isLt
    simp only [pageSize, memorySize, numPhysPages] at *
    omega
  have hacc : (t i).access (virtAddr.toNat % pageSize) size writing =
      .ok (.ok (f * pageSize + virtAddr.toNat % pageSize, (t i).touch writing)) := by
    unfold TranslationEntry.access
    have hrange : ¬((f.val : ℤ) < 0 ∨ ((numPhysPages : ℕ) : ℤ) ≤ (f.val : ℤ)) := by
      have := f.isLt
      omega
    rw [if_neg (by simp [hro]), hf, if_neg hrange]
    simp only [Int.toNat_natCast, hfit, if_true]
  simp only [translate, ha, Bool.false_eq_true, if_false, h, hacc, bind, Except.bind]

/-- A size the simulator uses, at an aligned offset, never leaves its page. -/
theorem offset_add_size_le {virtAddr : Word} {size : ℕ}
    (hs : size = 1 ∨ size = 2 ∨ size = 4) (ha : misaligned virtAddr size = false) :
    virtAddr.toNat % pageSize + size ≤ pageSize := by
  simp only [pageSize]
  rcases hs with rfl | rfl | rfl
  · omega
  · simp [misaligned] at ha
    omega
  · simp [misaligned] at ha
    omega

theorem TranslationEntry.access_no_trap (entry : TranslationEntry) {offset size : ℕ}
    (writing : Bool) (h : offset + size ≤ pageSize) (t : Trap) :
    entry.access offset size writing ≠ .error t := by
  unfold TranslationEntry.access
  split_ifs with _ hf
  · simp
  · simp
  · simp only [numPhysPages, not_or, not_lt, not_le] at hf
    have hp : entry.physicalPage.toNat * pageSize + offset + size ≤ memorySize := by
      simp only [pageSize, memorySize, numPhysPages] at h ⊢
      omega
    simp [hp]

/-- The closing `ASSERT` of `Translate` never fires. -/
theorem translate_no_trap (mmu : Mmu) (virtAddr : Word) {size : ℕ} (writing : Bool)
    (hs : size = 1 ∨ size = 2 ∨ size = 4) (t : Trap) :
    translate mmu virtAddr size writing ≠ .error t := by
  unfold translate
  split_ifs with ha
  · simp
  · have hb := offset_add_size_le hs (by simpa using ha)
    have hn := fun e : TranslationEntry => e.access_no_trap writing hb
    cases mmu with
    | pageTable entries =>
      dsimp only
      split
      · simp
      · rename_i entry _
        split
        · simp
        · cases h : entry.access (virtAddr.toNat % pageSize) size writing with
          | error t' => exact absurd h (hn entry t')
          | ok r => cases r <;> simp [bind, Except.bind]
    | tlb entries =>
      dsimp only
      split
      · simp
      · rename_i i _
        cases h : (entries i).access (virtAddr.toNat % pageSize) size writing with
        | error t' => exact absurd h (hn _ t')
        | ok r => cases r <;> simp [bind, Except.bind]

end Nachos
