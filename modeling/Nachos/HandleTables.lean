import Nachos.BitMap

/-! The tables behind the handles that user programs hold: open files (`nachostabla.cc`) and
semaphores (`semTabla.cc`). Both are an array of values with a bitmap of the handles in use; the
bitmap checks the handle with an `ASSERT`, the array does not check it at all. `openFiles` points to
an array on the stack of the constructor, which other code writes over: here it is an array of the
table, and what others write to it is a step of its own where it matters. -/
namespace Nachos

structure HandleTable (numBits : ℕ) where
  map : BitMap numBits
  values : Vector ℤ numBits
  usage : ℤ
  deriving DecidableEq, Repr

namespace HandleTable

variable {numBits : ℕ}

def holds (t : HandleTable numBits) (handle : ℤ) : Bool :=
  BitMap.inRange numBits handle && t.map.bit handle.toNat

/-- The first free handle gets `value`. On a full table the index is -1. -/
def register (t : HandleTable numBits) (value : ℤ) : Except Trap (ℤ × HandleTable numBits) :=
  let (space, map) := t.map.find
  if BitMap.inRange numBits space then
    .ok (space, { t with map := map, values := t.values.setIfInBounds space.toNat value })
  else .error .memory

def lookup (t : HandleTable numBits) (handle : ℤ) : Except Trap ℤ := do
  if ← t.map.test handle then return t.values[handle.toNat]?.getD (-1) else return -1

def release (t : HandleTable numBits) (handle value : ℤ) : Except Trap (HandleTable numBits) := do
  let map ← t.map.clear handle
  return { t with map := map, values := t.values.setIfInBounds handle.toNat value }

variable {t : HandleTable numBits} {handle : ℤ}

theorem test_inRange (h : BitMap.inRange numBits handle = true) :
    t.map.test handle = .ok (t.holds handle) := by
  rw [BitMap.test, if_pos h, holds, h, Bool.true_and]

theorem test_outside (h : BitMap.inRange numBits handle = false) :
    t.map.test handle = .error .assertion := by
  rw [BitMap.test, if_neg (by simp [h])]

theorem inRange_of_holds (h : t.holds handle = true) : BitMap.inRange numBits handle = true := by
  simp only [holds, Bool.and_eq_true] at h
  exact h.1

theorem lookup_holds (h : t.holds handle = true) :
    t.lookup handle = .ok (t.values[handle.toNat]?.getD (-1)) := by
  rw [lookup, test_inRange (inRange_of_holds h), h]
  rfl

theorem lookup_free (hr : BitMap.inRange numBits handle = true) (h : t.holds handle = false) :
    t.lookup handle = .ok (-1) := by
  rw [lookup, test_inRange hr, h]
  rfl

theorem lookup_outside (h : BitMap.inRange numBits handle = false) :
    t.lookup handle = .error .assertion := by
  rw [lookup, test_outside h]
  rfl

theorem release_holds (h : t.holds handle = true) (value : ℤ) :
    t.release handle value = .ok { t with
      map := t.map.clearBit handle.toNat
      values := t.values.setIfInBounds handle.toNat value } := by
  rw [release, BitMap.clear, if_pos (inRange_of_holds h)]
  rfl

theorem register_holds {value space : ℤ} {t' : HandleTable numBits}
    (h : t.register value = .ok (space, t')) {i : ℤ} (hi : t.holds i = true) :
    t'.holds i = true := by
  simp only [holds, Bool.and_eq_true] at hi ⊢
  unfold register at h
  dsimp only at h
  split_ifs at h with hr
  obtain ⟨rfl, rfl⟩ := Prod.mk.inj (Except.ok.inj h)
  refine ⟨hi.1, ?_⟩
  obtain ⟨hf, -⟩ | ⟨j, hj, hf, -, -⟩ := t.map.find_cases
  · rw [hf]
    exact hi.2
  · rw [hf, BitMap.bit_setBit _ hj, hi.2, Bool.or_true]

theorem release_other {value i : ℤ} {t' : HandleTable numBits}
    (h : t.release handle value = .ok t') (hi : t.holds i = true) (hne : i ≠ handle) :
    t'.holds i = true := by
  simp only [holds, Bool.and_eq_true] at hi ⊢
  unfold release BitMap.clear at h
  split_ifs at h with hr
  · obtain rfl := Except.ok.inj h
    refine ⟨hi.1, ?_⟩
    have hrange := hi.1
    simp only [BitMap.inRange, decide_eq_true_eq] at hr hrange
    have hnat : i.toNat ≠ handle.toNat := by omega
    rw [BitMap.bit_clearBit _ (by omega), hi.2, Bool.and_true, decide_eq_true hnat]
  · cases h

def binding (t : HandleTable numBits) (handle : ℤ) : Option ℤ :=
  if t.holds handle then some (t.values[handle.toNat]?.getD (-1)) else none

theorem isSome_binding : (t.binding handle).isSome = t.holds handle := by
  unfold binding
  split_ifs with h <;> simp [h]

theorem binding_eq_none_iff : t.binding handle = none ↔ t.holds handle = false := by
  rw [← isSome_binding, Option.isSome_eq_false_iff, Option.isNone_iff_eq_none]

theorem inRange_of_binding {value : ℤ} (h : t.binding handle = some value) :
    BitMap.inRange numBits handle = true := by
  refine inRange_of_holds (t := t) ?_
  rw [← isSome_binding, h]
  rfl

theorem lookup_inRange (h : BitMap.inRange numBits handle = true) :
    t.lookup handle = .ok ((t.binding handle).getD (-1)) := by
  unfold binding
  split_ifs with hh
  · exact lookup_holds hh
  · exact lookup_free h (by simpa using hh)

theorem lookup_binding {value : ℤ} (h : t.binding handle = some value) :
    t.lookup handle = .ok value := by
  rw [lookup_inRange (inRange_of_binding h), h]
  rfl

theorem lookup_ok {value : ℤ} (h : t.lookup handle = .ok value) :
    BitMap.inRange numBits handle = true ∧ value = (t.binding handle).getD (-1) := by
  cases hr : BitMap.inRange numBits handle with
  | false =>
    rw [lookup_outside hr] at h
    cases h
  | true =>
    rw [lookup_inRange hr] at h
    exact ⟨rfl, (Except.ok.inj h).symm⟩

theorem register_binding {value space : ℤ} {t' : HandleTable numBits}
    (h : t.register value = .ok (space, t')) :
    BitMap.inRange numBits space = true ∧ t.binding space = none ∧ t'.usage = t.usage ∧
      t'.binding = Function.update t.binding space (some value) := by
  unfold register at h
  dsimp only at h
  split_ifs at h with hr
  obtain ⟨rfl, rfl⟩ := Prod.mk.inj (Except.ok.inj h)
  obtain ⟨hf, -⟩ | ⟨j, hj, hf, hfree, -⟩ := t.map.find_cases
  · rw [hf] at hr
    exact absurd hr (by simp [BitMap.inRange])
  · simp only [hf] at hr ⊢
    refine ⟨hr, ?_, trivial, ?_⟩
    · simp [binding, holds, hfree]
    · funext i
      by_cases hi : i = j
      · subst hi
        simp [binding, holds, hr, BitMap.bit_setBit _ hj, hj]
      · rw [Function.update_of_ne hi]
        unfold binding holds
        by_cases hri : BitMap.inRange numBits i = true
        · have hne : i.toNat ≠ j := by
            simp only [BitMap.inRange, decide_eq_true_eq] at hri
            omega
          rw [BitMap.bit_setBit _ hj, decide_eq_false hne, Bool.false_or, Int.toNat_natCast,
            Vector.getElem?_setIfInBounds_ne hne.symm]
        · simp [hri]

theorem release_binding {value : ℤ} {t' : HandleTable numBits}
    (h : t.release handle value = .ok t') :
    t'.usage = t.usage ∧ t'.binding = Function.update t.binding handle none := by
  unfold release BitMap.clear at h
  split_ifs at h with hr
  swap
  · cases h
  obtain rfl := Except.ok.inj h
  have hlt : handle.toNat < numBits := by
    simp only [BitMap.inRange, decide_eq_true_eq] at hr
    omega
  refine ⟨rfl, ?_⟩
  funext i
  by_cases hi : i = handle
  · subst hi
    simp [binding, holds, BitMap.bit_clearBit _ hlt]
  · rw [Function.update_of_ne hi]
    unfold binding holds
    by_cases hri : BitMap.inRange numBits i = true
    · have hne : i.toNat ≠ handle.toNat := by
        simp only [BitMap.inRange, decide_eq_true_eq] at hri hr
        omega
      rw [BitMap.bit_clearBit _ hlt, decide_eq_true hne, Bool.true_and,
        Vector.getElem?_setIfInBounds_ne hne.symm]
    · simp [hri]

end HandleTable

abbrev maxArch : ℕ := 256
abbrev maxSem : ℕ := 128

/-- The handles 0, 1 and 2 of the console are always in use. -/
structure NachosOpenFilesTable extends HandleTable maxArch where
  console : ∀ i : ℤ, 0 ≤ i → i ≤ 2 → toHandleTable.holds i = true
  deriving DecidableEq, Repr

namespace NachosOpenFilesTable

def newMap : BitMap maxArch := (((BitMap.empty maxArch).setBit 0).setBit 1).setBit 2

theorem bit_newMap {i : ℤ} (h0 : 0 ≤ i) (h2 : i ≤ 2) : newMap.bit i.toNat = true := by
  have hi : i.toNat = 0 ∨ i.toNat = 1 ∨ i.toNat = 2 := by omega
  rw [newMap, BitMap.bit_setBit _ (by norm_num), BitMap.bit_setBit _ (by norm_num),
    BitMap.bit_setBit _ (by norm_num)]
  obtain hi | hi | hi := hi <;> simp [hi]

/-- `usage` is not initialised. -/
def new (usage : ℤ) : NachosOpenFilesTable where
  map := newMap
  values := Vector.ofFn fun i => if i.val < 3 then (i.val : ℤ) else 0
  usage := usage
  console i h0 h2 := by
    rw [HandleTable.holds, bit_newMap h0 h2]
    simp only [BitMap.inRange, Bool.and_true, decide_eq_true_eq, maxArch]
    omega

def openHandle (t : NachosOpenFilesTable) (unixHandle : ℤ) :
    Except Trap (ℤ × NachosOpenFilesTable) :=
  match h : t.register unixHandle with
  | .ok (space, t') =>
    .ok (space, ⟨t', fun i h0 h2 => HandleTable.register_holds h (t.console i h0 h2)⟩)
  | .error e => .error e

theorem openHandle_ok {t t' : NachosOpenFilesTable} {unixHandle space : ℤ}
    (h : t.openHandle unixHandle = .ok (space, t')) :
    t.register unixHandle = .ok (space, t'.toHandleTable) := by
  unfold openHandle at h
  split at h
  · obtain ⟨rfl, rfl⟩ := Prod.mk.inj (Except.ok.inj h)
    assumption
  · cases h

def isOpened (t : NachosOpenFilesTable) (nachosHandle : ℤ) : Except Trap Bool :=
  t.map.test nachosHandle

theorem binding_of_isOpened {t : NachosOpenFilesTable} {nachosHandle : ℤ}
    (h : t.isOpened nachosHandle = .ok true) : ∃ fd, t.binding nachosHandle = some fd := by
  cases hr : BitMap.inRange maxArch nachosHandle with
  | false =>
    rw [isOpened, HandleTable.test_outside hr] at h
    cases h
  | true =>
    rw [isOpened, HandleTable.test_inRange hr] at h
    rw [← Option.isSome_iff_exists, HandleTable.isSome_binding]
    exact Except.ok.inj h

theorem binding_new {usage i : ℤ} (h0 : 0 ≤ i) (h2 : i ≤ 2) :
    (new usage).binding i = some i := by
  have hlt : i.toNat < maxArch := by
    simp only [maxArch]
    omega
  rw [HandleTable.binding, if_pos ((new usage).console i h0 h2), new, Vector.getElem?_ofFn,
    dif_pos hlt, Option.getD_some, if_pos (by dsimp only; omega)]
  simp only [Int.toNat_of_nonneg h0]

theorem binding_new_of_gt {usage i : ℤ} (h : 2 < i) : (new usage).binding i = none := by
  have hbit : newMap.bit i.toNat = false := by
    rw [newMap, BitMap.bit_setBit _ (by norm_num), BitMap.bit_setBit _ (by norm_num),
      BitMap.bit_setBit _ (by norm_num), BitMap.bit_empty]
    simp only [Bool.or_false, Bool.or_eq_false_iff, decide_eq_false_iff_not]
    omega
  rw [HandleTable.binding, HandleTable.holds, new, hbit, Bool.and_false, if_neg (by decide)]

def getUnixHandle (t : NachosOpenFilesTable) (nachosHandle : ℤ) : Except Trap ℤ :=
  t.lookup nachosHandle

/-- Handles above 2 only are closed. -/
def close (t : NachosOpenFilesTable) (nachosHandle : ℤ) :
    Except Trap (ℤ × NachosOpenFilesTable) := do
  if hc : (← isOpened t nachosHandle) ∧ 2 < nachosHandle then
    match h : t.release nachosHandle 0 with
    | .ok t' =>
      return (1, ⟨t', fun i h0 h2 =>
        HandleTable.release_other h (t.console i h0 h2) (by omega)⟩)
    | .error e => throw e
  else return (-1, t)

theorem close_cases {t t' : NachosOpenFilesTable} {nachosHandle ret : ℤ}
    (h : t.close nachosHandle = .ok (ret, t')) :
    (2 < nachosHandle ∧ t.holds nachosHandle = true ∧
        t.release nachosHandle 0 = .ok t'.toHandleTable) ∨
      (t' = t ∧ ¬(t.holds nachosHandle = true ∧ 2 < nachosHandle)) := by
  unfold close isOpened at h
  cases hr : BitMap.inRange maxArch nachosHandle with
  | false =>
    rw [HandleTable.test_outside hr] at h
    cases h
  | true =>
    rw [HandleTable.test_inRange hr] at h
    simp only [bind, Except.bind] at h
    split_ifs at h with hc
    · split at h
      · obtain ⟨-, rfl⟩ := Prod.mk.inj (Except.ok.inj h)
        exact .inl ⟨hc.2, hc.1, by assumption⟩
      · cases h
    · obtain ⟨-, rfl⟩ := Prod.mk.inj (Except.ok.inj h)
      exact .inr ⟨rfl, hc⟩

end NachosOpenFilesTable

abbrev SemTabla := HandleTable maxSem

namespace SemTabla

/-- `usage` is not initialised. -/
def new (usage : ℤ) : SemTabla := ⟨BitMap.empty maxSem, Vector.replicate maxSem (-1), usage⟩

def create (t : SemTabla) (val : ℤ) : Except Trap (ℤ × SemTabla) := t.register val

def isCreate (t : SemTabla) (id : ℤ) : Except Trap Bool := t.map.test id

def getSemaphore (t : SemTabla) (id : ℤ) : Except Trap ℤ := t.lookup id

def close (t : SemTabla) (id : ℤ) : Except Trap (ℤ × SemTabla) := do
  if t.usage = 0 then
    if ← isCreate t id then return (1, ← t.release id (-1)) else return (-1, t)
  else return (-1, t)

theorem close_cases {t t' : SemTabla} {id ret : ℤ} (h : close t id = .ok (ret, t')) :
    (ret = -1 ∧ t' = t) ∨
      (ret = 1 ∧ t.usage = 0 ∧ t.holds id = true ∧ t.release id (-1) = .ok t') := by
  unfold close isCreate at h
  split_ifs at h with hu
  · cases hr : BitMap.inRange maxSem id with
    | false =>
      rw [HandleTable.test_outside hr] at h
      cases h
    | true =>
      rw [HandleTable.test_inRange hr] at h
      simp only [bind, Except.bind] at h
      split_ifs at h with hc
      · rw [HandleTable.release_holds hc] at h ⊢
        obtain ⟨rfl, rfl⟩ := Prod.mk.inj (Except.ok.inj h)
        exact .inr ⟨rfl, hu, hc, rfl⟩
      · obtain ⟨rfl, rfl⟩ := Prod.mk.inj (Except.ok.inj h)
        exact .inl ⟨rfl, rfl⟩
  · obtain ⟨rfl, rfl⟩ := Prod.mk.inj (Except.ok.inj h)
    exact .inl ⟨rfl, rfl⟩

end SemTabla

end Nachos
