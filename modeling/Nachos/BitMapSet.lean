import Nachos.CallRuns
import Nachos.FileSystem

/-! A bitmap over its whole life (`bitmap.cc`): made from words that hold anything, used, written
to a file and fetched back, it behaves as a set of indices. The bits of the last word beyond
`numBits` are never set to a value and never matter. -/
namespace Nachos

/-- A file that `n` bytes can be written to and read from. -/
structure FileHeader.HasRoom (file : FileHeader) (n : ℕ) : Prop where
  wf : file.Wf
  nodup : file.fileSectors.Nodup
  room : n ≤ file.numBytes.toNat

namespace BitMap
open ByteBuffer

variable {numBits : ℕ}

/-- The constructor, with the words that `new unsigned int[numWords]` returns. -/
def new (map : Vector (BitVec 32) (numWords numBits)) : Except Trap (BitMap numBits) :=
  (List.range numBits).foldlM (fun m (i : ℕ) => m.clear i) ⟨map⟩

inductive Call where
  | mark (which : ℤ)
  | clear (which : ℤ)
  | test (which : ℤ)
  | find
  | numClear
  | writeBack (junk : Buffer)
  | fetchFrom

inductive Answer where
  | done
  | test (result : Bool)
  | find (which : ℤ)
  | numClear (count : ℕ)
  deriving DecidableEq, Repr

def Call.InRange (numBits : ℕ) : Call → Prop
  | .mark which | .clear which | .test which => 0 ≤ which ∧ which < numBits
  | _ => True

def Call.usesFile : Call → Bool
  | .writeBack _ | .fetchFrom => true
  | _ => false

def call (file : FileHeader) :
    BitMap numBits × Disk → Call → Except Trap ((BitMap numBits × Disk) × Answer)
  | (m, d), .mark which => do
    let m ← m.mark which
    return ((m, d), .done)
  | (m, d), .clear which => do
    let m ← m.clear which
    return ((m, d), .done)
  | (m, d), .test which => do
    let result ← m.test which
    return ((m, d), .test result)
  | (m, d), .find => return ((m.find.2, d), .find m.find.1)
  | (m, d), .numClear => return ((m, d), .numClear m.numClear)
  | (m, d), .writeBack junk => do
    let d ← m.writeBack file d junk
    return ((m, d), .done)
  | (m, d), .fetchFrom => do
    let m ← m.fetchFrom file d
    return ((m, d), .done)

def life (file : FileHeader) (map : Vector (BitVec 32) (numWords numBits)) (d : Disk)
    (cs : List Call) : Except Trap ((BitMap numBits × Disk) × List Answer) := do
  let m ← new map
  CallRuns.run (call file) cs (m, d)

/-- `Find` on a set: the least index that is not in it. -/
def setFind (numBits : ℕ) (S : Finset ℕ) : ℤ × Finset ℕ :=
  if h : (Finset.range numBits \ S).Nonempty then
    (((Finset.range numBits \ S).min' h : ℕ), insert ((Finset.range numBits \ S).min' h) S)
  else (-1, S)

def setCall (numBits : ℕ) : Finset ℕ × Finset ℕ → Call → (Finset ℕ × Finset ℕ) × Answer
  | (S, F), .mark which => ((insert which.toNat S, F), .done)
  | (S, F), .clear which => ((S.erase which.toNat, F), .done)
  | (S, F), .test which => ((S, F), .test (decide (which.toNat ∈ S)))
  | (S, F), .find => (((setFind numBits S).2, F), .find (setFind numBits S).1)
  | (S, F), .numClear => ((S, F), .numClear (numBits - S.card))
  | (S, _), .writeBack _ => ((S, S), .done)
  | (_, F), .fetchFrom => ((F, F), .done)

def toFinset (m : BitMap numBits) : Finset ℕ := (Finset.range numBits).filter fun i => m.bit i

theorem mem_toFinset {m : BitMap numBits} {i : ℕ} :
    i ∈ m.toFinset ↔ i < numBits ∧ m.bit i = true := by
  rw [toFinset, Finset.mem_filter, Finset.mem_range]

theorem toFinset_setBit (m : BitMap numBits) {i : ℕ} (hi : i < numBits) :
    (m.setBit i).toFinset = insert i m.toFinset := by
  ext j
  simp only [mem_toFinset, Finset.mem_insert, bit_setBit m hi, Bool.or_eq_true, decide_eq_true_eq]
  constructor
  · tauto
  · rintro (rfl | h)
    · exact ⟨hi, .inl rfl⟩
    · exact ⟨h.1, .inr h.2⟩

theorem toFinset_clearBit (m : BitMap numBits) {i : ℕ} (hi : i < numBits) :
    (m.clearBit i).toFinset = m.toFinset.erase i := by
  ext j
  simp only [mem_toFinset, Finset.mem_erase, bit_clearBit m hi, Bool.and_eq_true,
    decide_eq_true_eq]
  tauto

theorem bit_eq_decide (m : BitMap numBits) {i : ℕ} (hi : i < numBits) :
    m.bit i = decide (i ∈ m.toFinset) := by
  rw [Bool.eq_iff_iff, decide_eq_true_eq, mem_toFinset]
  simp [hi]

theorem numClear_eq_sub (m : BitMap numBits) : m.numClear = numBits - m.toFinset.card := by
  have hsplit := Finset.card_filter_add_card_filter_not (s := Finset.range numBits)
    fun i => m.bit i = true
  simp only [Bool.not_eq_true, Finset.card_range] at hsplit
  rw [numClear_eq_card, toFinset]
  omega

theorem find_eq_setFind (m : BitMap numBits) :
    m.find.1 = (setFind numBits m.toFinset).1 ∧
      m.find.2.toFinset = (setFind numBits m.toFinset).2 := by
  obtain ⟨hfind, hfull⟩ | ⟨i, hi, hfind, hbit, hless⟩ := m.find_cases
  · have hnone : ¬ (Finset.range numBits \ m.toFinset).Nonempty := by
      rintro ⟨i, hi⟩
      rw [Finset.mem_sdiff, Finset.mem_range, mem_toFinset] at hi
      exact hi.2 ⟨hi.1, hfull i hi.1⟩
    rw [setFind, dif_neg hnone, hfind]
    exact ⟨rfl, rfl⟩
  · have hmem : i ∈ Finset.range numBits \ m.toFinset := by
      rw [Finset.mem_sdiff, Finset.mem_range, mem_toFinset, hbit]
      exact ⟨hi, by simp⟩
    have hmin : (Finset.range numBits \ m.toFinset).min' ⟨i, hmem⟩ = i := by
      refine le_antisymm (Finset.min'_le _ i hmem) ?_
      refine Finset.le_min' _ _ _ fun j hj => ?_
      rw [Finset.mem_sdiff, Finset.mem_range, mem_toFinset] at hj
      by_contra hlt
      exact hj.2 ⟨hj.1, hless j (not_le.mp hlt)⟩
    rw [setFind, dif_pos ⟨i, hmem⟩, hfind, hmin]
    exact ⟨rfl, toFinset_setBit m hi⟩

theorem clearAll_ok {n : ℕ} (hn : n ≤ numBits) (m : BitMap numBits) :
    ∃ m' : BitMap numBits, (List.range n).foldlM (fun m (i : ℕ) => m.clear i) m =
      (.ok m' : Except Trap (BitMap numBits)) ∧ ∀ i < n, m'.bit i = false := by
  induction n with
  | zero => exact ⟨m, rfl, nofun⟩
  | succ n ih =>
    obtain ⟨m', hloop, hclear⟩ := ih (by omega)
    refine ⟨m'.clearBit n, ?_, fun i hi => ?_⟩
    · rw [List.range_succ, List.foldlM_append, hloop]
      simp only [List.foldlM_cons, List.foldlM_nil, bind, Except.bind, clear_ok m' hn]
      rfl
    · rw [bit_clearBit m' hn]
      by_cases hin : i = n
      · simp [hin]
      · simp [hin, hclear i (by omega)]

/-- The constructor comes to its end with an empty set, whatever the words held. -/
theorem new_ok (map : Vector (BitVec 32) (numWords numBits)) :
    ∃ m, new map = .ok m ∧ m.toFinset = ∅ := by
  obtain ⟨m, hloop, hclear⟩ := clearAll_ok le_rfl (⟨map⟩ : BitMap numBits)
  refine ⟨m, hloop, Finset.filter_eq_empty_iff.mpr fun i hi => ?_⟩
  rw [hclear i (Finset.mem_range.mp hi)]
  simp

def sets (file : FileHeader) (s : BitMap numBits × Disk) : Finset ℕ × Finset ℕ :=
  (s.1.toFinset, (stored numBits file s.2).toFinset)

variable {file : FileHeader}

theorem call_eq (m : BitMap numBits) (d : Disk) {c : Call} (hc : c.InRange numBits)
    (hfile : c.usesFile = true → file.HasRoom (numWords numBits * 4)) :
    ∃ s, call file (m, d) c = .ok (s, (setCall numBits (sets file (m, d)) c).2) ∧
      sets file s = (setCall numBits (sets file (m, d)) c).1 := by
  cases c with
  | mark which =>
    obtain ⟨i, rfl⟩ := Int.eq_ofNat_of_zero_le hc.1
    have hi : i < numBits := by exact_mod_cast hc.2
    refine ⟨(m.setBit i, d), ?_, ?_⟩
    · simp only [call, mark_ok m hi]
      rfl
    · rw [sets, toFinset_setBit m hi]
      rfl
  | clear which =>
    obtain ⟨i, rfl⟩ := Int.eq_ofNat_of_zero_le hc.1
    have hi : i < numBits := by exact_mod_cast hc.2
    refine ⟨(m.clearBit i, d), ?_, ?_⟩
    · simp only [call, clear_ok m hi]
      rfl
    · rw [sets, toFinset_clearBit m hi]
      rfl
  | test which =>
    obtain ⟨i, rfl⟩ := Int.eq_ofNat_of_zero_le hc.1
    have hi : i < numBits := by exact_mod_cast hc.2
    refine ⟨(m, d), ?_, rfl⟩
    simp only [call, test_ok m hi, bit_eq_decide m hi]
    rfl
  | find =>
    obtain ⟨hfst, hsnd⟩ := find_eq_setFind m
    refine ⟨(m.find.2, d), ?_, ?_⟩
    · rw [call, hfst]
      rfl
    · rw [sets, hsnd]
      rfl
  | numClear =>
    refine ⟨(m, d), ?_, rfl⟩
    rw [call, numClear_eq_sub]
    rfl
  | writeBack junk =>
    obtain ⟨hw, hd, hn⟩ := hfile rfl
    obtain ⟨d', hwrite, hstored, -⟩ := writeBack_ok (d := d) (m := m) hw hd junk hn
    refine ⟨(m, d'), ?_, ?_⟩
    · simp only [call, hwrite]
      rfl
    · rw [sets, hstored]
      rfl
  | fetchFrom =>
    obtain ⟨hw, -, hn⟩ := hfile rfl
    refine ⟨(stored numBits file d, d), ?_, rfl⟩
    simp only [call, fetchFrom_ok hw hn]
    rfl

/-- The map and the file hold the two sets, and the calls to come are in order. -/
def Ready (file : FileHeader) (cs : List Call) (s : BitMap numBits × Disk)
    (t : Finset ℕ × Finset ℕ) : Prop :=
  sets file s = t ∧
    ∀ c ∈ cs, c.InRange numBits ∧ (c.usesFile = true → file.HasRoom (numWords numBits * 4))

theorem call_ready (c : Call) (cs : List Call) (s : BitMap numBits × Disk)
    (t : Finset ℕ × Finset ℕ) (h : Ready file (c :: cs) s t) :
    ∃ s', call file s c = .ok (s', (setCall numBits t c).2) ∧
      Ready file cs s' (setCall numBits t c).1 := by
  obtain ⟨rfl, hcs⟩ := h
  obtain ⟨hc, hfile⟩ := hcs c List.mem_cons_self
  obtain ⟨s', hcall, hsets⟩ := call_eq s.1 s.2 hc hfile
  exact ⟨s', hcall, hsets, fun b hb => hcs b (List.mem_cons_of_mem c hb)⟩

theorem numWords_eq (numBits : ℕ) :
    ((numWords numBits : ℕ) : ℤ) = divRoundUpInt numBits bitsInWord := by
  have hdiv : (numBits : ℤ).tdiv bitsInWord = (numBits / bitsInWord : ℕ) := rfl
  have hmod : (numBits : ℤ).tmod bitsInWord = (numBits % bitsInWord : ℕ) := rfl
  rw [divRoundUpInt, hdiv, hmod]
  simp only [numWords, bitsInWord]
  split_ifs <;> omega

theorem life_sets (map : Vector (BitVec 32) (numWords numBits)) (d : Disk) (cs : List Call)
    (hcs : ∀ c ∈ cs, c.InRange numBits)
    (hfile : ∀ c ∈ cs, c.usesFile = true → file.HasRoom (numWords numBits * 4)) :
    ∃ s, life file map d cs = .ok (s, (CallRuns.plainRun (setCall numBits) cs
        (∅, (stored numBits file d).toFinset)).2) ∧
      sets file s = (CallRuns.plainRun (setCall numBits) cs
        (∅, (stored numBits file d).toFinset)).1 := by
  obtain ⟨m, hnew, hempty⟩ := new_ok map
  have hready : Ready file cs (m, d) (∅, (stored numBits file d).toFinset) :=
    ⟨by rw [sets, hempty], fun c hc => ⟨hcs c hc, hfile c hc⟩⟩
  obtain ⟨s, hrun, hsets, -⟩ :=
    CallRuns.run_simulates (call file) (setCall numBits) (Ready file) call_ready hready
  refine ⟨s, ?_, hsets⟩
  rw [life, hnew]
  exact hrun

/-- Every life of a bitmap is that of a set that starts empty. Nothing in it depends on what the
words held before, nor on the bits of the file beyond the last index. -/
theorem life_eq_setCalls (map : Vector (BitVec 32) (numWords numBits)) (d : Disk) (cs : List Call)
    (hcs : ∀ c ∈ cs, c.InRange numBits)
    (hfile : ∀ c ∈ cs, c.usesFile = true → file.HasRoom (numWords numBits * 4)) :
    (((numWords numBits : ℕ) : ℤ) = divRoundUpInt numBits bitsInWord ∧
      ∀ i < numBits, i / bitsInWord < numWords numBits) ∧
    ∃ s as, life file map d cs = .ok (s, as) ∧
      (sets file s, as) =
        CallRuns.plainRun (setCall numBits) cs (∅, (stored numBits file d).toFinset) ∧
      ∀ (map₂ : Vector (BitVec 32) (numWords numBits)) d₂,
        (stored numBits file d₂).toFinset = (stored numBits file d).toFinset →
          ∃ s₂, life file map₂ d₂ cs = .ok (s₂, as) := by
  obtain ⟨s, hrun, hsets⟩ := life_sets map d cs hcs hfile
  refine ⟨⟨numWords_eq numBits, fun i hi => wordIndex_lt hi⟩, s, _, hrun, Prod.ext hsets rfl, ?_⟩
  intro map₂ d₂ hsame
  obtain ⟨s₂, hrun₂, -⟩ := life_sets map₂ d₂ cs hcs hfile
  rw [hsame] at hrun₂
  exact ⟨s₂, hrun₂⟩

def oneSector : FileHeader := ⟨fun i => if i = 0 then 128 else if i = 1 then 1 else 5⟩

theorem oneSector_wf : oneSector.Wf := by
  refine ⟨by decide, by decide, fun i hi => ?_⟩
  have hone : oneSector.numSectors = 1 := by decide
  rw [hone] at hi
  obtain rfl : i = 0 := by omega
  decide

def fortyCalls : List Call :=
  [.mark 31, .mark 39, .find, .writeBack fun _ => 0, .clear 31, .test 31, .fetchFrom, .test 31,
    .numClear]

def fortyAnswers : List Answer :=
  [.done, .done, .find 0, .done, .done, .test false, .done, .test true, .numClear 37]

theorem life_eq_setCalls_forty : ∃ s,
    life oneSector (Vector.replicate (numWords 40) 0xffffffff) (fun _ _ => 0) fortyCalls =
      .ok (s, fortyAnswers) := by
  have hroom : oneSector.HasRoom (numWords 40 * 4) := ⟨oneSector_wf, by decide, by decide⟩
  obtain ⟨-, s, as, hrun, hset, -⟩ := life_eq_setCalls
    (Vector.replicate (numWords 40) 0xffffffff) (fun _ _ => 0) fortyCalls
    (by simp [fortyCalls, Call.InRange]) fun _ _ _ => hroom
  have has : as = fortyAnswers := (congrArg Prod.snd hset).trans (by decide +kernel)
  rw [has] at hrun
  exact ⟨s, hrun⟩

end BitMap

end Nachos
