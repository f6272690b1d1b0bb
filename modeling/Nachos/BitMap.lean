import Nachos.Translate

/-! Bitmaps (`bitmap.cc`): bits packed into 32-bit words. The range checks are `ASSERT`s. -/
namespace Nachos

abbrev bitsInWord : ℕ := 32

structure BitMap (numBits : ℕ) where
  map : Vector (BitVec 32) ((numBits + bitsInWord - 1) / bitsInWord)
  deriving DecidableEq, Repr

namespace BitMap

variable {numBits : ℕ}

def empty (numBits : ℕ) : BitMap numBits := ⟨Vector.replicate _ 0⟩

def inRange (numBits : ℕ) (which : ℤ) : Bool := decide (0 ≤ which ∧ which < numBits)

def word (m : BitMap numBits) (w : ℕ) : BitVec 32 := m.map[w]?.getD 0

def bit (m : BitMap numBits) (i : ℕ) : Bool :=
  m.word (i / bitsInWord) &&& (1#32 <<< (i % bitsInWord)) != 0

def setBit (m : BitMap numBits) (i : ℕ) : BitMap numBits :=
  ⟨m.map.setIfInBounds (i / bitsInWord)
    (m.word (i / bitsInWord) ||| 1#32 <<< (i % bitsInWord))⟩

def clearBit (m : BitMap numBits) (i : ℕ) : BitMap numBits :=
  ⟨m.map.setIfInBounds (i / bitsInWord)
    (m.word (i / bitsInWord) &&& ~~~(1#32 <<< (i % bitsInWord)))⟩

def mark (m : BitMap numBits) (which : ℤ) : Except Trap (BitMap numBits) :=
  if inRange numBits which then .ok (m.setBit which.toNat) else .error .assertion

def clear (m : BitMap numBits) (which : ℤ) : Except Trap (BitMap numBits) :=
  if inRange numBits which then .ok (m.clearBit which.toNat) else .error .assertion

def test (m : BitMap numBits) (which : ℤ) : Except Trap Bool :=
  if inRange numBits which then .ok (m.bit which.toNat) else .error .assertion

def find (m : BitMap numBits) : ℤ × BitMap numBits :=
  match (List.range numBits).find? fun i => !m.bit i with
  | some i => (i, m.setBit i)
  | none => (-1, m)

def numClear (m : BitMap numBits) : ℕ := (List.range numBits).countP fun i => !m.bit i

theorem bit_eq_getLsbD (m : BitMap numBits) (i : ℕ) :
    m.bit i = (m.word (i / bitsInWord)).getLsbD (i % bitsInWord) := by
  have hlt : i % 32 < 32 := Nat.mod_lt _ (by norm_num)
  have hne : BitVec.twoPow 32 (i % 32) ≠ 0#32 := by
    intro h
    have hb := congrArg (fun w => w.getLsbD (i % 32)) h
    simp [hlt] at hb
  unfold bit
  change (_ &&& BitVec.twoPow 32 (i % 32) != 0#32) = _
  rw [BitVec.and_twoPow]
  cases (m.word (i / bitsInWord)).getLsbD (i % 32) <;> simp [hne]

theorem wordIndex_lt {i : ℕ} (hi : i < numBits) :
    i / bitsInWord < (numBits + bitsInWord - 1) / bitsInWord := by
  simp only [bitsInWord]
  omega

theorem index_eq_iff {i j : ℕ} :
    i / bitsInWord = j / bitsInWord ∧ i % bitsInWord = j % bitsInWord ↔ i = j := by
  simp only [bitsInWord]
  omega

theorem word_set (m : BitMap numBits) {i : ℕ} (hi : i < numBits) (x : BitVec 32) (w : ℕ) :
    word (⟨m.map.setIfInBounds (i / bitsInWord) x⟩ : BitMap numBits) w =
      if w = i / bitsInWord then x else m.word w := by
  unfold word
  split_ifs with hw
  · subst hw
    rw [Vector.getElem?_setIfInBounds_self_of_lt (wordIndex_lt hi)]
    rfl
  · rw [Vector.getElem?_setIfInBounds_ne (Ne.symm hw)]

theorem bit_setBit (m : BitMap numBits) {i : ℕ} (hi : i < numBits) (j : ℕ) :
    (m.setBit i).bit j = (decide (j = i) || m.bit j) := by
  have hlt : j % 32 < 32 := Nat.mod_lt _ (by norm_num)
  have hidx := index_eq_iff (i := j) (j := i)
  simp only [bit_eq_getLsbD, setBit, word_set m hi]
  split_ifs with hw
  · change (_ ||| BitVec.twoPow 32 (i % 32)).getLsbD _ = _
    rw [BitVec.getLsbD_or, BitVec.getLsbD_twoPow, Bool.or_comm, hw]
    simp only [hw, true_and] at hidx
    simp only [bitsInWord] at hidx ⊢
    congr 1
    have hi32 : i % 32 < 32 := Nat.mod_lt _ (by norm_num)
    simp only [hi32, decide_true, Bool.true_and, decide_eq_decide]
    rw [← hidx, eq_comm]
  · have hne : j ≠ i := fun h => hw (by rw [h])
    simp [hne]

theorem bit_clearBit (m : BitMap numBits) {i : ℕ} (hi : i < numBits) (j : ℕ) :
    (m.clearBit i).bit j = (decide (j ≠ i) && m.bit j) := by
  have hlt : j % 32 < 32 := Nat.mod_lt _ (by norm_num)
  have hidx := index_eq_iff (i := j) (j := i)
  simp only [bit_eq_getLsbD, clearBit, word_set m hi]
  split_ifs with hw
  · change (_ &&& ~~~BitVec.twoPow 32 (i % 32)).getLsbD _ = _
    rw [BitVec.getLsbD_and, BitVec.getLsbD_not, BitVec.getLsbD_twoPow, Bool.and_comm, hw]
    simp only [hw, true_and] at hidx
    simp only [bitsInWord] at hidx ⊢
    congr 1
    have hi32 : i % 32 < 32 := Nat.mod_lt _ (by norm_num)
    simp only [hlt, hi32, decide_true, Bool.true_and, ne_eq, decide_not]
    rw [Bool.not_inj_iff, decide_eq_decide, ← hidx, eq_comm]
  · have hne : j ≠ i := fun h => hw (by rw [h])
    simp [hne]

theorem bit_empty (i : ℕ) : (empty numBits).bit i = false := by
  rw [bit_eq_getLsbD, word, empty, Vector.getElem?_replicate]
  split_ifs <;> simp

theorem inRange_of_lt {i : ℕ} (hi : i < numBits) : inRange numBits i = true := by
  simp only [inRange, decide_eq_true_eq]
  omega

theorem mark_ok (m : BitMap numBits) {i : ℕ} (hi : i < numBits) : m.mark i = .ok (m.setBit i) := by
  rw [mark, inRange_of_lt hi, if_pos rfl, Int.toNat_natCast]

theorem clear_ok (m : BitMap numBits) {i : ℕ} (hi : i < numBits) :
    m.clear i = .ok (m.clearBit i) := by
  rw [clear, inRange_of_lt hi, if_pos rfl, Int.toNat_natCast]

theorem test_ok (m : BitMap numBits) {i : ℕ} (hi : i < numBits) : m.test i = .ok (m.bit i) := by
  rw [test, inRange_of_lt hi, if_pos rfl, Int.toNat_natCast]

theorem find_cases (m : BitMap numBits) :
    (m.find = (-1, m) ∧ ∀ i < numBits, m.bit i = true) ∨
      ∃ i < numBits, m.find = ((i : ℤ), m.setBit i) ∧ m.bit i = false ∧
        ∀ j < i, m.bit j = true := by
  unfold find
  split
  · rename_i i h
    obtain ⟨hb, hi, hj⟩ := List.find?_range_eq_some.mp h
    refine .inr ⟨i, List.mem_range.mp hi, rfl, by simpa using hb, fun j hji => ?_⟩
    simpa using hj j hji
  · rename_i h
    left
    refine ⟨rfl, fun i hi => ?_⟩
    simpa using List.find?_eq_none.mp h i (List.mem_range.mpr hi)

theorem numClear_eq_card (m : BitMap numBits) :
    m.numClear = ((Finset.range numBits).filter fun i => m.bit i = false).card := by
  rw [numClear, List.countP_eq_length_filter, Finset.card, Finset.filter_val, Finset.range_val,
    Multiset.range, Multiset.filter_coe, Multiset.coe_card]
  congr 2
  funext i
  simp

theorem numClear_setBit {m : BitMap numBits} {i : ℕ} (hi : i < numBits) (hb : m.bit i = false) :
    (m.setBit i).numClear + 1 = m.numClear := by
  rw [numClear_eq_card, numClear_eq_card]
  have hset : ((Finset.range numBits).filter fun j => (m.setBit i).bit j = false) =
      ((Finset.range numBits).filter fun j => m.bit j = false).erase i := by
    ext j
    simp only [Finset.mem_filter, Finset.mem_range, Finset.mem_erase, bit_setBit m hi,
      Bool.or_eq_false_iff, decide_eq_false_iff_not]
    tauto
  rw [hset, Finset.card_erase_of_mem (by simp [hi, hb])]
  have : 0 < ((Finset.range numBits).filter fun j => m.bit j = false).card :=
    Finset.card_pos.mpr ⟨i, by simp [hi, hb]⟩
  omega

theorem numClear_full {m : BitMap numBits} (h : ∀ i < numBits, m.bit i = true) :
    m.numClear = 0 := by
  rw [numClear_eq_card, Finset.card_eq_zero, Finset.filter_eq_empty_iff]
  intro i hi
  rw [h i (Finset.mem_range.mp hi)]
  simp

def hasClear (m : BitMap numBits) : ℕ → Bool
  | 0 => true
  | n + 1 => decide (m.find.1 ≠ -1) && m.find.2.hasClear n

theorem hasClear_eq (m : BitMap numBits) (n : ℕ) : m.hasClear n = decide (n ≤ m.numClear) := by
  induction n generalizing m with
  | zero => simp [hasClear]
  | succ n ih =>
    rw [hasClear, ih]
    obtain ⟨hfind, hfull⟩ | ⟨i, hi, hfind, hbit, -⟩ := m.find_cases
    · rw [hfind, numClear_full hfull]
      simp
    · have hne : (i : ℤ) ≠ -1 := by omega
      rw [hfind, ← numClear_setBit hi hbit]
      simp [hne]

def finds (m : BitMap numBits) : ℕ → List ℤ × BitMap numBits
  | 0 => ([], m)
  | n + 1 =>
    let (i, m) := m.find
    let (is, m) := finds m n
    (i :: is, m)

theorem clear_cons {m : BitMap numBits} {c : ℕ} {l : List ℕ} (hc : c < numBits)
    (hbit : m.bit c = false) (hnd : l.Nodup)
    (hfree : ∀ i ∈ l, i < numBits ∧ (m.setBit c).bit i = false) :
    (c :: l).Nodup ∧ (∀ i ∈ c :: l, i < numBits ∧ m.bit i = false) ∧
      ∀ i, ((m.setBit c).bit i || decide (i ∈ l)) = (m.bit i || decide (i ∈ c :: l)) := by
  have hcl : c ∉ l := by
    intro hmem
    have := (hfree c hmem).2
    rw [bit_setBit m hc] at this
    simp at this
  refine ⟨List.nodup_cons.mpr ⟨hcl, hnd⟩, fun i hi => ?_, fun i => ?_⟩
  · obtain rfl | hi := List.mem_cons.mp hi
    · exact ⟨hc, hbit⟩
    · have hi' := hfree i hi
      rw [bit_setBit m hc, Bool.or_eq_false_iff] at hi'
      exact ⟨hi'.1, hi'.2.2⟩
  · rw [bit_setBit m hc]
    simp only [List.mem_cons, Bool.decide_or]
    rw [Bool.or_comm (decide (i = c)), Bool.or_assoc]

theorem finds_ok {m : BitMap numBits} {n : ℕ} (h : n ≤ m.numClear) :
    ∃ l : List ℕ, l.length = n ∧ l.Nodup ∧ (∀ i ∈ l, i < numBits ∧ m.bit i = false) ∧
      (m.finds n).1 = l.map Nat.cast ∧ ∀ i, (m.finds n).2.bit i = (m.bit i || decide (i ∈ l)) := by
  induction n generalizing m with
  | zero => exact ⟨[], rfl, List.nodup_nil, by simp, rfl, by simp [finds]⟩
  | succ n ih =>
    obtain ⟨-, hfull⟩ | ⟨j, hj, hfind, hbit, -⟩ := m.find_cases
    · rw [numClear_full hfull] at h
      omega
    · obtain ⟨l, hlen, hnd, hfree, hl, hmap⟩ := ih (m := m.setBit j)
        (by have := numClear_setBit hj hbit; omega)
      obtain ⟨hnd', hfree', hbits⟩ := clear_cons hj hbit hnd hfree
      refine ⟨j :: l, by simp [hlen], hnd', hfree', ?_, fun i => ?_⟩
      · simp only [finds, hfind, hl, List.map_cons]
      · rw [← hbits, ← hmap]
        simp only [finds, hfind]

theorem finds_cases (m : BitMap numBits) (n : ℕ) :
    (m.finds n).1.length = n ∧
      (∀ k, m.bit k = true → (m.finds n).2.bit k = true) ∧
      (∀ f ∈ (m.finds n).1, f = -1 ∨ ∃ k < numBits, f = (k : ℕ) ∧ m.bit k = false ∧
        (m.finds n).2.bit k = true) ∧
      ∀ i j k : ℕ, (m.finds n).1[i]? = some (k : ℤ) → (m.finds n).1[j]? = some (k : ℤ) → i = j := by
  induction n generalizing m with
  | zero =>
    refine ⟨rfl, fun k hk => hk, fun f hf => absurd hf List.not_mem_nil, fun i j k hi => ?_⟩
    simp [finds] at hi
  | succ n ih =>
    obtain ⟨hfind, -⟩ | ⟨c, hc, hfind, hbit, -⟩ := m.find_cases
    · obtain ⟨hlen, hmono, hfree, hinj⟩ := ih m
      have hcons : m.finds (n + 1) = (-1 :: (m.finds n).1, (m.finds n).2) := by
        simp only [finds, hfind]
      rw [hcons]
      refine ⟨by simp [hlen], hmono, fun f hf => ?_, fun i j k hi hj => ?_⟩
      · rcases List.mem_cons.mp hf with rfl | hf
        · exact .inl rfl
        · exact hfree f hf
      · cases i with
        | zero => simp at hi
        | succ i =>
          cases j with
          | zero => simp at hj
          | succ j => rw [hinj i j k (by simpa using hi) (by simpa using hj)]
    · obtain ⟨hlen, hmono, hfree, hinj⟩ := ih (m.setBit c)
      have hcons : m.finds (n + 1) =
          ((c : ℤ) :: ((m.setBit c).finds n).1, ((m.setBit c).finds n).2) := by
        simp only [finds, hfind]
      have hnew : ∀ k : ℕ, (k : ℤ) ∈ ((m.setBit c).finds n).1 → k ≠ c := by
        rintro k hk rfl
        obtain hneg | ⟨k', -, hkk, hclear, -⟩ := hfree _ hk
        · omega
        · obtain rfl : k = k' := by exact_mod_cast hkk
          rw [bit_setBit m hc] at hclear
          simp at hclear
      rw [hcons]
      refine ⟨by simp [hlen], fun k hk => ?_, fun f hf => ?_, fun i j k hi hj => ?_⟩
      · exact hmono k (by rw [bit_setBit m hc, hk, Bool.or_true])
      · rcases List.mem_cons.mp hf with rfl | hf
        · exact .inr ⟨c, hc, rfl, hbit, hmono c (by rw [bit_setBit m hc]; simp)⟩
        · obtain hneg | ⟨k, hk, hkk, hclear, hset⟩ := hfree f hf
          · exact .inl hneg
          · rw [bit_setBit m hc, Bool.or_eq_false_iff] at hclear
            exact .inr ⟨k, hk, hkk, hclear.2, hset⟩
      · cases i with
        | zero =>
          cases j with
          | zero => rfl
          | succ j =>
            have hck : c = k := by simpa using hi
            exact absurd hck.symm (hnew k (List.mem_of_getElem? (by simpa using hj)))
        | succ i =>
          cases j with
          | zero =>
            have hck : c = k := by simpa using hj
            exact absurd hck.symm (hnew k (List.mem_of_getElem? (by simpa using hi)))
          | succ j => rw [hinj i j k (by simpa using hi) (by simpa using hj)]

end BitMap

end Nachos
