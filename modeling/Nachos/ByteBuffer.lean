import Mathlib.Data.BitVec
import Mathlib.Tactic

/-! Byte buffers as functions of the offset: the bytes of a range replaced by those of
another buffer, and 32-bit words stored in a buffer, least significant byte first. -/
namespace Nachos.ByteBuffer

abbrev Buffer := ℕ → BitVec 8

/-- The first `n` bytes of `src` over the bytes of `b` from `start` on. -/
def overlay (b : Buffer) (start n : ℕ) (src : Buffer) : Buffer := fun j =>
  if start ≤ j ∧ j < start + n then src (j - start) else b j

theorem overlay_in {b src : Buffer} {start n j : ℕ} (h : start ≤ j) (h' : j < start + n) :
    overlay b start n src j = src (j - start) := if_pos ⟨h, h'⟩

theorem overlay_out {b src : Buffer} {start n j : ℕ} (h : j < start ∨ start + n ≤ j) :
    overlay b start n src j = b j := if_neg (by omega)

def wordAt (b : Buffer) (i : ℕ) : BitVec 32 :=
  b (4 * i + 3) ++ b (4 * i + 2) ++ b (4 * i + 1) ++ b (4 * i)

def ofWords (ws : ℕ → BitVec 32) : Buffer := fun j => (ws (j / 4)).extractLsb' (8 * (j % 4)) 8

theorem extract_bytes (w : BitVec 32) :
    w.extractLsb' 24 8 ++ w.extractLsb' 16 8 ++ w.extractLsb' 8 8 ++ w.extractLsb' 0 8 = w := by
  ext i hi
  simp only [BitVec.getElem_append, BitVec.getElem_extractLsb']
  split_ifs
  · simp [BitVec.getLsbD_eq_getElem hi]
  · rw [show 8 + (i - 8) = i by omega]
    exact BitVec.getLsbD_eq_getElem hi
  · rw [show 16 + (i - 8 - 8) = i by omega]
    exact BitVec.getLsbD_eq_getElem hi
  · rw [show 24 + (i - 8 - 8 - 8) = i by omega]
    exact BitVec.getLsbD_eq_getElem hi

theorem wordAt_ofWords (ws : ℕ → BitVec 32) (i : ℕ) : wordAt (ofWords ws) i = ws i := by
  have hd : ∀ k < 4, (4 * i + k) / 4 = i ∧ (4 * i + k) % 4 = k := by
    intro k hk
    omega
  have h0 := hd 0 (by norm_num)
  simp only [Nat.add_zero] at h0
  simp only [wordAt, ofWords, hd 1 (by norm_num), hd 2 (by norm_num), hd 3 (by norm_num), h0]
  exact extract_bytes (ws i)

theorem wordAt_congr {b b' : Buffer} {i : ℕ} (h : ∀ j, 4 * i ≤ j → j < 4 * i + 4 → b j = b' j) :
    wordAt b i = wordAt b' i := by
  unfold wordAt
  rw [h (4 * i + 3) (by omega) (by omega), h (4 * i + 2) (by omega) (by omega),
    h (4 * i + 1) (by omega) (by omega), h (4 * i) le_rfl (by omega)]

end Nachos.ByteBuffer
