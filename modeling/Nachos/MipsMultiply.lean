import Mathlib.Tactic
import Nachos.MipsMachine

/-! The multiplication of the simulator (`Mult` in `mipssim.cc`). The loop adds into the pair
`hi:lo` modulo 2 ^ 64: what it leaves there is the bits of the multiplier that it has tested,
times the shifted multiplicand. The sign that `>>` copies into the multiplier stays above them. -/
namespace Nachos

def double (hi lo : Word) : ℕ := hi.toNat * 2 ^ 32 + lo.toNat

theorem double_lt (hi lo : Word) : double hi lo < 2 ^ 64 := by
  have hhi := hi.isLt
  have hlo := lo.isLt
  unfold double
  omega

theorem double_append (hi lo : Word) : (hi ++ lo).toNat = double hi lo := by
  rw [BitVec.toNat_append, ← Nat.shiftLeft_add_eq_or_of_lt lo.isLt, Nat.shiftLeft_eq]
  rfl

theorem double_add (hi lo bHi bLo : Word) :
    double ((if lo + bLo < bLo then hi + 1 else hi) + bHi) (lo + bLo) =
      (double hi lo + double bHi bLo) % 2 ^ 64 := by
  have h1 := hi.isLt
  have h2 := lo.isLt
  have h3 := bHi.isLt
  have h4 := bLo.isLt
  unfold double
  by_cases hc : lo + bLo < bLo
  · rw [if_pos hc]
    rw [BitVec.lt_def, BitVec.toNat_add] at hc
    simp only [BitVec.toNat_add, show (1 : Word).toNat = 1 from rfl]
    omega
  · rw [if_neg hc]
    rw [BitVec.lt_def, BitVec.toNat_add] at hc
    simp only [BitVec.toNat_add]
    omega

theorem odd_iff (a : Word) : a &&& 1 ≠ 0 ↔ a.toNat % 2 = 1 := by
  rw [Ne, ← BitVec.toNat_inj, BitVec.toNat_and, show (1 : Word).toNat = 1 from rfl,
    Nat.and_one_is_mod, show (0 : Word).toNat = 0 from rfl]
  omega

theorem topBit_iff (b : Word) : b &&& 0x80000000 ≠ 0 ↔ 2 ^ 31 ≤ b.toNat := by
  rw [show (0x80000000 : Word) = BitVec.twoPow 32 31 from rfl, BitVec.and_twoPow,
    BitVec.getLsbD_last]
  simp

theorem rest_eq_zero {a : Word} (hodd : a &&& 1 ≠ 0) (hrest : a &&& 0xfffffffe = 0) :
    a.toNat = 1 := by
  have hsplit : a = (a &&& 0xfffffffe) ||| (a &&& 1) := by
    rw [← BitVec.and_or_distrib_left]
    exact (BitVec.and_allOnes).symm
  have hlow : a = a &&& 1 := by
    rw [hrest] at hsplit
    exact hsplit.trans BitVec.zero_or
  have hnat := congrArg BitVec.toNat hlow
  rw [BitVec.toNat_and, show (1 : Word).toNat = 1 from rfl, Nat.and_one_is_mod] at hnat
  have := (odd_iff a).mp hodd
  omega

theorem double_shift (bHi bLo : Word) :
    double (if bLo &&& 0x80000000 ≠ 0 then bHi <<< 1 ||| 1 else bHi <<< 1) (bLo <<< 1) =
      2 * double bHi bLo % 2 ^ 64 := by
  have h1 := bHi.isLt
  have h2 := bLo.isLt
  have hor : (bHi <<< 1 ||| 1).toNat = 2 * bHi.toNat % 2 ^ 32 + 1 := by
    rw [BitVec.toNat_or, BitVec.toNat_shiftLeft, Nat.shiftLeft_eq,
      show (1 : Word).toNat = 1 from rfl,
      show bHi.toNat * 2 ^ 1 % 2 ^ 32 = 2 ^ 1 * (bHi.toNat % 2 ^ 31) by omega,
      ← Nat.two_pow_add_eq_or_of_lt (by omega)]
    omega
  unfold double
  by_cases hc : bLo &&& 0x80000000 ≠ 0
  · rw [if_pos hc, hor]
    rw [topBit_iff] at hc
    simp only [BitVec.toNat_shiftLeft, Nat.shiftLeft_eq]
    omega
  · rw [if_neg hc]
    rw [topBit_iff] at hc
    simp only [BitVec.toNat_shiftLeft, Nat.shiftLeft_eq]
    omega

theorem sshiftRight_low (a : Word) {n : ℕ} (hn : n ≤ 31) :
    (a.sshiftRight 1).toNat % 2 ^ n = a.toNat / 2 % 2 ^ n := by
  apply Nat.eq_of_testBit_eq
  intro i
  rw [Nat.testBit_mod_two_pow, Nat.testBit_mod_two_pow, Nat.testBit_div_two]
  by_cases hi : i < n
  · have hbit := BitVec.getLsbD_sshiftRight a 1 i
    simp only [BitVec.getLsbD] at hbit
    rw [hbit]
    rw [if_pos (show 1 + i < 32 by omega), Nat.add_comm 1 i]
    simp [show ¬ 32 ≤ i by omega]
  · simp [hi]

theorem multLoop_last {a : Word} (hodd : a &&& 1 ≠ 0) (hrest : a &&& 0xfffffffe = 0) (n : ℕ)
    (bHi bLo hi lo : Word) : multLoop (n + 1) a bHi bLo hi lo =
      ((if lo + bLo < bLo then hi + 1 else hi) + bHi, lo + bLo) := by
  simp only [multLoop, if_pos hodd]
  exact if_pos ⟨hodd, hrest⟩

theorem multLoop_odd {a : Word} (hodd : a &&& 1 ≠ 0) (hrest : a &&& 0xfffffffe ≠ 0) (n : ℕ)
    (bHi bLo hi lo : Word) : multLoop (n + 1) a bHi bLo hi lo =
      multLoop n (a.sshiftRight 1)
        (if bLo &&& 0x80000000 ≠ 0 then bHi <<< 1 ||| 1 else bHi <<< 1) (bLo <<< 1)
        ((if lo + bLo < bLo then hi + 1 else hi) + bHi) (lo + bLo) := by
  simp only [multLoop, if_pos hodd]
  exact if_neg fun h => hrest h.2

theorem multLoop_even {a : Word} (heven : ¬ a &&& 1 ≠ 0) (n : ℕ) (bHi bLo hi lo : Word) :
    multLoop (n + 1) a bHi bLo hi lo =
      multLoop n (a.sshiftRight 1)
        (if bLo &&& 0x80000000 ≠ 0 then bHi <<< 1 ||| 1 else bHi <<< 1) (bLo <<< 1) hi lo := by
  simp only [multLoop, if_neg heven]
  exact if_neg fun h => heven h.1

/-- The loop adds what the bits of the multiplier it has left to test say. -/
theorem multLoop_eq (n : ℕ) (hn : n ≤ 32) (a bHi bLo hi lo : Word) :
    double (multLoop n a bHi bLo hi lo).1 (multLoop n a bHi bLo hi lo).2 =
      (double hi lo + a.toNat % 2 ^ n * double bHi bLo) % 2 ^ 64 := by
  induction n generalizing a bHi bLo hi lo with
  | zero =>
    rw [multLoop, pow_zero, Nat.mod_one, Nat.zero_mul, Nat.add_zero]
    exact (Nat.mod_eq_of_lt (double_lt hi lo)).symm
  | succ n ih =>
    have hdigit : a.toNat % 2 ^ (n + 1) = a.toNat % 2 + 2 * (a.toNat / 2 % 2 ^ n) := by
      rw [pow_succ, Nat.mul_comm, Nat.mod_mul]
    have hshift (k : ℕ) : k * (2 * double bHi bLo % 2 ^ 64) ≡ k * (2 * double bHi bLo)
        [MOD 2 ^ 64] := (Nat.mod_modEq _ _).mul_left k
    by_cases hodd : a &&& 1 ≠ 0
    · have hbit := (odd_iff a).mp hodd
      by_cases hrest : a &&& 0xfffffffe = 0
      · have hone : 1 < 2 ^ (n + 1) := Nat.one_lt_two_pow n.succ_ne_zero
        rw [multLoop_last hodd hrest, double_add, rest_eq_zero hodd hrest, Nat.mod_eq_of_lt hone,
          Nat.one_mul]
      · rw [multLoop_odd hodd hrest, ih (by omega), double_add, double_shift,
          sshiftRight_low a (by omega), hdigit, hbit]
        refine ((Nat.mod_modEq _ _).add (hshift _)).trans (congrArg (· % 2 ^ 64) ?_)
        ring
    · have hbit : a.toNat % 2 = 0 := by
        have := (odd_iff a).not.mp hodd
        omega
      rw [multLoop_even hodd, ih (by omega), double_shift, sshiftRight_low a (by omega), hdigit,
        hbit]
      refine ((Nat.ModEq.refl _).add (hshift _)).trans (congrArg (· % 2 ^ 64) ?_)
      ring

theorem multLoop_product (a b : Word) :
    double (multLoop 32 a 0 b 0 0).1 (multLoop 32 a 0 b 0 0).2 = a.toNat * b.toNat := by
  have ha := a.isLt
  have hb := b.isLt
  have hprod : a.toNat * b.toNat < 2 ^ 64 := by
    calc a.toNat * b.toNat < 2 ^ 32 * 2 ^ 32 := Nat.mul_lt_mul'' ha hb
      _ = 2 ^ 64 := by norm_num
  rw [multLoop_eq 32 le_rfl, Nat.mod_eq_of_lt ha]
  simpa [double] using hprod

theorem double_neg (hi lo : Word) :
    double (if ~~~lo + 1 = 0 then ~~~hi + 1 else ~~~hi) (~~~lo + 1) =
      (2 ^ 64 - double hi lo) % 2 ^ 64 := by
  have h1 := hi.isLt
  have h2 := lo.isLt
  unfold double
  by_cases hc : ~~~lo + 1 = 0
  · rw [if_pos hc, hc]
    rw [← BitVec.toNat_inj, BitVec.toNat_add, BitVec.toNat_not] at hc
    simp only [BitVec.toNat_add, BitVec.toNat_not, show (1 : Word).toNat = 1 from rfl,
      show (0 : Word).toNat = 0 from rfl] at hc ⊢
    omega
  · rw [if_neg hc]
    rw [← BitVec.toNat_inj, BitVec.toNat_add, BitVec.toNat_not] at hc
    simp only [BitVec.toNat_add, BitVec.toNat_not, show (1 : Word).toNat = 1 from rfl,
      show (0 : Word).toNat = 0 from rfl] at hc ⊢
    omega

theorem abs_toNat (a : Word) : (if a.msb then -a else a).toNat = a.toInt.natAbs := by
  have ha := a.isLt
  by_cases hm : a.msb
  · rw [if_pos hm, BitVec.toNat_neg, BitVec.toInt_eq_msb_cond, if_pos hm]
    rw [BitVec.msb_eq_decide, decide_eq_true_eq] at hm
    omega
  · rw [if_neg hm, BitVec.toInt_eq_msb_cond, if_neg hm]
    omega

theorem natAbs_mul_of_ne {a b : Word} (h : (a.msb != b.msb) = true) :
    a.toInt * b.toInt = -(a.toInt.natAbs * b.toInt.natAbs) := by
  rw [bne_iff_ne, BitVec.msb_eq_toInt, BitVec.msb_eq_toInt, Ne, decide_eq_decide] at h
  by_cases ha : a.toInt < 0
  · have hb : 0 ≤ b.toInt := by
      by_contra hb
      exact h (iff_of_true ha (not_le.mp hb))
    rw [Int.natCast_natAbs, Int.natCast_natAbs, abs_of_neg ha, abs_of_nonneg hb]
    ring
  · have hb : b.toInt < 0 := by
      by_contra hb
      exact h (iff_of_false ha hb)
    rw [Int.natCast_natAbs, Int.natCast_natAbs, abs_of_nonneg (not_lt.mp ha), abs_of_neg hb]
    ring

theorem natAbs_mul_of_eq {a b : Word} (h : ¬ (a.msb != b.msb) = true) :
    a.toInt * b.toInt = a.toInt.natAbs * b.toInt.natAbs := by
  rw [bne_iff_ne, not_not, BitVec.msb_eq_toInt, BitVec.msb_eq_toInt, decide_eq_decide] at h
  rw [Int.natCast_natAbs, Int.natCast_natAbs, ← abs_mul, abs_of_nonneg]
  by_cases ha : a.toInt < 0
  · exact (mul_pos_of_neg_of_neg ha (h.mp ha)).le
  · exact mul_nonneg (not_lt.mp ha) (not_lt.mp (h.not.mp ha))

theorem double_toInt {hi lo : Word} {n : ℕ} (hn : n ≤ 2 ^ 62) (h : double hi lo = n) :
    (hi ++ lo).toInt = n := by
  rw [BitVec.toInt_eq_toNat_cond, double_append, h, if_pos (by omega)]

theorem double_toInt_neg {hi lo : Word} {n : ℕ} (hpos : 0 < n) (hn : n ≤ 2 ^ 62)
    (h : double hi lo = 2 ^ 64 - n) : (hi ++ lo).toInt = -n := by
  rw [BitVec.toInt_eq_toNat_cond, double_append, h, if_neg (by omega)]
  omega

theorem mult_signed {a b : Word} (ha : a ≠ 0) (hb : b ≠ 0) :
    ((mult a b true).1 ++ (mult a b true).2).toInt = a.toInt * b.toInt := by
  have hprod := multLoop_product (if a.msb then -a else a) (if b.msb then -b else b)
  rw [abs_toNat, abs_toNat] at hprod
  have hle : a.toInt.natAbs * b.toInt.natAbs ≤ 2 ^ 62 := by
    have h1 := BitVec.le_toInt a
    have h2 := BitVec.toInt_lt (x := a)
    have h3 := BitVec.le_toInt b
    have h4 := BitVec.toInt_lt (x := b)
    calc a.toInt.natAbs * b.toInt.natAbs ≤ 2 ^ 31 * 2 ^ 31 :=
          Nat.mul_le_mul (by omega) (by omega)
      _ = 2 ^ 62 := by norm_num
  have hpos : 0 < a.toInt.natAbs * b.toInt.natAbs := by
    refine Nat.mul_pos (Int.natAbs_pos.mpr fun h => ha ?_) (Int.natAbs_pos.mpr fun h => hb ?_)
    · exact BitVec.toInt_inj.mp (h.trans BitVec.toInt_zero.symm)
    · exact BitVec.toInt_inj.mp (h.trans BitVec.toInt_zero.symm)
  simp only [mult, if_neg (not_or.mpr ⟨ha, hb⟩), Bool.true_and]
  by_cases hneg : (a.msb != b.msb) = true
  · have hneg' := (double_neg _ _).trans (by rw [hprod, Nat.mod_eq_of_lt (by omega)])
    rw [if_pos hneg, double_toInt_neg hpos hle hneg', Nat.cast_mul]
    exact (natAbs_mul_of_ne hneg).symm
  · rw [if_neg hneg, double_toInt hle hprod, Nat.cast_mul]
    exact (natAbs_mul_of_eq hneg).symm

/-- `Mult` leaves the exact product of its operands, as signed or as unsigned integers. -/
theorem mult_exact (a b : Word) :
    ((mult a b true).1 ++ (mult a b true).2).toInt = a.toInt * b.toInt ∧
      ((mult a b false).1 ++ (mult a b false).2).toNat = a.toNat * b.toNat := by
  by_cases hzero : a = 0 ∨ b = 0
  · simp only [mult, if_pos hzero]
    obtain rfl | rfl := hzero
    · simp
    · simp
  · obtain ⟨ha, hb⟩ := not_or.mp hzero
    refine ⟨mult_signed ha hb, ?_⟩
    simp only [mult, if_neg hzero, Bool.false_and, Bool.false_eq_true, if_false]
    rw [double_append, multLoop_product]

end Nachos
