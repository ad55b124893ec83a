import StackForest.Binary64.Decimal
import Mathlib.Algebra.Order.Field.Power
import Mathlib.Data.Rat.Cast.Order
import Mathlib.Tactic.FieldSimp
import Mathlib.Tactic.NormNum
import Mathlib.Tactic.Positivity

/-!
# Rounding an exact decimal

A decimal that is a binary64 number is rounded to this number (`ofDecimal_of_units`). Values are
counted in units, the least positive number.
-/

namespace StackForest

namespace Binary64

/-! ## Units and ranks -/

theorem binadeSize_eq : binadeSize = 2 ^ 52 := rfl

theorem roundDiv_mul {den : Nat} (h : 0 < den) (n : Nat) : roundDiv (n * den) den = n := by
  simp [roundDiv, Nat.mul_div_cancel n h, h]

theorem log2_shiftLeft {f : Nat} (hf : f < binadeSize) (k : Nat) :
    ((binadeSize + f) <<< k).log2 = 52 + k := by
  rw [binadeSize_eq] at hf ⊢
  have hk : 0 < 2 ^ k := Nat.two_pow_pos k
  rw [Nat.shiftLeft_eq, Nat.log2_eq_iff (Nat.mul_ne_zero (by omega) hk.ne')]
  constructor
  · rw [Nat.pow_add]
    exact Nat.mul_le_mul_right _ (by omega)
  · rw [show 52 + k + 1 = 53 + k by omega, Nat.pow_add]
    exact Nat.mul_lt_mul_of_pos_right (by omega) hk

theorem rankOfUnits_mul {den : Nat} (h : 0 < den) (rank : Nat) :
    rankOfUnits (unitsOfRank rank * den) den = rank := by
  have hdiv := Nat.div_add_mod rank binadeSize
  have hf : rank % binadeSize < binadeSize := Nat.mod_lt _ (by decide)
  rw [rankOfUnits, Nat.mul_div_cancel _ h]
  unfold unitsOfRank
  cases hb : rank / binadeSize with
  | zero =>
    have hlog : (rank % binadeSize).log2 < 52 + 1 := by
      rcases Nat.eq_zero_or_pos (rank % binadeSize) with h0 | hpos
      · rw [h0]; decide
      · rw [Nat.log2_lt hpos.ne']
        exact Nat.lt_trans hf (by decide)
    have hk : (rank % binadeSize).log2 - 52 = 0 := by omega
    simp only [if_true, hk, Nat.zero_mul, Nat.shiftLeft_zero, roundDiv_mul h]
    rw [hb] at hdiv
    omega
  | succ k =>
    simp only [Nat.add_one_ne_zero, if_false, Nat.add_sub_cancel, log2_shiftLeft hf]
    rw [hb] at hdiv
    rw [Nat.add_sub_cancel_left, Nat.shiftLeft_eq, Nat.shiftLeft_eq, Nat.mul_assoc,
      Nat.mul_comm (2 ^ k), roundDiv_mul (Nat.mul_pos h (Nat.two_pow_pos k)), ← Nat.add_assoc,
      ← Nat.succ_mul, Nat.mul_comm]
    exact hdiv

theorem unitsOfRank_lt {rank n : Nat} (h : rank < (n + 1) * binadeSize) :
    unitsOfRank rank < 2 ^ (n + 52) := by
  have hf : rank % binadeSize < binadeSize := Nat.mod_lt _ (by decide)
  have hb : rank / binadeSize < n + 1 := Nat.div_lt_of_lt_mul (by rwa [Nat.mul_comm])
  unfold unitsOfRank
  generalize rank % binadeSize = f at hf
  generalize rank / binadeSize = b at hb
  rw [binadeSize_eq] at hf ⊢
  by_cases h0 : b = 0
  · rw [if_pos h0]
    exact Nat.lt_of_lt_of_le hf (Nat.pow_le_pow_right (by decide) (by omega))
  · rw [if_neg h0, Nat.shiftLeft_eq, show n + 52 = 53 + (n - 1) by omega, Nat.pow_add]
    have hp : 2 ^ (b - 1) ≤ 2 ^ (n - 1) := Nat.pow_le_pow_right (by decide) (by omega)
    exact Nat.mul_lt_mul_of_lt_of_le (by omega) hp (Nat.two_pow_pos _)

theorem unitsOfRank_pos {rank : Nat} (h : 0 < rank) : 0 < unitsOfRank rank := by
  have hdiv := Nat.div_add_mod rank binadeSize
  unfold unitsOfRank
  simp only
  split
  · next h0 => rw [h0] at hdiv; omega
  · rw [Nat.shiftLeft_eq]
    exact Nat.mul_pos (Nat.lt_of_lt_of_le (by decide) (Nat.le_add_right _ _)) (Nat.two_pow_pos _)

/-! ## Decimals -/

theorem cast_one_shiftLeft (n : Nat) : ((1 <<< n : Nat) : ℚ) = 2 ^ n := by
  simp [Nat.shiftLeft_eq]

theorem cast_unitsPerOne : (unitsPerOne : ℚ) = 2 ^ 1074 := cast_one_shiftLeft 1074

theorem cast_unitsOfRank_lt {rank n : Nat} (h : rank < (n + 1) * binadeSize) :
    (unitsOfRank rank : ℚ) < 2 ^ (n + 52) := by
  exact_mod_cast unitsOfRank_lt h

/-- How many units a decimal counts, its sign apart. -/
def unitsOfDecimal (d : Decimal) : ℚ := d.digits * 10 ^ d.exponent * unitsPerOne

theorem exponent_le {d : Decimal} {rank : Nat} (hr : rank < rankCount) (hd : d.digits ≠ 0)
    (h : unitsOfDecimal d = unitsOfRank rank) : d.exponent ≤ 400 := by
  by_contra hlt
  have hpow : (2 : ℚ) ^ 1024 ≤ 10 ^ (400 : Int) := by
    calc (2 : ℚ) ^ 1024 = (2 ^ 128) ^ 8 := by rw [← pow_mul]
      _ ≤ (10 ^ 50) ^ 8 := by gcongr; norm_num
      _ = 10 ^ (400 : Int) := by rw [← pow_mul]; rfl
  have hexp : (10 : ℚ) ^ (400 : Int) ≤ 10 ^ d.exponent :=
    zpow_le_zpow_right₀ (by norm_num) (by omega)
  have hone : (1 : ℚ) ≤ d.digits := by exact_mod_cast Nat.one_le_iff_ne_zero.mpr hd
  have hlow : (2 : ℚ) ^ 1024 * 2 ^ 1074 ≤ unitsOfRank rank := by
    rw [← h, unitsOfDecimal, cast_unitsPerOne]
    gcongr
    calc (2 : ℚ) ^ 1024 ≤ 10 ^ d.exponent := hpow.trans hexp
      _ = 1 * 10 ^ d.exponent := by rw [one_mul]
      _ ≤ d.digits * 10 ^ d.exponent := by gcongr
  have hhigh := cast_unitsOfRank_lt (n := 2046) hr
  rw [← pow_add] at hlow
  exact absurd hhigh (not_lt.mpr hlow)

theorem le_exponent {d : Decimal} {rank : Nat} (hd : d.digits ≠ 0)
    (h : unitsOfDecimal d = unitsOfRank rank) : 0 ≤ d.exponent + d.digits.log2 + 400 := by
  by_contra hlt
  have hpow : (2 : ℚ) ^ 1074 ≤ 10 ^ 400 := by
    calc (2 : ℚ) ^ 1074 = (2 ^ 179) ^ 6 := by rw [← pow_mul]
      _ ≤ (10 ^ 60) ^ 6 := by gcongr; norm_num
      _ = 10 ^ 360 := by rw [← pow_mul]
      _ ≤ 10 ^ 400 := by gcongr <;> norm_num
  have hdigits : (d.digits : ℚ) < 10 ^ (d.digits.log2 + 1) := by
    calc (d.digits : ℚ) < 2 ^ (d.digits.log2 + 1) := by exact_mod_cast Nat.lt_log2_self
      _ ≤ 10 ^ (d.digits.log2 + 1) := by gcongr; norm_num
  have hexp : (10 : ℚ) ^ d.exponent ≤ 10 ^ (-(d.digits.log2 + 1 + 400 : Nat) : Int) :=
    zpow_le_zpow_right₀ (by norm_num) (by push_cast; omega)
  have hone : unitsOfDecimal d < 1 := by
    have hsmall : (d.digits : ℚ) * 10 ^ d.exponent <
        10 ^ (d.digits.log2 + 1) * 10 ^ (-(d.digits.log2 + 1 + 400 : Nat) : Int) :=
      mul_lt_mul hdigits hexp (by positivity) (by positivity)
    rw [unitsOfDecimal, cast_unitsPerOne]
    calc (d.digits : ℚ) * 10 ^ d.exponent * 2 ^ 1074
        < 10 ^ (d.digits.log2 + 1) * 10 ^ (-(d.digits.log2 + 1 + 400 : Nat) : Int) * 10 ^ 400 :=
          mul_lt_mul hsmall hpow (by positivity) (by positivity)
      _ = 1 := by
          rw [zpow_neg, zpow_natCast, pow_add 10 (d.digits.log2 + 1) 400, mul_inv, mul_assoc,
            mul_assoc, inv_mul_cancel₀ (by positivity), mul_one, mul_inv_cancel₀ (by positivity)]
  rw [h] at hone
  have hzero : unitsOfRank rank = 0 := Nat.lt_one_iff.mp (by exact_mod_cast hone)
  rw [hzero, unitsOfDecimal, cast_unitsPerOne] at h
  have hpos : (0 : ℚ) < d.digits * 10 ^ d.exponent * 2 ^ 1074 := by positivity
  exact absurd h (by rw [Nat.cast_zero]; exact hpos.ne')

theorem ofDecimal_of_units {d : Decimal} {rank : Nat} (hr : rank < rankCount)
    (h : unitsOfDecimal d = unitsOfRank rank) : ofDecimal d = ofRank d.negative rank := by
  unfold ofDecimal
  by_cases hd : d.digits = 0
  · have hu : unitsOfRank rank = 0 := by
      rw [unitsOfDecimal, hd, Nat.cast_zero, zero_mul, zero_mul] at h
      exact_mod_cast h.symm
    have hz : rank = 0 := by
      by_contra hne
      exact (unitsOfRank_pos (Nat.pos_of_ne_zero hne)).ne' hu
    rw [if_pos hd, hz]
  rw [if_neg hd, if_neg (not_lt.mpr (exponent_le hr hd h)), if_neg (not_lt.mpr (le_exponent hd h))]
  rw [unitsOfDecimal] at h
  unfold ofRatio
  cases he : d.exponent with
  | ofNat n =>
    rw [he, Int.ofNat_eq_natCast, zpow_natCast] at h
    have hu : d.digits * 10 ^ n * unitsPerOne = unitsOfRank rank := by
      generalize unitsPerOne = one at h ⊢
      exact_mod_cast h
    simp only [Nat.pow_eq]
    rw [hu, ← Nat.mul_one (unitsOfRank rank), rankOfUnits_mul Nat.one_pos]
  | negSucc n =>
    rw [he, zpow_negSucc] at h
    have hu : d.digits * unitsPerOne = unitsOfRank rank * 10 ^ (n + 1) := by
      generalize unitsPerOne = one at h ⊢
      have hq : (d.digits : ℚ) * one = unitsOfRank rank * 10 ^ (n + 1) := by
        rw [← h]
        field_simp
      exact_mod_cast hq
    simp only [Nat.pow_eq]
    rw [hu, rankOfUnits_mul (by positivity)]

end Binary64
end StackForest
