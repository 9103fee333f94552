import Zsr.Common
import Zsr.CLib.Round

namespace Zsr
open CLib

/-- The cast to `int64_t` can hold the number behind its last digit. -/
def InRange (p : ℕ) (d : ℚ) : Prop := |d| * 10 ^ p + 1 / 2 < 2 ^ 63

/-- `y` is the multiple of `10 ^ -p` nearest to `d`, and of two that are as near the one
farther from zero. -/
structure RoundsTo (p : ℕ) (d y : ℚ) : Prop where
  multiple : ∃ n : ℤ, y = n * 10 ^ (-p : ℤ)
  nearest : ∀ m : ℤ, |d - y| ≤ |d - m * 10 ^ (-p : ℤ)|
  away : ∀ m : ℤ, |d - m * 10 ^ (-p : ℤ)| = |d - y| → m * 10 ^ (-p : ℤ) ≠ y →
    |(m : ℚ) * 10 ^ (-p : ℤ)| < |y|

def rounded (p : ℕ) (d : ℚ) : ℚ := roundAway (d * 10 ^ p) * 10 ^ (-p : ℤ)

theorem unit_pos (p : ℕ) : (0 : ℚ) < 10 ^ (-p : ℤ) := zpow_pos (by norm_num) _

theorem scale_mul_unit (p : ℕ) : (10 : ℚ) ^ p * 10 ^ (-p : ℤ) = 1 := by
  rw [zpow_neg, zpow_natCast]
  exact mul_inv_cancel₀ (pow_ne_zero p (by norm_num))

theorem InRange.neg {p : ℕ} {d : ℚ} (h : InRange p d) : InRange p (-d) := by
  rw [InRange, abs_neg]
  exact h

theorem rounded_neg (p : ℕ) (d : ℚ) : rounded p (-d) = -rounded p d := by
  rw [rounded, neg_mul, roundAway_neg, Int.cast_neg, neg_mul, rounded]

/-- A number that is not negative is rounded to the nearest multiple, ties upwards, as long
as the cast can hold it. -/
theorem roundWithPrec_of_nonneg {x : ℚ} {p : ℕ} (h0 : 0 ≤ x) (hmax : x * 10 ^ p + 1 / 2 < 2 ^ 63) :
    roundWithPrec (.fin x) p = .fin (round (x * 10 ^ p) * 10 ^ (-p : ℤ)) := by
  by_cases hx : x = 0
  · subst hx
    rw [zero_mul, round_zero, Int.cast_zero, zero_mul]
    rfl
  · have hpos : 0 < x := lt_of_le_of_ne h0 (Ne.symm hx)
    have hnonneg : 0 ≤ x * 10 ^ p + 1 / 2 := by positivity
    have hcast : toInt64 (.fin (x * 10 ^ p + 1 / 2)) = ⌊x * 10 ^ p + 1 / 2⌋ := by
      have hlow : -2 ^ 63 ≤ ⌊x * 10 ^ p + 1 / 2⌋ :=
        le_trans (by norm_num) (Int.floor_nonneg.mpr hnonneg)
      have hhigh : ⌊x * 10 ^ p + 1 / 2⌋ < 2 ^ 63 := by
        rw [Int.floor_lt]
        exact_mod_cast hmax
      simp only [toInt64, if_pos hnonneg, if_pos (And.intro hlow hhigh)]
    have hne : Double.fin x ≠ 0 := fun h => hx (Double.fin_inj.mp h)
    have hp : isPositive (.fin x) = true := decide_eq_true hpos
    rw [round_eq]
    simp only [roundWithPrec, if_neg hne, hp, if_true, Double.fin_mul, Double.fin_add, hcast]

theorem roundWithPrec_of_neg {x : ℚ} {p : ℕ} (h0 : x < 0) (hmin : -x * 10 ^ p + 1 / 2 < 2 ^ 63) :
    roundWithPrec (.fin x) p = .fin (-round (-(x * 10 ^ p)) * 10 ^ (-p : ℤ)) := by
  have hscaled : x * 10 ^ p < 0 := mul_neg_of_neg_of_pos h0 (by positivity)
  have hneg : ¬0 ≤ x * 10 ^ p - 1 / 2 := by linarith
  have hcast : toInt64 (.fin (x * 10 ^ p - 1 / 2)) = -round (-(x * 10 ^ p)) := by
    have hceil : ⌈x * 10 ^ p - 1 / 2⌉ = -round (-(x * 10 ^ p)) := by
      rw [round_eq, ← Int.ceil_neg]
      congr 1
      ring
    have hlow : -2 ^ 63 ≤ ⌈x * 10 ^ p - 1 / 2⌉ := by
      rw [Int.le_ceil_iff]
      push_cast
      linarith
    have hhigh : ⌈x * 10 ^ p - 1 / 2⌉ < 2 ^ 63 :=
      lt_of_le_of_lt (Int.ceil_le.mpr (by push_cast; linarith)) (by norm_num : (0 : ℤ) < 2 ^ 63)
    rw [← hceil]
    simp only [toInt64, if_neg hneg, if_pos (And.intro hlow hhigh)]
  have hne : Double.fin x ≠ 0 := fun h => h0.ne (Double.fin_inj.mp h)
  have hp : isPositive (.fin x) = false := decide_eq_false (not_lt.mpr h0.le)
  simp only [roundWithPrec, if_neg hne, hp, Bool.false_eq_true, if_false, Double.fin_mul,
    Double.fin_sub, hcast, Int.cast_neg]

theorem roundWithPrec_eq {p : ℕ} {d : ℚ} (h : InRange p d) :
    roundWithPrec (.fin d) p = .fin (rounded p d) := by
  have hp : (0 : ℚ) < 10 ^ p := by positivity
  unfold InRange at h
  unfold rounded
  rcases le_or_gt 0 d with hd | hd
  · rw [abs_of_nonneg hd] at h
    rw [roundAway_of_nonneg (mul_nonneg hd hp.le)]
    exact roundWithPrec_of_nonneg hd h
  · rw [abs_of_neg hd] at h
    rw [roundAway_of_neg (mul_neg_of_neg_of_pos hd hp), Int.cast_neg]
    exact roundWithPrec_of_neg hd h

theorem abs_sub_scaled (p : ℕ) (d : ℚ) (m : ℤ) :
    |d - m * 10 ^ (-p : ℤ)| = |d * 10 ^ p - m| * 10 ^ (-p : ℤ) := by
  have habs : |(10 : ℚ) ^ (-p : ℤ)| = 10 ^ (-p : ℤ) := abs_of_pos (unit_pos p)
  have hdiff : (d * 10 ^ p - m) * 10 ^ (-p : ℤ) = d - m * 10 ^ (-p : ℤ) := by
    rw [sub_mul, mul_assoc, scale_mul_unit, mul_one]
  rw [← hdiff, abs_mul, habs]

theorem roundsTo_rounded (p : ℕ) (d : ℚ) : RoundsTo p d (rounded p d) := by
  have hpos := unit_pos p
  refine ⟨⟨_, rfl⟩, fun m => ?_, fun m hm hne => ?_⟩
  · rw [rounded, abs_sub_scaled, abs_sub_scaled]
    exact mul_le_mul_of_nonneg_right (abs_sub_roundAway_le _ m) hpos.le
  · rw [rounded, abs_sub_scaled, abs_sub_scaled] at hm
    rw [rounded, abs_mul, abs_mul]
    apply mul_lt_mul_of_pos_right _ (abs_pos.mpr hpos.ne')
    have hint := mul_right_cancel₀ hpos.ne' hm
    have hlt := abs_lt_abs_roundAway hint fun h => hne (by rw [h, rounded])
    exact_mod_cast hlt

theorem abs_rounded_sub_le (p : ℕ) (d : ℚ) : |rounded p d - d| ≤ 10 ^ (-p : ℤ) / 2 := by
  rw [abs_sub_comm, rounded, abs_sub_scaled]
  have h := mul_le_mul_of_nonneg_right (abs_sub_roundAway (d * 10 ^ p)) (unit_pos p).le
  linarith

theorem rounded_mono (p : ℕ) {d e : ℚ} (h : d ≤ e) : rounded p d ≤ rounded p e := by
  have hle : roundAway (d * 10 ^ p) ≤ roundAway (e * 10 ^ p) :=
    roundAway_mono (mul_le_mul_of_nonneg_right h (by positivity))
  exact mul_le_mul_of_nonneg_right (by exact_mod_cast hle) (unit_pos p).le

theorem rounded_scaled (p : ℕ) (d : ℚ) : rounded p d * 10 ^ p = roundAway (d * 10 ^ p) := by
  rw [rounded, mul_assoc, mul_comm ((10 : ℚ) ^ (-p : ℤ)), scale_mul_unit, mul_one]

theorem rounded_multiple (p : ℕ) (n : ℤ) : rounded p (n * 10 ^ (-p : ℤ)) = n * 10 ^ (-p : ℤ) := by
  rw [rounded, mul_assoc, mul_comm ((10 : ℚ) ^ (-p : ℤ)), scale_mul_unit, mul_one,
    roundAway_intCast]

theorem rounded_rounded (p : ℕ) (d : ℚ) : rounded p (rounded p d) = rounded p d :=
  rounded_multiple p _

theorem InRange.rounded {p : ℕ} {d : ℚ} (h : InRange p d) : InRange p (rounded p d) := by
  have hp : (0 : ℚ) < 10 ^ p := pow_pos (by norm_num) p
  have hscale (x : ℚ) : |x| * 10 ^ p = |x * 10 ^ p| := by
    rw [abs_mul, abs_of_pos hp]
  rw [InRange, hscale] at h
  rw [InRange, hscale, rounded_scaled]
  have hle : |(roundAway (d * 10 ^ p) : ℚ)| ≤ |d * 10 ^ p| + 1 / 2 := by
    have hsub := abs_sub_abs_le_abs_sub (roundAway (d * 10 ^ p) : ℚ) (d * 10 ^ p)
    rw [abs_sub_comm] at hsub
    linarith [abs_sub_roundAway (d * 10 ^ p)]
  have hlt : |roundAway (d * 10 ^ p)| < 2 ^ 63 := by
    have hlt := lt_of_le_of_lt hle h
    exact_mod_cast hlt
  have hint : |roundAway (d * 10 ^ p)| ≤ 2 ^ 63 - 1 := Int.le_sub_one_of_lt hlt
  have hint : |(roundAway (d * 10 ^ p) : ℚ)| ≤ 2 ^ 63 - 1 := by exact_mod_cast hint
  linarith

theorem roundWithPrec_two {x : ℚ} (h0 : 0 ≤ x) (h1 : x ≤ 1) :
    ∃ y, roundWithPrec (.fin x) 2 = .fin y ∧ 0 ≤ y ∧ y ≤ 1 ∧ |y - x| ≤ 1 / 200 := by
  have hrange : InRange 2 x := by
    rw [InRange, abs_of_nonneg h0]
    linarith
  have hunit : (10 : ℚ) ^ (-(2 : ℕ) : ℤ) = 1 / 100 := by norm_num
  have hzero := rounded_multiple 2 0
  have hone := rounded_multiple 2 100
  have herr := abs_rounded_sub_le 2 x
  rw [hunit] at hzero hone herr
  norm_num at hzero hone herr
  refine ⟨rounded 2 x, roundWithPrec_eq hrange, ?_, ?_, herr⟩
  · exact hzero.symm.trans_le (rounded_mono 2 h0)
  · exact (rounded_mono 2 h1).trans_eq hone

/-- In range the result is the nearest multiple with ties away from zero, and rounding is
monotone, odd and idempotent. -/
theorem roundWithPrec_nearest {p : ℕ} {d e : ℚ} (hd : InRange p d) (he : InRange p e) :
    ∃ y z, roundWithPrec (.fin d) p = .fin y ∧ roundWithPrec (.fin e) p = .fin z ∧
      RoundsTo p d y ∧ |y - d| ≤ 10 ^ (-p : ℤ) / 2 ∧ (d ≤ e → y ≤ z) ∧
      roundWithPrec (.fin (-d)) p = .fin (-y) ∧ roundWithPrec (.fin y) p = .fin y := by
  refine ⟨rounded p d, rounded p e, roundWithPrec_eq hd, roundWithPrec_eq he,
    roundsTo_rounded p d, abs_rounded_sub_le p d, rounded_mono p, ?_, ?_⟩
  · rw [roundWithPrec_eq hd.neg, rounded_neg]
  · rw [roundWithPrec_eq hd.rounded, rounded_rounded]

theorem roundWithPrec_nearest_tie :
    ∃ y z, roundWithPrec (.fin (-1.005)) 2 = .fin y ∧ roundWithPrec (.fin 1.2678) 2 = .fin z ∧
      RoundsTo 2 (-1.005) y ∧ |y - -1.005| ≤ 10 ^ (-2 : ℤ) / 2 ∧ ((-1.005 : ℚ) ≤ 1.2678 → y ≤ z) ∧
      roundWithPrec (.fin (- -1.005)) 2 = .fin (-y) ∧ roundWithPrec (.fin y) 2 = .fin y :=
  roundWithPrec_nearest (by norm_num [InRange]) (by norm_num [InRange])

example : roundWithPrec (.fin (-1.005)) 2 = .fin (-1.01) := by decide +kernel

end Zsr
