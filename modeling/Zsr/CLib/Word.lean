import Mathlib.Data.Nat.Cast.Order.Field
import Mathlib.Data.Rat.Cast.Order

namespace CLib

theorem toNat_sub_of_le {a b : UInt64} (h : b.toNat ≤ a.toNat) :
    (a - b).toNat = a.toNat - b.toNat :=
  UInt64.toNat_sub_of_le _ _ (UInt64.le_iff_toNat_le.mpr h)

theorem toNat_sub_eq_zero_iff {a b : UInt64} : (a - b).toNat = 0 ↔ a = b := by
  have ha := a.toNat_lt
  have hb := b.toNat_lt
  rw [UInt64.toNat_sub, ← UInt64.toNat_inj]
  omega

theorem toNat_sub_add_iff (t f : UInt64) : (t - f).toNat + f.toNat = t.toNat ↔ f ≤ t := by
  have ht := t.toNat_lt
  have hf := f.toNat_lt
  rw [UInt64.toNat_sub, UInt64.le_iff_toNat_le]
  omega

/-- A difference in 64 bits is at most `n` when it is one without wrapping, unless both
numbers are far apart. -/
theorem toNat_sub_le_iff {a b n : ℕ} (ha : a < 2 ^ 63) (hb : b < 2 ^ 63) (hn : n < 2 ^ 63) :
    (2 ^ 64 - b + a) % 2 ^ 64 ≤ n ↔ b ≤ a ∧ a - b ≤ n := by
  omega

theorem sub_eq_sub_iff_of_add (a b x y : UInt64) : a + x - (b + y) = a - b ↔ x = y := by
  have ha := a.toNat_lt
  have hb := b.toNat_lt
  have hx := x.toNat_lt
  have hy := y.toNat_lt
  simp only [← UInt64.toNat_inj, UInt64.toNat_sub, UInt64.toNat_add]
  omega

theorem toNat_sum_sub {a b x y : UInt64} (ha : x ≤ a) (hb : y ≤ b)
    (hsum : a.toNat + b.toNat < 2 ^ 64) :
    (a + b - (x + y)).toNat = (a - x).toNat + (b - y).toNat := by
  rw [UInt64.le_iff_toNat_le] at ha hb
  simp only [UInt64.toNat_sub, UInt64.toNat_add]
  omega

theorem ne_add_one {x : UInt64} : x ≠ x + 1 := by
  intro h
  have hnat := congrArg UInt64.toNat h
  rw [UInt64.toNat_add] at hnat
  have := x.toNat_lt
  have h1 : (1 : UInt64).toNat = 1 := rfl
  omega

theorem toNat_mul_of_lt {a b : UInt64} (h : a.toNat * b.toNat < 2 ^ 64) :
    (a * b).toNat = a.toNat * b.toNat := by
  rw [UInt64.toNat_mul, Nat.mod_eq_of_lt h]

theorem toNat_pos {v : UInt64} (hv : v ≠ 0) : (0 : ℚ) < v.toNat := by
  have hne : v.toNat ≠ 0 := fun h => hv (UInt64.toNat_inj.mp h)
  exact Nat.cast_pos.mpr (Nat.pos_of_ne_zero hne)

theorem toNat_ne_zero {v : UInt64} (hv : v ≠ 0) : (v.toNat : ℚ) ≠ 0 := (toNat_pos hv).ne'

theorem cast_toNat_sub {a b : UInt64} (h : b ≤ a) : ((a - b).toNat : ℚ) = a.toNat - b.toNat := by
  rw [UInt64.toNat_sub_of_le _ _ h, Nat.cast_sub (UInt64.le_iff_toNat_le.mp h)]

theorem min_le_add_div_add {a b m n : ℚ} (hm : 0 < m) (hn : 0 < n) :
    min (a / m) (b / n) ≤ (a + b) / (m + n) := by
  rw [le_div_iff₀ (add_pos hm hn), mul_add]
  have ha := mul_le_mul_of_nonneg_right (min_le_left (a / m) (b / n)) hm.le
  have hb := mul_le_mul_of_nonneg_right (min_le_right (a / m) (b / n)) hn.le
  rw [div_mul_cancel₀ a hm.ne'] at ha
  rw [div_mul_cancel₀ b hn.ne'] at hb
  exact add_le_add ha hb

theorem add_div_add_le_max {a b m n : ℚ} (hm : 0 < m) (hn : 0 < n) :
    (a + b) / (m + n) ≤ max (a / m) (b / n) := by
  rw [div_le_iff₀ (add_pos hm hn), mul_add]
  have ha := mul_le_mul_of_nonneg_right (le_max_left (a / m) (b / n)) hm.le
  have hb := mul_le_mul_of_nonneg_right (le_max_right (a / m) (b / n)) hn.le
  rw [div_mul_cancel₀ a hm.ne'] at ha
  rw [div_mul_cancel₀ b hn.ne'] at hb
  exact add_le_add ha hb

end CLib
