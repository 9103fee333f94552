import Zsr.CLib.Double
import Mathlib.Data.Int.Log
import Mathlib.Tactic.NormNum
import Mathlib.Tactic.Positivity

namespace CLib

namespace Double

variable {p q : ℚ} {n : ℤ}

theorem le_roundHalfEven (h : n - 1 / 2 < q) : n ≤ roundHalfEven q := by
  have hround := (abs_le.mp (abs_sub_roundHalfEven q)).1
  have hlt : ((n - 1 : ℤ) : ℚ) < roundHalfEven q := by
    push_cast
    linarith
  have := Int.cast_lt.mp hlt
  omega

theorem roundHalfEven_le (h : q < n + 1 / 2) : roundHalfEven q ≤ n := by
  have hround := (abs_le.mp (abs_sub_roundHalfEven q)).2
  have hlt : (roundHalfEven q : ℚ) < ((n + 1 : ℤ) : ℚ) := by
    push_cast
    linarith
  have := Int.cast_lt.mp hlt
  omega

theorem roundHalfEven_intCast (n : ℤ) : roundHalfEven n = n :=
  le_antisymm (roundHalfEven_le (by linarith)) (le_roundHalfEven (by linarith))

theorem roundHalfEven_tie (h : n % 2 = 0) : roundHalfEven (n + 1 / 2) = n := by
  have hfloor : ⌊(n + 1 / 2 : ℚ)⌋ = n := by
    rw [Int.floor_eq_iff]
    constructor <;> linarith
  rw [roundHalfEven, hfloor, add_sub_cancel_left, if_neg (lt_irrefl _), if_neg (lt_irrefl _),
    if_pos h]

theorem roundHalfEven_mono (h : q ≤ p) : roundHalfEven q ≤ roundHalfEven p := by
  by_contra! hlt
  have hcast : (roundHalfEven p : ℚ) + 1 ≤ roundHalfEven q := by exact_mod_cast hlt
  have hq := (abs_le.mp (abs_sub_roundHalfEven q)).2
  have hp := (abs_le.mp (abs_sub_roundHalfEven p)).1
  -- only one number is half a unit away from both
  obtain rfl : q = p := by linarith
  exact lt_irrefl _ hlt

end Double

open Double

def ulp (x : ℚ) : ℚ := 2 ^ (Int.log 2 |x| - 52)

/-- The nearest number of 53 binary digits, and of two that are as near the one whose last digit
is even: what an operation on doubles gives for `x`, as long as it is neither too large for a
double nor subnormal. -/
def binary64 (x : ℚ) : ℚ := roundHalfEven (x / ulp x) * ulp x

theorem ulp_pos (x : ℚ) : 0 < ulp x := zpow_pos (by norm_num) _

theorem two_pow_mul_ulp (x : ℚ) (k : ℕ) : 2 ^ k * ulp x = 2 ^ (Int.log 2 |x| - 52 + k) := by
  rw [ulp, zpow_add₀ (by norm_num), zpow_natCast, mul_comm]

theorem lt_ulp (x : ℚ) : |x| < 2 ^ 53 * ulp x := by
  have h := Int.lt_zpow_succ_log_self (b := 2) (by norm_num) |x|
  rw [two_pow_mul_ulp, show Int.log 2 |x| - 52 + (53 : ℕ) = Int.log 2 |x| + 1 by push_cast; ring]
  exact_mod_cast h

theorem ulp_le {x : ℚ} (hx : x ≠ 0) : 2 ^ 52 * ulp x ≤ |x| := by
  have h := Int.zpow_log_le_self (b := 2) (by norm_num) (abs_pos.mpr hx)
  rw [two_pow_mul_ulp, show Int.log 2 |x| - 52 + (52 : ℕ) = Int.log 2 |x| by push_cast; ring]
  exact_mod_cast h

@[simp] theorem binary64_zero : binary64 0 = 0 := by
  rw [binary64, zero_div, show roundHalfEven 0 = 0 from roundHalfEven_intCast 0, Int.cast_zero,
    zero_mul]

theorem binary64_nonneg {x : ℚ} (hx : 0 ≤ x) : 0 ≤ binary64 x := by
  have hpos := ulp_pos x
  have h : 0 ≤ roundHalfEven (x / ulp x) := roundHalfEven_nonneg (by positivity)
  unfold binary64
  positivity

theorem abs_binary64_sub_le_ulp (x : ℚ) : |binary64 x - x| ≤ ulp x / 2 := by
  have hpos := ulp_pos x
  have h : binary64 x - x = (roundHalfEven (x / ulp x) - x / ulp x) * ulp x := by
    rw [sub_mul, div_mul_cancel₀ _ hpos.ne']
    rfl
  have hround := mul_le_mul_of_nonneg_right (abs_sub_roundHalfEven (x / ulp x)) hpos.le
  rw [h, abs_mul, abs_of_pos hpos]
  linarith

theorem abs_binary64_sub_le (x : ℚ) : |binary64 x - x| ≤ |x| / 2 ^ 53 := by
  rcases eq_or_ne x 0 with rfl | hx
  · simp
  · have h := abs_binary64_sub_le_ulp x
    have hulp := ulp_le hx
    rw [le_div_iff₀ (by norm_num)]
    linarith

theorem binary64_of_int {x : ℚ} {n : ℤ} (h : x = n * ulp x) : binary64 x = x := by
  have hquot : x / ulp x = n := by
    rw [div_eq_iff (ulp_pos x).ne']
    exact h
  rw [binary64, hquot, roundHalfEven_intCast]
  exact h.symm

theorem binary64_mul_zpow {m : ℤ} (hm : |m| < 2 ^ 53) (k : ℤ) :
    binary64 (m * 2 ^ k) = m * 2 ^ k := by
  rcases eq_or_ne m 0 with rfl | hne
  · simp
  · have hk : (0 : ℚ) < 2 ^ k := zpow_pos (by norm_num) _
    have hx : (m * 2 ^ k : ℚ) ≠ 0 := mul_ne_zero (Int.cast_ne_zero.mpr hne) hk.ne'
    have habs : |(m * 2 ^ k : ℚ)| < 2 ^ (53 + k) := by
      rw [abs_mul, abs_of_pos hk, zpow_add₀ (by norm_num)]
      exact mul_lt_mul_of_pos_right (by exact_mod_cast hm) hk
    have hlog : Int.log 2 |(m * 2 ^ k : ℚ)| < 53 + k :=
      (Int.lt_zpow_iff_log_lt (by norm_num) (abs_pos.mpr hx)).mp (by exact_mod_cast habs)
    obtain ⟨j, hj⟩ : ∃ j : ℕ, k = Int.log 2 |(m * 2 ^ k : ℚ)| - 52 + j :=
      ⟨(k - (Int.log 2 |(m * 2 ^ k : ℚ)| - 52)).toNat, by omega⟩
    apply binary64_of_int (n := m * 2 ^ j)
    push_cast
    rw [mul_assoc, two_pow_mul_ulp, ← hj]

theorem binary64_natCast {n : ℕ} (h : n < 2 ^ 53) : binary64 n = n := by
  have hn := binary64_mul_zpow (m := n) (by rw [Nat.abs_cast]; exact_mod_cast h) 0
  simpa using hn

theorem binary64_mono {x y : ℚ} (hx : 0 ≤ x) (h : x ≤ y) : binary64 x ≤ binary64 y := by
  rcases hx.eq_or_lt with rfl | hx
  · rw [binary64_zero]
    exact binary64_nonneg h
  have hy := hx.trans_le h
  have hlog : Int.log 2 |x| ≤ Int.log 2 |y| := by
    rw [abs_of_pos hx, abs_of_pos hy]
    exact Int.log_mono_right hx h
  rcases hlog.eq_or_lt with heq | hlt
  · -- with the same unit the rounded quotients are in order
    have hulp : ulp x = ulp y := by rw [ulp, ulp, heq]
    have hpos := ulp_pos y
    rw [binary64, binary64, hulp]
    apply mul_le_mul_of_nonneg_right _ hpos.le
    exact_mod_cast roundHalfEven_mono (div_le_div_of_nonneg_right h hpos.le)
  · -- there is a power of two between them
    have hxpos := ulp_pos x
    have hypos := ulp_pos y
    have hxlt := lt_ulp x
    have hyle := ulp_le hy.ne'
    rw [abs_of_pos hx] at hxlt
    rw [abs_of_pos hy] at hyle
    have hup : roundHalfEven (x / ulp x) ≤ 2 ^ 53 := by
      apply roundHalfEven_le
      have hquot : x / ulp x < 2 ^ 53 := (div_lt_iff₀ hxpos).mpr hxlt
      push_cast
      linarith
    have hdown : 2 ^ 52 ≤ roundHalfEven (y / ulp y) := by
      apply le_roundHalfEven
      have hquot : 2 ^ 52 ≤ y / ulp y := (le_div_iff₀ hypos).mpr hyle
      push_cast
      linarith
    calc binary64 x ≤ 2 ^ 53 * ulp x :=
          mul_le_mul_of_nonneg_right (by exact_mod_cast hup) hxpos.le
      _ ≤ 2 ^ 52 * ulp y := by
          rw [two_pow_mul_ulp, two_pow_mul_ulp]
          apply zpow_le_zpow_right₀ (by norm_num)
          push_cast
          omega
      _ ≤ binary64 y := mul_le_mul_of_nonneg_right (by exact_mod_cast hdown) hypos.le

/-- The rounded number is at most 100 exactly when the number does not get past the middle of 100
and the next number of 53 digits. -/
theorem binary64_le_hundred_iff {x : ℚ} (hx : 0 ≤ x) :
    binary64 x ≤ 100 ↔ x ≤ 100 + 1 / 2 ^ 47 := by
  have hulp {y : ℚ} (h1 : 64 ≤ y) (h2 : y < 128) : ulp y = 1 / 2 ^ 46 := by
    have hlog : Int.log 2 |y| = 6 := by
      rw [abs_of_nonneg (by linarith)]
      apply le_antisymm
      · apply Int.lt_add_one_iff.mp
        exact (Int.lt_zpow_iff_log_lt (by norm_num) (by linarith)).mp (by norm_num; linarith)
      · exact (Int.zpow_le_iff_le_log (by norm_num) (by linarith)).mp (by norm_num; linarith)
    rw [ulp, hlog]
    norm_num
  constructor
  · intro h
    by_contra! hgt
    rcases lt_or_ge x 128 with hlt | hge
    · rw [binary64, hulp (by linarith) hlt] at h
      have hnext : 100 * 2 ^ 46 + 1 ≤ roundHalfEven (x / (1 / 2 ^ 46)) := by
        apply le_roundHalfEven
        push_cast
        linarith
      have hcast : (100 * 2 ^ 46 + 1 : ℚ) ≤ roundHalfEven (x / (1 / 2 ^ 46)) := by
        exact_mod_cast hnext
      linarith
    · have hmono := binary64_mono (by norm_num) hge
      rw [show (128 : ℚ) = ((128 : ℕ) : ℚ) by norm_num, binary64_natCast (by norm_num)] at hmono
      push_cast at hmono
      linarith
  · intro h
    refine (binary64_mono hx h).trans ?_
    rw [binary64, hulp (by norm_num) (by norm_num),
      show (100 + 1 / 2 ^ 47 : ℚ) / (1 / 2 ^ 46) = ((100 * 2 ^ 46 : ℤ) : ℚ) + 1 / 2 by norm_num,
      roundHalfEven_tie (by norm_num)]
    norm_num

theorem abs_sub_le_of_binary64_eq {x y : ℚ} (h : binary64 x = binary64 y) :
    |x - y| ≤ (|x| + |y|) / 2 ^ 53 := by
  have hx := abs_binary64_sub_le x
  have hy := abs_binary64_sub_le y
  rw [h, abs_sub_comm] at hx
  calc |x - y| ≤ |x - binary64 y| + |binary64 y - y| := abs_sub_le _ _ _
    _ ≤ |x| / 2 ^ 53 + |y| / 2 ^ 53 := add_le_add hx hy
    _ = (|x| + |y|) / 2 ^ 53 := by ring

theorem binary64_pos {x : ℚ} (hx : 0 < x) : 0 < binary64 x := by
  have hpos := ulp_pos x
  have hle := ulp_le hx.ne'
  rw [abs_of_pos hx] at hle
  have h1 : 1 ≤ roundHalfEven (x / ulp x) := by
    apply le_roundHalfEven
    have hquot : 2 ^ 52 ≤ x / ulp x := (le_div_iff₀ hpos).mpr hle
    push_cast
    linarith
  have hcast : (1 : ℚ) ≤ roundHalfEven (x / ulp x) := by exact_mod_cast h1
  exact mul_pos (by linarith) hpos

/-- The percentage that doubles give for `a` of `n`. -/
def percent64 (a n : ℕ) : ℚ := binary64 (binary64 (binary64 a * 100) / binary64 n)

theorem binary64_pos_of_ne_zero {n : ℕ} (hn : n ≠ 0) : 0 < binary64 n :=
  binary64_pos (Nat.cast_pos.mpr (Nat.pos_of_ne_zero hn))

theorem percent64_eq_zero_iff {a n : ℕ} (hn : n ≠ 0) : percent64 a n = 0 ↔ a = 0 := by
  constructor
  · intro h
    by_contra ha
    have hnum := mul_pos (binary64_pos_of_ne_zero ha) (by norm_num : (0 : ℚ) < 100)
    have hquot := div_pos (binary64_pos hnum) (binary64_pos_of_ne_zero hn)
    exact (binary64_pos hquot).ne' h
  · rintro rfl
    simp [percent64]

theorem Double.percentOf_binary64 (a : UInt64) {n : UInt64} (hn : n.toNat ≠ 0) :
    percentOf binary64 a n = fin (percent64 a.toNat n.toNat) := by
  simp only [percentOf, ofU64_eq, map_fin, fin_mul, fin_div (binary64_pos_of_ne_zero hn).ne']
  rfl

theorem Double.percentOf_binary64_zero (a : UInt64) (q : ℚ) : percentOf binary64 a 0 ≠ fin q := by
  have hzero : (ofU64 0).map binary64 = fin 0 := by
    rw [ofU64_eq, map_fin, show (((0 : UInt64).toNat : ℕ) : ℚ) = 0 from Nat.cast_zero,
      binary64_zero]
  intro h
  rw [percentOf, hzero, ofU64_eq, map_fin, fin_mul, map_fin] at h
  cases hq : fin (binary64 (binary64 (a.toNat : ℚ) * 100)) / fin 0 with
  | fin r => exact fin_div_zero _ r hq
  | inf s =>
    rw [hq] at h
    cases h
  | nan s =>
    rw [hq] at h
    cases h

def AtMostWhole (a n : ℕ) : Prop :=
  2 ^ 47 * binary64 (binary64 a * 100) ≤ (100 * 2 ^ 47 + 1) * binary64 n

theorem percent64_nonneg (a n : ℕ) : 0 ≤ percent64 a n := by
  apply binary64_nonneg
  apply div_nonneg _ (binary64_nonneg n.cast_nonneg)
  exact binary64_nonneg (mul_nonneg (binary64_nonneg a.cast_nonneg) (by norm_num))

theorem percent64_le_hundred_iff {a n : ℕ} (hn : n ≠ 0) :
    percent64 a n ≤ 100 ↔ AtMostWhole a n := by
  have hpos := binary64_pos_of_ne_zero hn
  have hnum : 0 ≤ binary64 (binary64 a * 100) :=
    binary64_nonneg (mul_nonneg (binary64_nonneg a.cast_nonneg) (by norm_num))
  rw [percent64, binary64_le_hundred_iff (div_nonneg hnum hpos.le), div_le_iff₀ hpos, AtMostWhole]
  constructor <;> intro h <;> linarith

/-- The whole of some numbers is more than 100 of 100. -/
example : 100 < percent64 544189788591055 544189788591055 := by decide +kernel

theorem atMostWhole_iff {a n : ℕ} (hn : n < 2 ^ 46) : AtMostWhole a n ↔ a ≤ n := by
  have hcent {m : ℕ} (hm : m ≤ 2 ^ 46) : binary64 (binary64 m * 100) = m * 100 := by
    have hmul := binary64_natCast (n := m * 100) (by omega)
    rw [binary64_natCast (by omega)]
    exact_mod_cast hmul
  rw [AtMostWhole, binary64_natCast (n := n) (by omega)]
  constructor
  · intro h
    by_contra! hlt
    have hsucc : ((n + 1 : ℕ) : ℚ) ≤ a := by exact_mod_cast hlt
    have hmono := binary64_mono (by positivity) hsucc
    have hmono := binary64_mono (mul_nonneg (binary64_nonneg (Nat.cast_nonneg _)) (by norm_num))
      (mul_le_mul_of_nonneg_right hmono (by norm_num : (0 : ℚ) ≤ 100))
    rw [hcent (by omega)] at hmono
    have hn' : (n : ℚ) < 2 ^ 46 := by exact_mod_cast hn
    push_cast at hmono
    linarith
  · intro hle
    have hle' : (a : ℚ) ≤ n := by exact_mod_cast hle
    have hn' : (0 : ℚ) ≤ n := n.cast_nonneg
    rw [hcent (by omega)]
    linarith

theorem percent64_eq_iff {a b m n : ℕ} (ha : a < 2 ^ 26) (hb : b < 2 ^ 26) (hm : m < 2 ^ 26)
    (hn : n < 2 ^ 26) (hm0 : m ≠ 0) (hn0 : n ≠ 0) :
    percent64 a n = percent64 b m ↔ a * m = b * n := by
  have hquot {a n : ℕ} (ha : a < 2 ^ 26) (hn : n < 2 ^ 26) :
      percent64 a n = binary64 (a * 100 / n) := by
    have hmul := binary64_natCast (n := a * 100) (by omega)
    push_cast at hmul
    rw [percent64, binary64_natCast (n := a) (by omega), binary64_natCast (n := n) (by omega), hmul]
  have hm' : (0 : ℚ) < m := by exact_mod_cast Nat.pos_of_ne_zero hm0
  have hn' : (0 : ℚ) < n := by exact_mod_cast Nat.pos_of_ne_zero hn0
  rw [hquot ha hn, hquot hb hm]
  constructor
  · intro h
    have hclose := abs_sub_le_of_binary64_eq h
    rw [abs_of_nonneg (by positivity : (0 : ℚ) ≤ a * 100 / n),
      abs_of_nonneg (by positivity : (0 : ℚ) ≤ b * 100 / m), div_sub_div _ _ hn'.ne' hm'.ne',
      div_add_div _ _ hn'.ne' hm'.ne', abs_div, abs_of_pos (mul_pos hn' hm'), div_right_comm,
      div_le_div_iff_of_pos_right (mul_pos hn' hm'), le_div_iff₀ (by norm_num)] at hclose
    -- two integers less than one apart
    have hprod {x y : ℕ} (hx : x < 2 ^ 26) (hy : y < 2 ^ 26) : (x * y : ℚ) < 2 ^ 52 := by
      have h : x * y < 2 ^ 26 * 2 ^ 26 := Nat.mul_lt_mul'' hx hy
      exact_mod_cast h
    have h1 := hprod ha hm
    have h2 := hprod hb hn
    have hlt : |((a * m : ℕ) : ℤ) - ((b * n : ℕ) : ℤ)| < 1 := by
      have hcast : |((a * m : ℕ) : ℚ) - ((b * n : ℕ) : ℚ)| < 1 := by
        have heq : (a * 100 * m - n * (b * 100) : ℚ) =
            100 * (((a * m : ℕ) : ℚ) - ((b * n : ℕ) : ℚ)) := by
          push_cast
          ring
        rw [heq, abs_mul, abs_of_pos (by norm_num : (0 : ℚ) < 100)] at hclose
        linarith
      exact_mod_cast hcast
    have := Int.abs_lt_one_iff.mp hlt
    omega
  · intro h
    have hcast : (a * m : ℚ) = b * n := by exact_mod_cast h
    congr 1
    rw [div_eq_div_iff hn'.ne' hm'.ne']
    linarith

end CLib
