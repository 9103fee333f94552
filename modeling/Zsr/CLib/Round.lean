import Mathlib.Algebra.Order.Round
import Mathlib.Tactic.Linarith

namespace CLib

/-- What holds of the numbers that are not negative, and of a number with its negative, holds
of all. -/
theorem forall_of_nonneg {α : Type*} [Field α] [LinearOrder α] [IsStrictOrderedRing α]
    {p : α → Prop} (h : ∀ x, 0 ≤ x → p x) (hneg : ∀ x, p (-x) → p x) (x : α) : p x := by
  rcases le_total 0 x with hx | hx
  · exact h x hx
  · exact hneg x (h (-x) (neg_nonneg.mpr hx))

section
variable {α : Type*} [Field α] [LinearOrder α] [FloorRing α]

/-- The nearest integer, and of two that are as near the one farther from zero. -/
def roundAway (x : α) : ℤ := if 0 ≤ x then round x else -round (-x)

theorem roundAway_of_nonneg {x : α} (h : 0 ≤ x) : roundAway x = round x := if_pos h

theorem roundAway_of_neg {x : α} (h : x < 0) : roundAway x = -round (-x) := if_neg (not_le.mpr h)

variable [IsStrictOrderedRing α]

theorem roundAway_neg (x : α) : roundAway (-x) = -roundAway x := by
  rcases lt_trichotomy x 0 with h | rfl | h
  · rw [roundAway_of_neg h, roundAway_of_nonneg (neg_nonneg.mpr h.le), neg_neg]
  · rw [neg_zero, roundAway_of_nonneg le_rfl, round_zero, neg_zero]
  · rw [roundAway_of_nonneg h.le, roundAway_of_neg (neg_neg_of_pos h), neg_neg]

theorem roundAway_intCast (n : ℤ) : roundAway (n : α) = n := by
  unfold roundAway
  split
  · exact round_intCast n
  · rw [← Int.cast_neg, round_intCast, neg_neg]

theorem abs_sub_roundAway_le (x : α) (m : ℤ) : |x - roundAway x| ≤ |x - m| := by
  induction x using forall_of_nonneg generalizing m with
  | h x hx =>
    rw [roundAway_of_nonneg hx]
    exact round_le x m
  | hneg x ih =>
    have h := ih (-m)
    rw [roundAway_neg, Int.cast_neg, Int.cast_neg, neg_sub_neg, neg_sub_neg, abs_sub_comm,
      abs_sub_comm (m : α)] at h
    exact h

theorem abs_sub_roundAway (x : α) : |x - roundAway x| ≤ 1 / 2 :=
  le_trans (abs_sub_roundAway_le x (round x)) (abs_sub_round x)

theorem abs_lt_abs_roundAway {x : α} {m : ℤ} (h : |x - m| = |x - roundAway x|)
    (hne : m ≠ roundAway x) : |m| < |roundAway x| := by
  induction x using forall_of_nonneg generalizing m with
  | h x hx =>
    rw [roundAway_of_nonneg hx] at h hne ⊢
    have hlow := sub_half_lt_round x
    have hhigh := round_le_add_half x
    rcases abs_eq_abs.mp h with heq | heq
    · exact absurd (Int.cast_injective (sub_right_inj.mp heq)) hne
    · -- the two integers lie on both sides of `x`, so they are consecutive
      have hm : (-1 : α) < m := by linarith
      have hm : -1 < m := by exact_mod_cast hm
      have hlt : (m : α) < round x := by
        rcases lt_or_ge (m : α) (round x) with hlt | hge
        · exact hlt
        · have hone : (m : α) < round x + 1 := by linarith
          have hone : m < round x + 1 := by exact_mod_cast hone
          have hge : round x ≤ m := by exact_mod_cast hge
          omega
      have hlt : m < round x := by exact_mod_cast hlt
      rw [abs_of_nonneg (by omega), abs_of_nonneg (by omega)]
      exact hlt
  | hneg x ih =>
    have h' := ih (m := -m)
    rw [roundAway_neg, Int.cast_neg, Int.cast_neg, neg_sub_neg, neg_sub_neg, abs_sub_comm,
      abs_sub_comm _ x, abs_neg, abs_neg] at h'
    exact h' h fun hm => hne (neg_inj.mp hm)

theorem roundAway_nonneg {x : α} (h : 0 ≤ x) : 0 ≤ roundAway x := by
  rw [roundAway_of_nonneg h, round_eq]
  exact Int.floor_nonneg.mpr (by linarith)

theorem roundAway_mono {x y : α} (h : x ≤ y) : roundAway x ≤ roundAway y := by
  have hround {a b : α} (hab : a ≤ b) : round a ≤ round b := by
    rw [round_eq, round_eq]
    exact Int.floor_mono (by linarith)
  rcases le_or_gt 0 x with hx | hx
  · rw [roundAway_of_nonneg hx, roundAway_of_nonneg (hx.trans h)]
    exact hround h
  · rcases le_or_gt 0 y with hy | hy
    · have hneg := roundAway_nonneg (neg_nonneg.mpr hx.le)
      rw [roundAway_neg] at hneg
      exact le_trans (neg_nonneg.mp hneg) (roundAway_nonneg hy)
    · rw [roundAway_of_neg hx, roundAway_of_neg hy]
      exact neg_le_neg (hround (neg_le_neg h))

end

end CLib
