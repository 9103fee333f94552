import Mathlib.Algebra.Order.Field.Basic
import Mathlib.Data.Nat.Cast.Order.Field
import Mathlib.Tactic.Linarith
import Mathlib.Tactic.Ring

namespace CLib

def rescale (r k n : ℕ) : ℕ := n * r / k

theorem rescale_parts {k : ℕ} (hk : 0 < k) (r s c : ℕ) :
    rescale r k (k * s + c) = s * r + c * r / k := by
  have hsplit : (k * s + c) * r = c * r + k * (s * r) := by ring
  rw [rescale, hsplit, Nat.add_mul_div_left _ _ hk, Nat.add_comm]

theorem rescale_mono (r k : ℕ) {m n : ℕ} (h : m ≤ n) : rescale r k m ≤ rescale r k n :=
  Nat.div_le_div_right (Nat.mul_le_mul_right r h)

section
variable {α : Type*} [Field α] [LinearOrder α] [IsStrictOrderedRing α]

theorem rescale_le (r k n : ℕ) : (rescale r k n : α) ≤ r * (n / k) := by
  have h : ((n * r / k : ℕ) : α) ≤ ((n * r : ℕ) : α) / k := Nat.cast_div_le
  rw [Nat.cast_mul, mul_comm (n : α), mul_div_assoc] at h
  exact h

theorem lt_rescale_add_one {k : ℕ} (hk : 0 < k) (r n : ℕ) :
    (r * (n / k) : α) < rescale r k n + 1 := by
  have hlt : ((n * r : ℕ) : α) < ((k * (n * r / k + 1) : ℕ) : α) :=
    Nat.cast_lt.mpr (Nat.lt_mul_div_succ (n * r) hk)
  have hk' : (0 : α) < k := Nat.cast_pos.mpr hk
  push_cast at hlt
  rw [← mul_div_assoc, div_lt_iff₀ hk', mul_comm (r : α), mul_comm _ (k : α)]
  exact hlt

/-- Less than a tick is cut off at both ends of an interval, so its length is off by less than
one. -/
theorem abs_rescale_sub_lt {k : ℕ} (hk : 0 < k) (r m n : ℕ) :
    |((rescale r k n : α) - rescale r k m) - (r * (n / k) - r * (m / k))| < 1 := by
  have hm : (rescale r k m : α) ≤ r * (m / k) := rescale_le r k m
  have hn : (rescale r k n : α) ≤ r * (n / k) := rescale_le r k n
  have hm' : (r * (m / k) : α) < rescale r k m + 1 := lt_rescale_add_one hk r m
  have hn' : (r * (n / k) : α) < rescale r k n + 1 := lt_rescale_add_one hk r n
  rw [abs_lt]
  constructor
  · linarith
  · linarith

end

end CLib
