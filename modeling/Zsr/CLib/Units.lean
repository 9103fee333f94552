import Mathlib.Data.Nat.Basic

namespace CLib

/-- How often each unit goes into what the units before it leave. -/
def splitUnits : List ℕ → ℕ → List ℕ
  | [], _ => []
  | u :: us, n => n / u :: splitUnits us (n % u)

def unitsRest : List ℕ → ℕ → ℕ
  | [], n => n
  | u :: us, n => unitsRest us (n % u)

def joinUnits : List ℕ → List ℕ → ℕ
  | u :: us, k :: ks => u * k + joinUnits us ks
  | _, _ => 0

theorem joinUnits_splitUnits (us : List ℕ) (n : ℕ) :
    joinUnits us (splitUnits us n) + unitsRest us n = n := by
  induction us generalizing n with
  | nil => exact Nat.zero_add n
  | cons u us ih =>
    rw [splitUnits, joinUnits, unitsRest, Nat.add_assoc, ih]
    exact Nat.div_add_mod n u

theorem unitsRest_lt {us : List ℕ} {u : ℕ} (hu : 0 < u) (n : ℕ) : unitsRest (us ++ [u]) n < u := by
  induction us generalizing n with
  | nil => exact Nat.mod_lt n hu
  | cons v us ih => exact ih (n % v)

theorem div_lt_or_mod_le {m n : ℕ} (h : m ≤ n) (u : ℕ) :
    m / u < n / u ∨ m / u = n / u ∧ m % u ≤ n % u := by
  rcases Nat.lt_or_eq_of_le (Nat.div_le_div_right (c := u) h) with hlt | heq
  · exact .inl hlt
  · refine .inr ⟨heq, ?_⟩
    have hm := Nat.div_add_mod m u
    have hn := Nat.div_add_mod n u
    rw [heq] at hm
    omega

theorem splitUnits_mono {m n : ℕ} (h : m ≤ n) (us : List ℕ) :
    splitUnits us m = splitUnits us n ∨ List.Lex (· < ·) (splitUnits us m) (splitUnits us n) := by
  induction us generalizing m n with
  | nil => exact .inl rfl
  | cons u us ih =>
    rw [splitUnits, splitUnits]
    rcases div_lt_or_mod_le h u with hlt | ⟨heq, hmod⟩
    · exact .inr (.rel hlt)
    · rw [heq]
      rcases ih hmod with hus | hus
      · exact .inl (congrArg _ hus)
      · exact .inr (.cons hus)

theorem mod_div_lt {u v : ℕ} (hu : 0 < u) (hv : v ∣ u) (n : ℕ) : n % u / v < u / v :=
  Nat.div_lt_div_of_lt_of_dvd hv (Nat.mod_lt n hu)

end CLib
