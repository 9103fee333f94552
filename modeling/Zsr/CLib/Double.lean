import Mathlib.Data.Rat.Floor
import Mathlib.Tactic.FieldSimp
import Mathlib.Tactic.Linarith
import Mathlib.Tactic.Ring

namespace CLib

/-- A C `double`. The operations are those of exact arithmetic, without rounding and with one
zero; what is not finite is as on x86-64, where the NaN of an operation has its sign set. -/
inductive Double
  | fin (q : ℚ)
  | inf (neg : Bool)
  | nan (neg : Bool)
  deriving DecidableEq

namespace Double

instance : Zero Double := ⟨fin 0⟩
instance : Inhabited Double := ⟨0⟩

def ofU64 (v : UInt64) : Double := fin v.toNat

def add : Double → Double → Double
  | nan s, _ => nan s
  | _, nan s => nan s
  | fin a, fin b => fin (a + b)
  | inf s, inf t => if s = t then inf s else nan true
  | inf s, fin _ => inf s
  | fin _, inf s => inf s

def sub : Double → Double → Double
  | nan s, _ => nan s
  | _, nan s => nan s
  | fin a, fin b => fin (a - b)
  | inf s, inf t => if s = t then nan true else inf s
  | inf s, fin _ => inf s
  | fin _, inf s => inf !s

def mul : Double → Double → Double
  | nan s, _ => nan s
  | _, nan s => nan s
  | fin a, fin b => fin (a * b)
  | inf s, inf t => inf (s != t)
  | inf s, fin a => if a = 0 then nan true else inf (s != decide (a < 0))
  | fin a, inf s => if a = 0 then nan true else inf (s != decide (a < 0))

def div : Double → Double → Double
  | nan s, _ => nan s
  | _, nan s => nan s
  | fin a, fin b =>
    if b = 0 then (if a = 0 then nan true else inf (decide (a < 0))) else fin (a / b)
  | inf _, inf _ => nan true
  | inf s, fin a => inf (s != decide (a < 0))
  | fin _, inf _ => fin 0

instance : Add Double := ⟨add⟩
instance : Sub Double := ⟨sub⟩
instance : Mul Double := ⟨mul⟩
instance : Div Double := ⟨div⟩

def map (fl : ℚ → ℚ) : Double → Double
  | fin q => fin (fl q)
  | inf s => inf s
  | nan s => nan s

/-- `a * 100.0 / n`, each operation rounded by `fl`. -/
def percentOf (fl : ℚ → ℚ) (a n : UInt64) : Double :=
  (((ofU64 a).map fl * fin 100).map fl / (ofU64 n).map fl).map fl

@[simp] theorem map_fin (fl : ℚ → ℚ) (q : ℚ) : (fin q).map fl = fin (fl q) := rfl

@[simp] theorem map_id (d : Double) : d.map id = d := by cases d <;> rfl

theorem percentOf_id (a n : UInt64) : percentOf id a n = ofU64 a * fin 100 / ofU64 n := by
  simp only [percentOf, map_id]

theorem ofU64_eq (v : UInt64) : ofU64 v = fin v.toNat := rfl

@[simp] theorem fin_inj {a b : ℚ} : fin a = fin b ↔ a = b := by simp only [fin.injEq]

@[simp] theorem fin_add (a b : ℚ) : fin a + fin b = fin (a + b) := rfl

@[simp] theorem fin_mul (a b : ℚ) : fin a * fin b = fin (a * b) := rfl

@[simp] theorem fin_sub (a b : ℚ) : fin a - fin b = fin (a - b) := rfl

theorem fin_div {a b : ℚ} (hb : b ≠ 0) : fin a / fin b = fin (a / b) := by
  change (if b = 0 then _ else fin (a / b)) = _
  rw [if_neg hb]

theorem fin_div_zero (a q : ℚ) : fin a / fin 0 ≠ fin q := by
  change (if (0 : ℚ) = 0 then (if a = 0 then nan true else inf (decide (a < 0)))
    else fin (a / 0)) ≠ fin q
  rw [if_pos rfl]
  split <;> exact Double.noConfusion

theorem fin_div_eq_fin_iff {a b q : ℚ} : fin a / fin b = fin q ↔ b ≠ 0 ∧ a = q * b := by
  constructor
  · intro h
    have hb : b ≠ 0 := by
      rintro rfl
      exact fin_div_zero a q h
    rw [fin_div hb, fin_inj] at h
    exact ⟨hb, (div_eq_iff hb).mp h⟩
  · rintro ⟨hb, rfl⟩
    rw [fin_div hb, mul_div_cancel_right₀ q hb]

/-- A number, neither infinite nor none. -/
def IsFinite (d : Double) : Prop := ∃ q, d = fin q

theorem isFinite_fin (q : ℚ) : (fin q).IsFinite := ⟨q, rfl⟩

theorem isFinite_zero : (0 : Double).IsFinite := isFinite_fin 0

theorem not_isFinite_nan (s : Bool) : ¬(nan s).IsFinite := by
  rintro ⟨q, h⟩
  cases h

theorem isFinite_div_iff {a b : ℚ} : (fin a / fin b).IsFinite ↔ b ≠ 0 := by
  constructor
  · rintro ⟨q, h⟩
    exact (fin_div_eq_fin_iff.mp h).1
  · intro hb
    rw [fin_div hb]
    exact isFinite_fin _

theorem IsFinite.of_mul_fin {d : Double} {a : ℚ} (h : (d * fin a).IsFinite) : d.IsFinite := by
  cases d with
  | fin q => exact isFinite_fin q
  | nan s =>
    obtain ⟨q, h⟩ := h
    cases h
  | inf s =>
    obtain ⟨q, h⟩ := h
    change (if a = 0 then nan true else inf (s != decide (a < 0))) = fin q at h
    split at h
    · cases h
    · cases h

/-- The rational a finite number denotes, and zero for the other values. -/
def toRat : Double → ℚ
  | fin q => q
  | _ => 0

@[simp] theorem toRat_fin (q : ℚ) : (fin q).toRat = q := rfl

def roundHalfEven (q : ℚ) : ℤ :=
  if q - ⌊q⌋ < 1 / 2 then ⌊q⌋
  else if 1 / 2 < q - ⌊q⌋ then ⌊q⌋ + 1
  else if ⌊q⌋ % 2 = 0 then ⌊q⌋ else ⌊q⌋ + 1

theorem abs_sub_roundHalfEven (q : ℚ) : |(roundHalfEven q : ℚ) - q| ≤ 1 / 2 := by
  have hlow := Int.floor_le q
  have hhigh := Int.lt_floor_add_one q
  rw [abs_le]
  unfold roundHalfEven
  split
  · constructor <;> linarith
  · split
    · push_cast
      constructor <;> linarith
    · split
      · constructor <;> linarith
      · push_cast
        constructor <;> linarith

theorem roundHalfEven_nonneg {q : ℚ} (h : 0 ≤ q) : 0 ≤ roundHalfEven q := by
  have hfloor := Int.floor_nonneg.mpr h
  unfold roundHalfEven
  split_ifs <;> omega

/-- The digits that `%.2f` prints for a magnitude. -/
def fixed2 (q : ℚ) : List Char :=
  let n := (roundHalfEven (q * 100)).toNat
  Nat.toDigits 10 (n / 100) ++
    '.' :: (Nat.toDigits 10 (n % 100 / 10) ++ Nat.toDigits 10 (n % 10))

def format2 : Double → List Char
  | fin q => if q < 0 then '-' :: fixed2 (-q) else fixed2 q
  | inf s => if s then ['-', 'i', 'n', 'f'] else ['i', 'n', 'f']
  | nan s => if s then ['-', 'n', 'a', 'n'] else ['n', 'a', 'n']

theorem not_mem_format2 {c : Char} (hc : c.isDigit = false) (hc' : c ∉ ".-infa".toList)
    (d : Double) : c ∉ d.format2 := by
  have hdig (n : ℕ) : c ∉ Nat.toDigits 10 n := by
    intro h
    rw [Nat.isDigit_of_mem_toDigits (by decide) (by decide) h] at hc
    cases hc
  have hfix (q : ℚ) (h : c ≠ '.') : c ∉ fixed2 q := by
    simp [fixed2, hdig, h]
  have hchars : ".-infa".toList = ['.', '-', 'i', 'n', 'f', 'a'] := by decide
  rw [hchars] at hc'
  simp only [List.mem_cons, List.not_mem_nil, or_false, not_or] at hc'
  obtain ⟨hdot, hminus, hi, hn, hf, ha⟩ := hc'
  cases d with
  | fin q =>
    change c ∉ if q < 0 then '-' :: fixed2 (-q) else fixed2 q
    split
    · simp [hminus, hfix _ hdot]
    · exact hfix q hdot
  | inf s => cases s <;> simp [format2, hminus, hi, hn, hf]
  | nan s => cases s <;> simp [format2, hminus, hn, ha]

theorem nul_not_mem_format2 (d : Double) : '\x00' ∉ d.format2 :=
  not_mem_format2 (by decide) (by decide) d

theorem exists_not_isDigit_format2 (d : Double) : ∃ c ∈ d.format2, c.isDigit = false := by
  have hfix (q : ℚ) : '.' ∈ fixed2 q := by simp [fixed2]
  cases d with
  | fin q =>
    refine ⟨'.', ?_, rfl⟩
    change '.' ∈ if q < 0 then '-' :: fixed2 (-q) else fixed2 q
    split
    · exact List.mem_cons_of_mem _ (hfix _)
    · exact hfix q
  | inf s =>
    refine ⟨'n', ?_, rfl⟩
    cases s <;> decide
  | nan s =>
    refine ⟨'n', ?_, rfl⟩
    cases s <;> decide

end Double
end CLib
