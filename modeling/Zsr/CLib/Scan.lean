import Zsr.CLib.Lists
import Zsr.CLib.Text
import Mathlib.Data.List.GetD
import Mathlib.Data.Rat.Defs
import Mathlib.Tactic.Ring

/-!
# The conversions of `sscanf` and of `printf`

A conversion takes a text to the value it stores and the text it leaves, or fails.
Numbers are read as `strtoul` and `strtol` do: a sign is accepted, a value beyond
the type saturates.
-/

namespace CLib

abbrev Scan (α : Type) := Text → Option (α × Text)

def isSpace (c : Char) : Bool := c = ' ' || ('\t' ≤ c && c ≤ '\r')

def skipSpace (s : Text) : Text := s.dropWhile isSpace

/-- An optional sign: whether it is a minus, and what follows. -/
def scanSign : Text → Bool × Text
  | '-' :: s => (true, s)
  | '+' :: s => (false, s)
  | s => (false, s)

def Digits (s : Text) : Prop := s ≠ [] ∧ ∀ c ∈ s, c.isDigit

def scanDigits (s : Text) : Option (ℕ × Text) :=
  let ds := s.takeWhile Char.isDigit
  if ds = [] then none else some (Nat.ofDigitChars 10 ds 0, s.dropWhile Char.isDigit)

def toULong (neg : Bool) (v : ℕ) : UInt64 :=
  if 2 ^ 64 ≤ v then UInt64.ofNat (2 ^ 64 - 1)
  else if neg then 0 - UInt64.ofNat v else UInt64.ofNat v

def toLong (neg : Bool) (v : ℕ) : ℤ :=
  max (-2 ^ 63) (min (if neg then -(v : ℤ) else v) (2 ^ 63 - 1))

def scanLu : Scan UInt64 := fun s =>
  let t := scanSign (skipSpace s)
  (scanDigits t.2).map fun r => (toULong t.1 r.1, r.2)

def scanU : Scan UInt32 := fun s => (scanLu s).map fun r => (r.1.toUInt32, r.2)

def scanD : Scan Int32 := fun s =>
  let t := scanSign (skipSpace s)
  (scanDigits t.2).map fun r => (Int32.ofInt (toLong t.1 r.1), r.2)

/-- `%s` (without the terminator that is stored behind it). -/
def scanS : Scan Text := fun s =>
  let w := (skipSpace s).takeWhile (fun c => !isSpace c)
  if w = [] then none else some (w, (skipSpace s).dropWhile (fun c => !isSpace c))

def scanC : Scan Char
  | [] => none
  | c :: s => some (c, s)

def scanUntil (d : Char) : Scan Text := fun s =>
  let w := s.takeWhile (· ≠ d)
  if w = [] then none else some (w, s.dropWhile (· ≠ d))

def scanLit (d : Char) : Scan Unit
  | [] => none
  | c :: s => if c = d then some ((), s) else none

def isHexDigit (c : Char) : Bool :=
  c.isDigit || ('a' ≤ c && c ≤ 'f') || ('A' ≤ c && c ≤ 'F')

def hexValue (c : Char) : ℕ :=
  if c.isDigit then c.toNat - '0'.toNat
  else if 'a' ≤ c then c.toNat - 'a'.toNat + 10 else c.toNat - 'A'.toNat + 10

def skipHexPrefix : Text → Text
  | '0' :: 'x' :: s => s
  | '0' :: 'X' :: s => s
  | s => s

def scanLx : Scan UInt64 := fun s =>
  let t := scanSign (skipSpace s)
  let u := skipHexPrefix t.2
  let ds := u.takeWhile isHexDigit
  if ds = [] then none
  else some (toULong t.1 (ds.foldl (fun v c => 16 * v + hexValue c) 0), u.dropWhile isHexDigit)

/-- The exponent of a decimal number, when one is there. -/
def scanExponent (s : Text) : ℤ × Text :=
  match s with
  | c :: r =>
    if c = 'e' ∨ c = 'E' then
      let t := scanSign r
      match scanDigits t.2 with
      | some (v, u) => (if t.1 then -(v : ℤ) else v, u)
      | none => (0, s)
    else (0, s)
  | [] => (0, [])

def scanF : Scan ℚ := fun s =>
  let t := scanSign (skipSpace s)
  let i := t.2.takeWhile Char.isDigit
  let u := t.2.dropWhile Char.isDigit
  let f := match u with
    | '.' :: r => r.takeWhile Char.isDigit
    | _ => []
  let r := match u with
    | '.' :: r => r.dropWhile Char.isDigit
    | _ => u
  if i = [] ∧ f = [] then none
  else
    let m : ℚ := (Nat.ofDigitChars 10 (i ++ f) 0 : ℚ) / 10 ^ f.length
    let e := scanExponent r
    some ((if t.1 then -m else m) * (10 : ℚ) ^ e.1, e.2)

/-- `n` conversions `%lu` in a row: the values stored before the first failure. -/
def scanLus : ℕ → Text → List UInt64
  | 0, _ => []
  | n + 1, s =>
    match scanLu s with
    | none => []
    | some (v, r) => v :: scanLus n r

def scanFs : ℕ → Text → List ℚ
  | 0, _ => []
  | n + 1, s =>
    match scanF s with
    | none => []
    | some (v, r) => v :: scanFs n r

/-- `atoi`: the low half of what `strtol` returns as a signed number, zero without one. -/
def atoi (s : Text) : ℤ :=
  match scanD s with
  | some (v, _) => v.toInt
  | none => 0

def dec (n : ℕ) : Text := Nat.toDigits 10 n

def decInt (i : ℤ) : Text := if i < 0 then '-' :: dec i.natAbs else dec i.natAbs

/-- `%0wlu` on a number that `w` digits are enough for. -/
def decPad : ℕ → ℕ → Text
  | 0, _ => []
  | w + 1, n => decPad w (n / 10) ++ [Nat.digitChar (n % 10)]

theorem dec_ne_nil (n : ℕ) : dec n ≠ [] := Nat.toDigits_ne_nil

theorem isDigit_of_mem_dec {n : ℕ} {c : Char} (h : c ∈ dec n) : c.isDigit = true :=
  Nat.isDigit_of_mem_toDigits (by decide) (by decide) h

theorem not_mem_dec {n : ℕ} {c : Char} (hc : c.isDigit = false) : c ∉ dec n := fun h => by
  rw [isDigit_of_mem_dec h] at hc
  cases hc

def hexDigit (d : ℕ) : Char := (Nat.digitChar d).toUpper

def hexDigits : ℕ → ℕ → Text
  | 0, _ => []
  | w + 1, n => hexDigits w (n / 16) ++ [hexDigit (n % 16)]

def NoDigit (r : Text) : Prop := ∀ c ∈ r.head?, c.isDigit = false

theorem noDigit_nil : NoDigit [] := by simp [NoDigit]

theorem noDigit_cons {c : Char} (hc : c.isDigit = false) (r : Text) : NoDigit (c :: r) := by
  simpa [NoDigit] using hc

theorem NoDigit.of_prefix {r t : Text} (hr : NoDigit r) (ht : t <+: r) : NoDigit t := by
  obtain ⟨u, rfl⟩ := ht
  intro c hc
  apply hr
  rw [List.head?_append, hc]
  rfl

theorem scanDigits_append {ds r : Text} (hds : Digits ds) (hr : NoDigit r) :
    scanDigits (ds ++ r) = some (Nat.ofDigitChars 10 ds 0, r) := by
  have htake : (ds ++ r).takeWhile Char.isDigit = ds := by
    rw [List.takeWhile_append_of_pos hds.2]
    cases r with
    | nil => simp
    | cons c r => rw [List.takeWhile_cons_of_neg (by simp [hr c rfl]), List.append_nil]
  have hdrop : (ds ++ r).dropWhile Char.isDigit = r := by
    rw [List.dropWhile_append_of_pos hds.2]
    cases r with
    | nil => rfl
    | cons c r => rw [List.dropWhile_cons_of_neg (by simp [hr c rfl])]
  simp only [scanDigits, htake, hdrop, if_neg hds.1]

theorem digits_dec (n : ℕ) : Digits (dec n) := ⟨dec_ne_nil n, fun _ hc => isDigit_of_mem_dec hc⟩

theorem scanDigits_dec {r : Text} (hr : NoDigit r) (n : ℕ) :
    scanDigits (dec n ++ r) = some (n, r) := by
  rw [scanDigits_append (digits_dec n) hr, dec, Nat.ofDigitChars_ten_toDigits]

theorem isSpace_of_isDigit {c : Char} (hc : c.isDigit = true) : isSpace c = false := by
  -- all blanks lie below the digits
  have hv : 48 ≤ c.val.toNat := by
    simp only [Char.isDigit, Bool.and_eq_true, decide_eq_true_eq] at hc
    exact hc.1
  have hsp : c ≠ ' ' := by
    rintro rfl
    simp at hv
  have hcr : ¬c ≤ '\r' := by
    intro h
    have h' : c.val.toNat ≤ 13 := h
    omega
  simp [isSpace, hsp, hcr]

theorem scanSign_digit {c : Char} (hc : c.isDigit = true) (s : Text) :
    scanSign (c :: s) = (false, c :: s) := by
  have hm : c ≠ '-' := by rintro rfl; simp at hc
  have hp : c ≠ '+' := by rintro rfl; simp at hc
  simp [scanSign, hm, hp]

theorem scanSign_skipSpace_digits {ds : Text} (hds : Digits ds) (r : Text) :
    scanSign (skipSpace (ds ++ r)) = (false, ds ++ r) := by
  obtain ⟨c, ds, rfl⟩ := List.exists_cons_of_ne_nil hds.1
  have hc : c.isDigit = true := hds.2 c List.mem_cons_self
  have hs : skipSpace (c :: (ds ++ r)) = c :: (ds ++ r) :=
    List.dropWhile_cons_of_neg (by simp [isSpace_of_isDigit hc])
  rw [List.cons_append, hs, scanSign_digit hc]

theorem scanLu_space (s : Text) : scanLu (' ' :: s) = scanLu s := rfl

theorem scanLu_digits {ds r : Text} (hds : Digits ds) (hr : NoDigit r)
    (hlt : Nat.ofDigitChars 10 ds 0 < 2 ^ 64) :
    scanLu (ds ++ r) = some (UInt64.ofNat (Nat.ofDigitChars 10 ds 0), r) := by
  simp only [scanLu, scanSign_skipSpace_digits hds, scanDigits_append hds hr, Option.map_some,
    toULong, if_neg (not_le.mpr hlt), Bool.false_eq_true, if_false]

theorem scanLu_dec {r : Text} (hr : NoDigit r) (v : UInt64) :
    scanLu (dec v.toNat ++ r) = some (v, r) := by
  have hval : Nat.ofDigitChars 10 (dec v.toNat) 0 = v.toNat := Nat.ofDigitChars_ten_toDigits
  have h := scanLu_digits (digits_dec v.toNat) hr (hval.symm ▸ v.toNat_lt)
  rw [hval, UInt64.ofNat_toNat] at h
  exact h

theorem dec_length_le {n k : ℕ} (hk : 0 < k) (hn : n < 10 ^ k) : (dec n).length ≤ k :=
  (Nat.length_toDigits_le_iff (by decide) hk).mpr hn

theorem dec_word_length_le (v : UInt64) : (dec v.toNat).length ≤ 20 :=
  dec_length_le (by decide) (v.toNat_lt.trans (by decide))

theorem decPad_length (w n : ℕ) : (decPad w n).length = w := by
  induction w generalizing n with
  | zero => rfl
  | succ w ih => rw [decPad, List.length_append, ih, List.length_singleton]

theorem digits_decPad {w : ℕ} (hw : 0 < w) (n : ℕ) : Digits (decPad w n) := by
  constructor
  · rw [← List.length_pos_iff, decPad_length]
    exact hw
  · clear hw
    induction w generalizing n with
    | zero => exact List.forall_mem_nil _
    | succ w ih =>
      rw [decPad, List.forall_mem_append, List.forall_mem_singleton, Nat.isDigit_digitChar]
      exact ⟨ih (n / 10), decide_eq_true (Nat.mod_lt n (by decide))⟩

theorem ofDigitChars_decPad (w n : ℕ) : Nat.ofDigitChars 10 (decPad w n) 0 = n % 10 ^ w := by
  induction w generalizing n with
  | zero => simp [decPad, Nat.mod_one]
  | succ w ih =>
    rw [decPad, Nat.ofDigitChars_append, ih,
      Nat.ofDigitChars_cons_digitChar_of_lt_ten (Nat.mod_lt n (by decide)), Nat.ofDigitChars_nil,
      Nat.pow_succ', Nat.mod_mul]
    exact Nat.add_comm _ _

/-- The decimal texts of some values, one blank before each. -/
def decFields (vs : List UInt64) : Text := (vs.map fun v => ' ' :: dec v.toNat).flatten

theorem decFields_cons (v : UInt64) (vs : List UInt64) :
    decFields (v :: vs) = ' ' :: (dec v.toNat ++ decFields vs) := rfl

theorem decFields_append (us vs : List UInt64) :
    decFields (us ++ vs) = decFields us ++ decFields vs := by
  rw [decFields, List.map_append, List.flatten_append]
  rfl

theorem noDigit_decFields_append (vs : List UInt64) {r : Text} (hr : NoDigit r) :
    NoDigit (decFields vs ++ r) := by
  cases vs with
  | nil => exact hr
  | cons v vs => exact noDigit_cons rfl _

theorem scanLus_decFields (vs : List UInt64) {r : Text} (hr : NoDigit r) :
    scanLus vs.length (decFields vs ++ r) = vs := by
  induction vs with
  | nil => rfl
  | cons v vs ih =>
    rw [decFields_cons, List.cons_append, List.append_assoc, List.length_cons, scanLus,
      scanLu_space, scanLu_dec (noDigit_decFields_append vs hr)]
    exact congrArg (v :: ·) ih

theorem not_mem_decFields {c : Char} (hc : c.isDigit = false) (hs : c ≠ ' ') (vs : List UInt64) :
    c ∉ decFields vs := by
  induction vs with
  | nil => exact List.not_mem_nil
  | cons v vs ih =>
    rw [decFields_cons, List.mem_cons, List.mem_append]
    rintro (h | h | h)
    · exact hs h
    · exact not_mem_dec hc h
    · exact ih h

theorem scanD_digits {ds r : Text} (hds : Digits ds) (hr : NoDigit r)
    (hlt : Nat.ofDigitChars 10 ds 0 < 2 ^ 63) :
    scanD (ds ++ r) = some (Int32.ofInt (Nat.ofDigitChars 10 ds 0), r) := by
  have hl : toLong false (Nat.ofDigitChars 10 ds 0) = Nat.ofDigitChars 10 ds 0 := by
    rw [toLong]
    simp only [Bool.false_eq_true, if_false]
    omega
  rw [scanD, scanSign_skipSpace_digits hds, scanDigits_append hds hr]
  simp only [Option.map_some, hl]

theorem atoi_dec {n : ℕ} (hn : n < 2 ^ 63) : atoi (dec n) = (n : ℤ).bmod (2 ^ 32) := by
  have hval : Nat.ofDigitChars 10 (dec n) 0 = n := Nat.ofDigitChars_ten_toDigits
  have h := scanD_digits (digits_dec n) noDigit_nil (hval.symm ▸ hn)
  rw [List.append_nil, hval] at h
  rw [atoi, h]
  exact Int32.toInt_ofInt

theorem atoi_dec_of_lt {n : ℕ} (hn : n < 2 ^ 31) : atoi (dec n) = n := by
  rw [atoi_dec (by omega), Int.bmod_eq_of_le] <;> omega

theorem scanS_word {w : Text} (hne : w ≠ []) (hw : ∀ c ∈ w, isSpace c = false) {c : Char}
    (hc : isSpace c = true) (r : Text) : scanS (w ++ c :: r) = some (w, c :: r) := by
  have hskip : skipSpace (w ++ c :: r) = w ++ c :: r := by
    obtain ⟨d, w, rfl⟩ := List.exists_cons_of_ne_nil hne
    exact List.dropWhile_cons_of_neg (by simp [hw d List.mem_cons_self])
  have hall : ∀ d ∈ w, (!isSpace d) = true := fun d hd => by rw [hw d hd]; rfl
  simp only [scanS, hskip, List.takeWhile_append_of_pos hall, List.dropWhile_append_of_pos hall,
    List.takeWhile_cons_of_neg (p := fun c => !isSpace c) (by simp [hc] : ¬(!isSpace c) = true),
    List.dropWhile_cons_of_neg (p := fun c => !isSpace c) (by simp [hc] : ¬(!isSpace c) = true),
    List.append_nil, if_neg hne]

theorem dec_cut {n : ℕ} {p : Text} (hp : p <+: dec n) (hne : p ≠ []) (hcut : p ≠ dec n) :
    ∃ m < n, p = dec m := by
  induction n using Nat.strongRecOn with
  | ind n ih =>
    by_cases hn : n < 10
    · rw [dec, Nat.toDigits_of_lt_base hn] at hp hcut
      rcases List.prefix_cons_iff.mp hp with h | ⟨q, h, hq⟩
      · exact absurd h hne
      · obtain rfl := List.prefix_nil.mp hq
        exact absurd h hcut
    · -- without its last digit the number is a tenth
      have hten : dec n = dec (n / 10) ++ [Nat.digitChar (n % 10)] :=
        Nat.toDigits_of_base_le (by decide) (by omega)
      rw [hten] at hp hcut
      rcases List.prefix_concat_iff.mp hp with h | h
      · exact absurd h hcut
      · by_cases hall : p = dec (n / 10)
        · exact ⟨n / 10, by omega, hall⟩
        · obtain ⟨m, hm, hpm⟩ := ih (n / 10) (by omega) h hall
          exact ⟨m, by omega, hpm⟩

theorem scanLus_nil (n : ℕ) : scanLus n [] = [] := by
  cases n <;> rfl

theorem scanLus_cut {v : UInt64} {k : ℕ} (hk : k ≤ (dec v.toNat).length) (n : ℕ) (r : Text) :
    scanLus (n + 1) ((' ' :: (dec v.toNat ++ r)).take k) = [] ∨
      ∃ m < v, scanLus (n + 1) ((' ' :: (dec v.toNat ++ r)).take k) = [m] := by
  cases k with
  | zero => exact .inl rfl
  | succ k =>
    rw [List.take_succ_cons, List.take_append_of_le_length (by omega), scanLus, scanLu_space]
    by_cases hp : (dec v.toNat).take k = []
    · rw [hp]
      exact .inl rfl
    · have hcut : (dec v.toNat).take k ≠ dec v.toNat := by
        intro h
        have hlen := congrArg List.length h
        rw [List.length_take] at hlen
        omega
      obtain ⟨m, hm, hdec⟩ := dec_cut (List.take_prefix _ _) hp hcut
      have hv := v.toNat_lt
      have hmv : (UInt64.ofNat m).toNat = m := by
        rw [UInt64.toNat_ofNat', Nat.mod_eq_of_lt (by omega)]
      have hscan := scanLu_dec noDigit_nil (UInt64.ofNat m)
      rw [hmv, List.append_nil] at hscan
      refine .inr ⟨UInt64.ofNat m, ?_, ?_⟩
      · rw [UInt64.lt_iff_toNat_lt, hmv]
        exact hm
      · rw [hdec, hscan]
        exact congrArg (_ :: ·) (scanLus_nil n)

theorem forall_getD_zero_iff (vs : List UInt64) :
    (∀ i < vs.length, 0 = vs.getD i 0) ↔ ∀ w ∈ vs, w = 0 := by
  rw [List.forall_mem_iff_forall_getElem]
  constructor
  · intro h i hi
    rw [← List.getD_eq_getElem vs 0 hi, ← h i hi]
  · intro h i hi
    rw [List.getD_eq_getElem vs 0 hi, h i hi]

/-- What is read of the first `k` characters of some fields, with a zero for each number that
is not reached, are the numbers exactly when those that are not zero end within them. -/
theorem scanLus_take_iff (vs : List UInt64) (k : ℕ) :
    (∀ i < vs.length, (scanLus vs.length ((decFields vs).take k)).getD i 0 = vs.getD i 0) ↔
      ∀ us v, us ++ [v] <+: vs → v ≠ 0 → (decFields (us ++ [v])).length ≤ k := by
  induction vs generalizing k with
  | nil =>
    refine iff_of_true (fun i hi => absurd hi (Nat.not_lt_zero i)) fun us v h => ?_
    exact absurd (List.prefix_nil.mp h) (by simp)
  | cons v vs ih =>
    have hlen (us : List UInt64) : (decFields (v :: us)).length =
        (dec v.toNat).length + 1 + (decFields us).length := by
      rw [decFields_cons, List.length_cons, List.length_append]
      omega
    have hnil : (decFields []).length = 0 := rfl
    rw [forall_concat_prefix_cons, List.length_cons, Nat.forall_lt_succ_left]
    simp only [List.cons_append, List.nil_append, hlen, hnil, List.getD_cons_zero,
      List.getD_cons_succ]
    by_cases hk : k ≤ (dec v.toNat).length
    · -- no number is read whole, so all of them have to be zero
      have hzero : (∀ us w, us ++ [w] <+: vs → w ≠ 0 →
          (dec v.toNat).length + 1 + (decFields (us ++ [w])).length ≤ k) ↔ ∀ w ∈ vs, w = 0 := by
        rw [← forall_concat_prefix_iff]
        refine forall₃_congr fun us w _ => ?_
        constructor
        · intro h
          by_contra hw
          have := h hw
          omega
        · intro h hw
          exact absurd h hw
      rw [hzero, ← forall_getD_zero_iff]
      rcases scanLus_cut hk vs.length (decFields vs) with h | ⟨m, hm, h⟩
      · rw [decFields_cons, h]
        refine and_congr ⟨fun h0 hv => absurd h0.symm hv, fun h0 => ?_⟩ Iff.rfl
        by_contra hv
        have := h0 (Ne.symm hv)
        omega
      · rw [decFields_cons, h]
        refine iff_of_false ?_ ?_
        · rintro ⟨h0, -⟩
          exact absurd h0 (UInt64.ne_of_lt hm)
        · rintro ⟨h0, -⟩
          have := h0 (UInt64.ne_of_lt (UInt64.lt_of_le_of_lt UInt64.zero_le hm)).symm
          omega
    · -- the first number is read whole
      have htake : (decFields (v :: vs)).take k =
          ' ' :: (dec v.toNat ++ (decFields vs).take (k - ((dec v.toNat).length + 1))) := by
        rw [decFields_cons, ← List.cons_append, List.take_append, List.take_of_length_le,
          List.length_cons, List.cons_append]
        rw [List.length_cons]
        omega
      have hstop : NoDigit ((decFields vs).take (k - ((dec v.toNat).length + 1))) := by
        have h := noDigit_decFields_append vs noDigit_nil
        rw [List.append_nil] at h
        exact h.of_prefix (List.take_prefix _ _)
      rw [htake, scanLus, scanLu_space, scanLu_dec hstop]
      simp only [List.getD_cons_zero, List.getD_cons_succ, ih]
      refine and_congr (iff_of_true trivial fun _ => by omega) ?_
      refine forall₃_congr fun us w _ => imp_congr_right fun _ => ?_
      omega
theorem hexDigits_length (w n : ℕ) : (hexDigits w n).length = w := by
  induction w generalizing n with
  | zero => rfl
  | succ w ih => rw [hexDigits, List.length_append, ih, List.length_singleton]

theorem hexValue_hexDigit : ∀ d < 16, hexValue (hexDigit d) = d := by decide

theorem isHexDigit_hexDigit : ∀ d < 16, isHexDigit (hexDigit d) = true := by decide

theorem mem_hexDigits {w n : ℕ} {c : Char} (h : c ∈ hexDigits w n) :
    ∃ d, d < 16 ∧ c = hexDigit d := by
  induction w generalizing n with
  | zero => exact absurd h List.not_mem_nil
  | succ w ih =>
    rw [hexDigits, List.mem_append, List.mem_singleton] at h
    rcases h with h | h
    · exact ih h
    · exact ⟨n % 16, Nat.mod_lt n (by decide), h⟩

theorem not_mem_hexDigits {c : Char} (hc : isHexDigit c = false) (w n : ℕ) : c ∉ hexDigits w n := by
  intro h
  obtain ⟨d, hd, rfl⟩ := mem_hexDigits h
  rw [isHexDigit_hexDigit d hd] at hc
  cases hc

theorem foldl_hexDigits (w n : ℕ) :
    (hexDigits w n).foldl (fun v c => 16 * v + hexValue c) 0 = n % 16 ^ w := by
  induction w generalizing n with
  | zero => simp [hexDigits, Nat.mod_one]
  | succ w ih =>
    rw [hexDigits, List.foldl_append, ih, List.foldl_cons, List.foldl_nil,
      hexValue_hexDigit _ (Nat.mod_lt n (by decide)), Nat.pow_succ', Nat.mod_mul]
    exact Nat.add_comm _ _

theorem hexDigit_plain : ∀ d < 16, isSpace (hexDigit d) = false ∧
    (hexDigit d ≠ '-' ∧ hexDigit d ≠ '+') ∧ hexDigit d ≠ 'x' ∧ hexDigit d ≠ 'X' := by decide

/-- A character at which a hexadecimal number stops. -/
def EndsHex (c : Char) : Prop := isHexDigit c = false ∧ c ≠ 'x' ∧ c ≠ 'X'

theorem takeWhile_hexDigits (w n : ℕ) {c : Char} (hc : EndsHex c) (r : Text) :
    (hexDigits w n ++ c :: r).takeWhile isHexDigit = hexDigits w n ∧
      (hexDigits w n ++ c :: r).dropWhile isHexDigit = c :: r := by
  have hall : ∀ d ∈ hexDigits w n, isHexDigit d = true := by
    intro d hd
    obtain ⟨k, hk, rfl⟩ := mem_hexDigits hd
    exact isHexDigit_hexDigit k hk
  rw [List.takeWhile_append_of_pos hall, List.dropWhile_append_of_pos hall,
    List.takeWhile_cons_of_neg (by simp [hc.1]), List.dropWhile_cons_of_neg (by simp [hc.1])]
  exact ⟨List.append_nil _, rfl⟩

theorem skip_hexDigits {w : ℕ} (hw : 0 < w) (n : ℕ) {c : Char} (hc : EndsHex c) (r : Text) :
    scanSign (skipSpace (hexDigits w n ++ c :: r)) = (false, hexDigits w n ++ c :: r) ∧
      skipHexPrefix (hexDigits w n ++ c :: r) = hexDigits w n ++ c :: r := by
  obtain ⟨d, ds, hds⟩ := List.exists_cons_of_length_pos ((hexDigits_length w n).symm ▸ hw)
  obtain ⟨k, hk, rfl⟩ := mem_hexDigits (hds ▸ List.mem_cons_self : d ∈ hexDigits w n)
  have ⟨hspace, hsign, _⟩ := hexDigit_plain k hk
  have hnext : ∀ e ∈ (ds ++ c :: r).head?, e ≠ 'x' ∧ e ≠ 'X' := by
    cases ds with
    | nil => simpa using hc.2
    | cons e ds =>
      obtain ⟨j, hj, rfl⟩ := mem_hexDigits (w := w) (n := n) (c := e) (by simp [hds])
      simpa using (hexDigit_plain j hj).2.2
  rw [hds, List.cons_append]
  constructor
  · have hs : skipSpace (hexDigit k :: (ds ++ c :: r)) = hexDigit k :: (ds ++ c :: r) :=
      List.dropWhile_cons_of_neg (by simp [hspace])
    rw [hs]
    simp [scanSign, hsign]
  · unfold skipHexPrefix
    split
    · next h => exact absurd rfl (hnext 'x' (by rw [(List.cons.inj h).2]; rfl)).1
    · next h => exact absurd rfl (hnext 'X' (by rw [(List.cons.inj h).2]; rfl)).2
    · rfl

theorem scanLx_hexDigits {w n : ℕ} (hw : 0 < w) (hn : n < 16 ^ w) (hmax : n < 2 ^ 64) {c : Char}
    (hc : EndsHex c) (r : Text) :
    scanLx (hexDigits w n ++ c :: r) = some (UInt64.ofNat n, c :: r) := by
  have hne : hexDigits w n ≠ [] := by
    rw [← List.length_pos_iff, hexDigits_length]
    exact hw
  obtain ⟨htake, hdrop⟩ := takeWhile_hexDigits w n hc r
  obtain ⟨hsign, hprefix⟩ := skip_hexDigits hw n hc r
  simp only [scanLx, hsign, hprefix, htake, hdrop, if_neg hne, foldl_hexDigits,
    Nat.mod_eq_of_lt hn, toULong, if_neg (not_le.mpr hmax), Bool.false_eq_true, if_false]

end CLib
