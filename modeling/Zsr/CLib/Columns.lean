import Zsr.CLib.Rows
import Mathlib.Tactic.NormNum
import Mathlib.Tactic.Positivity

namespace CLib

/-- The value of a column with a point: a number and nothing else. -/
def readF (s : Text) : Option ℚ := (scanF s).bind fun r => if r.2 = [] then some r.1 else none

namespace Double

/-- The hundredths that are printed of a magnitude. -/
def hundredths (q : ℚ) : ℕ := (roundHalfEven (q * 100)).toNat

theorem abs_hundredths_sub_le {q : ℚ} (h : 0 ≤ q) : |(hundredths q : ℚ) / 100 - q| ≤ 1 / 200 := by
  have hnonneg : 0 ≤ roundHalfEven (q * 100) := roundHalfEven_nonneg (by positivity)
  have hcast : (hundredths q : ℚ) = roundHalfEven (q * 100) := by
    exact_mod_cast Int.toNat_of_nonneg hnonneg
  have hround := abs_le.mp (abs_sub_roundHalfEven (q * 100))
  rw [hcast, abs_le]
  constructor <;> linarith [hround.1, hround.2]

theorem fixed2_eq (q : ℚ) : fixed2 q =
    dec (hundredths q / 100) ++ '.' :: decPad 2 (hundredths q % 100) := by
  have htens : hundredths q % 100 / 10 % 10 = hundredths q % 100 / 10 := by omega
  have hunits : hundredths q % 100 % 10 = hundredths q % 10 := by omega
  have hdigit {n : ℕ} (hn : n < 10) : Nat.toDigits 10 n = [Nat.digitChar n] :=
    Nat.toDigits_of_lt_base hn
  simp only [decPad, List.nil_append, List.singleton_append, htens, hunits]
  rw [fixed2]
  change dec (hundredths q / 100) ++ '.' :: (Nat.toDigits 10 (hundredths q % 100 / 10) ++
    Nat.toDigits 10 (hundredths q % 10)) = _
  rw [hdigit (by omega), hdigit (by omega)]
  rfl

end Double

theorem scanF_point {ds fs : Text} (hds : Digits ds) (hfs : ∀ c ∈ fs, c.isDigit) (neg : Bool) :
    scanF ((if neg then ['-'] else []) ++ (ds ++ '.' :: fs)) =
      some ((if neg then -1 else 1) * ((Nat.ofDigitChars 10 (ds ++ fs) 0 : ℚ) / 10 ^ fs.length),
        []) := by
  have hsign : scanSign (skipSpace ((if neg then ['-'] else []) ++ (ds ++ '.' :: fs))) =
      (neg, ds ++ '.' :: fs) := by
    cases neg with
    | false => exact scanSign_skipSpace_digits hds _
    | true => rfl
  have htake : (ds ++ '.' :: fs).takeWhile Char.isDigit = ds := by
    rw [List.takeWhile_append_of_pos hds.2, List.takeWhile_cons_of_neg (by decide),
      List.append_nil]
  have hdrop : (ds ++ '.' :: fs).dropWhile Char.isDigit = '.' :: fs := by
    rw [List.dropWhile_append_of_pos hds.2, List.dropWhile_cons_of_neg (by decide)]
  have hfrac : fs.takeWhile Char.isDigit = fs ∧ fs.dropWhile Char.isDigit = [] :=
    ⟨List.takeWhile_eq_self_iff.mpr hfs, List.dropWhile_eq_nil_iff.mpr hfs⟩
  simp only [scanF, hsign, htake, hdrop, hfrac.1, hfrac.2, hds.1, false_and, if_false]
  cases neg <;> simp [scanExponent]

theorem ofDigitChars_dec_decPad (k w n : ℕ) :
    Nat.ofDigitChars 10 (dec k ++ decPad w n) 0 = 10 ^ w * k + n % 10 ^ w := by
  have hval : Nat.ofDigitChars 10 (dec k) 0 = k := Nat.ofDigitChars_ten_toDigits
  rw [Nat.ofDigitChars_append, hval, Nat.ofDigitChars_eq_ofDigitChars_zero, ofDigitChars_decPad,
    decPad_length]

theorem exists_readF_format2 (q : ℚ) :
    ∃ r, readF (Double.fin q).format2 = some r ∧ |r - q| ≤ 1 / 200 := by
  have hfixed (p : ℚ) (neg : Bool) : readF ((if neg then ['-'] else []) ++ Double.fixed2 p) =
      some ((if neg then -1 else 1) * ((Double.hundredths p : ℚ) / 100)) := by
    have hdig := digits_decPad (by decide : 0 < 2) (Double.hundredths p % 100)
    have hval : 10 ^ 2 * (Double.hundredths p / 100) + Double.hundredths p % 100 % 10 ^ 2 =
        Double.hundredths p := by omega
    rw [Double.fixed2_eq, readF, scanF_point (digits_dec _) hdig.2, Option.bind_some, if_pos rfl,
      ofDigitChars_dec_decPad, hval, decPad_length]
    norm_num
  rw [Double.format2]
  split
  · next h =>
    refine ⟨_, hfixed (-q) true, ?_⟩
    have hle := Double.abs_hundredths_sub_le (neg_nonneg.mpr h.le)
    rw [← abs_neg] at hle
    convert hle using 2
    simp only [if_true]
    ring
  · next h =>
    refine ⟨_, hfixed q false, ?_⟩
    simpa using Double.abs_hundredths_sub_le (not_lt.mp h)

/-- The value of a signed decimal column: a sign, digits and nothing else, within 64 bits. -/
def readLd (s : Text) : Option Int64 :=
  let t := scanSign s
  (scanDigits t.2).bind fun r =>
    let v : ℤ := if t.1 then -r.1 else r.1
    if r.2 = [] ∧ -2 ^ 63 ≤ v ∧ v < 2 ^ 63 then some (Int64.ofInt v) else none

theorem scanSign_dec (n : ℕ) : scanSign (dec n) = (false, dec n) := by
  obtain ⟨c, ds, hds⟩ := List.exists_cons_of_ne_nil (dec_ne_nil n)
  have hc : c ∈ dec n := hds ▸ List.mem_cons_self
  rw [hds, scanSign_digit (isDigit_of_mem_dec hc)]

theorem readLd_decInt (v : Int64) : readLd (decInt v.toInt) = some v := by
  have hrange : -2 ^ 63 ≤ v.toInt ∧ v.toInt < 2 ^ 63 := ⟨v.le_toInt, v.toInt_lt⟩
  have hscan (n : ℕ) : scanDigits (dec n) = some (n, []) := by
    have h := scanDigits_dec noDigit_nil n
    rwa [List.append_nil] at h
  have hsign : scanSign (decInt v.toInt) = (decide (v.toInt < 0), dec v.toInt.natAbs) := by
    rw [decInt]
    split
    · next h => rw [decide_eq_true h]; rfl
    · next h => rw [scanSign_dec, decide_eq_false h]
  have hval : (if decide (v.toInt < 0) then -(v.toInt.natAbs : ℤ) else v.toInt.natAbs) =
      v.toInt := by
    split_ifs with h
    · have := of_decide_eq_true h
      omega
    · have := of_decide_eq_false (Bool.not_eq_true _ ▸ h)
      omega
  simp only [readLd, hsign, hscan, Option.bind_some, hval, hrange, and_self, if_true,
    Int64.ofInt_toInt]

theorem plainColumn_decInt (i : ℤ) : PlainColumn (decInt i) := by
  have hplain := plainColumn_dec i.natAbs
  unfold decInt
  split
  · exact ⟨by simp [hplain.comma], by simp [hplain.newline], by simp [hplain.nul]⟩
  · exact hplain

theorem intercalate_cons (d : Char) (c : Text) (cols : List Text) :
    [d].intercalate (c :: cols) = c ++ cols.flatMap fun c => d :: c := by
  induction cols generalizing c with
  | nil => simp
  | cons c' cols ih => simp [List.intercalate_cons_cons, ih]

/-- What a column shows: a string, a whole number, or a number with two decimals. -/
inductive Datum
  | text (s : Text)
  | lu (v : UInt64)
  | ld (v : Int64)
  | f2 (d : Double)
  deriving DecidableEq

namespace Datum

def print : Datum → Text
  | text s => s
  | lu v => dec v.toNat
  | ld v => decInt v.toInt
  | f2 d => d.format2

def Plain : Datum → Prop
  | text s => PlainColumn s
  | lu _ | ld _ | f2 _ => True

instance : (c : Datum) → Decidable c.Plain
  | text s => decidable_of_iff (',' ∉ s ∧ '\n' ∉ s ∧ '\x00' ∉ s)
      ⟨fun h => ⟨h.1, h.2.1, h.2.2⟩, fun h => ⟨h.comma, h.newline, h.nul⟩⟩
  | lu _ | ld _ | f2 _ => .isTrue trivial

/-- A reader gets the value back from the text, of a number with decimals up to half of a
hundredth. -/
def ReadAs : Datum → Text → Prop
  | text s, t => t = s
  | lu v, t => readLu t = some v
  | ld v, t => readLd t = some v
  | f2 (.fin q), t => ∃ r, readF t = some r ∧ |r - q| ≤ 1 / 200
  | f2 (.inf neg), t => t = (Double.inf neg).format2
  | f2 (.nan neg), t => t = (Double.nan neg).format2

theorem Plain.print {c : Datum} (h : c.Plain) : PlainColumn c.print := by
  cases c with
  | text s => exact h
  | lu v => exact plainColumn_dec v.toNat
  | ld v => exact plainColumn_decInt v.toInt
  | f2 d => exact plainColumn_format2 d

theorem readAs_print (c : Datum) : c.ReadAs c.print := by
  cases c with
  | text s => rfl
  | lu v => exact readLu_dec v
  | ld v => exact readLd_decInt v
  | f2 d =>
    cases d with
    | fin q => exact exists_readF_format2 q
    | inf neg => rfl
    | nan neg => rfl

def row (name : Text) (data : List Datum) : Text := joinRow name (data.map print)

/-- The row as a format string puts it together that begins with `start`. -/
def format (start : Text) : List Datum → Text
  | [] => start ++ ";\n".toList
  | c :: data => data.foldl (fun s c => s ++ ',' :: c.print) (start ++ c.print) ++ ";\n".toList

theorem format_eq {name start : Text} (h : start = name ++ ['=']) {data : List Datum} :
    format start data = row name data := by
  have hfold (s : Text) (l : List Datum) : l.foldl (fun s c => s ++ ',' :: c.print) s =
      s ++ (l.map print).flatMap fun c => ',' :: c := by
    induction l generalizing s with
    | nil => simp
    | cons c l ih => simp [ih]
  cases data with
  | nil => simp [format, row, joinRow, h]
  | cons c data =>
    rw [format, hfold, row, List.map_cons, joinRow, intercalate_cons, h]
    simp

theorem nul_not_mem_row {name : Text} (hname : '\x00' ∉ name) {data : List Datum}
    (h : ∀ c ∈ data, c.Plain) : '\x00' ∉ row name data := by
  rw [row, joinRow_eq, List.mem_append, not_or]
  refine ⟨not_mem_rowBody (by decide) hname ?_, by decide⟩
  rw [List.forall_mem_map]
  exact fun c hc => (h c hc).print.nul

end Datum

/-- The rows of one table in a text that shows several. -/
def readTable (name s : Text) : List (List Text) := (cutLines s).filterMap (readRow name)

theorem readRow_joinRow_of_ne {n n' : Text} (hn : '=' ∉ n) (hn' : '=' ∉ n') (hne : n ≠ n')
    (cols : List Text) : readRow n (joinRow n' cols) = none := by
  rw [← Option.not_isSome_iff_eq_none, Option.isSome_iff_exists]
  rintro ⟨cols', h⟩
  obtain ⟨-, -, h⟩ := readRow_eq_some_iff.mp h
  unfold joinRow at h
  -- both names end at the first sign of equality
  have htake {m : Text} (hm : '=' ∉ m) (r : Text) :
      (m ++ '=' :: r).takeWhile (fun c => c != '=') = m := by
    rw [List.takeWhile_append_of_pos, List.takeWhile_cons_of_neg (by simp), List.append_nil]
    intro c hc
    rw [bne_iff_ne]
    rintro rfl
    exact hm hc
  apply hne
  rw [← htake hn, ← h, htake hn']

theorem readTable_append {n n' : Text} (hn : '=' ∉ n) (hn' : '=' ∉ n' ∧ '\n' ∉ n')
    {rows : List (List Text)} (h : ∀ cols ∈ rows, cols ≠ [] ∧ ∀ c ∈ cols, PlainColumn c)
    (s : Text) : readTable n ((rows.map (joinRow n')).flatten ++ s) =
      (if n = n' then rows else []) ++ readTable n s := by
  induction rows with
  | nil => simp
  | cons cols rows ih =>
    obtain ⟨⟨hne, hplain⟩, hrows⟩ := List.forall_mem_cons.mp h
    have hbody : '\n' ∉ rowBody n' cols :=
      not_mem_rowBody (by decide) hn'.2 fun c hc => (hplain c hc).newline
    have hcut : readTable n (joinRow n' cols ++ ((rows.map (joinRow n')).flatten ++ s)) =
        (readRow n (joinRow n' cols)).toList ++
          readTable n ((rows.map (joinRow n')).flatten ++ s) := by
      rw [joinRow_eq, List.append_assoc, List.singleton_append, readTable, cutLines_append hbody,
        filterMap_cons_toList, readTable]
    rw [List.map_cons, List.flatten_cons, List.append_assoc, hcut, ih hrows]
    split
    · next heq =>
      have hrow : readRow n (joinRow n' cols) = some cols :=
        readRow_eq_some_iff.mpr ⟨hne, fun c hc => (hplain c hc).comma, heq ▸ rfl⟩
      rw [hrow]
      rfl
    · next heq => rw [readRow_joinRow_of_ne hn hn'.1 heq, Option.toList_none]; rfl

section Tables

variable {ι : Type} [DecidableEq ι] {name : ι → Text}

theorem readTable_tables (rows : ι → List (List Text)) (hinj : Function.Injective name)
    (hname : ∀ i, '=' ∉ name i ∧ '\n' ∉ name i) {l : List ι} (hl : l.Nodup)
    (h : ∀ i ∈ l, ∀ cols ∈ rows i, cols ≠ [] ∧ ∀ c ∈ cols, PlainColumn c) (i : ι) :
    readTable (name i) (l.map fun j => ((rows j).map (joinRow (name j))).flatten).flatten =
      if i ∈ l then rows i else [] := by
  induction l with
  | nil => rfl
  | cons j l ih =>
    rw [List.nodup_cons] at hl
    rw [List.forall_mem_cons] at h
    rw [List.map_cons, List.flatten_cons, readTable_append (hname i).1 (hname j) h.1, ih hl.2 h.2]
    by_cases hij : i = j
    · subst hij
      simp [hl.1]
    · simp [hij, hinj.ne hij]

end Tables

end CLib
