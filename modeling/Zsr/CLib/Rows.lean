import Zsr.CLib.Double
import Zsr.CLib.Lines
import Zsr.CLib.Scan

namespace CLib

def joinRow (name : Text) (cols : List Text) : Text :=
  name ++ '=' :: ([','].intercalate cols ++ ";\n".toList)

def readRow (name line : Text) : Option (List Text) := do
  let cols ← line.dropPrefix? (name ++ ['='])
  let cols ← cols.dropSuffix? ";\n".toList
  some (cols.splitOn ',')

def readRecord (name s : Text) : Option (List (List Text)) := (cutLines s).mapM (readRow name)

/-- A column that stays within its commas, its line and its string. A semicolon may stand in
it, as only the one before the line end is taken for the end of the row. -/
structure PlainColumn (s : Text) : Prop where
  comma : ',' ∉ s
  newline : '\n' ∉ s
  nul : '\x00' ∉ s

theorem readRow_eq_some_iff {name line : Text} {cols : List Text} :
    readRow name line = some cols ↔
      cols ≠ [] ∧ (∀ c ∈ cols, ',' ∉ c) ∧ line = joinRow name cols := by
  simp only [readRow, Option.bind_eq_bind, Option.bind_eq_some_iff, List.dropPrefix?_eq_some_iff,
    List.dropSuffix?_eq_some_iff, Option.some.injEq, beq_iff_eq, ↓existsAndEq, and_true, true_and]
  constructor
  · rintro ⟨s, rfl, rfl⟩
    refine ⟨List.splitOn_ne_nil ',' s, fun c hc => (mem_splitOn hc).2, ?_⟩
    rw [joinRow, List.intercalate_splitOn, List.append_assoc]
    rfl
  · rintro ⟨hne, hcomma, rfl⟩
    refine ⟨[','].intercalate cols, ?_, List.splitOn_intercalate ',' hcomma hne⟩
    rw [joinRow, List.append_assoc]
    rfl

theorem not_mem_intercalate {d : Char} (hd : d ≠ ',') {cols : List Text}
    (h : ∀ c ∈ cols, d ∉ c) : d ∉ [','].intercalate cols := by
  induction cols with
  | nil => exact List.not_mem_nil
  | cons c cols ih =>
    rw [List.forall_mem_cons] at h
    cases cols with
    | nil => simpa using h.1
    | cons c' cols =>
      rw [List.intercalate_cons_cons]
      simp [hd, h.1, ih h.2]

theorem subset_intercalate {cols : List Text} (hcomma : ∀ c ∈ cols, ',' ∉ c) {c : Text}
    (hc : c ∈ cols) : c ⊆ [','].intercalate cols := by
  rw [← List.splitOn_intercalate ',' hcomma (List.ne_nil_of_mem hc)] at hc
  exact (mem_splitOn hc).1

def rowBody (name : Text) (cols : List Text) : Text :=
  name ++ '=' :: ([','].intercalate cols ++ [';'])

theorem joinRow_eq (name : Text) (cols : List Text) :
    joinRow name cols = rowBody name cols ++ ['\n'] := by
  simp [joinRow, rowBody]

theorem not_mem_rowBody {d : Char} (hd : d ≠ '=' ∧ d ≠ ',' ∧ d ≠ ';') {name : Text}
    (hname : d ∉ name) {cols : List Text} (h : ∀ c ∈ cols, d ∉ c) : d ∉ rowBody name cols := by
  simp [rowBody, hname, hd.1, hd.2.2, not_mem_intercalate hd.2.1 h]

theorem plain_of_readRecord {name s : Text} {rows : List (List Text)}
    (h : readRecord name s = some rows) {cols : List Text} (hcols : cols ∈ rows) {c : Text}
    (hc : c ∈ cols) : ',' ∉ c ∧ '\n' ∉ c := by
  obtain ⟨line, hline, hread⟩ := exists_of_mem_mapM h hcols
  obtain ⟨-, hcomma, rfl⟩ := readRow_eq_some_iff.mp hread
  have hbody := (mem_cutLines hline).2
  rw [joinRow_eq, List.dropLast_concat] at hbody
  refine ⟨hcomma c hc, fun hn => hbody ?_⟩
  have hn := subset_intercalate hcomma hc hn
  simp [rowBody, hn]

theorem readRecord_joinRow {name : Text} (hname : '\n' ∉ name) {rows : List (List Text)}
    (h : ∀ cols ∈ rows, cols ≠ [] ∧ ∀ c ∈ cols, PlainColumn c) :
    readRecord name (rows.map (joinRow name)).flatten = some rows := by
  induction rows with
  | nil => rfl
  | cons cols rows ih =>
    obtain ⟨⟨hne, hplain⟩, hrows⟩ := List.forall_mem_cons.mp h
    have hbody : '\n' ∉ rowBody name cols :=
      not_mem_rowBody (by decide) hname fun c hc => (hplain c hc).newline
    have hrow : readRow name (joinRow name cols) = some cols :=
      readRow_eq_some_iff.mpr ⟨hne, fun c hc => (hplain c hc).comma, rfl⟩
    -- the line end of the first row is the first one of the record
    rw [joinRow_eq] at hrow
    rw [List.map_cons, List.flatten_cons, joinRow_eq, List.append_assoc, List.singleton_append,
      readRecord, cutLines_append hbody, List.mapM_cons, hrow]
    rw [readRecord] at ih
    rw [ih hrows]
    rfl

/-- The value of a decimal column: digits and nothing else, within 64 bits. -/
def readLu (s : Text) : Option UInt64 :=
  (scanDigits s).bind fun r =>
    if r.2 = [] ∧ r.1 < 2 ^ 64 then some (UInt64.ofNat r.1) else none

theorem readLu_dec (v : UInt64) : readLu (dec v.toNat) = some v := by
  have h := scanDigits_dec noDigit_nil v.toNat
  rw [List.append_nil] at h
  rw [readLu, h, Option.bind_some, if_pos ⟨rfl, v.toNat_lt⟩, UInt64.ofNat_toNat]

theorem isDigit_of_readLu {s : Text} {v : UInt64} (h : readLu s = some v) :
    ∀ c ∈ s, c.isDigit = true := by
  obtain ⟨r, hr, h⟩ := Option.bind_eq_some_iff.mp h
  obtain ⟨⟨hrest, -⟩, -⟩ := Option.ite_none_right_eq_some.mp h
  rw [scanDigits, Option.ite_none_left_eq_some] at hr
  obtain rfl := Option.some.inj hr.2
  exact List.dropWhile_eq_nil_iff.mp hrest

theorem plainColumn_dec (n : ℕ) : PlainColumn (dec n) :=
  ⟨not_mem_dec rfl, not_mem_dec rfl, not_mem_dec rfl⟩

theorem plainColumn_format2 (d : Double) : PlainColumn d.format2 where
  comma := d.not_mem_format2 rfl (by decide)
  newline := d.not_mem_format2 rfl (by decide)
  nul := d.nul_not_mem_format2

end CLib
