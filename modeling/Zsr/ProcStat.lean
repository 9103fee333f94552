import Zsr.ProcTable

namespace Zsr
open CLib

/-- A line in the format of the kernel, up to column 22. -/
structure StatLine where
  pid : UInt64
  comm : Text
  state : Char
  ppid : UInt64
  /-- Columns 5 to 13. -/
  upTo13 : List UInt64
  utime : UInt64
  stime : UInt64
  /-- Columns 16 to 21. -/
  upTo21 : List UInt64
  startTime : UInt64
  comm_length : comm.length ≤ 15
  comm_nul : '\x00' ∉ comm
  comm_newline : '\n' ∉ comm
  state_letter : state.isAlpha = true
  upTo13_length : upTo13.length = 9
  upTo21_length : upTo21.length = 6

namespace StatLine

def numbers (l : StatLine) : List UInt64 :=
  l.ppid :: l.upTo13 ++ l.utime :: l.stime :: l.upTo21 ++ [l.startTime]

def commColumn (l : StatLine) : Text := '(' :: l.comm ++ [')']

def line (l : StatLine) : Text :=
  dec l.pid.toNat ++ ' ' :: l.commColumn ++ ' ' :: l.state :: decFields l.numbers

theorem state_ne (l : StatLine) {c : Char} (hc : c.isAlpha = false) : l.state ≠ c := by
  rintro rfl
  rw [l.state_letter] at hc
  cases hc

theorem not_mem_line (l : StatLine) {c : Char} (hd : c.isDigit = false) (ha : c.isAlpha = false)
    (hc : c ∉ l.comm) (hs : c ∉ [' ', '(', ')']) : c ∉ l.line := by
  simp only [List.mem_cons, not_or, List.not_mem_nil, not_false_iff, and_true] at hs
  simp only [line, commColumn, List.mem_append, List.mem_cons, not_or,
    List.not_mem_nil, not_false_iff, and_true, List.cons_append]
  exact ⟨⟨not_mem_dec hd, hs.1, hs.2.1, hc, hs.2.2⟩, hs.1, (l.state_ne ha).symm,
    not_mem_decFields hd hs.1 _⟩

end StatLine

theorem decFields_length_le (vs : List UInt64) : (decFields vs).length ≤ 21 * vs.length := by
  induction vs with
  | nil => exact le_rfl
  | cons v vs ih =>
    have := dec_word_length_le v
    rw [decFields_cons, List.length_cons, List.length_append, List.length_cons]
    omega

theorem StatLine.line_length_le (l : StatLine) : l.line.length ≤ 511 := by
  have h1 := dec_word_length_le l.pid
  have h2 := decFields_length_le l.numbers
  have h3 : l.numbers.length = 19 := by
    simp [StatLine.numbers, l.upTo13_length, l.upTo21_length]
  have h4 := l.comm_length
  simp only [StatLine.line, StatLine.commColumn, List.length_append, List.length_cons,
    List.length_nil, List.cons_append]
  omega

/-- From column 3 on pid and command do not change, behind it the state neither, and
nothing can go wrong. -/
theorem statColumns_frame {i : ℕ} (hi : 2 ≤ i) (utime stime : UInt64) (proc : Proc)
    (cols : List Text) :
    ∃ out, statColumns i utime stime proc cols = some out ∧ out.pid = proc.pid ∧
      out.cmd = proc.cmd ∧ (3 ≤ i → out.state = proc.state) := by
  induction cols generalizing i utime stime proc with
  | nil => exact ⟨_, rfl, rfl, rfl, fun _ => rfl⟩
  | cons col cols ih =>
    -- a column that leaves pid, command and state alone, and the columns behind it
    have next (utime stime : UInt64) (proc' : Proc) (hpid : proc'.pid = proc.pid)
        (hcmd : proc'.cmd = proc.cmd) (hstate : 3 ≤ i → proc'.state = proc.state) :
        ∃ out, statColumns (i + 1) utime stime proc' cols = some out ∧ out.pid = proc.pid ∧
          out.cmd = proc.cmd ∧ (3 ≤ i → out.state = proc.state) := by
      obtain ⟨out, hout, h1, h2, h3⟩ := ih (i := i + 1) (by omega) utime stime proc'
      exact ⟨out, hout, h1.trans hpid, h2.trans hcmd,
        fun h => (h3 (by omega)).trans (hstate h)⟩
    unfold statColumns
    split
    · omega
    · omega
    · obtain rfl : i = 2 := by omega
      exact next utime stime { proc with state := _ } rfl rfl (by omega)
    · obtain rfl : i = 3 := by omega
      exact next utime stime { proc with ppid := storeLu proc.ppid col } rfl rfl fun _ => rfl
    · obtain rfl : i = 13 := by omega
      exact next _ stime proc rfl rfl fun _ => rfl
    · obtain rfl : i = 14 := by omega
      exact next utime _ proc rfl rfl fun _ => rfl
    · exact ⟨_, rfl, rfl, rfl, fun _ => rfl⟩
    · exact next utime stime proc rfl rfl fun _ => rfl

section
variable (utime stime : UInt64) (proc : Proc) (col : Text) (cols : List Text)

theorem statColumns_pid : statColumns 0 utime stime proc (col :: cols) =
    statColumns 1 utime stime { proc with pid := storeLu proc.pid col } cols := rfl

theorem statColumns_cmd : statColumns 1 utime stime proc (col :: cols) =
    (storeCmd proc col).bind fun proc => statColumns 2 utime stime proc cols := rfl

theorem statColumns_state (c : Char) (w : Text) :
    statColumns 2 utime stime proc ((c :: w) :: cols) =
    statColumns 3 utime stime { proc with state := c } cols := rfl

theorem statColumns_ppid : statColumns 3 utime stime proc (col :: cols) =
    statColumns 4 utime stime { proc with ppid := storeLu proc.ppid col } cols := rfl

theorem statColumns_utime : statColumns 13 utime stime proc (col :: cols) =
    statColumns 14 (storeLu utime col) stime proc cols := rfl

theorem statColumns_stime : statColumns 14 utime stime proc (col :: cols) =
    statColumns 15 utime (storeLu stime col) proc cols := rfl

theorem statColumns_startTime : statColumns 21 utime stime proc (col :: cols) =
    some { proc with startTime := storeLu proc.startTime col, cpuTime := utime + stime } := rfl

end

theorem statColumns_other {i : ℕ} (hi : i + 1 ∉ [1, 2, 3, 4, 14, 15, 22])
    (utime stime : UInt64) (proc : Proc) (col : Text) (cols : List Text) :
    statColumns i utime stime proc (col :: cols) = statColumns (i + 1) utime stime proc cols := by
  simp only [List.mem_cons, not_or, List.not_mem_nil, not_false_iff, and_true] at hi
  conv_lhs => unfold statColumns
  split <;> first | omega | rfl

theorem statColumns_skip {i : ℕ} {cols : List Text}
    (h : ∀ j, i < j → j ≤ i + cols.length → j ∉ [1, 2, 3, 4, 14, 15, 22])
    (utime stime : UInt64) (proc : Proc) (rest : List Text) :
    statColumns i utime stime proc (cols ++ rest) =
      statColumns (i + cols.length) utime stime proc rest := by
  induction cols generalizing i with
  | nil => rfl
  | cons col cols ih =>
    have hlen : i + (col :: cols).length = i + 1 + cols.length := by
      rw [List.length_cons]
      omega
    rw [hlen] at h ⊢
    rw [List.cons_append, statColumns_other (h (i + 1) (by omega) (by omega)),
      ih fun j h1 h2 => h j (by omega) h2]

theorem storeLu_dec (x v : UInt64) {t : Text} (ht : NoDigit t) :
    storeLu x (dec v.toNat ++ t) = v := by
  rw [storeLu, scanLu_dec ht]
  rfl

theorem storeLu_dec_nil (x v : UInt64) : storeLu x (dec v.toNat) = v := by
  simpa using storeLu_dec x v noDigit_nil

/-- The scan stops at the first closing parenthesis; without a character before it the
node keeps its zeroed name. -/
theorem storeCmd_open {proc : Proc} (hcmd : proc.cmd = []) {w : Text} (hw : w.length < LEN_256) :
    storeCmd proc ('(' :: w) = some { proc with cmd := w.takeWhile (· ≠ ')') } := by
  have hlen : (w.takeWhile (· ≠ ')')).length < LEN_256 :=
    (List.takeWhile_prefix _).length_le.trans_lt hw
  have hlit : scanLit '(' ('(' :: w) = some ((), w) := rfl
  rw [storeCmd, hlit, Option.bind_some, scanUntil]
  by_cases he : w.takeWhile (· ≠ ')') = []
  · simp only [he, if_true, ← hcmd]
  · simp only [if_neg he, if_pos hlen]

theorem takeWhile_close (w : Text) :
    (w ++ [')']).takeWhile (· ≠ ')') = w.takeWhile (· ≠ ')') := by
  induction w with
  | nil => rfl
  | cons c w ih => simp only [List.cons_append, List.takeWhile_cons, ih]

theorem tokens_decFields {w : Text} (hw : ' ' ∉ w) (hne : w ≠ []) (vs : List UInt64) (v : UInt64)
    (t : Text) :
    tokens ' ' (w ++ decFields (vs ++ [v]) ++ t) =
      w :: vs.map (fun v => dec v.toNat) ++ tokens ' ' (dec v.toNat ++ t) := by
  induction vs generalizing w with
  | nil =>
    have h : decFields [v] = ' ' :: dec v.toNat := by
      rw [decFields_cons]
      exact congrArg _ (List.append_nil _)
    rw [List.nil_append, h, List.append_assoc, List.cons_append, tokens_cons hw hne]
    rfl
  | cons u us ih =>
    rw [List.cons_append, decFields_cons, List.append_assoc, List.cons_append,
      tokens_cons hw hne, ih (not_mem_dec rfl) (dec_ne_nil _)]
    rfl

namespace StatLine

def upTo21Columns (l : StatLine) : List UInt64 :=
  l.ppid :: l.upTo13 ++ l.utime :: l.stime :: l.upTo21

theorem numbers_eq (l : StatLine) : l.numbers = l.upTo21Columns ++ [l.startTime] := rfl

theorem line_append (l : StatLine) (t : Text) :
    l.line ++ t = dec l.pid.toNat ++ ' ' ::
      (l.commColumn ++
        ' ' :: ([l.state] ++ decFields (l.upTo21Columns ++ [l.startTime]) ++ t)) := by
  simp [line, numbers_eq]

theorem tokens_line {l : StatLine} (hc : ' ' ∉ l.comm) (t : Text) :
    ∃ t' rest, t' <+: t ∧ tokens ' ' (l.line ++ t) =
      dec l.pid.toNat :: l.commColumn :: [l.state] ::
        (l.upTo21Columns.map fun v => dec v.toNat) ++ (dec l.startTime.toNat ++ t') :: rest := by
  have hcol : ' ' ∉ l.commColumn := by simp [commColumn, hc]
  have hstate : ' ' ∉ [l.state] := by
    rw [List.mem_singleton]
    exact (l.state_ne rfl).symm
  obtain ⟨t', rest, ht', h⟩ := tokens_first (not_mem_dec (c := ' ') rfl)
    (dec_ne_nil l.startTime.toNat) t
  refine ⟨t', rest, ht', ?_⟩
  rw [line_append, tokens_cons (not_mem_dec rfl) (dec_ne_nil _),
    tokens_cons hcol (by simp [commColumn]), tokens_decFields hstate (by simp), h]
  rfl

theorem tokens_line_of_blank {l : StatLine} {a b : Text} (ha : ' ' ∉ a)
    (hc : l.comm = a ++ ' ' :: b) (t : Text) :
    ∃ col cols, tokens ' ' (l.line ++ t) = dec l.pid.toNat :: ('(' :: a) :: col :: cols := by
  have hcol : l.commColumn = '(' :: a ++ ' ' :: (b ++ [')']) := by simp [commColumn, hc]
  have ha' : ' ' ∉ '(' :: a := by simp [ha]
  have hstate : ' ' ∉ [l.state] := by
    rw [List.mem_singleton]
    exact (l.state_ne rfl).symm
  rw [line_append, hcol, tokens_cons (not_mem_dec rfl) (dec_ne_nil _), List.append_assoc,
    List.cons_append (a := ' '), tokens_cons ha' (by simp), tokens_append_sep,
    tokens_decFields hstate (by simp)]
  obtain ⟨col, cols, h⟩ := List.exists_cons_of_ne_nil
    (l := tokens ' ' (b ++ [')']) ++ ([l.state] :: l.upTo21Columns.map (fun v => dec v.toNat) ++
      tokens ' ' (dec l.startTime.toNat ++ t))) (by simp)
  exact ⟨col, cols, by rw [h]⟩

end StatLine

theorem statColumns_upTo4 (l : StatLine) (cols : List Text) :
    statColumns 0 0 0 {} (dec l.pid.toNat :: l.commColumn :: [l.state] :: dec l.ppid.toNat :: cols) =
      statColumns 4 0 0 { ({} : Proc) with
        pid := l.pid
        cmd := l.comm.takeWhile (· ≠ ')')
        state := l.state
        ppid := l.ppid } cols := by
  have hlen : (l.comm ++ [')']).length < LEN_256 := by
    have := l.comm_length
    rw [List.length_append, List.length_singleton, LEN_256]
    omega
  rw [statColumns_pid, storeLu_dec_nil, StatLine.commColumn, List.cons_append, statColumns_cmd,
    storeCmd_open rfl hlen, takeWhile_close, Option.bind_some, statColumns_state, statColumns_ppid,
    storeLu_dec_nil]

theorem statColumns_from4 (l : StatLine) {t : Text} (ht : NoDigit t) (proc : Proc)
    (rest : List Text) :
    statColumns 4 0 0 proc ((l.upTo13.map fun v => dec v.toNat) ++ dec l.utime.toNat ::
        dec l.stime.toNat :: ((l.upTo21.map fun v => dec v.toNat) ++
          (dec l.startTime.toNat ++ t) :: rest)) =
      some { proc with cpuTime := l.utime + l.stime, startTime := l.startTime } := by
  have h13 : 4 + (l.upTo13.map fun v => dec v.toNat).length = 13 := by
    rw [List.length_map, l.upTo13_length]
  have h21 : 15 + (l.upTo21.map fun v => dec v.toNat).length = 21 := by
    rw [List.length_map, l.upTo21_length]
  have hskip13 : ∀ j, 4 < j → j ≤ 13 → j ∉ [1, 2, 3, 4, 14, 15, 22] := by
    intro j h1 h2
    simp
    omega
  have hskip21 : ∀ j, 15 < j → j ≤ 21 → j ∉ [1, 2, 3, 4, 14, 15, 22] := by
    intro j h1 h2
    simp
    omega
  rw [statColumns_skip (i := 4) (h13 ▸ hskip13), h13, statColumns_utime, storeLu_dec_nil,
    statColumns_stime, storeLu_dec_nil, statColumns_skip (i := 15) (h21 ▸ hskip21), h21,
    statColumns_startTime, storeLu_dec _ _ ht]

theorem statColumns_line (l : StatLine) {t : Text} (ht : NoDigit t) (rest : List Text) :
    statColumns 0 0 0 {} (dec l.pid.toNat :: l.commColumn :: [l.state] ::
        (l.upTo21Columns.map fun v => dec v.toNat) ++ (dec l.startTime.toNat ++ t) :: rest) =
      some { ({} : Proc) with
        pid := l.pid
        cmd := l.comm.takeWhile (· ≠ ')')
        state := l.state
        ppid := l.ppid
        cpuTime := l.utime + l.stime
        startTime := l.startTime } := by
  simp only [StatLine.upTo21Columns, List.map_append, List.map_cons, List.cons_append,
    List.append_assoc]
  rw [statColumns_upTo4, statColumns_from4 l ht]

def StatLine.StoredIn (l : StatLine) (proc : Proc) : Prop :=
  proc.pid = l.pid ∧ proc.cmd = l.comm ∧ proc.state = l.state ∧ proc.ppid = l.ppid ∧
    proc.cpuTime = l.utime + l.stime ∧ proc.startTime = l.startTime

section
variable (l : StatLine) (rest : Text) (hrest : ∀ c ∈ rest.head?, c = ' ' ∨ c = '\n')

/-- Reading comes down to the loop over the tokens of the line and of what the call has
taken behind it. -/
theorem readPidStat_line : ∃ t, t <+: rest ∧ '\x00' ∉ l.line ++ t ∧ ∀ cols,
    tokens ' ' (l.line ++ t) = cols → cols ≠ [] →
      readPidStat (some (l.line ++ rest)) {} = statColumns 0 0 0 {} cols := by
  have hnl : '\n' ∉ l.line := l.not_mem_line rfl rfl l.comm_newline (by decide)
  have hnul : '\x00' ∉ l.line := l.not_mem_line rfl rfl l.comm_nul (by decide)
  obtain ⟨t, ht, hbuf⟩ := cstr_takeLine_append hnl hnul l.line_length_le rest
  refine ⟨t, ht, hbuf ▸ nul_not_mem_cstr _, ?_⟩
  rintro cols hcols hne
  have hstat : l.line ++ rest ≠ [] := by simp [StatLine.line]
  obtain ⟨col, cols, rfl⟩ := List.exists_cons_of_ne_nil hne
  rw [readPidStat, Option.bind_some, fgets, if_neg hstat]
  simp only [LEN_512, Nat.reduceSub, hbuf, hcols]

include hrest in
theorem readPidStat_of_not_blank (hc : ' ' ∉ l.comm) :
    readPidStat (some (l.line ++ rest)) {} = some { ({} : Proc) with
      pid := l.pid
      cmd := l.comm.takeWhile (· ≠ ')')
      state := l.state
      ppid := l.ppid
      cpuTime := l.utime + l.stime
      startTime := l.startTime } := by
  obtain ⟨t, ht, -, hread⟩ := readPidStat_line l rest
  obtain ⟨t', cols, ht', hcols⟩ := StatLine.tokens_line hc t
  have hdigit : NoDigit t' := by
    refine NoDigit.of_prefix ?_ (ht'.trans ht)
    intro c hc
    obtain rfl | rfl := hrest c hc <;> rfl
  rw [hread _ hcols (by simp), statColumns_line l hdigit]

theorem readPidStat_of_blank {a b : Text} (ha : ' ' ∉ a) (hc : l.comm = a ++ ' ' :: b) :
    ∃ proc, readPidStat (some (l.line ++ rest)) {} = some proc ∧ proc.pid = l.pid ∧
      proc.cmd = a.takeWhile (· ≠ ')') ∧ proc.state ≠ '\x00' := by
  obtain ⟨t, -, hnul, hread⟩ := readPidStat_line l rest
  obtain ⟨col, cols, hcols⟩ := StatLine.tokens_line_of_blank ha hc t
  have hcol : col ∈ tokens ' ' (l.line ++ t) := by simp [hcols]
  obtain ⟨c, col, rfl⟩ := List.exists_cons_of_ne_nil (ne_nil_of_mem_tokens hcol)
  have hne : c ≠ '\x00' := by
    rintro rfl
    exact hnul (subset_of_mem_tokens hcol List.mem_cons_self)
  have hlen : a.length < LEN_256 := by
    have := l.comm_length
    rw [hc, List.length_append, List.length_cons] at this
    rw [LEN_256]
    omega
  rw [hread _ hcols (by simp), statColumns_pid, statColumns_cmd, storeCmd_open rfl hlen,
    Option.bind_some, statColumns_state]
  obtain ⟨proc, hproc, hpid, hcmd, hstate⟩ := statColumns_frame (i := 3) (by omega) 0 0 _ cols
  exact ⟨proc, hproc, hpid.trans (storeLu_dec_nil _ _), hcmd, hstate le_rfl ▸ hne⟩

include hrest in
theorem readPidStat_state : ∃ proc, readPidStat (some (l.line ++ rest)) {} = some proc ∧
    proc.pid = l.pid ∧ proc.state ≠ '\x00' := by
  by_cases hblank : ' ' ∈ l.comm
  · obtain ⟨a, b, hc, ha⟩ := List.eq_append_cons_of_mem hblank
    obtain ⟨proc, hproc, hpid, -, hstate⟩ := readPidStat_of_blank l rest ha hc
    exact ⟨proc, hproc, hpid, hstate⟩
  · exact ⟨_, readPidStat_of_not_blank l rest hrest hblank, rfl, l.state_ne rfl⟩

include hrest in
/-- The fields are stored exactly when the name has neither a blank nor a closing
parenthesis in it. -/
theorem readPidStat_stored_iff :
    (∃ proc, readPidStat (some (l.line ++ rest)) {} = some proc ∧ l.StoredIn proc) ↔
      ∀ c ∈ l.comm, c ≠ ' ' ∧ c ≠ ')' := by
  by_cases hblank : ' ' ∈ l.comm
  · refine iff_of_false ?_ fun h => (h ' ' hblank).1 rfl
    rintro ⟨proc, hproc, -, hcmd, -⟩
    obtain ⟨a, b, hc, ha⟩ := List.eq_append_cons_of_mem hblank
    obtain ⟨proc', hproc', -, hcmd', -⟩ := readPidStat_of_blank l rest ha hc
    obtain rfl : proc = proc' := Option.some.inj (hproc.symm.trans hproc')
    -- what is stored ends in front of the blank
    rw [hcmd'] at hcmd
    apply ha
    exact (List.takeWhile_prefix _).subset (hcmd ▸ hblank)
  · rw [readPidStat_of_not_blank l rest hrest hblank]
    have hkeep : l.comm.takeWhile (· ≠ ')') = l.comm ↔ ∀ c ∈ l.comm, c ≠ ')' := by
      rw [List.takeWhile_eq_self_iff]
      simp
    constructor
    · rintro ⟨proc, hproc, -, hcmd, -⟩ c hc
      obtain rfl := Option.some.inj hproc
      exact ⟨fun h => hblank (h ▸ hc), hkeep.mp hcmd c hc⟩
    · intro h
      exact ⟨_, rfl, rfl, hkeep.mpr fun c hc => (h c hc).2, rfl, rfl, rfl, rfl⟩

end

def namedLine (comm : Text) (hlen : comm.length ≤ 15) (hnul : '\x00' ∉ comm)
    (hnl : '\n' ∉ comm) : StatLine where
  pid := 41
  comm := comm
  state := 'S'
  ppid := 7
  upTo13 := [41, 41, 0, 0, 64, 9, 0, 0, 0]
  utime := 30
  stime := 12
  upTo21 := [0, 0, 20, 0, 1, 0]
  startTime := 500
  comm_length := hlen
  comm_nul := hnul
  comm_newline := hnl
  state_letter := rfl
  upTo13_length := rfl
  upTo21_length := rfl

def plainLine : StatLine := namedLine "sh(1".toList (by decide) (by decide) (by decide)

def blankLine : StatLine := namedLine "a b".toList (by decide) (by decide) (by decide)

theorem readPidStat_stored_plain :
    ∃ proc, readPidStat (some (plainLine.line ++ " 1\n".toList)) {} = some proc ∧
      plainLine.StoredIn proc :=
  (readPidStat_stored_iff plainLine " 1\n".toList (by simp)).mpr (by simp [plainLine, namedLine])

/-- The name `a b` ends the second token early, and every later field is taken from the
column before its own. -/
theorem readPidStat_blankLine :
    readPidStat (some (blankLine.line ++ "\n".toList)) {} =
      some { pid := 41, cmd := ['a'], state := 'b', cpuTime := 30 } ∧
    ¬∃ proc, readPidStat (some (blankLine.line ++ "\n".toList)) {} = some proc ∧
      blankLine.StoredIn proc := by
  have h : readPidStat (some (blankLine.line ++ "\n".toList)) {} =
      some { pid := 41, cmd := ['a'], state := 'b', cpuTime := 30 } := by
    decide +kernel
  refine ⟨h, ?_⟩
  rintro ⟨proc, hproc, -, hcmd, -⟩
  rw [h] at hproc
  obtain rfl := Option.some.inj hproc
  revert hcmd
  decide

end Zsr
