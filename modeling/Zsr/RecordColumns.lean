import Zsr.CLib.Rows
import Zsr.RecordBounds

namespace Zsr
open CLib

theorem ModName.readRecord_recordToStr {m : ModName} {l : List m.Rec} {name : Text}
    {cols : m.Entry → List Text} (hname : '\n' ∉ name ∧ '\x00' ∉ name)
    (hrow : ∀ e ∈ m.held l, m.row e = some (joinRow name (cols e)))
    (hcols : ∀ e ∈ m.held l, cols e ≠ [] ∧ ∀ c ∈ cols e, PlainColumn c) (hheld : m.held l ≠ [])
    (hlen : (m.encoding l).length < LEN_1M) (record : Text) :
    ∃ record', m.recordToStr l record = some record' ∧
      readRecord name (cstr record') = some ((m.held l).map cols) := by
  have henc : m.encoding l = (((m.held l).map cols).map (joinRow name)).flatten := by
    unfold encoding
    rw [List.map_map, ← List.filterMap_eq_map]
    exact congrArg List.flatten (List.filterMap_congr hrow)
  have hnul : '\x00' ∉ m.encoding l := by
    intro h
    rw [henc, List.map_map] at h
    obtain ⟨row, hrow, h⟩ := List.mem_flatten.mp h
    obtain ⟨e, he, rfl⟩ := List.mem_map.mp hrow
    rw [Function.comp_apply, joinRow_eq, List.mem_append] at h
    rcases h with h | h
    · exact not_mem_rowBody (by decide) hname.2 (fun c hc => ((hcols e he).2 c hc).nul) h
    · revert h
      decide
  have hfits : m.Defined l := ⟨fun e he => by rw [hrow e he]; rfl, .inl hlen⟩
  obtain ⟨rest, h⟩ := recordToStr_text hfits hheld record
  refine ⟨_, h, ?_⟩
  rw [List.take_of_length_le (by omega), cstr_append_nul hnul, henc]
  apply readRecord_joinRow hname.1
  intro c hc
  obtain ⟨e, he, rfl⟩ := List.mem_map.mp hc
  exact hcols e he

namespace ModNetwork

def name : Text := "network".toList

def columns (entry : RtnlLink) : List Text :=
  [cstr entry.dev, dec entry.txPacket.toNat, dec entry.rxPacket.toNat, dec entry.txByte.toNat,
    dec entry.rxByte.toNat]

def readLink : List Text → Option RtnlLink
  | [dev, txPacket, rxPacket, txByte, rxByte] => do
    let txPacket ← readLu txPacket
    let rxPacket ← readLu rxPacket
    let txByte ← readLu txByte
    let rxByte ← readLu rxByte
    some ⟨dev, txPacket, rxPacket, txByte, rxByte⟩
  | _ => none

def readLinks (s : Text) : Option (List RtnlLink) := (readRecord name s).bind (·.mapM readLink)

/-- A link with the string of its name alone, without what else is in the array. -/
def named (entry : RtnlLink) : RtnlLink := { entry with dev := cstr entry.dev }

/-- The names are strings that stay in their column, and the record has room for the rows. -/
structure Readable (links : List RtnlLink) : Prop where
  ne_nil : links ≠ []
  dev : ∀ e ∈ links, ∃ dev, cstrIn e.dev = some dev ∧ PlainColumn dev
  length_lt : (ModName.network.encoding links).length < LEN_1M

theorem cstr_of_cstrIn {s t : Text} (h : cstrIn s = some t) : cstr s = t := by
  rw [cstrIn, Option.ite_none_right_eq_some] at h
  exact Option.some.inj h.2

theorem row_eq {e : RtnlLink} {dev : Text} (h : cstrIn e.dev = some dev) :
    row e = some (joinRow name (columns e)) := by
  have hname : "network=".toList = name ++ ['='] := by decide
  rw [row, rowBy, h, columns, cstr_of_cstrIn h, hname]
  simp only [Option.bind_eq_bind, Option.bind_some, Option.pure_def, joinRow, List.intercalate_cons_cons, List.intercalate_singleton, List.append_assoc,
    List.cons_append, List.nil_append]

theorem readLink_columns (e : RtnlLink) : readLink (columns e) = some (named e) := by
  simp [readLink, columns, named, readLu_dec]

theorem exists_readLinks {links : List RtnlLink} (h : Readable links) (record : Text) :
    ∃ record', recordToStr links record = some record' ∧
      readLinks (cstr record') = some (links.map named) := by
  have hrow (e : RtnlLink) (he : e ∈ links) : row e = some (joinRow name (columns e)) := by
    obtain ⟨dev, hdev, -⟩ := h.dev e he
    exact row_eq hdev
  have hcols (e : RtnlLink) (he : e ∈ links) :
      columns e ≠ [] ∧ ∀ c ∈ columns e, PlainColumn c := by
    obtain ⟨dev, hdev, hplain⟩ := h.dev e he
    refine ⟨List.cons_ne_nil _ _, ?_⟩
    simp only [columns, List.forall_mem_cons, cstr_of_cstrIn hdev, hplain, plainColumn_dec,
      List.not_mem_nil, false_imp_iff, implies_true, and_self]
  obtain ⟨record', hprint, hrows⟩ := ModName.readRecord_recordToStr (m := .network)
    (by decide) hrow hcols h.ne_nil h.length_lt record
  refine ⟨record', hprint, ?_⟩
  rw [readLinks, hrows, Option.bind_some, List.mapM_map]
  simp only [Function.comp_def, readLink_columns]
  exact List.mapM_pure

/-- The links are read back from the record in number, in order and with all that they show;
so two lists that differ in it are never printed as the same record. -/
theorem readLinks_recordToStr {links : List RtnlLink} (h : Readable links) (record : Text) :
    ∃ record', recordToStr links record = some record' ∧
      readLinks (cstr record') = some (links.map named) ∧
      ∀ links' r r', Readable links' → recordToStr links' r = some r' →
        cstr r' = cstr record' → links'.map named = links.map named := by
  obtain ⟨record', hprint, hlinks⟩ := exists_readLinks h record
  refine ⟨record', hprint, hlinks, fun links' r r' h' hprint' heq => ?_⟩
  obtain ⟨r'', hprint'', hlinks'⟩ := exists_readLinks h' r
  obtain rfl := Option.some.inj (hprint'.symm.trans hprint'')
  rw [heq, hlinks, Option.some.injEq] at hlinks'
  exact hlinks'.symm

def loLink : RtnlLink where
  dev := strncpy LEN_64 "lo".toList
  txPacket := 0
  rxPacket := 7
  txByte := 18446744073709551615
  rxByte := 10

theorem readLinks_recordToStr_two :
    ∃ record', recordToStr [loLink, ModName.idleLink] [] = some record' ∧
      readLinks (cstr record') = some ([loLink, ModName.idleLink].map named) ∧
      ∀ links' r r', Readable links' → recordToStr links' r = some r' →
        cstr r' = cstr record' → links'.map named = [loLink, ModName.idleLink].map named := by
  refine readLinks_recordToStr ⟨List.cons_ne_nil _ _, ?_, by decide +kernel⟩ []
  have hlo : PlainColumn "lo".toList := ⟨by decide, by decide, by decide⟩
  have hnone : PlainColumn [] := ⟨by decide, by decide, by decide⟩
  simp only [List.forall_mem_cons, List.not_mem_nil, false_imp_iff, implies_true, and_true]
  exact ⟨⟨_, cstrIn_strncpy (by decide) (by decide), hlo⟩,
    ⟨_, cstrIn_strncpy (by decide) (by decide), hnone⟩⟩

end ModNetwork

/-- The strings of a process stay in their columns. -/
structure Proc.PlainStrings (e : Proc) : Prop where
  user : PlainColumn e.user
  group : PlainColumn e.group
  cmd : PlainColumn e.cmd
  cmdPath : PlainColumn e.cmdPath

namespace ModProc

inductive Column where
  | pid | state | ppid | user | group | virtMemKb | resMemKb | memUtil | startTime | cpuUtil
  | cmd | cmdPath
  deriving DecidableEq

/-- `info`, and the columns of the usage text in its order. -/
def info : List Column :=
  [.pid, .state, .ppid, .user, .virtMemKb, .resMemKb, .memUtil, .startTime, .cpuUtil, .cmd,
    .cmdPath]

def printed : List Column :=
  [.pid, .state, .ppid, .user, .group, .virtMemKb, .resMemKb, .memUtil, .startTime, .cpuUtil,
    .cmd]

/-- The text gives back the field of this column. The percentages are rounded when they are
printed, so nothing is asked of them. -/
def Column.Reads (e : Proc) : Column → Text → Prop
  | pid, t => readLu t = some e.pid
  | state, t => t = [e.state]
  | ppid, t => readLu t = some e.ppid
  | user, t => t = e.user
  | group, t => t = e.group
  | virtMemKb, t => readLu t = some e.virtMemKb
  | resMemKb, t => readLu t = some e.resMemKb
  | memUtil, _ => True
  | startTime, t => readLu t = some e.startTime
  | cpuUtil, _ => True
  | cmd, t => t = e.cmd
  | cmdPath, t => t = e.cmdPath

/-- Read as these columns, the row gives the process back. -/
def ReadsBack (order : List Column) (e : Proc) (cols : List Text) : Prop :=
  List.Forall₂ (Column.Reads e) order cols

def columns (e : Proc) : List Text :=
  [dec e.pid.toNat, [e.state], dec e.ppid.toNat, e.user, e.group, dec e.virtMemKb.toNat,
    dec e.resMemKb.toNat, e.memUtil.format2, dec e.startTime.toNat, e.cpuUtil.format2, e.cmd]

theorem row_eq (e : Proc) : row e = joinRow name (columns e) := by
  simp only [row, joinRow, columns, List.intercalate_cons_cons, List.intercalate_singleton,
    List.append_assoc, List.cons_append, List.nil_append]

theorem readsBack_printed (e : Proc) : ReadsBack printed e (columns e) := by
  simp [ReadsBack, printed, columns, Column.Reads, readLu_dec]

theorem not_readsBack_info (e : Proc) : ¬ReadsBack info e (columns e) := by
  simp only [ReadsBack, info, columns, List.forall₂_cons, Column.Reads]
  rintro ⟨-, -, -, -, -, -, -, hstart, -⟩
  obtain ⟨c, hc, hdigit⟩ := e.memUtil.exists_not_isDigit_format2
  rw [isDigit_of_readLu hstart c hc] at hdigit
  cases hdigit

theorem plainColumn_state {s : Text} {rows : List (List Text)} {cols : List Text} {e : Proc}
    (hrows : readRecord name s = some rows) (hmem : cols ∈ rows) (hcols : ReadsBack info e cols) :
    ',' ∉ [e.state] ∧ '\n' ∉ [e.state] := by
  obtain ⟨_, cols, -, htail, rfl⟩ := List.forall₂_cons_left_iff.mp hcols
  obtain ⟨_, _, hstate, -, rfl⟩ := List.forall₂_cons_left_iff.mp htail
  obtain rfl := hstate
  exact plain_of_readRecord hrows hmem (List.mem_cons_of_mem _ List.mem_cons_self)

section Printed

variable {curList : List Proc} (recordList : List (List Proc))

theorem held_concat : ModName.proc.held (recordList ++ [curList]) = curList := by
  simp [ModName.held]

theorem encoding_concat :
    ModName.proc.encoding (recordList ++ [curList]) = (curList.map row).flatten := by
  rw [ModName.encoding, held_concat, ← List.filterMap_eq_map]
  rfl

theorem readRecord_recordToStr (hplain : ∀ e ∈ curList, e.PlainStrings)
    (hstate : ∀ e ∈ curList, PlainColumn [e.state]) (hne : curList ≠ [])
    (hlen : (curList.map row).flatten.length < LEN_1M) (record : Text) :
    ∃ record', recordToStr (recordList ++ [curList]) record = some record' ∧
      readRecord name (cstr record') = some (curList.map columns) := by
  have hcols (e : Proc) (he : e ∈ curList) :
      columns e ≠ [] ∧ ∀ c ∈ columns e, PlainColumn c := by
    refine ⟨List.cons_ne_nil _ _, ?_⟩
    simp only [columns, List.forall_mem_cons, hstate e he, (hplain e he).user,
      (hplain e he).group, (hplain e he).cmd, plainColumn_dec, plainColumn_format2,
      List.not_mem_nil, false_imp_iff, implies_true, and_self]
  have hheld : ModName.proc.held (recordList ++ [curList]) = curList := held_concat recordList
  obtain ⟨record', hprint, hrows⟩ := ModName.readRecord_recordToStr (m := .proc)
    (by decide : '\n' ∉ name ∧ '\x00' ∉ name) (fun e _ => congrArg some (row_eq e))
    (hheld.symm ▸ hcols) (hheld.symm ▸ hne) ((encoding_concat recordList).symm ▸ hlen) record
  refine ⟨record', hprint, ?_⟩
  rw [hrows, hheld]

theorem recordToStr_printed (hplain : ∀ e ∈ curList, e.PlainStrings)
    (hstate : ∀ e ∈ curList, PlainColumn [e.state]) (hne : curList ≠ [])
    (hlen : (curList.map row).flatten.length < LEN_1M) (record : Text) :
    ∃ record' rows, recordToStr (recordList ++ [curList]) record = some record' ∧
      readRecord name (cstr record') = some rows ∧
      List.Forall₂ (ReadsBack printed) curList rows := by
  obtain ⟨record', hprint, hrows⟩ :=
    readRecord_recordToStr recordList hplain hstate hne hlen record
  refine ⟨record', _, hprint, hrows, ?_⟩
  rw [List.forall₂_map_right_iff, List.forall₂_same]
  exact fun e _ => readsBack_printed e

/-- The rows are read back as `info` has their columns exactly when there are none. -/
theorem recordToStr_info_iff (hplain : ∀ e ∈ curList, e.PlainStrings)
    (hstate : ∀ e ∈ curList, e.state ≠ '\x00')
    (hlen : (curList.map row).flatten.length < LEN_1M) (record : Text) :
    ∃ record', recordToStr (recordList ++ [curList]) record = some record' ∧
      ((∀ (i : ℕ) e, curList[i]? = some e →
        ∃ rows cols, readRecord name (cstr record') = some rows ∧ rows[i]? = some cols ∧
          ReadsBack info e cols) ↔ curList = []) := by
  by_cases hne : curList = []
  · have hheld := (held_concat recordList).trans hne
    exact ⟨record, ModName.recordToStr_eq_self hheld record, iff_of_true (by simp [hne]) hne⟩
  by_cases hplainState : ∀ e ∈ curList, PlainColumn [e.state]
  · obtain ⟨record', hprint, hrows⟩ :=
      readRecord_recordToStr recordList hplain hplainState hne hlen record
    refine ⟨record', hprint, iff_of_false (fun hall => ?_) hne⟩
    obtain ⟨e, es, rfl⟩ := List.exists_cons_of_ne_nil hne
    obtain ⟨rows, cols, hread, hcols, hback⟩ := hall 0 e rfl
    obtain rfl := Option.some.inj (hrows.symm.trans hread)
    obtain rfl := Option.some.inj hcols
    exact not_readsBack_info e hback
  · -- a state that is a delimiter is not read back itself
    have hfits : ModName.proc.Defined (recordList ++ [curList]) := by
      refine ⟨fun e _ => rfl, .inl ?_⟩
      rw [encoding_concat]
      exact hlen
    obtain ⟨rest, hprint⟩ := ModName.recordToStr_text hfits
      (fun h => hne ((held_concat recordList).symm.trans h)) record
    refine ⟨_, hprint, iff_of_false (fun hall => hplainState fun e he => ?_) hne⟩
    obtain ⟨i, hi⟩ := List.getElem?_of_mem he
    obtain ⟨rows, cols, hread, hcols, hback⟩ := hall i e hi
    obtain ⟨hcomma, hnewline⟩ := plainColumn_state hread (List.mem_of_getElem? hcols) hback
    exact ⟨hcomma, hnewline, fun h => hstate e he (List.mem_singleton.mp h).symm⟩

end Printed

def shProc : Proc where
  pid := 41
  state := 'S'
  ppid := 7
  user := "nobody".toList
  group := "users".toList
  virtMemKb := 2048
  resMemKb := 512
  startTime := 500
  cmd := "sh".toList
  cmdPath := "/bin/sh".toList

theorem plainStrings_shProc : shProc.PlainStrings :=
  ⟨⟨by decide, by decide, by decide⟩, ⟨by decide, by decide, by decide⟩,
    ⟨by decide, by decide, by decide⟩, ⟨by decide, by decide, by decide⟩⟩

theorem recordToStr_info_shProc :
    ∃ record', recordToStr [[shProc]] [] = some record' ∧
      ((∀ (i : ℕ) e, [shProc][i]? = some e →
        ∃ rows cols, readRecord name (cstr record') = some rows ∧ rows[i]? = some cols ∧
          ReadsBack info e cols) ↔ [shProc] = []) :=
  recordToStr_info_iff [] (by simpa using plainStrings_shProc) (by decide) (by decide +kernel) []

/-- The group stands where the memory size is announced, and the path of the command is not
printed. -/
theorem recordToStr_group_column :
    (recordToStr [[shProc]] []).map cstr =
      some "proc=41,S,7,nobody,users,2048,512,0.00,500,0.00,sh;\n".toList ∧
    ¬∀ curList : List Proc, (∀ e ∈ curList, e.PlainStrings) →
      (∀ e ∈ curList, e.state ≠ '\x00') → (curList.map row).flatten.length < LEN_1M →
      ∃ record', recordToStr [curList] [] = some record' ∧
        ∀ (i : ℕ) e, curList[i]? = some e →
          ∃ rows cols, readRecord name (cstr record') = some rows ∧ rows[i]? = some cols ∧
            ReadsBack info e cols := by
  have hprint : (recordToStr [[shProc]] []).map cstr =
      some "proc=41,S,7,nobody,users,2048,512,0.00,500,0.00,sh;\n".toList := by decide +kernel
  have hrows : readRecord name "proc=41,S,7,nobody,users,2048,512,0.00,500,0.00,sh;\n".toList =
      some [columns shProc] := by decide +kernel
  refine ⟨hprint, fun hall => ?_⟩
  obtain ⟨record', h, hback⟩ := hall [shProc] (by simpa using plainStrings_shProc) (by decide)
    (by decide +kernel)
  obtain ⟨rows, cols, hread, hcols, hback⟩ := hback 0 shProc rfl
  rw [h, Option.map_some, Option.some.injEq] at hprint
  rw [hprint, hrows, Option.some.injEq] at hread
  obtain rfl := hread
  obtain rfl := Option.some.inj hcols
  exact not_readsBack_info shProc hback

end ModProc

end Zsr
