import Zsr.ProcFaults
import Zsr.CLib.Lines

namespace Zsr
open CLib

def uidLine (s : Text) : Option UInt32 :=
  ((cutLines s).find? fun l => "Uid:".toList <+: l).bind uidOf

section
variable (getpwuid : UInt32 → Option Passwd) (getgrgid : UInt32 → Option Text)

/-- The name of the account in the `Uid:` line, empty without such a line and without such an
account. -/
def accountName (s : Text) : Text :=
  match (uidLine s).bind getpwuid with
  | none => []
  | some pw => cstr pw.name

/-- The call ends, and the entry names the account in the `Uid:` line. -/
def NamesAccount (s : Text) (r : Except Fault Proc) : Prop :=
  ∃ out, r = .ok out ∧ out.user = accountName getpwuid s

theorem user_of_storeNames {pw : Passwd} {group : Option Text} {proc out : Proc}
    (h : storeNames pw group proc = some out) : out.user = cstr pw.name := by
  unfold storeNames at h
  split at h
  · split at h
    · obtain rfl := Option.some.inj h
      rfl
    · split at h
      · obtain rfl := Option.some.inj h
        rfl
      · cases h
  · cases h

theorem namesAccount_iff (s : Text) (proc : Proc) :
    NamesAccount getpwuid s (Checked.readPidStatus (some s) getpwuid getgrgid proc) ↔
      ∃ pw, getpwuid (statusUid s) = some pw ∧ NamesFit pw (getgrgid pw.gid) ∧
        cstr pw.name = accountName getpwuid s := by
  rw [Checked.readPidStatus]
  dsimp only
  rw [statusLines_statusUid]
  cases getpwuid (statusUid s) with
  | none =>
    refine iff_of_false ?_ ?_
    · rintro ⟨out, hout, -⟩
      cases hout
    · rintro ⟨pw, hpw, -⟩
      cases hpw
  | some pw =>
    dsimp only
    have hfit := isSome_storeNames_iff pw (getgrgid pw.gid)
      (statusLines 0 proc (fgetsLines LEN_128 s)).2
    cases hstore : storeNames pw (getgrgid pw.gid)
        (statusLines 0 proc (fgetsLines LEN_128 s)).2 with
    | none =>
      rw [hstore] at hfit
      refine iff_of_false ?_ ?_
      · rintro ⟨out, hout, -⟩
        cases hout
      · rintro ⟨pw', hpw, hnames, -⟩
        obtain rfl := Option.some.inj hpw
        exact absurd (hfit.mpr hnames) (by simp)
    | some out =>
      rw [hstore] at hfit
      have huser := user_of_storeNames hstore
      constructor
      · rintro ⟨out', hout, hname⟩
        obtain rfl : out = out' := Except.ok.inj hout
        exact ⟨pw, rfl, hfit.mp rfl, huser.symm.trans hname⟩
      · rintro ⟨pw', hpw, -, hname⟩
        obtain rfl := Option.some.inj hpw
        exact ⟨out, rfl, huser.trans hname⟩

end

/-- A text of short lines, with one `Uid:` line that stands before any `VmRSS:` line. -/
structure StatusText where
  before : List Text
  uid : UInt32
  /-- What follows the real uid. -/
  tail : Text
  after : List Text
  before_short : ∀ l ∈ before, '\n' ∉ l ∧ '\x00' ∉ l ∧ l.length + 1 < LEN_128
  before_other : ∀ l ∈ before, ¬"Uid:".toList <+: l ∧ ¬"VmRSS:".toList <+: l
  tail_short : '\n' ∉ tail ∧ '\x00' ∉ tail ∧ tail.length < 100
  tail_noDigit : NoDigit tail
  after_short : ∀ l ∈ after, '\n' ∉ l ∧ '\x00' ∉ l ∧ l.length + 1 < LEN_128
  after_other : ∀ l ∈ after, ¬"Uid:".toList <+: l

namespace StatusText

def uidText (t : StatusText) : Text := "Uid:".toList ++ '\t' :: (dec t.uid.toNat ++ t.tail)

def lines (t : StatusText) : List Text := t.before ++ t.uidText :: t.after

def text (t : StatusText) : Text := (t.lines.map (· ++ ['\n'])).flatten

def ended (l : Text) : Text := l ++ ['\n']

theorem not_prefix_ended {p l : Text} (hp : '\n' ∉ p) (h : ¬p <+: l) : ¬p <+: ended l := by
  intro hpl
  rcases List.prefix_concat_iff.mp hpl with rfl | hpl
  · exact hp (by simp)
  · exact h hpl

section
variable (t : StatusText)

theorem uidText_length : t.uidText.length = 5 + (dec t.uid.toNat).length + t.tail.length := by
  have hkey : "Uid:".toList.length = 4 := rfl
  rw [uidText, List.length_append, hkey, List.length_cons, List.length_append]
  omega

theorem not_mem_uidText {c : Char} (hc : c.isDigit = false) (hkey : c ∉ "Uid:".toList)
    (htab : c ≠ '\t') (ht : c ∉ t.tail) : c ∉ t.uidText := by
  intro h
  rcases List.mem_append.mp h with h | h
  · exact hkey h
  · rcases List.mem_cons.mp h with h | h
    · exact htab h
    · rcases List.mem_append.mp h with h | h
      · exact not_mem_dec hc h
      · exact ht h

theorem uidText_short :
    '\n' ∉ t.uidText ∧ '\x00' ∉ t.uidText ∧ t.uidText.length + 1 < LEN_128 := by
  obtain ⟨hnl, hnul, hlen⟩ := t.tail_short
  have hdec := dec_word_length_le t.uid.toUInt64
  rw [UInt32.toNat_toUInt64] at hdec
  refine ⟨t.not_mem_uidText rfl (by decide) (by decide) hnl,
    t.not_mem_uidText rfl (by decide) (by decide) hnul, ?_⟩
  have huid := t.uidText_length
  have h128 : LEN_128 = 128 := rfl
  omega

theorem lines_short : ∀ l ∈ t.lines, '\n' ∉ l ∧ '\x00' ∉ l ∧ l.length + 1 < LEN_128 := by
  intro l hl
  rcases List.mem_append.mp hl with hl | hl
  · exact t.before_short l hl
  · rcases List.mem_cons.mp hl with rfl | hl
    · exact t.uidText_short
    · exact t.after_short l hl

theorem ended_uidText : ended t.uidText =
    "Uid:".toList ++ '\t' :: (dec t.uid.toNat ++ (t.tail ++ ['\n'])) := by
  rw [ended, uidText, List.append_assoc, List.cons_append, List.append_assoc]

theorem uid_prefix : "Uid:".toList <+: ended t.uidText := by
  rw [ended_uidText]
  exact List.prefix_append _ _

theorem uidOf_uidText : uidOf (ended t.uidText) = some t.uid := by
  have hrest : NoDigit (t.tail ++ ['\n']) := by
    intro c hc
    cases htail : t.tail with
    | nil =>
      rw [htail] at hc
      obtain rfl : '\n' = c := Option.some.inj hc
      rfl
    | cons d tail =>
      rw [htail] at hc
      exact t.tail_noDigit c (by rw [htail]; exact hc)
  have hscan := scanLu_dec hrest t.uid.toUInt64
  rw [UInt32.toNat_toUInt64] at hscan
  have hdrop : (ended t.uidText).drop 4 = '\t' :: (dec t.uid.toNat ++ (t.tail ++ ['\n'])) := by
    rw [ended_uidText]
    rfl
  have htab : scanLu ('\t' :: (dec t.uid.toNat ++ (t.tail ++ ['\n']))) =
      scanLu (dec t.uid.toNat ++ (t.tail ++ ['\n'])) := rfl
  rw [uidOf, if_pos t.uid_prefix, hdrop, scanU, htab, hscan]
  simp

theorem uidOf_ended {l : Text} (h : ¬"Uid:".toList <+: l) : uidOf (ended l) = none :=
  if_neg (not_prefix_ended (by decide) h)

theorem filterMap_uidOf {ls : List Text} (h : ∀ l ∈ ls, ¬"Uid:".toList <+: l) :
    (ls.map ended).filterMap uidOf = [] := by
  rw [List.filterMap_map, List.filterMap_eq_nil_iff]
  exact fun l hl => uidOf_ended (h l hl)

theorem beforeRss_append {ls : List Text} (h : ∀ l ∈ ls, ¬"VmRSS:".toList <+: l)
    (bufs : List Text) : beforeRss (ls.map ended ++ bufs) = ls.map ended ++ beforeRss bufs := by
  induction ls with
  | nil => rfl
  | cons l ls ih =>
    obtain ⟨hl, hls⟩ := List.forall_mem_cons.mp h
    rw [List.map_cons, List.cons_append,
      beforeRss_cons_of_not (not_prefix_ended (by decide) hl), ih hls, List.cons_append]

theorem statusUid_text : statusUid t.text = t.uid := by
  have hbufs : fgetsLines LEN_128 t.text = t.lines.map ended := fgetsLines_lines t.lines_short
  have hrss : ¬"VmRSS:".toList <+: ended t.uidText :=
    not_prefix_of_prefix t.uid_prefix (by decide) (by decide)
  -- no line behind it is a `Uid:` line
  have hafter : (beforeRss (t.after.map ended)).filterMap uidOf = [] := by
    rw [List.filterMap_eq_nil_iff]
    intro l hl
    obtain ⟨m, hm, rfl⟩ := List.mem_map.mp ((List.takeWhile_prefix _).subset hl)
    exact uidOf_ended (t.after_other m hm)
  rw [statusUid, hbufs, lines, List.map_append, List.map_cons,
    beforeRss_append fun l hl => (t.before_other l hl).2, beforeRss_cons_of_not hrss,
    List.filterMap_append, filterMap_uidOf fun l hl => (t.before_other l hl).1,
    List.filterMap_cons_some t.uidOf_uidText, hafter]
  rfl

theorem uidLine_text : uidLine t.text = some t.uid := by
  have hcut : cutLines t.text = t.lines.map ended :=
    cutLines_lines fun l hl => (t.lines_short l hl).1
  have hbefore : (t.before.map ended).find? (fun l => "Uid:".toList <+: l) = none := by
    rw [List.find?_eq_none]
    intro l hl
    obtain ⟨m, hm, rfl⟩ := List.mem_map.mp hl
    rw [decide_eq_true_iff]
    exact not_prefix_ended (by decide) (t.before_other m hm).1
  have hfound (ls : List Text) : (ended t.uidText :: ls).find? (fun l => "Uid:".toList <+: l) =
      some (ended t.uidText) :=
    List.find?_cons_of_pos (decide_eq_true t.uid_prefix)
  rw [uidLine, hcut, lines, List.map_append, List.map_cons, List.find?_append, hbefore, hfound]
  exact t.uidOf_uidText

end

end StatusText

/-- The call names the account exactly when the number that the loop ends with has an account
whose names fit and are the ones looked for. In a text of the kernel, this means that the
number in its `Uid:` line has an account whose names fit. -/
theorem readPidStatus_user_iff (getpwuid : UInt32 → Option Passwd)
    (getgrgid : UInt32 → Option Text) (proc : Proc) :
    (∀ s, NamesAccount getpwuid s (Checked.readPidStatus (some s) getpwuid getgrgid proc) ↔
      ∃ pw, getpwuid (statusUid s) = some pw ∧ NamesFit pw (getgrgid pw.gid) ∧
        cstr pw.name = accountName getpwuid s) ∧
    ∀ t : StatusText, NamesAccount getpwuid t.text
        (Checked.readPidStatus (some t.text) getpwuid getgrgid proc) ↔
      ∃ pw, getpwuid t.uid = some pw ∧ NamesFit pw (getgrgid pw.gid) := by
  refine ⟨fun s => namesAccount_iff getpwuid getgrgid s proc, fun t => ?_⟩
  rw [namesAccount_iff, t.statusUid_text, accountName, t.uidLine_text, Option.bind_some]
  constructor
  · rintro ⟨pw, hpw, hfit, -⟩
    exact ⟨pw, hpw, hfit⟩
  · rintro ⟨pw, hpw, hfit⟩
    refine ⟨pw, hpw, hfit, ?_⟩
    rw [hpw]

def rootOnly (uid : UInt32) : Option Passwd :=
  if uid = 0 then some { name := "root".toList, gid := 0 } else none

/-- A process of user 1000 ends the report, and one without a `Uid:` line is root's. -/
theorem readPidStatus_rootOnly :
    Checked.readPidStatus (some "Uid:\t1000\n".toList) rootOnly (fun _ => none) {} =
      .error .null ∧
    Checked.readPidStatus (some "Name:\tsh\n".toList) rootOnly (fun _ => none) {} =
      .ok { user := "root".toList } ∧
    ¬NamesAccount rootOnly "Uid:\t1000\n".toList
      (Checked.readPidStatus (some "Uid:\t1000\n".toList) rootOnly (fun _ => none) {}) ∧
    ¬NamesAccount rootOnly "Name:\tsh\n".toList
      (Checked.readPidStatus (some "Name:\tsh\n".toList) rootOnly (fun _ => none) {}) := by
  have hnull : Checked.readPidStatus (some "Uid:\t1000\n".toList) rootOnly (fun _ => none) {} =
      .error .null := by
    rfl
  have hroot : Checked.readPidStatus (some "Name:\tsh\n".toList) rootOnly (fun _ => none) {} =
      .ok { user := "root".toList } := by
    rfl
  refine ⟨hnull, hroot, ?_, ?_⟩
  · rintro ⟨out, hout, -⟩
    rw [hnull] at hout
    cases hout
  · rintro ⟨out, hout, hname⟩
    rw [hroot] at hout
    obtain rfl := Except.ok.inj hout
    revert hname
    decide

end Zsr
