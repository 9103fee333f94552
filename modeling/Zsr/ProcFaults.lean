import Zsr.ProcStat

namespace Zsr
open CLib

inductive Fault
  | outside
  | null
  deriving DecidableEq

def orOutside : Option Proc → Except Fault Proc
  | some proc => .ok proc
  | none => .error .outside

/-- The two copies at the end of `read_pid_status`, of the names that were found. -/
def storeNames (pw : Passwd) (group : Option Text) (proc : Proc) : Option Proc :=
  if (cstr pw.name).length < LEN_128 then
    match group.map cstr with
    | none => some { proc with user := cstr pw.name }
    | some g =>
      if g.length < LEN_128 then some { proc with user := cstr pw.name, group := g } else none
  else none

namespace Checked

/-- `read_pid_stat`. A line without a token is scanned through a null pointer. -/
def readPidStat (stat : Option Text) (proc : Proc) : Except Fault Proc :=
  match stat.bind (fgets LEN_512) with
  | none => .ok proc
  | some (buf, _) =>
    match tokens ' ' (cstr buf) with
    | [] => .error .null
    | cols => orOutside (statColumns 0 0 0 proc cols)

def readPidExe (exe : Option Text) (proc : Proc) : Except Fault Proc :=
  orOutside (Zsr.readPidExe exe proc)

/-- `read_pid_status`. Without a passwd entry its gid is read through a null pointer. -/
def readPidStatus (status : Option Text) (getpwuid : UInt32 → Option Passwd)
    (getgrgid : UInt32 → Option Text) (proc : Proc) : Except Fault Proc :=
  match status with
  | none => .ok proc
  | some s =>
    let (uid, proc) := statusLines 0 proc (fgetsLines LEN_128 s)
    match getpwuid uid with
    | none => .error .null
    | some pw => orOutside (storeNames pw (getgrgid pw.gid) proc)

end Checked

theorem orOutside_toOption (r : Option Proc) : (orOutside r).toOption = r := by
  cases r <;> rfl

theorem readPidStat_toOption (stat : Option Text) (proc : Proc) :
    (Checked.readPidStat stat proc).toOption = readPidStat stat proc := by
  unfold Checked.readPidStat readPidStat
  cases stat.bind (fgets LEN_512) with
  | none => rfl
  | some r =>
    dsimp only
    cases tokens ' ' (cstr r.1) with
    | nil => rfl
    | cons col cols => exact orOutside_toOption _

theorem readPidExe_toOption (exe : Option Text) (proc : Proc) :
    (Checked.readPidExe exe proc).toOption = readPidExe exe proc :=
  orOutside_toOption _

theorem readPidStatus_toOption (status : Option Text) (getpwuid : UInt32 → Option Passwd)
    (getgrgid : UInt32 → Option Text) (proc : Proc) :
    (Checked.readPidStatus status getpwuid getgrgid proc).toOption =
      readPidStatus status getpwuid getgrgid proc := by
  unfold Checked.readPidStatus readPidStatus
  cases status with
  | none => rfl
  | some s =>
    dsimp only
    cases getpwuid (statusLines 0 proc (fgetsLines LEN_128 s)).1 with
    | none => rfl
    | some pw => exact orOutside_toOption _

def Inside (r : Except Fault Proc) : Prop := r ≠ .error .outside

theorem inside_ok (proc : Proc) : Inside (.ok proc) := by simp [Inside]

theorem inside_null : Inside (.error .null) := by simp [Inside]

theorem inside_orOutside_iff {r : Option Proc} : Inside (orOutside r) ↔ r.isSome := by
  cases r <;> simp [Inside, orOutside]

/-- The command name, from the parenthesis on, ends within its array. -/
def CommandFits (stat : Option Text) : Prop :=
  ∀ s ∈ stat, ∀ w, (tokens ' ' (cstr (takeLine (LEN_512 - 1) s).1))[1]? = some ('(' :: w) →
    (w.takeWhile (· ≠ ')')).length < LEN_256

/-- The target leaves room for the terminator behind it. -/
def ExeFits (exe : Option Text) : Prop := ∀ target ∈ exe, target.length < LEN_1024

def uidOf (buf : Text) : Option UInt32 :=
  if "Uid:".toList <+: buf then (scanU (buf.drop 4)).map Prod.fst else none

def beforeRss (bufs : List Text) : List Text :=
  bufs.takeWhile fun buf => !decide ("VmRSS:".toList <+: buf)

/-- The number of the last `Uid:` line that stands before the first `VmRSS:` line, among the
pieces that `fgets` reads; without one it is the number of root. -/
def statusUid (s : Text) : UInt32 :=
  ((beforeRss (fgetsLines LEN_128 s)).filterMap uidOf).getLastD 0

/-- The names that are looked up leave room for a terminator. -/
def NamesFit (pw : Passwd) (group : Option Text) : Prop :=
  (cstr pw.name).length < LEN_128 ∧ ∀ g ∈ group, (cstr g).length < LEN_128

theorem isSome_storeCmd_iff (proc : Proc) (col : Text) :
    (storeCmd proc col).isSome ↔
      ∀ w, col = '(' :: w → (w.takeWhile (· ≠ ')')).length < LEN_256 := by
  cases col with
  | nil => exact iff_of_true rfl fun w hw => nomatch hw
  | cons c w =>
    by_cases hc : c = '('
    · subst hc
      have hlit : scanLit '(' ('(' :: w) = some ((), w) := rfl
      have hall : (∀ w', '(' :: w = '(' :: w' → (w'.takeWhile (· ≠ ')')).length < LEN_256) ↔
          (w.takeWhile (· ≠ ')')).length < LEN_256 :=
        ⟨fun h => h w rfl, fun h w' hw => (List.cons.inj hw).2 ▸ h⟩
      rw [hall, storeCmd, hlit, Option.bind_some, scanUntil]
      dsimp only
      generalize w.takeWhile (· ≠ ')') = v
      by_cases he : v = []
      · rw [if_pos he, he]
        exact iff_of_true rfl (by decide)
      · rw [if_neg he]
        by_cases hlen : v.length < LEN_256
        · simp [hlen]
        · simp [hlen]
    · have hlit : scanLit '(' (c :: w) = none := if_neg hc
      rw [storeCmd, hlit]
      exact iff_of_true rfl fun w' hw => absurd (List.cons.inj hw).1 hc

theorem isSome_storeNames_iff (pw : Passwd) (group : Option Text) (proc : Proc) :
    (storeNames pw group proc).isSome ↔ NamesFit pw group := by
  unfold storeNames NamesFit
  by_cases huser : (cstr pw.name).length < LEN_128
  · rw [if_pos huser, and_iff_right huser]
    cases group with
    | none => exact iff_of_true rfl fun g hg => nomatch hg
    | some g =>
      by_cases hgroup : (cstr g).length < LEN_128
      · simp [hgroup]
      · simp [hgroup]
  · rw [if_neg huser]
    exact iff_of_false (by simp) fun h => huser h.1

theorem inside_readPidStat_iff (stat : Option Text) (proc : Proc) :
    Inside (Checked.readPidStat stat proc) ↔ CommandFits stat := by
  cases stat with
  | none => exact iff_of_true (inside_ok proc) fun s hs => absurd hs (Option.not_mem_none s)
  | some s =>
    have hall : CommandFits (some s) ↔
        ∀ w, (tokens ' ' (cstr (takeLine (LEN_512 - 1) s).1))[1]? = some ('(' :: w) →
          (w.takeWhile (· ≠ ')')).length < LEN_256 :=
      ⟨fun h => h s rfl, fun h s' hs => (Option.some.inj hs) ▸ h⟩
    rw [hall, Checked.readPidStat, Option.bind_some, fgets]
    by_cases hs : s = []
    · subst hs
      exact iff_of_true (inside_ok proc) fun w hw => by cases hw
    · simp only [if_neg hs]
      cases tokens ' ' (cstr (takeLine (LEN_512 - 1) s).1) with
      | nil => exact iff_of_true inside_null fun w hw => by cases hw
      | cons pid cols =>
        dsimp only
        rw [inside_orOutside_iff, statColumns_pid]
        cases cols with
        | nil => exact iff_of_true rfl fun w hw => by cases hw
        | cons col cols =>
          -- only the second column is stored in an array
          rw [statColumns_cmd, List.getElem?_cons_succ, List.getElem?_cons_zero]
          simp only [Option.some.injEq]
          rw [← isSome_storeCmd_iff { proc with pid := storeLu proc.pid pid }]
          cases storeCmd { proc with pid := storeLu proc.pid pid } col with
          | none => exact Iff.rfl
          | some proc' =>
            obtain ⟨out, hout, -⟩ := statColumns_frame (le_refl 2) 0 0 proc' cols
            rw [Option.bind_some, hout]
            exact Iff.rfl

theorem inside_readPidExe_iff (exe : Option Text) (proc : Proc) :
    Inside (Checked.readPidExe exe proc) ↔ ExeFits exe := by
  rw [Checked.readPidExe, inside_orOutside_iff]
  cases exe with
  | none => exact iff_of_true rfl fun target htarget => nomatch htarget
  | some target =>
    have hall : ExeFits (some target) ↔ target.length < LEN_1024 :=
      ⟨fun h => h target rfl, fun h t ht => (Option.some.inj ht) ▸ h⟩
    rw [hall, readPidExe]
    by_cases hlen : target.length < LEN_1024
    · simp [hlen]
    · simp [hlen]

theorem not_prefix_of_prefix {a b buf : Text} (ha : a <+: buf) (hlen : a.length ≤ b.length)
    (hab : ¬a <+: b) : ¬b <+: buf :=
  fun hb => hab (List.prefix_of_prefix_length_le ha hb hlen)

section
variable {buf : Text} {bufs : List Text}

theorem beforeRss_cons_of_not (h : ¬"VmRSS:".toList <+: buf) :
    beforeRss (buf :: bufs) = buf :: beforeRss bufs := by
  apply List.takeWhile_cons_of_pos
  rw [decide_eq_false h]
  rfl

theorem beforeRss_cons_of (h : "VmRSS:".toList <+: buf) : beforeRss (buf :: bufs) = [] := by
  apply List.takeWhile_cons_of_neg
  rw [decide_eq_true h]
  exact Bool.false_ne_true

end

theorem statusLines_uid (uid : UInt32) (proc : Proc) (bufs : List Text) :
    (statusLines uid proc bufs).1 = ((beforeRss bufs).filterMap uidOf).getLastD uid := by
  induction bufs generalizing uid proc with
  | nil => rfl
  | cons buf bufs ih =>
    rw [statusLines]
    split
    · next huid =>
      have hrss : ¬"VmRSS:".toList <+: buf := not_prefix_of_prefix huid (by decide) (by decide)
      have hof : uidOf buf = (scanU (buf.drop 4)).map Prod.fst := if_pos huid
      rw [ih, beforeRss_cons_of_not hrss]
      cases h : (scanU (buf.drop 4)).map Prod.fst with
      | none =>
        rw [List.filterMap_cons_none (hof.trans h)]
        rfl
      | some v =>
        rw [List.filterMap_cons_some (hof.trans h), List.getLastD_cons]
        rfl
    · next huid =>
      have hof : uidOf buf = none := if_neg huid
      split
      · next hsize =>
        have hrss : ¬"VmRSS:".toList <+: buf := by
          intro h
          exact absurd (List.prefix_of_prefix_length_le h hsize (by decide)) (by decide)
        rw [ih, beforeRss_cons_of_not hrss, List.filterMap_cons_none hof]
      · split
        · next hrss =>
          rw [beforeRss_cons_of hrss]
          rfl
        · next hrss => rw [ih, beforeRss_cons_of_not hrss, List.filterMap_cons_none hof]

theorem statusLines_statusUid (s : Text) (proc : Proc) :
    (statusLines 0 proc (fgetsLines LEN_128 s)).1 = statusUid s :=
  statusLines_uid 0 proc _

theorem inside_readPidStatus_iff (status : Option Text) (getpwuid : UInt32 → Option Passwd)
    (getgrgid : UInt32 → Option Text) (proc : Proc) :
    Inside (Checked.readPidStatus status getpwuid getgrgid proc) ↔
      ∀ s ∈ status, ∀ pw ∈ getpwuid (statusUid s), NamesFit pw (getgrgid pw.gid) := by
  cases status with
  | none => exact iff_of_true (inside_ok proc) fun s hs => nomatch hs
  | some s =>
    have hall : (∀ s' ∈ some s, ∀ pw ∈ getpwuid (statusUid s'), NamesFit pw (getgrgid pw.gid)) ↔
        ∀ pw ∈ getpwuid (statusUid s), NamesFit pw (getgrgid pw.gid) :=
      ⟨fun h => h s rfl, fun h s' hs => (Option.some.inj hs) ▸ h⟩
    rw [hall, Checked.readPidStatus]
    dsimp only
    rw [statusLines_statusUid]
    cases getpwuid (statusUid s) with
    | none => exact iff_of_true inside_null fun pw hpw => nomatch hpw
    | some pw =>
      dsimp only
      rw [inside_orOutside_iff, isSome_storeNames_iff]
      exact ⟨fun h pw' hpw => (Option.some.inj hpw) ▸ h, fun h => h pw rfl⟩

/-- Every store of the three readers stays inside its array exactly when what it stores, with
the terminator, is no longer than that. -/
theorem readPid_inside_iff (stat exe status : Option Text) (getpwuid : UInt32 → Option Passwd)
    (getgrgid : UInt32 → Option Text) (proc : Proc) :
    (Inside (Checked.readPidStat stat proc) ∧ Inside (Checked.readPidExe exe proc) ∧
      Inside (Checked.readPidStatus status getpwuid getgrgid proc)) ↔
    CommandFits stat ∧ ExeFits exe ∧
      ∀ s ∈ status, ∀ pw ∈ getpwuid (statusUid s), NamesFit pw (getgrgid pw.gid) := by
  rw [inside_readPidStat_iff, inside_readPidExe_iff, inside_readPidStatus_iff]

/-- A target of 1024 characters, as long as the array. -/
theorem readPidExe_full :
    Checked.readPidExe (some (List.replicate 1024 'p')) {} = .error .outside ∧
    ¬Inside (Checked.readPidExe (some (List.replicate 1024 'p')) {}) := by
  have hnone : readPidExe (some (List.replicate 1024 'p')) {} = none := by
    rw [readPidExe, if_neg (by rw [List.length_replicate]; decide)]
  have hout : Checked.readPidExe (some (List.replicate 1024 'p')) {} = .error .outside := by
    rw [Checked.readPidExe, hnone]
    rfl
  exact ⟨hout, fun h => h hout⟩

end Zsr
