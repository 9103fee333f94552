import Zsr.CLib.Buffer
import Zsr.ProcCpu
import Zsr.ProcStat

namespace Zsr
open CLib

namespace ModProc

def collectRecord (env : ProcEnv) (recordList : List (List Proc)) : Option (List (List Proc)) := do
  let curList ← getAllProc env
  let curList ← match recordList.getLast? with
    | none => some curList
    | some prevList => computeProcCpuStat curList prevList
  some (recordList ++ [curList])

def name : Text := "proc".toList

def row (e : Proc) : Text :=
  name ++ '=' :: dec e.pid.toNat ++ ',' :: e.state :: ',' :: dec e.ppid.toNat ++
    ',' :: e.user ++ ',' :: e.group ++ ',' :: dec e.virtMemKb.toNat ++
    ',' :: dec e.resMemKb.toNat ++ ',' :: e.memUtil.format2 ++ ',' :: dec e.startTime.toNat ++
    ',' :: e.cpuUtil.format2 ++ ',' :: e.cmd ++ ";\n".toList

def recordToStr (recordList : List (List Proc)) (record : Text) : Option Text :=
  match recordList.getLast? with
  | none => some record
  | some curList => printRows (sprintfAt LEN_1M) (curList.map row) record 0

end ModProc

/-- The arrays of a node hold strings. -/
structure Proc.Strings (e : Proc) : Prop where
  user : '\x00' ∉ e.user
  group : '\x00' ∉ e.group
  cmd : '\x00' ∉ e.cmd

theorem Proc.strings_zeroed : ({} : Proc).Strings :=
  ⟨List.not_mem_nil, List.not_mem_nil, List.not_mem_nil⟩

theorem storeCmd_strings {proc out : Proc} {col : Text} (hcol : '\x00' ∉ col)
    (h : storeCmd proc col = some out) (hp : proc.Strings) : out.Strings := by
  -- the name is a piece of the column
  have hsub : ∀ r w u, scanLit '(' col = some ((), r) → scanUntil ')' r = some (w, u) →
      w ⊆ col := by
    intro r w u hr hw
    cases col with
    | nil => cases hr
    | cons c col =>
      simp only [scanLit, Option.ite_none_right_eq_some, Option.some.injEq, Prod.mk.injEq,
        true_and] at hr
      obtain ⟨-, rfl⟩ := hr
      simp only [scanUntil, Option.ite_none_left_eq_some, Option.some.injEq, Prod.mk.injEq] at hw
      obtain ⟨-, rfl, -⟩ := hw
      exact fun c hc => List.mem_cons_of_mem _ ((List.takeWhile_prefix _).subset hc)
  rw [storeCmd] at h
  split at h
  · obtain rfl := Option.some.inj h
    exact hp
  · rename_i w u hw
    obtain ⟨⟨⟨⟩, r⟩, hr, hw⟩ := Option.bind_eq_some_iff.mp hw
    split at h
    · obtain rfl := Option.some.inj h
      exact ⟨hp.user, hp.group, fun hc => hcol (hsub r w u hr hw hc)⟩
    · cases h

theorem statColumns_strings {i : ℕ} {utime stime : UInt64} {proc out : Proc} {cols : List Text}
    (hcols : ∀ col ∈ cols, '\x00' ∉ col) (h : statColumns i utime stime proc cols = some out)
    (hp : proc.Strings) : out.Strings := by
  induction cols generalizing i utime stime proc with
  | nil =>
    obtain rfl := Option.some.inj h
    exact ⟨hp.user, hp.group, hp.cmd⟩
  | cons col cols ih =>
    have hcols' : ∀ col ∈ cols, '\x00' ∉ col := fun c hc => hcols c (List.mem_cons_of_mem _ hc)
    unfold statColumns at h
    split at h
    · exact ih hcols' h ⟨hp.user, hp.group, hp.cmd⟩
    · obtain ⟨proc', hcmd, h⟩ := Option.bind_eq_some_iff.mp h
      exact ih hcols' h (storeCmd_strings (hcols col List.mem_cons_self) hcmd hp)
    · exact ih hcols' h ⟨hp.user, hp.group, hp.cmd⟩
    · exact ih hcols' h ⟨hp.user, hp.group, hp.cmd⟩
    · exact ih hcols' h hp
    · exact ih hcols' h hp
    · obtain rfl := Option.some.inj h
      exact ⟨hp.user, hp.group, hp.cmd⟩
    · exact ih hcols' h hp

theorem readPidStat_strings {stat : Option Text} {proc out : Proc}
    (h : readPidStat stat proc = some out) (hp : proc.Strings) : out.Strings := by
  rw [readPidStat] at h
  split at h
  · obtain rfl := Option.some.inj h
    exact hp
  · split at h
    · cases h
    · rename_i buf _ _ _ _
      refine statColumns_strings (fun col hcol hc => ?_) h hp
      exact nul_not_mem_cstr buf (subset_of_mem_tokens hcol hc)

/-- What the other files of a process can change: not the pid and not the state. -/
structure Proc.Follows (e p : Proc) : Prop where
  pid : e.pid = p.pid
  state : e.state = p.state
  strings : p.Strings → e.Strings

theorem Proc.Follows.trans {e p q : Proc} (h : e.Follows p) (h' : p.Follows q) : e.Follows q :=
  ⟨h.pid.trans h'.pid, h.state.trans h'.state, fun hq => h.strings (h'.strings hq)⟩

theorem readPidExe_follows {exe : Option Text} {proc out : Proc}
    (h : readPidExe exe proc = some out) : out.Follows proc := by
  unfold readPidExe at h
  split at h
  · obtain rfl := Option.some.inj h
    exact ⟨rfl, rfl, id⟩
  · split at h
    · obtain rfl := Option.some.inj h
      exact ⟨rfl, rfl, fun hp => ⟨hp.user, hp.group, hp.cmd⟩⟩
    · cases h

theorem statusLines_follows (uid : UInt32) (proc : Proc) (bufs : List Text) :
    (statusLines uid proc bufs).2.Follows proc := by
  induction bufs generalizing uid proc with
  | nil => exact ⟨rfl, rfl, id⟩
  | cons buf bufs ih =>
    rw [statusLines]
    split
    · exact ih _ proc
    · split
      · exact (ih uid _).trans ⟨rfl, rfl, fun hp => ⟨hp.user, hp.group, hp.cmd⟩⟩
      · split
        · exact ⟨rfl, rfl, fun hp => ⟨hp.user, hp.group, hp.cmd⟩⟩
        · exact ih uid proc

theorem readPidStatus_follows {status : Option Text} {getpwuid : UInt32 → Option Passwd}
    {getgrgid : UInt32 → Option Text} {proc out : Proc}
    (h : readPidStatus status getpwuid getgrgid proc = some out) : out.Follows proc := by
  unfold readPidStatus at h
  split at h
  · obtain rfl := Option.some.inj h
    exact ⟨rfl, rfl, id⟩
  · rename_i s
    have hlines := statusLines_follows 0 proc (fgetsLines LEN_128 s)
    refine Proc.Follows.trans ?_ hlines
    dsimp only at h
    split at h
    · cases h
    · rename_i pw _
      split at h
      · split at h
        · obtain rfl := Option.some.inj h
          exact ⟨rfl, rfl, fun hp => ⟨nul_not_mem_cstr _, hp.group, hp.cmd⟩⟩
        · rename_i group hg
          obtain ⟨g, -, rfl⟩ := Option.map_eq_some_iff.mp hg
          split at h
          · obtain rfl := Option.some.inj h
            exact ⟨rfl, rfl, fun hp => ⟨nul_not_mem_cstr _, nul_not_mem_cstr g, hp.cmd⟩⟩
          · cases h
      · cases h

theorem storeSinglePidInfo_follows {env : ProcEnv} {d : ProcDir} {proc out : Proc}
    (h : storeSinglePidInfo env d proc = some out) :
    ∃ p, readPidStat d.stat proc = some p ∧ out.Follows p := by
  simp only [storeSinglePidInfo, Option.bind_eq_bind, Option.bind_eq_some_iff,
    Option.some.injEq] at h
  obtain ⟨p, hp, e, he, s, hs, rfl⟩ := h
  refine ⟨p, hp, Proc.Follows.trans ?_ ((readPidStatus_follows hs).trans (readPidExe_follows he))⟩
  unfold setPidMemUntil
  split <;> exact ⟨rfl, rfl, fun hp => ⟨hp.user, hp.group, hp.cmd⟩⟩

/-- The stat file cannot be opened, or nothing is read from it. -/
def ProcDir.vanished (d : ProcDir) : Bool := d.stat == none || d.stat == some []

/-- The stat file has a line in the format of the kernel. -/
def ProcDir.HasLine (d : ProcDir) : Prop :=
  ∃ (l : StatLine) (rest : Text), d.stat = some (l.line ++ rest) ∧
    ∀ c ∈ rest.head?, c = ' ' ∨ c = '\n'

/-- What is known of the node for `d`. -/
structure ProcDir.NodeOf (d : ProcDir) (e : Proc) : Prop where
  strings : e.Strings
  gone : d.vanished = true → e.pid = 0 ∧ e.state = '\x00'
  read : d.vanished = false → e.state ≠ '\x00'

theorem readPidStat_vanished {d : ProcDir} (h : d.vanished = true) (proc : Proc) :
    readPidStat d.stat proc = some proc := by
  rw [ProcDir.vanished, Bool.or_eq_true, beq_iff_eq, beq_iff_eq] at h
  obtain h | h := h <;> rw [h] <;> rfl

theorem storeSinglePidInfo_nodeOf {env : ProcEnv} {d : ProcDir} {e : Proc}
    (hd : d.vanished = true ∨ d.HasLine) (h : storeSinglePidInfo env d {} = some e) :
    d.NodeOf e := by
  obtain ⟨p, hp, he⟩ := storeSinglePidInfo_follows h
  refine ⟨he.strings (readPidStat_strings hp Proc.strings_zeroed), fun hv => ?_, fun hv => ?_⟩
  · rw [readPidStat_vanished hv] at hp
    obtain rfl := Option.some.inj hp
    exact ⟨he.pid, he.state⟩
  · obtain ⟨l, rest, hstat, hrest⟩ := hd.resolve_left (by simp [hv])
    obtain ⟨q, hq, -, hstate⟩ := readPidStat_state l rest hrest
    rw [hstat, hq] at hp
    obtain rfl := Option.some.inj hp
    exact he.state ▸ hstate

theorem computeProcCpuStat_forall₂ {δ : Type} {R : δ → Proc → Prop}
    (hR : ∀ d e u, R d e → R d { e with cpuUtil := u }) {ds : List δ}
    {curList prevList out : List Proc} (h : computeProcCpuStat curList prevList = some out)
    (hl : List.Forall₂ R ds curList) : List.Forall₂ R ds out := by
  -- the function is a fold of single percentages over the current list
  rw [computeProcCpuStat_eq] at h
  obtain ⟨slots, -, rfl⟩ := Option.map_eq_some_iff.mp h
  exact foldl_setUtil_forall₂ (fun s _ d e _ he => hR d e (s.util id) he) hl

theorem ModProc.collectRecord_nodes {env : ProcEnv} {dirs : List ProcDir}
    {recordList : List (List Proc)} {nodes : List Proc} (hdirs : env.dirs = some dirs)
    (hstat : ∀ d ∈ dirs.filter ProcDir.isProc, d.vanished = true ∨ d.HasLine)
    (h : ModProc.collectRecord env recordList = some (recordList ++ [nodes])) :
    List.Forall₂ ProcDir.NodeOf (dirs.filter ProcDir.isProc) nodes := by
  rw [ModProc.collectRecord, Option.bind_eq_bind, Option.bind_eq_some_iff] at h
  obtain ⟨curList, hcur, h⟩ := h
  have hcurNodes : List.Forall₂ ProcDir.NodeOf (dirs.filter ProcDir.isProc) curList := by
    rw [getAllProc, hdirs] at hcur
    have hread := List.forall₂_iff_zip.mp (forall₂_of_mapM hcur)
    refine List.forall₂_iff_zip.mpr ⟨hread.1, fun {d e} hde => ?_⟩
    exact storeSinglePidInfo_nodeOf (hstat d (List.of_mem_zip hde).1) (hread.2 hde)
  cases hlast : recordList.getLast? with
  | none =>
    simp only [hlast, Option.bind_some, Option.some.injEq,
      List.append_cancel_left_eq, List.cons.injEq, and_true] at h
    exact h ▸ hcurNodes
  | some prevList =>
    simp only [hlast, Option.bind_eq_some_iff, Option.some.injEq,
      List.append_cancel_left_eq, List.cons.injEq, and_true] at h
    obtain ⟨out, hout, rfl⟩ := h
    exact computeProcCpuStat_forall₂ (fun d e u he => ⟨⟨he.strings.1, he.strings.2, he.strings.3⟩,
      he.gone, he.read⟩) hout hcurNodes

theorem nul_not_mem_dec (n : ℕ) : '\x00' ∉ dec n := not_mem_dec rfl

/-- What is left of a row that a zeroed state ends. -/
def brokenRow : Text := ModProc.name ++ '=' :: dec 0 ++ [',']

theorem nul_not_mem_name : '\x00' ∉ ModProc.name := by decide

theorem nul_not_mem_brokenRow : '\x00' ∉ brokenRow := by decide

theorem nul_not_mem_row {e : Proc} (hs : e.Strings) (hstate : e.state ≠ '\x00') :
    '\x00' ∉ ModProc.row e := by
  have hend : '\x00' ∉ ";\n".toList := by decide
  simp only [ModProc.row, List.mem_append, List.mem_cons, not_or]
  simp [hs.user, hs.group, hs.cmd, hstate.symm, nul_not_mem_dec,
    Double.nul_not_mem_format2, nul_not_mem_name]

theorem row_of_read {d : ProcDir} {e : Proc} (he : d.NodeOf e) (hd : d.vanished = false) :
    '\x00' ∉ ModProc.row e ∧ brokenRow.length < (ModProc.row e).length := by
  constructor
  · exact nul_not_mem_row he.strings (he.read hd)
  · have h0 : (dec 0).length = 1 := by decide
    simp only [brokenRow, ModProc.row, List.length_append, List.length_cons, List.length_nil, h0]
    omega

theorem row_of_vanished {d : ProcDir} {e : Proc} (he : d.NodeOf e) (hd : d.vanished = true) :
    ∃ u, ModProc.row e = brokenRow ++ '\x00' :: u := by
  obtain ⟨hpid, hstate⟩ := he.gone hd
  refine ⟨',' :: dec e.ppid.toNat ++
    ',' :: e.user ++ ',' :: e.group ++ ',' :: dec e.virtMemKb.toNat ++
    ',' :: dec e.resMemKb.toNat ++ ',' :: e.memUtil.format2 ++ ',' :: dec e.startTime.toNat ++
    ',' :: e.cpuUtil.format2 ++ ',' :: e.cmd ++ ";\n".toList, ?_⟩
  rw [ModProc.row, hpid, hstate, brokenRow]
  simp only [List.append_assoc, List.cons_append, List.nil_append, UInt64.toNat_zero]

/-- The rows of the processes whose stat file was read. -/
def readRows (dirs : List ProcDir) (nodes : List Proc) : List Text :=
  (((dirs.filter ProcDir.isProc).zip nodes).filter (!·.1.vanished)).map (ModProc.row ·.2)

/-- The rows as they are printed, with the mark of those that the zeroed state breaks off. -/
def markedRows (dirs : List ProcDir) (nodes : List Proc) : List (Bool × Text) :=
  ((dirs.filter ProcDir.isProc).zip nodes).map fun x => (x.1.vanished, ModProc.row x.2)

section Marked

variable {dirs : List ProcDir} {nodes : List Proc}
  (hnodes : List.Forall₂ ProcDir.NodeOf (dirs.filter ProcDir.isProc) nodes)

include hnodes

theorem markedRows_fst : (markedRows dirs nodes).map (·.1) =
    (dirs.filter ProcDir.isProc).map ProcDir.vanished := by
  have hzip := List.map_fst_zip hnodes.length_eq.le
  calc (markedRows dirs nodes).map (·.1)
      = (((dirs.filter ProcDir.isProc).zip nodes).map Prod.fst).map ProcDir.vanished := by
        rw [markedRows, List.map_map, List.map_map]
        rfl
    _ = (dirs.filter ProcDir.isProc).map ProcDir.vanished := by rw [hzip]

theorem markedRows_snd : (markedRows dirs nodes).map (·.2) = nodes.map ModProc.row := by
  have hzip := List.map_snd_zip hnodes.length_eq.ge
  calc (markedRows dirs nodes).map (·.2)
      = (((dirs.filter ProcDir.isProc).zip nodes).map Prod.snd).map ModProc.row := by
        rw [markedRows, List.map_map, List.map_map]
        rfl
    _ = nodes.map ModProc.row := by rw [hzip]

theorem markedRows_pairwise : (markedRows dirs nodes).Pairwise (fun x y => x.1 → y.1) ↔
    (dirs.filter ProcDir.isProc).Pairwise fun d e => d.vanished → e.vanished := by
  rw [← List.pairwise_map (f := ProcDir.vanished) (R := fun a b => a = true → b = true),
    ← markedRows_fst hnodes, List.pairwise_map]

theorem markedRows_whole : ∀ x ∈ markedRows dirs nodes, x.1 = false →
    '\x00' ∉ x.2 ∧ brokenRow.length < x.2.length := by
  intro x hx h
  obtain ⟨⟨d, e⟩, hde, rfl⟩ := List.mem_map.mp hx
  exact row_of_read ((List.forall₂_iff_zip.mp hnodes).2 hde) h

theorem markedRows_broken : ∀ x ∈ markedRows dirs nodes, x.1 = true →
    ∃ u, x.2 = brokenRow ++ '\x00' :: u := by
  intro x hx h
  obtain ⟨⟨d, e⟩, hde, rfl⟩ := List.mem_map.mp hx
  exact row_of_vanished ((List.forall₂_iff_zip.mp hnodes).2 hde) h

end Marked

theorem readRows_eq (dirs : List ProcDir) (nodes : List Proc) :
    readRows dirs nodes = ((markedRows dirs nodes).filter (!·.1)).map (·.2) := by
  rw [readRows, markedRows, List.filter_map, List.map_map]
  rfl

/-- An entry of `/proc` of which only the stat file may be there. -/
def procDir (name : Text) (stat : Option Text) : ProcDir where
  name := name
  isDir := true
  stat := stat
  exe := none
  status := none
  procStat := none
  totalram := none

def procEnv (dirs : List ProcDir) : ProcEnv := ⟨some dirs, fun _ => none, fun _ => none⟩

def liveDir : ProcDir := procDir "41".toList (some (plainLine.line ++ "\n".toList))

def goneDir : ProcDir := procDir "40".toList none

def liveProc : Proc :=
  { pid := 41, state := 'S', ppid := 7, startTime := 500, cpuTime := 42, cmd := "sh(1".toList }

end Zsr
