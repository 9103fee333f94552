import Zsr.CLib.Columns
import Zsr.ModuleRun
import Zsr.RecordColumns
import Zsr.Registry

namespace Zsr
open CLib

namespace ModName

def ipVerDatum : IpVersion → Datum
  | .IPv4 => .ld 0
  | .IPv6 => .ld 1

def columns : (m : ModName) → m.Entry → List Datum
  | cpu => fun e => [.f2 e.idle, .f2 e.util, .f2 e.wa]
  | dns => fun e => [.text (cstr e.addr)]
  | fs => fun e =>
    [.text (cstr e.mntFsname), .text (cstr e.mntDir), .text (cstr e.mntType), .lu e.total,
      .lu e.used, .lu e.available, .f2 e.util, .lu e.inodes, .lu e.iused, .lu e.ifree,
      .f2 e.iutil]
  | gateway => fun e => [.text (cstr e.addr)]
  | io => fun e =>
    [.text e.dev, .f2 e.tps, .f2 (e.util / .fin 10), .f2 e.rrqmPerSec, .f2 e.wrqmPerSec,
      .f2 e.rPerSec, .f2 e.wPerSec, .f2 e.rSpeedPerSec, .f2 e.wSpeedPerSec, .f2 e.avgrqSz,
      .f2 e.avgquSz, .f2 e.await, .f2 e.rAwait, .f2 e.wAwait]
  | ip => fun e =>
    [.text (cstr e.dev), .text (cstr e.ipAddr), .text (cstr e.netmask), ipVerDatum e.ipVer]
  | loadAvg => fun e => [.f2 e.oneMin, .f2 e.fiveMin, .f2 e.fifteenMin]
  | mem => fun e => [.lu e.totalKb, .lu e.usedKb, .lu e.freeKb]
  | network => fun e =>
    [.text (cstr e.dev), .lu e.txPacket, .lu e.rxPacket, .lu e.txByte, .lu e.rxByte]
  | proc => fun e =>
    [.lu e.pid, .text [e.state], .lu e.ppid, .text e.user, .text e.group, .lu e.virtMemKb,
      .lu e.resMemKb, .f2 e.memUtil, .lu e.startTime, .f2 e.cpuUtil, .text e.cmd]
  | swap => fun e => [.lu e.totalKb, .lu e.usedKb, .lu e.freeKb]
  | time => fun e => [.lu e.timeInSec.toUInt64]
  | uptime => fun e =>
    [.lu e.totalSec, .lu e.year, .lu e.month, .lu e.day, .lu e.hour, .lu e.minute]
  | who => fun e =>
    [.text (cstr e.user), .text (cstr e.tty), .text (cstr e.from_), .ld e.loginTime]

theorem columns_ne_nil (m : ModName) (e : m.Entry) : m.columns e ≠ [] := by
  cases m <;> exact List.cons_ne_nil _ _

def rowStart : ModName → Text
  | cpu => "cpu=".toList
  | dns => "dns=".toList
  | fs => "fs=".toList
  | gateway => "gateway=".toList
  | io => "io=".toList
  | ip => "ip=".toList
  | loadAvg => "load_avg=".toList
  | mem => "mem=".toList
  | network => "network=".toList
  | proc => "proc=".toList
  | swap => "swap=".toList
  | time => "time=".toList
  | uptime => "uptime=".toList
  | who => "who=".toList

theorem rowStart_eq (m : ModName) : m.rowStart = m.name ++ ['='] := by cases m <;> decide

theorem row_eq {m : ModName} {e : m.Entry} {t : Text} (h : m.row e = some t) :
    t = Datum.row m.name (m.columns e) := by
  rw [← Datum.format_eq m.rowStart_eq]
  cases m with
  | cpu | io | loadAvg | mem | swap | time | uptime => exact (Option.some.inj h).symm
  | proc =>
    obtain rfl := Option.some.inj h
    rw [Datum.format_eq proc.rowStart_eq]
    exact ModProc.row_eq e
  | dns | gateway | network =>
    obtain ⟨w, hw, h⟩ := Option.bind_eq_some_iff.mp h
    obtain rfl := ModNetwork.cstr_of_cstrIn hw
    exact (Option.some.inj h).symm
  | fs | who =>
    simp only [row, ModFs.row, ModFs.rowBy, ModWho.row, ModWho.rowBy, Option.bind_eq_bind,
      Option.bind_eq_some_iff, Option.pure_def, Option.some.injEq] at h
    obtain ⟨u, hu, v, hv, w, hw, rfl⟩ := h
    obtain rfl := ModNetwork.cstr_of_cstrIn hu
    obtain rfl := ModNetwork.cstr_of_cstrIn hv
    obtain rfl := ModNetwork.cstr_of_cstrIn hw
    rfl
  | ip =>
    simp only [row, ModIp.row, ModIp.rowBy, Option.bind_eq_bind, Option.bind_eq_some_iff,
      Option.pure_def, Option.some.injEq] at h
    obtain ⟨u, hu, v, hv, w, hw, rfl⟩ := h
    obtain rfl := ModNetwork.cstr_of_cstrIn hu
    obtain rfl := ModNetwork.cstr_of_cstrIn hv
    obtain rfl := ModNetwork.cstr_of_cstrIn hw
    have h0 : ",0;\n".toList = ',' :: decInt 0 ++ ";\n".toList := by decide
    have h1 : ",1;\n".toList = ',' :: decInt 1 ++ ";\n".toList := by decide
    simp only [columns, Datum.format, ipVerDatum]
    cases e.ipVer with
    | IPv4 => simp only [h0, ← List.append_assoc]; rfl
    | IPv6 => simp only [h1, ← List.append_assoc]; rfl

theorem name_injective : Function.Injective name := by
  have hnodup : (loadModules.map name).Nodup := by decide
  intro m m' h
  exact List.inj_on_of_nodup_map hnodup (mem_loadModules m) (mem_loadModules m') h

theorem name_plain (m : ModName) : '=' ∉ m.name ∧ '\n' ∉ m.name ∧ '\x00' ∉ m.name := by
  cases m <;> decide

def heldAfter (m : ModName) (envs : List m.Env) : List m.Entry :=
  ((cycles m.collectRecord envs []).map m.held).getD []

/-- The records held after the last of the collections that has found any. -/
def shown (m : ModName) (envs : List m.Env) : List m.Entry :=
  lastFound (envs.inits.map m.heldAfter)

/-- The strings of the records held stay in their columns, and the record has room for the
rows. -/
structure Plain (m : ModName) (l : List m.Rec) : Prop where
  columns : ∀ e ∈ m.held l, ∀ c ∈ m.columns e, c.Plain
  length_lt : (m.encoding l).length < LEN_1M

instance (m : ModName) (l : List m.Rec) : Decidable (m.Plain l) :=
  decidable_of_iff ((∀ e ∈ m.held l, ∀ c ∈ m.columns e, c.Plain) ∧
    (m.encoding l).length < LEN_1M) ⟨fun h => ⟨h.1, h.2⟩, fun h => ⟨h.columns, h.length_lt⟩⟩

def PlainRun (m : ModName) (envs : List m.Env) : Prop :=
  ∀ envs' l, envs' <+: envs → cycles m.collectRecord envs' [] = some l → m.Plain l

section Shown

variable {m : ModName} {envs : List m.Env} {env : m.Env} {l : List m.Rec}

theorem shown_nil : m.shown [] = [] := by
  have hnone : m.heldAfter [] = [] := by cases m <;> rfl
  simp [shown, lastFound, hnone]

theorem shown_concat : m.shown (envs ++ [env]) =
    if m.heldAfter (envs ++ [env]) = [] then m.shown envs else m.heldAfter (envs ++ [env]) := by
  have hinits : (envs ++ [env]).inits = envs.inits ++ [envs ++ [env]] := by
    simp [List.inits_append]
  rw [shown, hinits, List.map_append, List.map_singleton, lastFound_concat]
  rfl

theorem PlainRun.init (h : m.PlainRun (envs ++ [env])) : m.PlainRun envs :=
  fun envs' l hpre => h envs' l (hpre.trans (List.prefix_append envs [env]))

theorem mem_shown {e : m.Entry} (he : e ∈ m.shown envs) :
    ∃ envs' l, envs' <+: envs ∧ cycles m.collectRecord envs' [] = some l ∧ e ∈ m.held l := by
  induction envs using List.reverseRecOn with
  | nil =>
    rw [shown_nil] at he
    exact absurd he List.not_mem_nil
  | append_singleton envs env ih =>
    rw [shown_concat] at he
    split at he
    · obtain ⟨envs', l, hpre, hl, hmem⟩ := ih he
      exact ⟨envs', l, hpre.trans (List.prefix_append envs [env]), hl, hmem⟩
    · rw [heldAfter] at he
      cases hl : cycles m.collectRecord (envs ++ [env]) [] with
      | none => rw [hl] at he; exact absurd he List.not_mem_nil
      | some l => rw [hl] at he; exact ⟨_, l, List.prefix_rfl, hl, he⟩

theorem PlainRun.shown (h : m.PlainRun envs) :
    ∀ e ∈ m.shown envs, ∀ c ∈ m.columns e, c.Plain := by
  intro e he
  obtain ⟨envs', l, hpre, hl, hmem⟩ := mem_shown he
  exact (h envs' l hpre hl).columns e hmem

theorem encoding_eq (h : ∀ e ∈ m.held l, (m.row e).isSome) :
    m.encoding l = ((m.held l).map fun e => Datum.row m.name (m.columns e)).flatten := by
  have hrow : ∀ e ∈ m.held l, m.row e = some (Datum.row m.name (m.columns e)) := by
    intro e he
    obtain ⟨t, ht⟩ := Option.isSome_iff_exists.mp (h e he)
    rw [ht, row_eq ht]
  unfold encoding
  rw [← List.filterMap_eq_map]
  exact congrArg List.flatten (List.filterMap_congr hrow)

theorem moduleRun_shown {mod : Module m} (hrun : moduleRun m true envs = some mod)
    (hplain : m.PlainRun envs) : cycles m.collectRecord envs [] = some mod.recordList ∧
      cstr mod.record =
        ((m.shown envs).map fun e => Datum.row m.name (m.columns e)).flatten := by
  induction envs using List.reverseRecOn generalizing mod with
  | nil =>
    obtain rfl := Option.some.inj hrun
    refine ⟨rfl, ?_⟩
    rw [shown_nil]
    rfl
  | append_singleton envs env ih =>
    rw [moduleRun_concat] at hrun
    obtain ⟨mod1, h1, h2⟩ := Option.bind_eq_some_iff.mp hrun
    obtain ⟨hlist1, hrec1⟩ := ih h1 hplain.init
    obtain ⟨hcollect, hprint⟩ := moduleCycle_eq_some_iff.mp h2
    rw [if_pos rfl] at hprint
    have hlist : cycles m.collectRecord (envs ++ [env]) [] = some mod.recordList := by
      rw [cycles_concat, hlist1]
      exact hcollect
    have hp := hplain _ _ List.prefix_rfl hlist
    have hfits : m.Defined mod.recordList :=
      (recordToStr_isSome_iff m _ _).mp (Option.isSome_of_eq_some hprint)
    have henc := encoding_eq hfits.1
    have hnul : '\x00' ∉ m.encoding mod.recordList := by
      rw [henc]
      intro h
      obtain ⟨t, ht, h⟩ := List.mem_flatten.mp h
      obtain ⟨e, he, rfl⟩ := List.mem_map.mp ht
      exact Datum.nul_not_mem_row m.name_plain.2.2 (hp.columns e he) h
    have hheld : m.heldAfter (envs ++ [env]) = m.held mod.recordList := by
      rw [heldAfter, hlist]
      rfl
    refine ⟨hlist, ?_⟩
    rw [shown_concat, hheld]
    rcases recordToStr_spec hprint hnul hp.length_lt with ⟨hnone, -, hkept⟩ | ⟨hsome, -, hnew⟩
    · rw [if_pos hnone, hkept, hrec1]
    · rw [if_neg hsome, hnew, henc]

end Shown

end ModName

/-- The enabled modules hold strings that stay in their columns, and their rows fit into their
records. -/
def PlainTexts (enable : ModName → Bool) (es : List System) : Prop :=
  ∀ m, enable m = true → m.PlainRun (es.map fun e => e m)

instance (enable : ModName → Bool) (es : List System) : Decidable (PlainTexts enable es) :=
  decidable_of_iff (∀ m ∈ loadModules, enable m = true →
      ∀ envs ∈ (es.map fun e : System => e m).inits,
        ∀ l ∈ (cycles m.collectRecord envs []).toList, m.Plain l) <| by
    simp only [PlainTexts, ModName.PlainRun, List.mem_inits, Option.mem_toList, mem_loadModules,
      forall_const]
    exact ⟨fun h m hen envs l hpre hl => h m hen envs hpre l hl,
      fun h m hen envs hpre l hl => h m hen envs l hpre hl⟩

/-- The rows of the module give back these records. -/
def ReadsBack (m : ModName) (entries : List m.Entry) (rows : List (List Text)) : Prop :=
  List.Forall₂ (fun entry cols => List.Forall₂ Datum.ReadAs (m.columns entry) cols) entries rows

theorem readsBack_map (m : ModName) (entries : List m.Entry) :
    ReadsBack m entries (entries.map fun e => (m.columns e).map Datum.print) := by
  rw [ReadsBack, List.forall₂_map_right_iff, List.forall₂_same]
  intro e _
  rw [List.forall₂_map_right_iff, List.forall₂_same]
  exact fun c _ => c.readAs_print

theorem PlainTexts.of_prefix {enable : ModName → Bool} {es es' : List System}
    (h : PlainTexts enable es) (hes : es' <+: es) : PlainTexts enable es' := by
  intro m hen envs l hpre
  exact h m hen envs l (hpre.trans (hes.map fun e => e m))

/-- Whatever else a cycle prints, the rows with the name of a module are those of the records
that it shows. -/
theorem readTable_cycleText {enable : ModName → Bool} {es : List System} {s : Tool}
    (hrun : toolRun enable es = some s) (hplain : PlainTexts enable es) (m : ModName) :
    ReadsBack m (if enable m then m.shown (es.map fun e => e m) else [])
      (readTable m.name (cycleText enable es)) := by
  let rows (m : ModName) : List (List Text) :=
    (m.shown (es.map fun e => e m)).map fun e => (m.columns e).map Datum.print
  have htext : cycleText enable es = ((loadModules.filter enable).map fun m =>
      ((rows m).map (joinRow m.name)).flatten).flatten := by
    rw [cycleText_eq (toolRun_modules hrun).1]
    congr 1
    apply List.map_congr_left
    intro m hm
    have hen := (List.mem_filter.mp hm).2
    have hmod := (toolRun_modules hrun).1 m
    rw [hen] at hmod
    rw [(ModName.moduleRun_shown hmod (hplain m hen)).2, List.map_map]
    rfl
  have hrows : ∀ m ∈ loadModules.filter enable, ∀ cols ∈ rows m,
      cols ≠ [] ∧ ∀ c ∈ cols, PlainColumn c := by
    intro m hm cols hcols
    obtain ⟨e, he, rfl⟩ := List.mem_map.mp hcols
    have hp := (hplain m (List.mem_filter.mp hm).2).shown e he
    refine ⟨by simp [m.columns_ne_nil e], ?_⟩
    rw [List.forall_mem_map]
    exact fun c hc => (hp c hc).print
  rw [htext, readTable_tables rows ModName.name_injective
    (fun m => ⟨m.name_plain.1, m.name_plain.2.1⟩) (loadModules_nodup.filter enable) hrows m]
  have hmem : m ∈ loadModules.filter enable ↔ enable m = true := by
    simp [List.mem_filter, mem_loadModules]
  by_cases hen : enable m = true
  · rw [if_pos hen, if_pos (hmem.mpr hen)]
    exact readsBack_map m _
  · rw [if_neg hen, if_neg (mt hmem.mp hen)]
    exact .nil

theorem getElem?_tail_inits {α : Type} {l l' : List α} {a : α} (h : l' ++ [a] <+: l) :
    l.inits.tail[l'.length]? = some (l' ++ [a]) := by
  obtain ⟨r, rfl⟩ := h
  have hlen : l'.length + 1 < (l' ++ [a] ++ r).inits.length := by
    simp only [List.length_inits, List.length_append, List.length_singleton]
    omega
  rw [List.getElem?_tail, List.getElem?_eq_getElem hlen, List.getElem_inits,
    List.take_left' (by simp)]

theorem toolRun_out {enable : ModName → Bool} {es es' : List System} {e : System} {s : Tool}
    (hrun : toolRun enable es = some s) (hes : es' ++ [e] <+: es) :
    s.out[es'.length]? = some (cycleText enable (es' ++ [e])) ∧
      ∃ s', toolRun enable (es' ++ [e]) = some s' := by
  constructor
  · rw [(toolRun_modules hrun).2, List.getElem?_map, getElem?_tail_inits hes]
    rfl
  · obtain ⟨r, rfl⟩ := hes
    rw [toolRun, cycles_append, Option.bind_eq_some_iff] at hrun
    obtain ⟨s', hs', -⟩ := hrun
    exact ⟨s', hs'⟩

/-- Every cycle of a run prints, of each enabled module, the records of the newest collection
that has found any, and of the others nothing: a reader gets them back from the stream. -/
theorem toolRun_readsBack (enable : ModName → Bool) (es : List System) {s : Tool}
    (hrun : toolRun enable es = some s) (hplain : PlainTexts enable es) {es' : List System}
    {e : System} (hes : es' ++ [e] <+: es) :
    ∃ text, s.out[es'.length]? = some text ∧ ∀ m,
      ReadsBack m (if enable m then m.shown ((es' ++ [e]).map fun e => e m) else [])
        (readTable m.name text) := by
  obtain ⟨hout, s', hrun'⟩ := toolRun_out hrun hes
  exact ⟨_, hout, readTable_cycleText hrun' (hplain.of_prefix hes)⟩

def whoAndTime (m : ModName) : Bool := m == .who || m == .time

theorem toolRun_readsBack_logout :
    ∃ s, toolRun whoAndTime [loggedIn [rootUser], loggedIn []] = some s ∧
      ∃ text, s.out[1]? = some text ∧ ∀ m, ReadsBack m
        (if whoAndTime m then m.shown [loggedIn [rootUser] m, loggedIn [] m] else [])
        (readTable m.name text) := by
  have hruns : (toolRun whoAndTime [loggedIn [rootUser], loggedIn []]).isSome := by
    decide +kernel
  obtain ⟨s, hs⟩ := Option.isSome_iff_exists.mp hruns
  have hlast : [loggedIn [rootUser]] ++ [loggedIn []] <+:
      [loggedIn [rootUser], loggedIn []] := List.prefix_rfl
  exact ⟨s, hs, toolRun_readsBack whoAndTime _ hs (by decide +kernel) hlast⟩

end Zsr
