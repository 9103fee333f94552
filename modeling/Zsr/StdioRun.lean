import Zsr.Options
import Zsr.Stdio

namespace Zsr.Stdio
open CLib

section Collect

variable (limit : ℕ)

def collectSingle {ε : Type} (read : ε → StdioM ε) (zeroed : ε) (recordList : List ε) :
    StdioM (List ε) :=
  match recordList.getLast? with
  | none => do
    let entry ← read zeroed
    pure [entry]
  | some entry => do
    let entry ← read entry
    pure (recordList.dropLast ++ [entry])

/-- What `collect_record` of `mod_io.c` does behind `read_io_stat`. -/
def addIoStat (recordList : List (List Io)) (r : IoStatics × List Io) : List (List Io) :=
  match recordList.getLast? with
  | none => [r.2]
  | some prevList =>
    let (curList, prevList) := computeIoStat r.1 r.2 prevList
    recordList.dropLast ++ [prevList, curList]

/-- What `collect_record` of `mod_proc.c` does behind `get_all_proc`. -/
def addProcs (recordList : List (List Proc)) (curList : List Proc) : Option (List (List Proc)) := do
  let curList ← match recordList.getLast? with
    | none => some curList
    | some prevList => computeProcCpuStat curList prevList
  some (recordList ++ [curList])

def collectModule : (m : ModName) → m.Env → List m.Rec → StdioM (List m.Rec)
  | .cpu => fun procStat recordList => do
    let stat ← readCpuStat limit procStat {}
    pure (ModCpu.collectSnapshot stat recordList)
  | .fs => fun mtab recordList => do
    let nodes ← readFsStat limit mtab
    StateT.lift (collectQuery (some nodes) recordList)
  | .gateway => fun route => collectSingle (getGateway limit route) .zeroed
  | .io => fun env recordList => do
    let r ← readIoStat limit env
    pure (addIoStat recordList r)
  | .loadAvg => fun loadavg => collectSingle (readLoadStat limit loadavg) {}
  | .mem => fun meminfo => collectSingle (readMemStat limit meminfo) {}
  | .proc => fun env recordList => do
    let curList ← getAllProc limit env
    StateT.lift (addProcs recordList curList)
  | .swap => fun meminfo => collectSingle (readSwapStat limit meminfo) {}
  | .uptime => fun procUptime => collectSingle (readUptimeStat limit procUptime) {}
  -- what these find comes from the C library
  | .dns => fun env recordList => StateT.lift (ModName.dns.collectRecord env recordList)
  | .ip => fun env recordList => StateT.lift (ModName.ip.collectRecord env recordList)
  | .network => fun env recordList => StateT.lift (ModName.network.collectRecord env recordList)
  | .time => fun env recordList => StateT.lift (ModName.time.collectRecord env recordList)
  | .who => fun env recordList => StateT.lift (ModName.who.collectRecord env recordList)

def limitEnv (n : ℕ) : (m : ModName) → m.Env → m.Env
  | .io => limitIo limit n
  | .proc => limitProc limit n
  | .fs => avail limit n
  | .cpu | .gateway | .loadAvg | .mem | .swap | .uptime => avail limit n
  | .dns | .ip | .network | .time | .who => id

/-- How many files are open after a module has collected. -/
def openAfter (n : ℕ) : (m : ModName) → m.Env → ℕ
  | .io => openAfterIo limit n
  | _ => fun _ => n

theorem collectSingle_counts {ε : Type} {read : ε → StdioM ε} {f : ℕ → ε → Option ε}
    (h : ∀ entry, Counts (read entry) (balanced fun n => f n entry)) (zeroed : ε)
    (recordList : List ε) :
    Counts (collectSingle read zeroed recordList)
      (balanced fun n => Zsr.collectSingle (f n) zeroed recordList) := by
  unfold collectSingle Zsr.collectSingle
  cases recordList.getLast? with
  | none => exact ((h zeroed).bind_balanced fun entry => .pure [entry]).congr fun n =>
      (Option.map_eq_bind ..).symm
  | some entry =>
    exact ((h entry).bind_balanced fun entry => .pure (recordList.dropLast ++ [entry])).congr
      fun n => (Option.map_eq_bind ..).symm

theorem collectModule_counts (m : ModName) (env : m.Env) (recordList : List m.Rec) :
    Counts (collectModule limit m env recordList) fun n =>
      (m.collectRecord (limitEnv limit n m env) recordList).map fun l =>
        (l, openAfter limit n m env) := by
  cases m with
  | cpu =>
    exact (readCpuStat_counts env {}).bind_balanced fun stat =>
      .pure (ModCpu.collectSnapshot stat recordList)
  | fs => exact (readFsStat_counts env).bind_balanced fun nodes => .lift (collectQuery _ recordList)
  | gateway => exact collectSingle_counts (getGateway_counts env) .zeroed recordList
  | io =>
    have hcounts : Counts (collectModule limit .io env recordList) _ :=
      (readIoStat_counts env).bind fun r => Counts.pure (addIoStat recordList r)
    convert hcounts using 1
    funext n
    show Option.map _ (ModIo.collectRecord (limitIo limit n env) recordList) =
      Option.bind (Option.map _ (Zsr.readIoStat (limitIo limit n env))) _
    unfold ModIo.collectRecord
    cases Zsr.readIoStat (limitIo limit n env) with
    | none => rfl
    | some r =>
      show Option.map _ (Option.bind (some r) _) = some (addIoStat recordList r, _)
      unfold addIoStat
      cases recordList.getLast? <;> rfl
  | loadAvg => exact collectSingle_counts (readLoadStat_counts env) {} recordList
  | mem => exact collectSingle_counts (readMemStat_counts env) {} recordList
  | proc => exact (getAllProc_counts env).bind_balanced fun l => .lift (addProcs recordList l)
  | swap => exact collectSingle_counts (readSwapStat_counts env) {} recordList
  | uptime => exact collectSingle_counts (readUptimeStat_counts env) {} recordList
  | dns => exact .lift (ModName.dns.collectRecord env recordList)
  | ip => exact .lift (ModName.ip.collectRecord env recordList)
  | network => exact .lift (ModName.network.collectRecord env recordList)
  | time => exact .lift (ModName.time.collectRecord env recordList)
  | who => exact .lift (ModName.who.collectRecord env recordList)

end Collect

section Tool

variable (limit : ℕ) (enable : ModName → Bool)

def collectRecord (e : System) (mods : Modules) : StdioM Modules :=
  loadModules.foldlM (fun mods m => do
    let recordList ← collectModule limit m (e m) (mods m).recordList
    pure (Function.update mods m { mods m with recordList := recordList })) mods

def toolCycle (e : System) (s : Tool) : StdioM Tool := do
  let mods ← collectRecord limit e s.mods
  let r ← StateT.lift (printModRecord enable mods)
  pure ⟨r.1, s.out ++ [r.2]⟩

/-- A cycle, with what is open before and after it. -/
def cycleOn (e : System) (s : Tool × Heap OpenFile) : Option (Tool × Heap OpenFile) :=
  toolCycle limit enable e s.1 s.2

/-- Some cycles, from the start of the program on, which has none of these files open. -/
def toolRun (es : List System) : Option (Tool × Heap OpenFile) :=
  cycles (cycleOn limit enable) es ({}, Heap.empty)

/-- How many files are open when a module of the cycle collects: the devices come fifth. -/
def openBefore (n : ℕ) (e : System) : ModName → ℕ
  | .cpu | .dns | .fs | .gateway | .io => n
  | _ => openAfterIo limit n (e .io)

/-- The system as a cycle finds it that begins with `n` open files. -/
def limitSystem (n : ℕ) (e : System) : System := fun m =>
  limitEnv limit (openBefore limit n e m) m (e m)

def limitRun (n : ℕ) : List System → List System
  | [] => []
  | e :: es => limitSystem limit n e :: limitRun (openAfterIo limit n (e .io)) es

def openAfterRun (n : ℕ) (es : List System) : ℕ :=
  es.foldl (fun n e => openAfterIo limit n (e .io)) n

/-- A module when only the number of open files is known. -/
def countModule (e : System) (mods : Modules) (m : ModName) : CountM Modules := fun n =>
  (m.collectRecord (limitEnv limit n m (e m)) (mods m).recordList).map fun l =>
    (Function.update mods m { mods m with recordList := l }, openAfter limit n m (e m))

/-- The loop of `collect_record` over the contents of the lists. -/
def collectFrom (e : System) (l : List ModName) (mods : Modules) : Option Modules :=
  l.foldlM (fun mods m => (m.collectRecord (e m) (mods m).recordList).map fun l =>
    Function.update mods m { mods m with recordList := l }) mods

variable {limit}

theorem countModule_counts (e : System) (mods : Modules) (m : ModName) :
    Counts (do
      let recordList ← collectModule limit m (e m) (mods m).recordList
      pure (Function.update mods m { mods m with recordList := recordList }))
      (countModule limit e mods m) := by
  convert (collectModule_counts limit m (e m) (mods m).recordList).bind fun l =>
    Counts.pure (Function.update mods m { mods m with recordList := l }) using 1
  funext n
  show Option.map _ _ = Option.bind (Option.map _ _) _
  rw [Option.bind_map]
  exact Option.map_eq_bind ..

theorem foldlM_countModule {e e' : System} {n : ℕ} {l : List ModName}
    (hn : ∀ m ∈ l, openAfter limit n m (e m) = n) (he : ∀ m ∈ l, limitEnv limit n m (e m) = e' m)
    (mods : Modules) :
    l.foldlM (countModule limit e) mods n = (collectFrom e' l mods).map fun mods => (mods, n) := by
  induction l generalizing mods with
  | nil => rfl
  | cons m l ih =>
    have ⟨hm, hl⟩ := List.forall_mem_cons.mp hn
    have ⟨hem, hel⟩ := List.forall_mem_cons.mp he
    rw [List.foldlM_cons, collectFrom, List.foldlM_cons]
    show Option.bind (countModule limit e mods m n) _ = _
    unfold countModule
    rw [hm, hem]
    cases m.collectRecord (e' m) (mods m).recordList with
    | none => rfl
    | some l => exact ih hl hel _

theorem collectRecord_counts (e : System) (mods : Modules) :
    Counts (collectRecord limit e mods) fun n =>
      (Zsr.collectRecord (limitSystem limit n e) mods).map fun mods =>
        (mods, openAfterIo limit n (e .io)) := by
  have hcounts : Counts (collectRecord limit e mods) _ :=
    Counts.foldlM (countModule_counts e) loadModules mods
  convert hcounts using 1
  funext n
  -- the modules in front of the one of the devices, this one, and those behind it
  let front : List ModName := [.cpu, .dns, .fs, .gateway]
  let back : List ModName := [.ip, .loadAvg, .mem, .network, .proc, .swap, .time, .uptime, .who]
  have hload : loadModules = front ++ .io :: back := rfl
  let e' := limitSystem limit n e
  have hfront (mods : Modules) : front.foldlM (countModule limit e) mods n =
      (collectFrom e' front mods).map fun mods => (mods, n) := by
    apply foldlM_countModule
    · simp [front, openAfter]
    · simp only [front, List.forall_mem_cons]
      exact ⟨rfl, rfl, rfl, rfl, fun _ h => absurd h List.not_mem_nil⟩
  let n' := openAfterIo limit n (e .io)
  have hback (mods : Modules) : back.foldlM (countModule limit e) mods n' =
      (collectFrom e' back mods).map fun mods => (mods, n') := by
    apply foldlM_countModule
    · simp [back, openAfter]
    · simp only [back, List.forall_mem_cons]
      exact ⟨rfl, rfl, rfl, rfl, rfl, rfl, rfl, rfl, rfl, fun _ h => absurd h List.not_mem_nil⟩
  show (collectFrom e' loadModules mods).map _ = _
  rw [hload, collectFrom]
  simp only [List.foldlM_append, List.foldlM_cons]
  show Option.map _ (Option.bind (collectFrom e' front mods) _) =
    Option.bind (front.foldlM (countModule limit e) mods n) _
  rw [hfront]
  cases collectFrom e' front mods with
  | none => rfl
  | some mods1 =>
    show Option.map _ (Option.bind (Option.map _ (ModName.io.collectRecord (e' .io) _)) _) =
      Option.bind (Option.map _ (ModName.io.collectRecord (e' .io) _)) _
    cases ModName.io.collectRecord (e' .io) (mods1 .io).recordList with
    | none => rfl
    | some l => exact (hback _).symm

theorem toolCycle_counts (e : System) (s : Tool) :
    Counts (toolCycle limit enable e s) fun n =>
      (Zsr.toolCycle enable (limitSystem limit n e) s).map fun s =>
        (s, openAfterIo limit n (e .io)) := by
  have hcounts : Counts (toolCycle limit enable e s) _ :=
    (collectRecord_counts e s.mods).bind fun mods =>
      (Counts.lift (printModRecord enable mods)).bind fun r =>
        Counts.pure (⟨r.1, s.out ++ [r.2]⟩ : Tool)
  convert hcounts using 1
  funext n
  unfold Zsr.toolCycle
  show Option.map _ (Option.bind (Zsr.collectRecord _ s.mods) _) =
    Option.bind (Option.map _ (Zsr.collectRecord _ s.mods)) _
  cases Zsr.collectRecord (limitSystem limit n e) s.mods with
  | none => rfl
  | some mods =>
    show Option.map _ (Option.bind (printModRecord enable mods) _) =
      Option.bind (Option.map _ (printModRecord enable mods)) _
    cases printModRecord enable mods <;> rfl

theorem cycleOn_rel (e : System) {n : ℕ} {x : Tool × Heap OpenFile} (hx : x.2.liveCount = n) :
    Option.Rel (fun x s => x.1 = s ∧ x.2.liveCount = openAfterIo limit n (e .io))
      (cycleOn limit enable e x) (Zsr.toolCycle enable (limitSystem limit n e) x.1) := by
  have hrel : Option.Rel _ (toolCycle limit enable e x.1 x.2) _ :=
    toolCycle_counts enable e x.1 x.2
  rw [hx] at hrel
  dsimp only at hrel
  unfold cycleOn
  generalize toolCycle limit enable e x.1 x.2 = y at hrel ⊢
  cases hc : Zsr.toolCycle enable (limitSystem limit n e) x.1 with
  | none =>
    rw [hc] at hrel
    cases hrel
    exact .none
  | some s =>
    rw [hc] at hrel
    cases hrel with
    | some h => exact .some ⟨h.result, h.count⟩

theorem cycles_rel (es : List System) {n : ℕ} {x : Tool × Heap OpenFile}
    (hx : x.2.liveCount = n) :
    Option.Rel (fun x s => x.1 = s ∧ x.2.liveCount = openAfterRun limit n es)
      (cycles (cycleOn limit enable) es x)
      (cycles (Zsr.toolCycle enable) (limitRun limit n es) x.1) := by
  induction es generalizing n x with
  | nil => exact .some ⟨rfl, hx⟩
  | cons e es ih =>
    rw [limitRun, cycles_cons, cycles_cons]
    apply rel_bind (cycleOn_rel enable e hx)
    rintro y s ⟨rfl, hy⟩
    exact ih hy

theorem collectModule_keepsOpen (m : ModName) (env : m.Env) (recordList : List m.Rec) :
    KeepsOpen (fun file => ∃ text, file = .diskstats text)
      (collectModule limit m env recordList) := by
  have hcounts := collectModule_counts limit m env recordList
  cases m with
  | io => exact (readIoStat_keepsOpen env).bind fun r => .pure _
  | _ => exact .of_balanced hcounts

theorem toolCycle_keepsOpen (e : System) (s : Tool) :
    KeepsOpen (fun file => ∃ text, file = .diskstats text) (toolCycle limit enable e s) := by
  have hmodule (mods : Modules) (m : ModName) : KeepsOpen _ (do
      let recordList ← collectModule limit m (e m) (mods m).recordList
      pure (Function.update mods m { mods m with recordList := recordList })) :=
    (collectModule_keepsOpen m (e m) (mods m).recordList).bind fun l => .pure _
  have hcollect : KeepsOpen _ (collectRecord limit e s.mods) :=
    .foldlM hmodule loadModules s.mods
  exact hcollect.bind fun mods =>
    (KeepsOpen.lift (printModRecord enable mods)).bind fun r => .pure _

theorem toolRun_allOpen {es : List System} {x : Tool × Heap OpenFile}
    (h : toolRun limit enable es = some x) :
    AllOpen (fun file => ∃ text, file = .diskstats text) x.2 := by
  induction es using List.reverseRecOn generalizing x with
  | nil =>
    obtain rfl := Option.some.inj h
    exact fun fp hlive => absurd hlive Heap.not_live_empty
  | append_singleton es e ih =>
    rw [toolRun, cycles_concat] at h
    obtain ⟨y, hy, hx⟩ := Option.bind_eq_some_iff.mp h
    exact toolCycle_keepsOpen enable e y.1 y.2 x (ih hy) hx

theorem toolRun_rel (es : List System) :
    Option.Rel (fun x s => x.1 = s ∧ x.2.liveCount = openAfterRun limit 0 es)
      (toolRun limit enable es) (Zsr.toolRun enable (limitRun limit 0 es)) :=
  cycles_rel enable es rfl

end Tool

section Open

variable {limit : ℕ}

def hasDiskstats (e : System) : Bool := (e .io).diskstats.isSome

theorem openAfterIo_eq {n : ℕ} (hn : n ≤ limit) (e : System) :
    openAfterIo limit n (e .io) = min limit (n + if hasDiskstats e then 1 else 0) := by
  unfold openAfterIo avail hasDiskstats
  by_cases hlt : n < limit
  · rw [if_pos hlt]
    split <;> omega
  · rw [if_neg hlt]
    simp only [Option.isSome_none, Bool.false_eq_true, if_false]
    split <;> omega

theorem openAfterRun_eq {n : ℕ} (hn : n ≤ limit) (es : List System) :
    openAfterRun limit n es = min limit (n + es.countP hasDiskstats) := by
  induction es generalizing n with
  | nil =>
    show n = _
    rw [List.countP_nil]
    omega
  | cons e es ih =>
    show openAfterRun limit (openAfterIo limit n (e .io)) es = _
    rw [openAfterIo_eq hn, ih (min_le_left _ _), List.countP_cons]
    omega

theorem limitRun_append (n : ℕ) (es fs : List System) :
    limitRun limit n (es ++ fs) =
      limitRun limit n es ++ limitRun limit (openAfterRun limit n es) fs := by
  induction es generalizing n with
  | nil => rfl
  | cons e es ih => exact congrArg (limitSystem limit n e :: ·) (ih _)

end Open

/-- With a bound on the files that are open at once, a run of the program is one in which the
files are missing that it could not open. No file is used or closed that is not open, and those
still open in the end are the `/proc/diskstats` of the collections. -/
theorem toolRun_files (limit : ℕ) (enable : ModName → Bool) (es : List System) :
    Option.Rel (fun x s => x.1 = s ∧ x.2.liveCount = min limit (es.countP hasDiskstats) ∧
        ∀ fp, x.2.Live fp → ∃ text, x.2.val? fp = some (.diskstats text))
      (toolRun limit enable es) (Zsr.toolRun enable (limitRun limit 0 es)) := by
  have hrel : Option.Rel _ (toolRun limit enable es) _ := toolRun_rel enable es
  rw [openAfterRun_eq (Nat.zero_le limit), Nat.zero_add] at hrel
  refine rel_mono (rel_and hrel fun x hx => toolRun_allOpen enable hx) ?_
  rintro x s ⟨⟨hs, hcount⟩, hopen⟩
  refine ⟨hs, hcount, fun fp hlive => ?_⟩
  obtain ⟨_, hval, text, rfl⟩ := hopen fp hlive
  exact ⟨text, hval⟩

section Starved

variable {limit : ℕ} {enable : ModName → Bool}

theorem toolCycle_starved {n : ℕ} (hn : limit ≤ n) (e : System) (s : Tool) :
    Zsr.toolCycle enable (limitSystem limit n e) s = none := by
  rw [Option.eq_none_iff_forall_ne_some]
  intro s' hs'
  have hio := ((toolCycle_spec hs').1 .io).collect
  have hcpus : (limitSystem limit n e .io).cpus = none := if_neg (not_lt.mpr hn)
  have hnone : ModName.io.collectRecord (limitSystem limit n e .io) (s.mods .io).recordList =
      none := by
    show ModIo.collectRecord _ _ = none
    unfold ModIo.collectRecord Zsr.readIoStat
    rw [hcpus]
    rfl
  rw [hnone] at hio
  cases hio

theorem toolRun_starved {done : List System} (hdone : limit ≤ done.countP hasDiskstats)
    (e : System) : toolRun limit enable (done ++ [e]) = none := by
  have hrel : Option.Rel _ (toolRun limit enable (done ++ [e])) _ :=
    toolRun_rel enable (done ++ [e])
  have hn : limit ≤ openAfterRun limit 0 done := by
    rw [openAfterRun_eq (Nat.zero_le limit), Nat.zero_add, min_eq_left hdone]
  have hnone : Zsr.toolRun enable (limitRun limit 0 (done ++ [e])) = none := by
    rw [limitRun_append, Zsr.toolRun, cycles_append]
    apply Option.bind_eq_none_iff.mpr
    intro s _
    exact Option.bind_eq_none_iff.mpr fun s' hs' =>
      absurd (hs'.symm.trans (toolCycle_starved hn e s)) (by simp)
  rw [hnone] at hrel
  generalize toolRun limit enable (done ++ [e]) = y at hrel ⊢
  cases hrel
  rfl

end Starved

def toolMain (limit : ℕ) (opts : List Opt) (es : List System) :
    Turn (Outcome System (Tool × Heap OpenFile)) :=
  (parseTurn opts {}).map fun set =>
    reportLoop (cycleOn limit fun m => set.enable m.optLine) (decide (set.optCount ≤ 0))
      set.optCount es ({}, Heap.empty)

/-- Once as many collections as files may be open have found `/proc/diskstats`, the program does
not survive the next one. -/
theorem toolMain_starved {limit : ℕ} {opts : List Opt} {done rest : List System} {e : System}
    (hacc : Accepted opts)
    (hcount : (asked opts).optCount ≤ 0 ∨ done.length < (asked opts).optCount)
    (hopen : limit ≤ done.countP hasDiskstats) :
    toolMain limit opts (done ++ e :: rest) = .go .crashed := by
  have hparse : parseTurn opts {} = .go (asked opts) := parseTurn_go_iff.mpr ⟨hacc, rfl⟩
  have hes : done ++ e :: rest = done ++ [e] ++ rest := by simp
  unfold toolMain
  rw [hparse, Turn.map, hes, reportLoop_crashed ?_ (toolRun_starved hopen e)]
  rcases hcount with h | h
  · exact .inl (decide_eq_true h)
  · right
    rw [List.length_append, List.length_singleton]
    push_cast
    omega

def oneDisk : System := Function.update (loggedIn []) .io
  ⟨some "cpu  1 0 0 0\n".toList, 100, some "8 0 sda 1 0 0 0 0 0 0 0 0 0 0\n".toList,
    fun _ => some "cpu  1 0 0 0\n".toList, fun _ => none⟩

theorem toolMain_starved_second :
    toolMain 1 [.all, .count "2".toList] [oneDisk, oneDisk] = .go .crashed :=
  @toolMain_starved 1 [.all, .count "2".toList] [oneDisk] [] oneDisk
    ⟨by decide, .cpu, rfl⟩ (.inr (by decide)) (by decide)

section Enough

variable {limit n : ℕ}

theorem avail_of_lt {α : Type} (hn : n < limit) (file : Option α) : avail limit n file = file :=
  if_pos hn

theorem limitIo_of_lt (hn : n + 1 < limit) (env : IoEnv) : limitIo limit n env = env := by
  unfold limitIo
  simp only [avail_of_lt hn, avail_of_lt (Nat.lt_of_succ_lt hn)]

theorem limitProc_of_lt (hn : n + 1 < limit) (env : ProcEnv) : limitProc limit n env = env := by
  have hdir : limitDir limit (n + 1) = id := by
    funext d
    simp only [limitDir, avail_of_lt hn, id_eq]
  unfold limitProc
  rw [hdir, avail_of_lt (Nat.lt_of_succ_lt hn), List.map_id_fun, Option.map_id_fun, id_eq]

theorem limitSystem_of_lt {e : System} (hn : openAfterIo limit n (e .io) + 1 < limit) :
    limitSystem limit n e = e := by
  have hle : n ≤ openAfterIo limit n (e .io) := by
    unfold openAfterIo
    split <;> omega
  have hbefore (m : ModName) : openBefore limit n e m + 1 < limit := by
    cases m <;> first | exact hn | exact Nat.lt_of_le_of_lt (Nat.add_le_add_right hle 1) hn
  funext m
  have hlt := hbefore m
  cases m with
  | io => exact limitIo_of_lt hlt _
  | proc => exact limitProc_of_lt hlt _
  | cpu | fs | gateway | loadAvg | mem | swap | uptime =>
    exact avail_of_lt (Nat.lt_of_succ_lt hlt) _
  | dns | ip | network | time | who => rfl

end Enough

def cyclesDue (opts : List Opt) (es : List System) : List System :=
  if 0 < (asked opts).optCount then es.take (asked opts).optCount.toNat else es

/-- As long as two files can be opened besides the ones that stay open, the bound is not
noticed. -/
theorem toolMain_unnoticed {limit : ℕ} (opts : List Opt) {es : List System}
    (hlimit : (cyclesDue opts es).countP hasDiskstats + 2 ≤ limit) :
    (toolMain limit opts es).map (Outcome.map fun x => x.1.out) =
      (Zsr.toolMain opts es).map (Outcome.map Tool.out) := by
  have hstep (enable : ModName → Bool) (pre : List System) (e : System)
      (x : Tool × Heap OpenFile) (t : Tool) (hpre : pre ++ [e] <+: es)
      (hdue : decide ((asked opts).optCount ≤ 0) ∨ pre.length < (asked opts).optCount)
      (hx : x.1 = t ∧ x.2.liveCount = pre.countP hasDiskstats) :
      Option.Rel (fun x t => x.1 = t ∧ x.2.liveCount = (pre ++ [e]).countP hasDiskstats)
        (cycleOn limit enable e x) (Zsr.toolCycle enable e t) := by
    have hpre : pre ++ [e] <+: cyclesDue opts es := by
      unfold cyclesDue
      rw [decide_eq_true_iff] at hdue
      split
      · refine List.prefix_take_iff.mpr ⟨hpre, ?_⟩
        rw [List.length_append, List.length_singleton]
        omega
      · exact hpre
    have hle : (pre ++ [e]).countP hasDiskstats ≤ (cyclesDue opts es).countP hasDiskstats :=
      hpre.sublist.countP_le
    have hopen : openAfterIo limit (pre.countP hasDiskstats) (e .io) =
        (pre ++ [e]).countP hasDiskstats := by
      rw [List.countP_append, List.countP_singleton] at hle ⊢
      rw [openAfterIo_eq (by omega)]
      omega
    have hrel : Option.Rel _ (cycleOn limit enable e x) _ := cycleOn_rel enable e hx.2
    rw [limitSystem_of_lt (by omega), hopen, hx.1] at hrel
    exact hrel
  unfold toolMain Zsr.toolMain
  cases hparse : parseTurn opts {} with
  | exit out err => rfl
  | go set =>
    obtain ⟨-, rfl⟩ := parseTurn_go_iff.mp hparse
    let R (pre : List System) (x : Tool × Heap OpenFile) (t : Tool) : Prop :=
      x.1 = t ∧ x.2.liveCount = pre.countP hasDiskstats
    have hrel : Outcome.Rel R R ([] ++ es)
        (reportLoop (cycleOn limit fun m => (asked opts).enable m.optLine)
          (decide ((asked opts).optCount ≤ 0)) (asked opts).optCount es ({}, Heap.empty))
        (reportLoop (Zsr.toolCycle fun m => (asked opts).enable m.optLine)
          (decide ((asked opts).optCount ≤ 0)) (asked opts).optCount es {}) := by
      refine reportLoop_rel (R := R) (fun pre e x t hpre hdue => ?_) ⟨rfl, rfl⟩
      rw [List.length_nil, Nat.cast_zero, zero_add] at hdue
      exact hstep _ pre e x t hpre hdue
    rw [List.nil_append] at hrel
    show Turn.map _ (.go (reportLoop _ _ _ _ _)) = Turn.map _ (.go (reportTool (asked opts) es))
    generalize reportLoop (cycleOn limit _) _ _ _ _ = x at hrel ⊢
    unfold reportTool
    generalize reportLoop (Zsr.toolCycle _) _ _ _ _ = y at hrel ⊢
    cases hrel with
    | finished hes h => simp only [Turn.map, Outcome.map, h.1]
    | running h => simp only [Turn.map, Outcome.map, h.1]
    | crashed => rfl

theorem toolMain_unnoticed_disk :
    (toolMain 4 [.all, .count "2".toList] [oneDisk, oneDisk]).map (Outcome.map fun x => x.1.out) =
      (Zsr.toolMain [.all, .count "2".toList] [oneDisk, oneDisk]).map (Outcome.map Tool.out) :=
  toolMain_unnoticed _ (by decide)

end Zsr.Stdio
