import Zsr.Gauges
import Zsr.IoStat
import Zsr.Latest
import Zsr.CLib.Loop
import Zsr.CLib.Streams

namespace Zsr.Stdio
open CLib

/-- What is still to be read of an open file or directory. -/
inductive OpenFile
  | file (text : Text)
  | diskstats (text : Text)
  | dir (entries : List ProcDir)
  | mtab (entries : List Mntent)

abbrev StdioM := StreamM OpenFile

def OpenFile.size : OpenFile → ℕ
  | file text | diskstats text => text.length
  | dir entries => entries.length
  | mtab entries => entries.length

def OpenFile.line (n : ℕ) : OpenFile → Option (Text × OpenFile)
  | file text => (CLib.fgets n text).map fun (buf, rest) => (cstr buf, file rest)
  | diskstats text => (CLib.fgets n text).map fun (buf, rest) => (cstr buf, diskstats rest)
  | dir _ | mtab _ => none

/-- `fscanf(fp, "%lu", ..)`; nothing is read behind a scan that fails. -/
def OpenFile.number : OpenFile → Option (UInt64 × OpenFile)
  | file text => (scanLu text).map fun (v, rest) => (v, file rest)
  | diskstats text => (scanLu text).map fun (v, rest) => (v, diskstats rest)
  | dir _ | mtab _ => none

def OpenFile.dirent : OpenFile → Option (ProcDir × OpenFile)
  | dir (d :: entries) => some (d, dir entries)
  | file _ | diskstats _ | dir [] | mtab _ => none

def OpenFile.mntent : OpenFile → Option (Mntent × OpenFile)
  | mtab (mn :: entries) => some (mn, mtab entries)
  | file _ | diskstats _ | dir _ | mtab [] => none

theorem items_line {n : ℕ} {c : Text → OpenFile} (hc : ∀ text, (c text).line n =
      (CLib.fgets n text).map fun (buf, rest) => (cstr buf, c rest)) (fuel : ℕ) (text : Text) :
    items (OpenFile.line n) fuel (c text) = fgetsUpTo n fuel text := by
  induction fuel generalizing text with
  | zero => rfl
  | succ fuel ih =>
    rw [items, fgetsUpTo, hc]
    cases CLib.fgets n text with
    | none => rfl
    | some x => exact congrArg (cstr x.1 :: ·) (ih x.2)

theorem items_file (n : ℕ) (text : Text) :
    items (OpenFile.line n) (OpenFile.file text).size (.file text) = fgetsLines n text :=
  items_line (fun _ => rfl) text.length text

theorem items_diskstats (n : ℕ) (text : Text) :
    items (OpenFile.line n) (OpenFile.diskstats text).size (.diskstats text) = fgetsLines n text :=
  items_line (fun _ => rfl) text.length text

theorem items_dirent (entries : List ProcDir) :
    items OpenFile.dirent (OpenFile.dir entries).size (.dir entries) = entries := by
  induction entries with
  | nil => rfl
  | cons d entries ih => exact congrArg (d :: ·) ih

theorem items_mntent (entries : List Mntent) :
    items OpenFile.mntent (OpenFile.mtab entries).size (.mtab entries) = entries := by
  induction entries with
  | nil => rfl
  | cons mn entries ih => exact congrArg (mn :: ·) ih

section Shapes

variable {ι σ β : Type}

/-- `fopen`, `other` where it fails, a loop of `fgets` with the body `turn`, `fclose`, and the
rest of the function. -/
def readLines (limit n : ℕ) (file : Option Text) (other : Option β)
    (turn : Text → σ → Option (ForInStep σ)) (s : σ) (rest : σ → Option β) : StdioM β :=
  ifOpened limit (file.map .file) (StateT.lift other) fun fp => do
    let s ← whileItems OpenFile.size (OpenFile.line n) fp
      (fun buf s => StateT.lift (turn buf s)) s
    closeStream fp
    StateT.lift (rest s)

/-- The same with one read, whose result is looked at in `rest`. -/
def readOnce (limit : ℕ) (step : OpenFile → Option (ι × OpenFile)) (file : Option Text)
    (other : Option β) (rest : Option ι → Option β) : StdioM β :=
  ifOpened limit (file.map .file) (StateT.lift other) fun fp => do
    let item ← nextItem step fp
    closeStream fp
    StateT.lift (rest item)

theorem readLines_counts {limit n : ℕ} {file : Option Text} {other : Option β}
    {turn : Text → σ → Option (ForInStep σ)} {s : σ} {rest : σ → Option β} :
    Counts (readLines limit n file other turn s rest)
      (balanced fun m => (avail limit m file).elim other fun text =>
        (forIn (fgetsLines n text) s turn).bind rest) := by
  refine Counts.closing (.lift other) (f := fun text _ => forIn (fgetsLines n text) s turn)
    (fun fp text => ?_) fun s => .lift (rest s)
  rw [← items_file]
  exact .whileBalanced (fun buf s => .lift (turn buf s)) s

theorem readOnce_counts {limit : ℕ} {step : OpenFile → Option (ι × OpenFile)}
    {file : Option Text} {other : Option β} {rest : Option ι → Option β} :
    Counts (readOnce limit step file other rest)
      (balanced fun m => (avail limit m file).elim other fun text =>
        rest ((step (.file text)).map Prod.fst)) :=
  .closing (.lift other) (fun fp text => .next step fp (.file text)) fun item => .lift (rest item)

end Shapes

section Readers

variable (limit : ℕ)

def readCpuStat (procStat : Option Text) (cpu : CpuStat) : StdioM CpuStat :=
  readLines limit LEN_128 procStat (some cpu) (fun buf cpu =>
    some (if "cpu ".toList <+: buf then .done (cpu.store (scanLus 10 (buf.drop 4)))
      else .yield cpu)) cpu some

/-- The program exits when `/proc/stat` cannot be opened. -/
def getNumOfCpu (procStat : Option Text) : StdioM UInt32 :=
  readLines limit 16 procStat none (fun line (s : Option Int32 × Int32) =>
    if ¬"cpu ".toList <+: line ∧ "cpu".toList <+: line then
      (((scanD (line.drop 3)).map Prod.fst).or s.1).map fun n =>
        .yield (some n, if s.2 < n then n else s.2)
    else some (.yield s)) (none, -1) fun s =>
      if s.2 = Int32.maxValue then none else some (s.2 + 1).toUInt32

def getGateway (route : Option Text) (gateway : Gateway) : StdioM Gateway :=
  readLines limit LEN_256 route (some gateway) (fun buf gateway =>
    let (hexDest, hexGateway, hexFlag) := scanRoute buf
    some (if hexFlag = 3 ∧ hexDest = 0 ∧ hexGateway ≠ 0 then
        .done { addr := strncpy LEN_64 (inetNtoa hexGateway.toUInt32) }
      else .yield gateway)) gateway some

def readLoadStat (loadavg : Option Text) (load : LoadStat) : StdioM LoadStat :=
  readOnce limit (OpenFile.line LEN_128) loadavg (some load) fun line =>
    -- without a line `buf` was never written
    line.map fun buf =>
      let v := (scanFs 3 buf).map Double.fin
      { oneMin := v.getD 0 load.oneMin
        fiveMin := v.getD 1 load.fiveMin
        fifteenMin := v.getD 2 load.fifteenMin }

def readMemStat (meminfo : Option Text) (mem : MemStat) : StdioM MemStat :=
  readLines limit LEN_128 meminfo (some mem) (fun buf mem =>
    some (if "MemTotal:".toList <+: buf then
        .yield { mem with totalKb := storeLu mem.totalKb (buf.drop 9) }
      else if "MemFree:".toList <+: buf then
        .yield { mem with freeKb := storeLu mem.freeKb (buf.drop 8) }
      else .done mem)) mem fun mem => some { mem with usedKb := mem.totalKb - mem.freeKb }

def readSwapStat (meminfo : Option Text) (swap : SwapStat) : StdioM SwapStat :=
  readLines limit LEN_128 meminfo (some swap) (fun line swap =>
    some (if "SwapTotal:".toList <+: line then
        .yield { swap with totalKb := storeLu swap.totalKb (line.drop 10) }
      else if "SwapFree:".toList <+: line then
        .done { swap with freeKb := storeLu swap.freeKb (line.drop 9) }
      else .yield swap)) swap fun swap => some { swap with usedKb := swap.totalKb - swap.freeKb }

def readUptimeStat (procUptime : Option Text) (up : Uptime) : StdioM Uptime :=
  readOnce limit OpenFile.number procUptime (some up) fun totalSec =>
    some (setUptime (totalSec.getD 0))

def readUptimeInJiffies (hz : UInt32) (procUptime : Option Text) : StdioM UInt64 :=
  readOnce limit (OpenFile.line LEN_128) procUptime (some 0) fun line =>
    line.elim (some 0) fun line => (scanUptime line).map fun (upSec, upCent) =>
      upSec * hz.toUInt64 + upCent * hz.toUInt64 / 100

def getCpuTimeInJiffies (procStat : Option Text) : StdioM UInt64 := do
  let stat ← readCpuStat limit procStat {}
  pure (sumCpuStat stat)

def smpUptime (numOfCpu hz : UInt32) (procUptime : Option Text) : StdioM UInt64 :=
  if 1 < numOfCpu then readUptimeInJiffies limit hz procUptime else pure 0

/-- The body of the loop of `read_io_stat`, with the number of the line and the nodes. -/
def ioTurn (env : IoEnv) (numOfCpu hz : UInt32) (buf : Text) (s : ℕ × List Io) :
    StdioM (ForInStep (ℕ × List Io)) := do
  let uptime ← getCpuTimeInJiffies limit (env.stat s.1)
  let uptime0 ← smpUptime limit numOfCpu hz (env.uptime s.1)
  let ret ← StateT.lift (scanDisk buf)
  pure (ret.elim (.done s) fun (dev, v) =>
    .yield (s.1 + 1, s.2 ++ [Io.ofLine uptime uptime0 dev v]))

/-- There is no `fclose`, on neither way out of the loop. -/
def readIoStat (env : IoEnv) : StdioM (IoStatics × List Io) := do
  let numOfCpu ← getNumOfCpu limit env.cpus
  let hz ← StateT.lift (getHZ env.ticks)
  ifOpened limit (env.diskstats.map .diskstats) (pure (⟨hz, numOfCpu⟩, [])) fun fp => do
    let s ← whileItems OpenFile.size (OpenFile.line LEN_256) fp (ioTurn limit env numOfCpu hz)
      (0, [])
    pure (⟨hz, numOfCpu⟩, s.2)

def readPidStat (stat : Option Text) (proc : Proc) : StdioM Proc :=
  readOnce limit (OpenFile.line LEN_512) stat (some proc) fun line =>
    line.elim (some proc) fun buf =>
      match tokens ' ' buf with
      | [] => none
      | cols => statColumns 0 0 0 proc cols

def readPidStatus (status : Option Text) (getpwuid : UInt32 → Option Passwd)
    (getgrgid : UInt32 → Option Text) (proc : Proc) : StdioM Proc :=
  readLines limit LEN_128 status (some proc) (fun buf (s : UInt32 × Proc) =>
    some (if "Uid:".toList <+: buf then
        .yield (((scanU (buf.drop 4)).map Prod.fst).getD s.1, s.2)
      else if "VmSize:".toList <+: buf then
        .yield (s.1, { s.2 with virtMemKb := storeLu s.2.virtMemKb (buf.drop 7) })
      else if "VmRSS:".toList <+: buf then
        .done (s.1, { s.2 with resMemKb := storeLu s.2.resMemKb (buf.drop 6) })
      else .yield s)) (0, proc) fun (uid, proc) =>
    match getpwuid uid with
    | none => none
    | some pw =>
      let user := cstr pw.name
      if user.length < LEN_128 then
        match (getgrgid pw.gid).map cstr with
        | none => some { proc with user := user }
        | some group =>
          if group.length < LEN_128 then some { proc with user := user, group := group } else none
      else none

def storeSinglePidInfo (env : ProcEnv) (d : ProcDir) (proc : Proc) : StdioM Proc := do
  let cpu ← readCpuStat limit d.procStat {}
  let proc ← readPidStat limit d.stat proc
  let proc ← StateT.lift (readPidExe d.exe proc)
  let proc ← readPidStatus limit d.status env.getpwuid env.getgrgid proc
  pure (setPidMemUntil d.totalram (setSysCpuTime cpu proc))

def getAllProc (env : ProcEnv) : StdioM (List Proc) :=
  ifOpened limit (env.dirs.map .dir) (pure []) fun fp => do
    let nodes ← whileItems OpenFile.size OpenFile.dirent fp (fun d nodes =>
      if d.isProc then do
        let node ← storeSinglePidInfo limit env d {}
        pure (.yield (nodes ++ [node]))
      else pure (.yield nodes)) []
    closeStream fp
    pure nodes

def readFsStat (mtab : Option (List Mntent)) : StdioM (List FsStat) :=
  ifOpened limit (mtab.map .mtab) (pure []) fun fp => do
    let nodes ← whileItems OpenFile.size OpenFile.mntent fp (fun mn nodes =>
      pure (.yield (if "/".toList <+: mn.fsname then
          nodes ++ [setFsStat mn.statfs { mn.garbage with
            mntFsname := strncpy LEN_1024 mn.fsname
            mntDir := strncpy LEN_1024 mn.dir
            mntType := strncpy LEN_32 mn.type }]
        else nodes))) []
    closeStream fp
    pure nodes

end Readers

section Found

variable {limit : ℕ}

theorem readCpuStat_counts (procStat : Option Text) (cpu : CpuStat) :
    Counts (readCpuStat limit procStat cpu)
      (balanced fun n => some (Zsr.readCpuStat (avail limit n procStat) cpu)) := by
  refine Counts.congr readLines_counts fun n => ?_
  cases avail limit n procStat with
  | none => rfl
  | some text =>
    rw [Option.elim_some, Zsr.readCpuStat]
    induction fgetsLines LEN_128 text generalizing cpu with
    | nil => rfl
    | cons buf bufs ih =>
      rw [List.forIn_cons, readCpuLines]
      split
      · rfl
      · exact ih cpu

theorem getNumOfCpu_counts (procStat : Option Text) :
    Counts (getNumOfCpu limit procStat)
      (balanced fun n => Zsr.getNumOfCpu (avail limit n procStat)) := by
  refine Counts.congr readLines_counts fun n => ?_
  cases avail limit n procStat with
  | none => rfl
  | some text =>
    show Option.bind (forIn (fgetsLines 16 text) (none, -1) _) _ =
      Option.bind (countCpus none (-1) (fgetsLines 16 text)) _
    generalize (none : Option Int32) = cpuNum
    generalize (-1 : Int32) = numOfCpu
    induction fgetsLines 16 text generalizing cpuNum numOfCpu with
    | nil => rfl
    | cons line lines ih =>
      rw [List.forIn_cons, countCpus]
      split
      · cases (Option.map Prod.fst (scanD (line.drop 3))).or cpuNum with
        | none => rfl
        | some n => exact ih (some n) _
      · exact ih cpuNum numOfCpu

theorem getGateway_counts (route : Option Text) (gateway : Gateway) :
    Counts (getGateway limit route gateway)
      (balanced fun n => some (Zsr.getGateway (avail limit n route) gateway)) := by
  refine Counts.congr readLines_counts fun n => ?_
  cases avail limit n route with
  | none => rfl
  | some text =>
    rw [Option.elim_some, Zsr.getGateway]
    induction fgetsLines LEN_256 text with
    | nil => rfl
    | cons buf bufs ih =>
      rw [List.forIn_cons, routeLines]
      dsimp only
      split
      · rfl
      · exact ih

theorem readLoadStat_counts (loadavg : Option Text) (load : LoadStat) :
    Counts (readLoadStat limit loadavg load)
      (balanced fun n => Zsr.readLoadStat (avail limit n loadavg) load) := by
  refine Counts.congr readOnce_counts fun n => ?_
  cases avail limit n loadavg with
  | none => rfl
  | some text =>
    show Option.map _ (((fgets LEN_128 text).map _).map _) = (fgets LEN_128 text).map _
    rw [Option.map_map, Option.map_map]
    rfl

theorem readMemStat_counts (meminfo : Option Text) (mem : MemStat) :
    Counts (readMemStat limit meminfo mem)
      (balanced fun n => some (Zsr.readMemStat (avail limit n meminfo) mem)) := by
  refine Counts.congr readLines_counts fun n => ?_
  cases avail limit n meminfo with
  | none => rfl
  | some text =>
    rw [Option.elim_some, Zsr.readMemStat]
    induction fgetsLines LEN_128 text generalizing mem with
    | nil => rfl
    | cons buf bufs ih =>
      rw [List.forIn_cons, memLines]
      split
      · exact ih _
      · split
        · exact ih _
        · rfl

theorem readSwapStat_counts (meminfo : Option Text) (swap : SwapStat) :
    Counts (readSwapStat limit meminfo swap)
      (balanced fun n => some (Zsr.readSwapStat (avail limit n meminfo) swap)) := by
  refine Counts.congr readLines_counts fun n => ?_
  cases avail limit n meminfo with
  | none => rfl
  | some text =>
    rw [Option.elim_some, Zsr.readSwapStat]
    induction fgetsLines LEN_128 text generalizing swap with
    | nil => rfl
    | cons line lines ih =>
      rw [List.forIn_cons, swapLines]
      split
      · exact ih _
      · split
        · rfl
        · exact ih _

theorem readUptimeStat_counts (procUptime : Option Text) (up : Uptime) :
    Counts (readUptimeStat limit procUptime up)
      (balanced fun n => some (Zsr.readUptimeStat (avail limit n procUptime) up)) := by
  refine Counts.congr readOnce_counts fun n => ?_
  cases avail limit n procUptime with
  | none => rfl
  | some text =>
    show some (setUptime ((((scanLu text).map _).map _).getD 0)) = some (setUptime (storeLu 0 text))
    rw [Option.map_map]
    rfl

theorem readUptimeInJiffies_counts (hz : UInt32) (procUptime : Option Text) :
    Counts (readUptimeInJiffies limit hz procUptime)
      (balanced fun n => Zsr.readUptimeInJiffies hz (avail limit n procUptime)) := by
  refine Counts.congr readOnce_counts fun n => ?_
  cases avail limit n procUptime with
  | none => rfl
  | some text =>
    rw [Option.elim_some, Zsr.readUptimeInJiffies, Option.bind_some, OpenFile.line]
    cases fgets LEN_128 text <;> rfl

theorem getCpuTimeInJiffies_counts (procStat : Option Text) :
    Counts (getCpuTimeInJiffies limit procStat)
      (balanced fun n => some (Zsr.getCpuTimeInJiffies (avail limit n procStat))) :=
  (readCpuStat_counts procStat {}).bind_balanced fun stat => .pure (sumCpuStat stat)

theorem readPidStat_counts (stat : Option Text) (proc : Proc) :
    Counts (readPidStat limit stat proc)
      (balanced fun n => Zsr.readPidStat (avail limit n stat) proc) := by
  refine Counts.congr readOnce_counts fun n => ?_
  cases avail limit n stat with
  | none => rfl
  | some text =>
    rw [Option.elim_some, Zsr.readPidStat, Option.bind_some, OpenFile.line]
    cases fgets LEN_512 text <;> rfl

theorem readPidStatus_counts (status : Option Text) (getpwuid : UInt32 → Option Passwd)
    (getgrgid : UInt32 → Option Text) (proc : Proc) :
    Counts (readPidStatus limit status getpwuid getgrgid proc)
      (balanced fun n => Zsr.readPidStatus (avail limit n status) getpwuid getgrgid proc) := by
  refine Counts.congr readLines_counts fun n => ?_
  cases avail limit n status with
  | none => rfl
  | some text =>
    rw [Option.elim_some, Zsr.readPidStatus]
    generalize (0 : UInt32) = uid
    induction fgetsLines LEN_128 text generalizing uid proc with
    | nil => rfl
    | cons buf bufs ih =>
      rw [List.forIn_cons, statusLines]
      split
      · exact ih proc _
      · split
        · exact ih _ uid
        · split
          · rfl
          · exact ih proc uid

theorem readFsStat_counts (mtab : Option (List Mntent)) :
    Counts (readFsStat limit mtab)
      (balanced fun n => some (Zsr.readFsStat (avail limit n mtab))) := by
  refine Counts.congr (Counts.closing (.pure []) (fun fp entries => .whileBalanced
    (fun mn nodes => .pure _) []) .pure) fun n => ?_
  cases avail limit n mtab with
  | none => rfl
  | some entries =>
    rw [Option.elim_some, Option.bind_fun_some, items_mntent]
    exact (List.forIn_pure_yield_eq_foldl _ _).trans
      (congrArg some ((foldl_append_if _ _).trans (List.nil_append _)))

/-- The entry as it is found while `n` files are open. -/
def limitDir (limit n : ℕ) (d : ProcDir) : ProcDir :=
  { d with
    stat := avail limit n d.stat
    status := avail limit n d.status
    procStat := avail limit n d.procStat }

theorem storeSinglePidInfo_counts (env : ProcEnv) (d : ProcDir) (proc : Proc) :
    Counts (storeSinglePidInfo limit env d proc)
      (balanced fun n => Zsr.storeSinglePidInfo env (limitDir limit n d) proc) :=
  (readCpuStat_counts d.procStat {}).bind_balanced fun _ =>
    (readPidStat_counts d.stat proc).bind_balanced fun proc =>
      (Counts.lift (readPidExe d.exe proc)).bind_balanced fun proc =>
        (readPidStatus_counts d.status env.getpwuid env.getgrgid proc).bind_balanced fun _ =>
          .pure _

/-- `/proc` as it is found while `n` files are open; the scan itself opens one. -/
def limitProc (limit n : ℕ) (env : ProcEnv) : ProcEnv :=
  { env with dirs := (avail limit n env.dirs).map (List.map (limitDir limit (n + 1))) }

theorem getAllProc_counts (env : ProcEnv) :
    Counts (getAllProc limit env)
      (balanced fun n => Zsr.getAllProc (limitProc limit n env)) := by
  refine Counts.congr (Counts.closing (.pure []) (fun fp entries => .whileBalanced
    (f := fun d nodes n => if d.isProc then
      (Zsr.storeSinglePidInfo env (limitDir limit n d) {}).bind fun node =>
        some (.yield (nodes ++ [node])) else some (.yield nodes)) (fun d nodes => ?_) []) .pure)
    fun n => ?_
  · split
    · exact (storeSinglePidInfo_counts env d {}).bind_balanced fun _ => .pure _
    · exact .pure _
  · unfold Zsr.getAllProc limitProc
    cases avail limit n env.dirs with
    | none => rfl
    | some entries =>
      have hproc : ProcDir.isProc ∘ limitDir limit (n + 1) = ProcDir.isProc := rfl
      rw [Option.elim_some, Option.bind_fun_some, items_dirent, forIn_append_if]
      simp only [Option.map_some, List.filter_map, hproc, List.mapM_map, List.nil_append]
      exact Option.map_id'

/-- What `/proc` holds for the module while `n` files are open. Behind the first `fopen` that is
not followed by `fclose`, one more is. -/
def limitIo (limit n : ℕ) (env : IoEnv) : IoEnv :=
  { env with
    cpus := avail limit n env.cpus
    diskstats := avail limit n env.diskstats
    stat := fun i => avail limit (n + 1) (env.stat i)
    uptime := fun i => avail limit (n + 1) (env.uptime i) }

/-- How many files are open after `read_io_stat` when `n` were before. -/
def openAfterIo (limit n : ℕ) (env : IoEnv) : ℕ :=
  if (avail limit n env.diskstats).isSome then n + 1 else n

def ioStep (env : IoEnv) (numOfCpu hz : UInt32) (buf : Text) (s : ℕ × List Io) :
    Option (ForInStep (ℕ × List Io)) :=
  (Zsr.smpUptime numOfCpu hz (env.uptime s.1)).bind fun uptime0 =>
    (scanDisk buf).map fun ret => ret.elim (.done s) fun (dev, v) =>
      .yield (s.1 + 1, s.2 ++ [Io.ofLine (Zsr.getCpuTimeInJiffies (env.stat s.1)) uptime0 dev v])

theorem smpUptime_counts (numOfCpu hz : UInt32) (procUptime : Option Text) :
    Counts (smpUptime limit numOfCpu hz procUptime)
      (balanced fun n => Zsr.smpUptime numOfCpu hz (avail limit n procUptime)) := by
  unfold smpUptime Zsr.smpUptime
  split
  · exact readUptimeInJiffies_counts hz procUptime
  · exact .pure 0

theorem ioTurn_counts (env : IoEnv) (numOfCpu hz : UInt32) (buf : Text) (s : ℕ × List Io) :
    Counts (ioTurn limit env numOfCpu hz buf s) (balanced fun n =>
      ioStep { env with
        stat := fun i => avail limit n (env.stat i)
        uptime := fun i => avail limit n (env.uptime i) } numOfCpu hz buf s) := by
  refine ((getCpuTimeInJiffies_counts (env.stat s.1)).bind_balanced fun uptime =>
    (smpUptime_counts numOfCpu hz (env.uptime s.1)).bind_balanced fun uptime0 =>
      (Counts.lift (scanDisk buf)).bind_balanced fun ret => .pure _).congr fun n => ?_
  rw [Option.bind_some, ioStep]
  cases Zsr.smpUptime numOfCpu hz (avail limit n (env.uptime s.1)) with
  | none => rfl
  | some uptime0 => cases scanDisk buf <;> rfl

theorem forIn_ioStep (env : IoEnv) (numOfCpu hz : UInt32) (i : ℕ) (nodes : List Io)
    (bufs : List Text) :
    (forIn bufs (i, nodes) (ioStep env numOfCpu hz)).map Prod.snd =
      (readIoLines env numOfCpu hz i bufs).map (nodes ++ ·) := by
  induction bufs generalizing i nodes with
  | nil => exact congrArg some (List.append_nil nodes).symm
  | cons buf bufs ih =>
    rw [List.forIn_cons, readIoLines, ioStep]
    cases Zsr.smpUptime numOfCpu hz (env.uptime i) with
    | none => rfl
    | some uptime0 =>
      cases scanDisk buf with
      | none => rfl
      | some ret =>
        cases ret with
        | none => exact congrArg some (List.append_nil nodes).symm
        | some x =>
          obtain ⟨dev, v⟩ := x
          let node := Io.ofLine (Zsr.getCpuTimeInJiffies (env.stat i)) uptime0 dev v
          refine (ih (i + 1) (nodes ++ [node])).trans ?_
          show _ = ((readIoLines env numOfCpu hz (i + 1) bufs).bind fun l =>
            some (node :: l)).map (nodes ++ ·)
          cases readIoLines env numOfCpu hz (i + 1) bufs with
          | none => rfl
          | some l => exact congrArg some (List.append_assoc nodes [node] l)

theorem readIoStat_counts (env : IoEnv) :
    Counts (readIoStat limit env) (fun n =>
      (Zsr.readIoStat (limitIo limit n env)).map fun r => (r, openAfterIo limit n env)) := by
  have hloop (numOfCpu hz : UInt32) (fp : ℕ) (text : Text) :
      CountsOwning fp (.diskstats text) (whileItems OpenFile.size (OpenFile.line LEN_256) fp
        (ioTurn limit env numOfCpu hz) (0, [])) (balanced fun n =>
          forIn (fgetsLines LEN_256 text) (0, []) (ioStep { env with
            stat := fun i => avail limit n (env.stat i)
            uptime := fun i => avail limit n (env.uptime i) } numOfCpu hz)) := by
    rw [← items_diskstats]
    exact .whileBalanced (ioTurn_counts env numOfCpu hz) (0, [])
  have hcounts : Counts (readIoStat limit env) _ :=
    (getNumOfCpu_counts env.cpus).bind fun numOfCpu =>
      (Counts.lift (getHZ env.ticks)).bind fun hz =>
        Counts.ifOpened (.pure ((⟨hz, numOfCpu⟩, []) : IoStatics × List Io)) fun fp text =>
          ((hloop numOfCpu hz fp text).bind fun s =>
            Counts.pure ((⟨hz, numOfCpu⟩, s.2) : IoStatics × List Io)).using
  convert hcounts using 1
  funext n
  unfold Zsr.readIoStat
  show Option.map _ (Option.bind (Zsr.getNumOfCpu (avail limit n env.cpus)) _) =
    Option.bind (Option.map _ (Zsr.getNumOfCpu (avail limit n env.cpus))) _
  cases Zsr.getNumOfCpu (avail limit n env.cpus) with
  | none => rfl
  | some numOfCpu =>
    show Option.map _ (Option.bind (getHZ env.ticks) _) =
      Option.bind (Option.map _ (getHZ env.ticks)) _
    cases getHZ env.ticks with
    | none => rfl
    | some hz =>
      have hdisk : (limitIo limit n env).diskstats = avail limit n env.diskstats := rfl
      rw [Option.bind_some, hdisk, openAfterIo, Option.map_some, Option.bind_some]
      show _ = countOpened limit env.diskstats _ _ n
      rw [countOpened]
      cases avail limit n env.diskstats with
      | none => rfl
      | some text =>
        let out : Option (ℕ × List Io) := forIn (fgetsLines LEN_256 text) (0, [])
          (ioStep (limitIo limit n env) numOfCpu hz)
        have hnodes : readIoLines (limitIo limit n env) numOfCpu hz 0 (fgetsLines LEN_256 text) =
            out.map Prod.snd :=
          Option.map_id'.symm.trans (forIn_ioStep _ numOfCpu hz 0 [] _).symm
        show Option.map _ (Option.bind (readIoLines _ _ _ _ _) _) =
          Option.bind (Option.map _ out) _
        rw [hnodes]
        cases out <;> rfl

theorem readIoStat_keepsOpen (env : IoEnv) :
    KeepsOpen (fun file => ∃ text, file = .diskstats text) (readIoStat limit env) := by
  refine (KeepsOpen.of_balanced (getNumOfCpu_counts env.cpus)).bind fun numOfCpu =>
    (KeepsOpen.lift (getHZ env.ticks)).bind fun hz =>
      .ifOpened (fun content hcontent => ?_) (.pure _) fun fp =>
        (KeepsOpen.whileItems (fun c i rest hline hc => ?_)
          (fun buf s => .of_balanced (ioTurn_counts env numOfCpu hz buf s)) fp (0, [])).bind
            fun s => .pure _
  · obtain ⟨text, -, rfl⟩ := Option.map_eq_some_iff.mp hcontent
    exact ⟨text, rfl⟩
  · obtain ⟨text, rfl⟩ := hc
    obtain ⟨x, -, hx⟩ := Option.map_eq_some_iff.mp hline
    exact ⟨x.2, (Prod.mk.inj hx).2.symm⟩

end Found

end Zsr.Stdio
