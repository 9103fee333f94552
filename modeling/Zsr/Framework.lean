import Zsr.IoStat
import Zsr.LatestQuery
import Zsr.ModProc
import Mathlib.Logic.Function.Basic

/-!
# The framework

The fourteen modules with their lists and records, and the body of the report loop over
them. A module's list is kept as the contents of its nodes; what a cycle meets is given
for each module by itself.
-/

namespace Zsr
open CLib

/-- The modules, in the order of `load_modules`. -/
inductive ModName
  | cpu
  | dns
  | fs
  | gateway
  | io
  | ip
  | loadAvg
  | mem
  | network
  | proc
  | swap
  | time
  | uptime
  | who
  deriving DecidableEq

def loadModules : List ModName :=
  [.cpu, .dns, .fs, .gateway, .io, .ip, .loadAvg, .mem, .network, .proc, .swap, .time, .uptime,
    .who]

theorem loadModules_nodup : loadModules.Nodup := by decide

theorem mem_loadModules (m : ModName) : m ∈ loadModules := by
  cases m <;> decide

section Collect

variable {ε : Type}

/-- `collect_record` of the modules with one record: it is allocated once and read into
again and again. -/
def collectSingle (read : ε → Option ε) (zeroed : ε) (recordList : List ε) : Option (List ε) :=
  match recordList.getLast? with
  | none => (read zeroed).map fun entry => [entry]
  | some entry => (read entry).map fun entry => recordList.dropLast ++ [entry]

theorem cycles_collectSingle {E : Type} (read : E → ε → ε) (zeroed : ε) (es : List E) (e : E) :
    cycles (fun e => collectSingle (fun x => some (read e x)) zeroed) (es ++ [e]) [] =
      some [(es ++ [e]).foldl (fun x e => read e x) zeroed] := by
  rw [cycles_concat, List.foldl_append, List.foldl_cons, List.foldl_nil]
  induction es using List.reverseRecOn generalizing e with
  | nil => rfl
  | append_singleton es e' ih =>
    rw [cycles_concat, ih e', Option.bind_some, List.foldl_append, List.foldl_cons, List.foldl_nil]
    rfl

end Collect

def ModGateway.collectRecord (route : Option Text) : List Gateway → Option (List Gateway) :=
  collectSingle (fun entry => some (getGateway route entry)) .zeroed

def ModLoadAvg.collectRecord (loadavg : Option Text) : List LoadStat → Option (List LoadStat) :=
  collectSingle (readLoadStat loadavg) {}

def ModMem.collectRecord (meminfo : Option Text) : List MemStat → Option (List MemStat) :=
  collectSingle (fun entry => some (readMemStat meminfo entry)) {}

def ModSwap.collectRecord (meminfo : Option Text) : List SwapStat → Option (List SwapStat) :=
  collectSingle (fun entry => some (readSwapStat meminfo entry)) {}

def ModTime.collectRecord (now : Int64) : List SysTime → Option (List SysTime) :=
  collectSingle (fun entry => some { entry with timeInSec := now }) {}

def ModUptime.collectRecord (procUptime : Option Text) : List Uptime → Option (List Uptime) :=
  collectSingle (fun entry => some (readUptimeStat procUptime entry)) {}

section Print

variable {ε : Type} (print : Text → ℕ → Text → Option Text) (row : ε → Option Text)

/-- `record_to_str` of the modules with one row: the last entry. -/
def lastToStr (recordList : List ε) (record : Text) : Option Text :=
  match recordList.getLast? with
  | none => some record
  | some entry => (row entry).bind (print record 0)

/-- `record_to_str` of the modules with the latest query: all entries. -/
def allToStr (recordList : List ε) (record : Text) : Option Text :=
  if recordList = [] then some record
  else (recordList.mapM row).bind fun rows => printRows print rows record 0

/-- `record_to_str` of the modules with a list of lists: the entries of the last one. -/
def innerToStr (recordList : List (List ε)) (record : Text) : Option Text :=
  match recordList.getLast? with
  | none => some record
  | some curList => (curList.mapM row).bind fun rows => printRows print rows record 0

end Print

abbrev sprintfRecord : Text → ℕ → Text → Option Text := sprintfAt LEN_1M

/-- `snprintf` into the record; the size it is given is that of the whole record. -/
abbrev snprintfRecord : Text → ℕ → Text → Option Text := snprintfAt LEN_1M LEN_1M

def ModCpu.recordToStr : List Cpu → Text → Option Text :=
  lastToStr snprintfRecord fun entry => some (ModCpu.row entry)

def ModDns.recordToStr : List Dns → Text → Option Text := allToStr sprintfRecord ModDns.row

def ModFs.recordToStr : List FsStat → Text → Option Text := allToStr snprintfRecord ModFs.row

def ModGateway.recordToStr : List Gateway → Text → Option Text :=
  lastToStr sprintfRecord ModGateway.row

def ModIo.row (entry : Io) : Text :=
  "io=".toList ++ entry.dev ++ ',' :: entry.tps.format2 ++
    ',' :: (entry.util / .fin 10).format2 ++ ',' :: entry.rrqmPerSec.format2 ++
    ',' :: entry.wrqmPerSec.format2 ++ ',' :: entry.rPerSec.format2 ++
    ',' :: entry.wPerSec.format2 ++ ',' :: entry.rSpeedPerSec.format2 ++
    ',' :: entry.wSpeedPerSec.format2 ++ ',' :: entry.avgrqSz.format2 ++
    ',' :: entry.avgquSz.format2 ++ ',' :: entry.await.format2 ++
    ',' :: entry.rAwait.format2 ++ ',' :: entry.wAwait.format2 ++ ";\n".toList

def ModIo.recordToStr : List (List Io) → Text → Option Text :=
  innerToStr snprintfRecord fun entry => some (ModIo.row entry)

def ModIp.recordToStr : List Interface → Text → Option Text := allToStr sprintfRecord ModIp.row

def ModLoadAvg.recordToStr : List LoadStat → Text → Option Text :=
  lastToStr snprintfRecord fun entry => some (ModLoadAvg.row entry)

def ModMem.recordToStr : List MemStat → Text → Option Text :=
  lastToStr snprintfRecord fun entry => some (ModMem.row entry)

def ModNetwork.recordToStr : List RtnlLink → Text → Option Text :=
  allToStr snprintfRecord ModNetwork.row

def ModSwap.recordToStr : List SwapStat → Text → Option Text :=
  lastToStr snprintfRecord fun entry => some (ModSwap.row entry)

def ModTime.recordToStr : List SysTime → Text → Option Text :=
  lastToStr snprintfRecord fun entry => some (ModTime.row entry)

def ModUptime.recordToStr : List Uptime → Text → Option Text :=
  lastToStr snprintfRecord fun entry => some (ModUptime.row entry)

def ModWho.recordToStr : List LoginUser → Text → Option Text :=
  allToStr snprintfRecord ModWho.row

namespace ModName

def optLine : ModName → Text
  | cpu => "--cpu".toList
  | dns => "--dns".toList
  | fs => "--fs".toList
  | gateway => "--gateway".toList
  | io => "--io".toList
  | ip => "--ip".toList
  | loadAvg => "--load_avg".toList
  | mem => "--mem".toList
  | network => "--network".toList
  | proc => "--proc".toList
  | swap => "--swap".toList
  | time => "--time".toList
  | uptime => "--uptime".toList
  | who => "--who".toList

theorem map_optLine : loadModules.map optLine = optLines := rfl

abbrev Env : ModName → Type
  | dns => LatestMod.dns.Env
  | fs => LatestMod.fs.Env
  | io => IoEnv
  | ip => LatestMod.ip.Env
  | network => LatestMod.network.Env
  | proc => ProcEnv
  | time => Int64
  | who => LatestMod.who.Env
  | cpu | gateway | loadAvg | mem | swap | uptime => Option Text

/-- What the nodes of `record_list` hold. -/
abbrev Rec : ModName → Type
  | cpu => Cpu
  | dns => Dns
  | fs => FsStat
  | gateway => Gateway
  | io => List Io
  | ip => Interface
  | loadAvg => LoadStat
  | mem => MemStat
  | network => RtnlLink
  | proc => List Proc
  | swap => SwapStat
  | time => SysTime
  | uptime => Uptime
  | who => LoginUser

def collectRecord : (m : ModName) → m.Env → List m.Rec → Option (List m.Rec)
  | cpu => fun env recordList => some (ModCpu.collectRecord env recordList)
  | dns => fun env => collectQuery (LatestMod.dns.entries env)
  | fs => fun env => collectQuery (LatestMod.fs.entries env)
  | gateway => ModGateway.collectRecord
  | io => ModIo.collectRecord
  | ip => fun env => collectQuery (LatestMod.ip.entries env)
  | loadAvg => ModLoadAvg.collectRecord
  | mem => ModMem.collectRecord
  | network => fun env => collectQuery (LatestMod.network.entries env)
  | proc => ModProc.collectRecord
  | swap => ModSwap.collectRecord
  | time => ModTime.collectRecord
  | uptime => ModUptime.collectRecord
  | who => fun env => collectQuery (LatestMod.who.entries env)

def recordToStr : (m : ModName) → List m.Rec → Text → Option Text
  | cpu => ModCpu.recordToStr
  | dns => ModDns.recordToStr
  | fs => ModFs.recordToStr
  | gateway => ModGateway.recordToStr
  | io => ModIo.recordToStr
  | ip => ModIp.recordToStr
  | loadAvg => ModLoadAvg.recordToStr
  | mem => ModMem.recordToStr
  | network => ModNetwork.recordToStr
  | proc => ModProc.recordToStr
  | swap => ModSwap.recordToStr
  | time => ModTime.recordToStr
  | uptime => ModUptime.recordToStr
  | who => ModWho.recordToStr

end ModName

/-- `module_t`, as far as a cycle changes it; all bytes of `record` behind the text are NUL. -/
structure Module (m : ModName) where
  record : Text := []
  recordList : List m.Rec := []

abbrev Modules := (m : ModName) → Module m

abbrev System := (m : ModName) → m.Env

/-- `collect_record` of the tool: every module collects, enabled or not. -/
def collectRecord (e : System) (mods : Modules) : Option Modules :=
  loadModules.foldlM (fun mods m => (m.collectRecord (e m) (mods m).recordList).map fun l =>
    Function.update mods m { mods m with recordList := l }) mods

/-- `print_mod_record`: the modules afterwards, and what is printed. -/
def printModRecord (enable : ModName → Bool) (mods : Modules) : Option (Modules × Text) :=
  loadModules.foldlM (fun (mods, out) m =>
    if enable m then
      -- the record is printed even where `record_to_str` has left it alone
      (m.recordToStr (mods m).recordList (mods m).record).map fun record =>
        (Function.update mods m { mods m with record := record }, out ++ cstr record)
    else some (mods, out)) (mods, [])

/-- The modules, and what each cycle has printed. -/
structure Tool where
  mods : Modules := fun _ => {}
  out : List Text := []

/-- The body of the loop of `main`, without the pause. -/
def toolCycle (enable : ModName → Bool) (e : System) (s : Tool) : Option Tool := do
  let mods ← collectRecord e s.mods
  let (mods, text) ← printModRecord enable mods
  some ⟨mods, s.out ++ [text]⟩

/-- Some cycles, from the registration of the modules on. -/
def toolRun (enable : ModName → Bool) (es : List System) : Option Tool :=
  cycles (toolCycle enable) es {}

end Zsr
