import Zsr.Common
import Zsr.Define
import Zsr.ProcTable

/-!
# The readers of the modules with one record

Gateway, load average, memory, swap, time and uptime. Each reader writes into the record
it is given; a file that cannot be opened is `none`, and a result `none` is undefined
behaviour.
-/

namespace Zsr
open CLib

/-- `gateway_t`, with its array of 64 bytes. -/
structure Gateway where
  addr : Text
  deriving DecidableEq

def Gateway.zeroed : Gateway := ⟨List.replicate LEN_64 '\x00'⟩

/-- The four bytes of an address as they lie in memory. -/
def inetNtoa (v : UInt32) : Text :=
  dec (v.toNat % 256) ++ '.' :: dec (v.toNat / 256 % 256) ++
    '.' :: dec (v.toNat / 65536 % 256) ++ '.' :: dec (v.toNat / 16777216)

/-- `sscanf(buf, "%*s%lx%lx%lx", ..)`: destination, gateway and flags. -/
def scanRoute (buf : Text) : UInt64 × UInt64 × UInt64 :=
  match scanS buf with
  | none => (0, 0, 0)
  | some (_, r) =>
    match scanLx r with
    | none => (0, 0, 0)
    | some (dest, r) =>
      match scanLx r with
      | none => (dest, 0, 0)
      | some (gateway, r) => (dest, gateway, ((scanLx r).map Prod.fst).getD 0)

def routeLines (gateway : Gateway) : List Text → Gateway
  | [] => gateway
  | buf :: bufs =>
    let (hexDest, hexGateway, hexFlag) := scanRoute buf
    if hexFlag = 3 ∧ hexDest = 0 ∧ hexGateway ≠ 0 then
      { addr := strncpy LEN_64 (inetNtoa hexGateway.toUInt32) }
    else routeLines gateway bufs

/-- `get_gateway`, on the text of `/proc/net/route`. -/
def getGateway (route : Option Text) (gateway : Gateway) : Gateway :=
  match route with
  | none => gateway
  | some s => routeLines gateway (fgetsLines LEN_256 s)

/-- `load_stat_t`; a `float` is kept exactly. -/
structure LoadStat where
  oneMin : Double := 0
  fiveMin : Double := 0
  fifteenMin : Double := 0
  deriving DecidableEq

/-- `read_load_stat`: the result of `fgets` is not looked at. -/
def readLoadStat (loadavg : Option Text) (load : LoadStat) : Option LoadStat :=
  match loadavg with
  | none => some load
  | some s =>
    (fgets LEN_128 s).map fun (buf, _) =>
      let v := (scanFs 3 (cstr buf)).map Double.fin
      { oneMin := v.getD 0 load.oneMin
        fiveMin := v.getD 1 load.fiveMin
        fifteenMin := v.getD 2 load.fifteenMin }

structure MemStat where
  totalKb : UInt64 := 0
  usedKb : UInt64 := 0
  freeKb : UInt64 := 0
  deriving DecidableEq

def memLines (mem : MemStat) : List Text → MemStat
  | [] => mem
  | buf :: bufs =>
    if "MemTotal:".toList <+: buf then
      memLines { mem with totalKb := storeLu mem.totalKb (buf.drop 9) } bufs
    else if "MemFree:".toList <+: buf then
      memLines { mem with freeKb := storeLu mem.freeKb (buf.drop 8) } bufs
    else mem

/-- `read_mem_stat`, on the text of `/proc/meminfo`. -/
def readMemStat (meminfo : Option Text) (mem : MemStat) : MemStat :=
  match meminfo with
  | none => mem
  | some s =>
    let mem := memLines mem (fgetsLines LEN_128 s)
    { mem with usedKb := mem.totalKb - mem.freeKb }

structure SwapStat where
  totalKb : UInt64 := 0
  usedKb : UInt64 := 0
  freeKb : UInt64 := 0
  deriving DecidableEq

def swapLines (swap : SwapStat) : List Text → SwapStat
  | [] => swap
  | line :: lines =>
    if "SwapTotal:".toList <+: line then
      swapLines { swap with totalKb := storeLu swap.totalKb (line.drop 10) } lines
    else if "SwapFree:".toList <+: line then
      { swap with freeKb := storeLu swap.freeKb (line.drop 9) }
    else swapLines swap lines

/-- `read_swap_stat`, on the text of `/proc/meminfo`. -/
def readSwapStat (meminfo : Option Text) (swap : SwapStat) : SwapStat :=
  match meminfo with
  | none => swap
  | some s =>
    let swap := swapLines swap (fgetsLines LEN_128 s)
    { swap with usedKb := swap.totalKb - swap.freeKb }

structure SysTime where
  timeInSec : Int64 := 0
  deriving DecidableEq

structure Uptime where
  totalSec : UInt64 := 0
  year : UInt64 := 0
  month : UInt64 := 0
  day : UInt64 := 0
  hour : UInt64 := 0
  minute : UInt64 := 0
  deriving DecidableEq

def setUptime (totalSec : UInt64) : Uptime :=
  let minuteSec := 60
  let hourSec := 3600
  let daySec := 86400
  let monthSec := 2592000
  let yearSec := 31536000
  let yearRest := totalSec % yearSec
  let monthRest := yearRest % monthSec
  let dayRest := monthRest % daySec
  let hourRest := dayRest % hourSec
  { totalSec := totalSec
    year := totalSec / yearSec
    month := yearRest / monthSec
    day := monthRest / daySec
    hour := dayRest / hourSec
    minute := hourRest / minuteSec }

/-- `read_uptime_stat`, on the text of `/proc/uptime`. -/
def readUptimeStat (procUptime : Option Text) (up : Uptime) : Uptime :=
  match procUptime with
  | none => up
  | some s => setUptime (storeLu 0 s)

def ModGateway.rowBy {M : Type → Type} [Monad M] (str : ℕ → Text → M Text) (entry : Gateway) :
    M Text := do
  let addr ← str 0 entry.addr
  pure ("gateway=".toList ++ addr ++ ";\n".toList)

def ModGateway.row : Gateway → Option Text := ModGateway.rowBy fun _ => cstrIn

def ModLoadAvg.row (entry : LoadStat) : Text :=
  "load_avg=".toList ++ entry.oneMin.format2 ++ ',' :: entry.fiveMin.format2 ++
    ',' :: entry.fifteenMin.format2 ++ ";\n".toList

def ModMem.row (entry : MemStat) : Text :=
  "mem=".toList ++ dec entry.totalKb.toNat ++ ',' :: dec entry.usedKb.toNat ++
    ',' :: dec entry.freeKb.toNat ++ ";\n".toList

def ModSwap.row (entry : SwapStat) : Text :=
  "swap=".toList ++ dec entry.totalKb.toNat ++ ',' :: dec entry.usedKb.toNat ++
    ',' :: dec entry.freeKb.toNat ++ ";\n".toList

def ModTime.row (entry : SysTime) : Text :=
  "time=".toList ++ dec entry.timeInSec.toUInt64.toNat ++ ";\n".toList

def ModUptime.row (entry : Uptime) : Text :=
  "uptime=".toList ++ dec entry.totalSec.toNat ++ ',' :: dec entry.year.toNat ++
    ',' :: dec entry.month.toNat ++ ',' :: dec entry.day.toNat ++
    ',' :: dec entry.hour.toNat ++ ',' :: dec entry.minute.toNat ++ ";\n".toList

end Zsr
