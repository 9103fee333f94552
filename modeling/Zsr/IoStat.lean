import Zsr.CpuStat

/-!
# The io module

`read_io_stat`, the clocks it reads, `compute_io_stat` and `collect_record` of `mod_io.c`.
A file that cannot be opened is `none`; a result `none` is undefined behaviour or `exit`.
-/

namespace Zsr
open CLib

structure IoStat where
  /-- From `/proc/stat`. -/
  uptime : UInt64 := 0
  /-- From `/proc/uptime`, on SMP machines only. -/
  uptime0 : UInt64 := 0
  rdSectors : UInt64 := 0
  wrSectors : UInt64 := 0
  rdIos : UInt64 := 0
  rdMerges : UInt64 := 0
  wrIos : UInt64 := 0
  wrMerges : UInt64 := 0
  rdTicks : UInt64 := 0
  wrTicks : UInt64 := 0
  iosPgr : UInt64 := 0
  totTicks : UInt64 := 0
  rqTicks : UInt64 := 0
  deriving DecidableEq, Inhabited

/-- `io_t`; `dev` is the string in the array. -/
structure Io where
  dev : Text := []
  tps : Double := 0
  readByte : UInt64 := 0
  wrtnByte : UInt64 := 0
  rrqmPerSec : Double := 0
  wrqmPerSec : Double := 0
  rPerSec : Double := 0
  wPerSec : Double := 0
  rSpeedPerSec : Double := 0
  wSpeedPerSec : Double := 0
  avgrqSz : Double := 0
  avgquSz : Double := 0
  await : Double := 0
  rAwait : Double := 0
  wAwait : Double := 0
  util : Double := 0
  stat : IoStat := {}
  deriving DecidableEq, Inhabited

/-- The loop of `get_num_of_cpu`; `cpuNum` is `none` as long as nothing was stored in it. -/
def countCpus (cpuNum : Option Int32) (numOfCpu : Int32) : List Text → Option Int32
  | [] => some numOfCpu
  | line :: lines =>
    if ¬"cpu ".toList <+: line ∧ "cpu".toList <+: line then
      match ((scanD (line.drop 3)).map Prod.fst).or cpuNum with
      | none => none
      | some n => countCpus (some n) (if numOfCpu < n then n else numOfCpu) lines
    else countCpus cpuNum numOfCpu lines

def getNumOfCpu (procStat : Option Text) : Option UInt32 := do
  let n ← countCpus none (-1) (fgetsLines 16 (← procStat))
  if n = Int32.maxValue then none else some (n + 1).toUInt32

def getHZ (ticks : ℤ) : Option UInt32 := if ticks = -1 then none else some (UInt32.ofInt ticks)

def getCpuTimeInJiffies (procStat : Option Text) : UInt64 := sumCpuStat (readCpuStat procStat {})

def scanUptime (line : Text) : Option (UInt64 × UInt64) := do
  let (upSec, r) ← scanLu line
  let (_, r) ← scanLit '.' r
  let (upCent, _) ← scanLu r
  some (upSec, upCent)

/-- `read_uptime_in_jiffies`: without both numbers it calculates with what is not there. -/
def readUptimeInJiffies (hz : UInt32) (procUptime : Option Text) : Option UInt64 :=
  match procUptime.bind (fgets LEN_128) with
  | none => some 0
  | some (line, _) =>
    (scanUptime (cstr line)).map fun (upSec, upCent) =>
      upSec * hz.toUInt64 + upCent * hz.toUInt64 / 100

/-- The scan of a line of `/proc/diskstats`: the name and the eleven counters, `some none`
when not everything was converted, `none` when the name does not fit in its array. -/
def scanDisk (buf : Text) : Option (Option (Text × List UInt64)) :=
  match (scanU buf).bind fun r => (scanU r.2).bind fun r => scanS r.2 with
  | none => some none
  | some (dev, r) =>
    if dev.length < LEN_64 then
      let v := scanLus 11 r
      some (if v.length = 11 then some (dev, v) else none)
    else none

def Io.ofLine (uptime uptime0 : UInt64) (dev : Text) (v : List UInt64) : Io where
  dev := dev
  stat := {
    uptime := uptime
    uptime0 := uptime0
    rdIos := v.getD 0 0
    rdMerges := v.getD 1 0
    rdSectors := v.getD 2 0
    rdTicks := v.getD 3 0
    wrIos := v.getD 4 0
    wrMerges := v.getD 5 0
    wrSectors := v.getD 6 0
    wrTicks := v.getD 7 0
    iosPgr := v.getD 8 0
    totTicks := v.getD 9 0
    rqTicks := v.getD 10 0 }

/-- What one collection meets. `stat` and `uptime` are the texts of `/proc/stat` and
`/proc/uptime` when the given line of `/proc/diskstats` is handled. -/
structure IoEnv where
  /-- `/proc/stat` when the CPUs are counted. -/
  cpus : Option Text
  /-- What `sysconf` returns. -/
  ticks : ℤ
  diskstats : Option Text
  stat : ℕ → Option Text
  uptime : ℕ → Option Text

/-- The node is zeroed, and only an SMP machine reads `/proc/uptime`. -/
def smpUptime (numOfCpu hz : UInt32) (procUptime : Option Text) : Option UInt64 :=
  if 1 < numOfCpu then readUptimeInJiffies hz procUptime else some 0

/-- The loop of `read_io_stat` from line `i` on; an unknown line ends it. -/
def readIoLines (env : IoEnv) (numOfCpu hz : UInt32) (i : ℕ) : List Text → Option (List Io)
  | [] => some []
  | buf :: bufs => do
    let uptime := getCpuTimeInJiffies (env.stat i)
    let uptime0 ← smpUptime numOfCpu hz (env.uptime i)
    match ← scanDisk buf with
    | none => some []
    | some (dev, v) =>
      let nodes ← readIoLines env numOfCpu hz (i + 1) bufs
      some (Io.ofLine uptime uptime0 dev v :: nodes)

structure IoStatics where
  hz : UInt32
  numOfCpu : UInt32
  deriving DecidableEq

/-- `read_io_stat`: the nodes, and the statics as it sets them before it reads. -/
def readIoStat (env : IoEnv) : Option (IoStatics × List Io) := do
  let numOfCpu ← getNumOfCpu env.cpus
  let hz ← getHZ env.ticks
  match env.diskstats with
  | none => some (⟨hz, numOfCpu⟩, [])
  | some s =>
    let nodes ← readIoLines env numOfCpu hz 0 (fgetsLines LEN_256 s)
    some (⟨hz, numOfCpu⟩, nodes)

section
variable (st : IoStatics)

/-- The interval between two samples, on the clock that the number of CPUs selects. -/
def ioInterval (cs ps : IoStat) : UInt64 :=
  if 1 < st.numOfCpu then cs.uptime0 - ps.uptime0 else cs.uptime - ps.uptime

def computeStat (c p itv : UInt64) : Double :=
  Double.ofU64 (c - p) / Double.ofU64 itv * Double.ofU64 st.hz.toUInt64

def factor : UInt64 := 1024 * 1024 / 512

def perOp (a n : UInt64) : Double := if n ≠ 0 then Double.ofU64 a / Double.ofU64 n else 0

/-- The body of the inner loop on entries of the same name. -/
def computeRates (curr prev : Io) : Io :=
  let cs := curr.stat
  let ps := prev.stat
  let itv := ioInterval st cs ps
  let csNrIos := cs.rdIos + cs.wrIos
  let psNrIos := ps.rdIos + ps.wrIos
  let changeNrIos := csNrIos - psNrIos
  let changeRdTicks := cs.rdTicks - ps.rdTicks
  let changeWrTicks := cs.wrTicks - ps.wrTicks
  let changeRdIos := cs.rdIos - ps.rdIos
  let changeWrIos := cs.wrIos - ps.wrIos
  let changeRdSectors := cs.rdSectors - ps.rdSectors
  let changeWrSectors := cs.wrSectors - ps.wrSectors
  { curr with
    tps := computeStat st (cs.rdIos + cs.wrIos) (ps.rdIos + ps.wrIos) itv
    readByte := changeRdSectors / factor
    wrtnByte := changeWrSectors / factor
    rrqmPerSec := computeStat st cs.rdMerges ps.rdMerges itv
    wrqmPerSec := computeStat st cs.wrMerges ps.wrMerges itv
    rPerSec := computeStat st cs.rdIos ps.rdIos itv
    wPerSec := computeStat st cs.wrIos ps.wrIos itv
    rSpeedPerSec := computeStat st cs.rdSectors ps.rdSectors itv / Double.ofU64 factor
    wSpeedPerSec := computeStat st cs.wrSectors ps.wrSectors itv / Double.ofU64 factor
    avgrqSz := perOp (changeRdSectors + changeWrSectors) changeNrIos
    avgquSz := computeStat st cs.rqTicks ps.rqTicks itv / .fin 1000
    await := perOp (changeRdTicks + changeWrTicks) changeNrIos
    rAwait := perOp changeRdTicks changeRdIos
    wAwait := perOp changeWrTicks changeWrIos
    util := computeStat st cs.totTicks ps.totTicks itv }

/-- The inner loop: the first entry of the same name counts. -/
def matchPrev (curr : Io) : List Io → Io
  | [] => curr
  | prev :: prevs => if curr.dev ≠ prev.dev then matchPrev curr prevs else computeRates st curr prev

theorem matchPrev_raw (curr : Io) (prevs : List Io) :
    (matchPrev st curr prevs).dev = curr.dev ∧ (matchPrev st curr prevs).stat = curr.stat := by
  induction prevs with
  | nil => exact ⟨rfl, rfl⟩
  | cons p prevs ih =>
    rw [matchPrev]
    split
    · exact ih
    · exact ⟨rfl, rfl⟩

def computeIoStat (currList prevList : List Io) : List Io × List Io :=
  (currList.map fun curr => matchPrev st curr prevList, prevList)

end

/-- `collect_record` of the module, on the lists held so far. -/
def ModIo.collectRecord (env : IoEnv) (recordList : List (List Io)) : Option (List (List Io)) := do
  let (st, curList) ← readIoStat env
  match recordList.getLast? with
  | none => some [curList]
  | some prevList =>
    let (curList, prevList) := computeIoStat st curList prevList
    some (recordList.dropLast ++ [prevList, curList])

end Zsr
