import Zsr.Common
import Zsr.CpuStat

/-!
# The process table

`read_pid_stat`, `read_pid_exe` and `read_pid_status` on the files of one process, and
the scan of `/proc` over them. A file that cannot be opened is `none`; a result `none`
is undefined behaviour: a null pointer read or a string stored past its array.
-/

namespace Zsr
open CLib

/-- `proc_t`; a `char` array is kept as the string in it. -/
structure Proc where
  pid : UInt64 := 0
  state : Char := '\x00'
  ppid : UInt64 := 0
  user : Text := []
  group : Text := []
  virtMemKb : UInt64 := 0
  resMemKb : UInt64 := 0
  memUtil : Double := 0
  startTime : UInt64 := 0
  sysCpuTime : UInt64 := 0
  cpuTime : UInt64 := 0
  cpuUtil : Double := 0
  cmd : Text := []
  cmdPath : Text := []
  deriving DecidableEq, Inhabited

/-- `sscanf(s, "%lu", &x)`: without a number `x` keeps its value. -/
def storeLu (x : UInt64) (s : Text) : UInt64 := ((scanLu s).map Prod.fst).getD x

def storeCmd (proc : Proc) (col : Text) : Option Proc :=
  match (scanLit '(' col).bind fun r => scanUntil ')' r.2 with
  | none => some proc
  | some (w, _) => if w.length < LEN_256 then some { proc with cmd := w } else none

def statColumns (i : ℕ) (utime stime : UInt64) (proc : Proc) : List Text → Option Proc
  | [] => some { proc with cpuTime := utime + stime }
  | col :: cols =>
    match i + 1 with
    | 1 => statColumns 1 utime stime { proc with pid := storeLu proc.pid col } cols
    | 2 => (storeCmd proc col).bind fun proc => statColumns 2 utime stime proc cols
    | 3 =>
      let state := ((scanC col).map Prod.fst).getD proc.state
      statColumns 3 utime stime { proc with state := state } cols
    | 4 => statColumns 4 utime stime { proc with ppid := storeLu proc.ppid col } cols
    | 14 => statColumns 14 (storeLu utime col) stime proc cols
    | 15 => statColumns 15 utime (storeLu stime col) proc cols
    | 22 => some { proc with startTime := storeLu proc.startTime col, cpuTime := utime + stime }
    | i => statColumns i utime stime proc cols

/-- `read_pid_stat`. A line without a token is scanned through a null pointer. -/
def readPidStat (stat : Option Text) (proc : Proc) : Option Proc :=
  match stat.bind (fgets LEN_512) with
  | none => some proc
  | some (buf, _) =>
    match tokens ' ' (cstr buf) with
    | [] => none
    | cols => statColumns 0 0 0 proc cols

/-- `read_pid_exe`: the terminator goes behind what `readlink` stored. -/
def readPidExe (exe : Option Text) (proc : Proc) : Option Proc :=
  match exe with
  | none => some proc
  | some target =>
    if target.length < LEN_1024 then some { proc with cmdPath := cstr target } else none

structure Passwd where
  name : Text
  gid : UInt32

/-- What the loop of `read_pid_status` leaves in `uid` and in the entry. -/
def statusLines (uid : UInt32) (proc : Proc) : List Text → UInt32 × Proc
  | [] => (uid, proc)
  | buf :: bufs =>
    if "Uid:".toList <+: buf then
      statusLines (((scanU (buf.drop 4)).map Prod.fst).getD uid) proc bufs
    else if "VmSize:".toList <+: buf then
      statusLines uid { proc with virtMemKb := storeLu proc.virtMemKb (buf.drop 7) } bufs
    else if "VmRSS:".toList <+: buf then
      (uid, { proc with resMemKb := storeLu proc.resMemKb (buf.drop 6) })
    else statusLines uid proc bufs

/-- `read_pid_status`. The gid is read from the passwd entry whether there is one or not. -/
def readPidStatus (status : Option Text) (getpwuid : UInt32 → Option Passwd)
    (getgrgid : UInt32 → Option Text) (proc : Proc) : Option Proc :=
  match status with
  | none => some proc
  | some s =>
    let (uid, proc) := statusLines 0 proc (fgetsLines LEN_128 s)
    match getpwuid uid with
    | none => none
    | some pw =>
      let user := cstr pw.name
      if user.length < LEN_128 then
        match (getgrgid pw.gid).map cstr with
        | none => some { proc with user := user }
        | some group =>
          if group.length < LEN_128 then some { proc with user := user, group := group } else none
      else none

/-- `set_pid_mem_until`, with the `totalram` of a successful `sysinfo`. -/
def setPidMemUntil (totalram : Option UInt64) (proc : Proc) : Proc :=
  match totalram with
  | none => proc
  | some ram =>
    let util := Double.ofU64 proc.resMemKb * .fin 1024 * .fin 100 / Double.ofU64 ram
    { proc with memUtil := roundWithPrec util 2 }

def setSysCpuTime (cpu : CpuStat) (proc : Proc) : Proc :=
  { proc with
    sysCpuTime := cpu.guest + cpu.hardirq + cpu.idle + cpu.iowait + cpu.nice +
      cpu.number + cpu.softirq + cpu.steal + cpu.sys + cpu.user }

/-- An entry of `/proc` and what its files hold when they are opened. -/
structure ProcDir where
  name : Text
  /-- `stat` succeeds on the entry and it is a directory. -/
  isDir : Bool
  stat : Option Text
  exe : Option Text
  status : Option Text
  /-- `/proc/stat` at the time the entry is visited. -/
  procStat : Option Text
  totalram : Option UInt64

structure ProcEnv where
  /-- What `readdir` returns; `none` when `/proc` cannot be opened. -/
  dirs : Option (List ProcDir)
  getpwuid : UInt32 → Option Passwd
  getgrgid : UInt32 → Option Text

def storeSinglePidInfo (env : ProcEnv) (d : ProcDir) (proc : Proc) : Option Proc := do
  let cpu := readCpuStat d.procStat {}
  let proc ← readPidStat d.stat proc
  let proc ← readPidExe d.exe proc
  let proc ← readPidStatus d.status env.getpwuid env.getgrgid proc
  some (setPidMemUntil d.totalram (setSysCpuTime cpu proc))

def ProcDir.isProc (d : ProcDir) : Bool :=
  d.name.head? != some '.' && d.isDir && isDigit d.name == some true

def getAllProc (env : ProcEnv) : Option (List Proc) :=
  match env.dirs with
  | none => some []
  | some dirs => (dirs.filter ProcDir.isProc).mapM fun d => storeSinglePidInfo env d {}

end Zsr
