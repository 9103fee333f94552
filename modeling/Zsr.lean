import Zsr.CpuLine
import Zsr.CpuPercent
import Zsr.CpuReport
import Zsr.Diskstats
import Zsr.Divisors
import Zsr.IoClock
import Zsr.IoFigures
import Zsr.IoRun
import Zsr.IsDigit
import Zsr.ListList
import Zsr.ListRun
import Zsr.Log
import Zsr.MemRun
import Zsr.Nameservers
import Zsr.NumOfCpu
import Zsr.ProcRun
import Zsr.ProcUptime
import Zsr.Rounding
import Zsr.StringFields
import Zsr.SystemTime
import Zsr.UptimeUnits
