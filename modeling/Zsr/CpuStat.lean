import Zsr.Define
import Zsr.CLib.Binary64
import Zsr.CLib.Scan
import Zsr.CLib.Word
import Mathlib.Tactic.Linarith
import Mathlib.Tactic.NormNum
import Mathlib.Tactic.Positivity

/-!
# The cpu module

`read_cpu_stat` and `compute_cpu_stat`, and the functions of `mod_cpu.c` over them.
A file that cannot be opened is `none`.
-/

namespace Zsr
open CLib

structure CpuStat where
  user : UInt64 := 0
  nice : UInt64 := 0
  sys : UInt64 := 0
  idle : UInt64 := 0
  iowait : UInt64 := 0
  steal : UInt64 := 0
  hardirq : UInt64 := 0
  softirq : UInt64 := 0
  guest : UInt64 := 0
  number : UInt64 := 0
  deriving DecidableEq, Inhabited

structure Cpu where
  idle : Double := 0
  util : Double := 0
  wa : Double := 0
  stat : CpuStat := {}
  deriving DecidableEq, Inhabited

/-- Storing what the scan converted; a field behind the last conversion keeps its value. -/
def CpuStat.store (cpu : CpuStat) (v : List UInt64) : CpuStat where
  user := v.getD 0 cpu.user
  nice := v.getD 1 cpu.nice
  sys := v.getD 2 cpu.sys
  idle := v.getD 3 cpu.idle
  iowait := v.getD 4 cpu.iowait
  steal := v.getD 5 cpu.steal
  hardirq := v.getD 6 cpu.hardirq
  softirq := v.getD 7 cpu.softirq
  guest := v.getD 8 cpu.guest
  number := v.getD 9 cpu.number

def readCpuLines (cpu : CpuStat) : List Text → CpuStat
  | [] => cpu
  | buf :: bufs =>
    if "cpu ".toList <+: buf then cpu.store (scanLus 10 (buf.drop 4)) else readCpuLines cpu bufs

def readCpuStat (procStat : Option Text) (cpu : CpuStat) : CpuStat :=
  match procStat with
  | none => cpu
  | some s => readCpuLines cpu (fgetsLines LEN_128 s)

/-- `guest` and `number` stay out: `user` and `nice` already include them. -/
def sumCpuStat (stat : CpuStat) : UInt64 :=
  stat.hardirq + stat.idle + stat.iowait + stat.nice +
    stat.softirq + stat.steal + stat.sys + stat.user

/-- `compute_cpu_stat`, each operation on doubles rounded by `fl`. The total is unsigned, so its
test for `<= 0` is one for zero. -/
def computeCpuStatBy (fl : ℚ → ℚ) (cur pre : Cpu) : Cpu :=
  let cs := cur.stat
  let ps := pre.stat
  let curTotal := sumCpuStat cs
  let preTotal := sumCpuStat ps
  let total := curTotal - preTotal
  -- the first time
  if preTotal = 0 then cur
  -- no tick
  else if total ≤ 0 then cur
  else
    let idle := Double.percentOf fl ((cs.idle - ps.idle) + (cs.steal - ps.steal)) total
    { cur with
      idle := idle
      util := (.fin 100 - idle).map fl
      wa := Double.percentOf fl (cs.iowait - ps.iowait) total }

def computeCpuStat (cur pre : Cpu) : Cpu := computeCpuStatBy id cur pre

namespace ModCpu

/-- `collect_record` once `read_cpu_stat` has delivered the snapshot. -/
def collectSnapshot (stat : CpuStat) (recordList : List Cpu) : List Cpu :=
  let entry : Cpu := { stat := stat }
  match recordList.getLast? with
  | none => [entry]
  | some prev => recordList ++ [computeCpuStat entry prev]

def collectRecord (procStat : Option Text) (recordList : List Cpu) : List Cpu :=
  collectSnapshot (readCpuStat procStat {}) recordList

def row (entry : Cpu) : Text :=
  "cpu=".toList ++ entry.idle.format2 ++ ',' :: entry.util.format2 ++
    ',' :: entry.wa.format2 ++ ";\n".toList

end ModCpu

/-- The sum of the eight counters of the total, without wrapping. -/
def CpuStat.total (s : CpuStat) : ℕ :=
  s.user.toNat + s.nice.toNat + s.sys.toNat + s.idle.toNat + s.iowait.toNat + s.steal.toNat +
    s.hardirq.toNat + s.softirq.toNat

theorem sumCpuStat_toNat (s : CpuStat) : (sumCpuStat s).toNat = s.total % 2 ^ 64 := by
  simp only [sumCpuStat, UInt64.toNat_add, CpuStat.total]
  omega

theorem sumCpuStat_toNat_of_lt {s : CpuStat} (h : s.total < 2 ^ 64) :
    (sumCpuStat s).toNat = s.total := by
  rw [sumCpuStat_toNat, Nat.mod_eq_of_lt h]

theorem sumCpuStat_inj_of_lt {s t : CpuStat} (hs : s.total < 2 ^ 64) (ht : t.total < 2 ^ 64) :
    sumCpuStat s = sumCpuStat t ↔ s.total = t.total := by
  rw [← UInt64.toNat_inj, sumCpuStat_toNat_of_lt hs, sumCpuStat_toNat_of_lt ht]

theorem sumCpuStat_eq_zero_iff {s : CpuStat} (hs : s.total < 2 ^ 64) :
    sumCpuStat s = 0 ↔ s.total = 0 := by
  rw [← UInt64.toNat_inj, sumCpuStat_toNat_of_lt hs]
  rfl

/-- None of the eight counters of the total goes back. -/
structure CpuStat.Le (s t : CpuStat) : Prop where
  user : s.user.toNat ≤ t.user.toNat
  nice : s.nice.toNat ≤ t.nice.toNat
  sys : s.sys.toNat ≤ t.sys.toNat
  idle : s.idle.toNat ≤ t.idle.toNat
  iowait : s.iowait.toNat ≤ t.iowait.toNat
  steal : s.steal.toNat ≤ t.steal.toNat
  hardirq : s.hardirq.toNat ≤ t.hardirq.toNat
  softirq : s.softirq.toNat ≤ t.softirq.toNat

theorem CpuStat.Le.total {s t : CpuStat} (h : s.Le t) : s.total ≤ t.total := by
  obtain ⟨h1, h2, h3, h4, h5, h6, h7, h8⟩ := h
  unfold CpuStat.total
  omega

theorem CpuStat.Le.part_le {s t : CpuStat} (h : s.Le t) :
    (t.idle.toNat - s.idle.toNat) + (t.steal.toNat - s.steal.toNat) +
      (t.iowait.toNat - s.iowait.toNat) ≤ t.total - s.total := by
  obtain ⟨h1, h2, h3, h4, h5, h6, h7, h8⟩ := h
  unfold CpuStat.total
  omega

theorem CpuStat.Le.toNat_sub {s t : CpuStat} (h : s.Le t) (ht : t.total < 2 ^ 64) :
    (sumCpuStat t - sumCpuStat s).toNat = t.total - s.total ∧
    ((t.idle - s.idle) + (t.steal - s.steal)).toNat =
      (t.idle.toNat - s.idle.toNat) + (t.steal.toNat - s.steal.toNat) ∧
    (t.iowait - s.iowait).toNat = t.iowait.toNat - s.iowait.toNat := by
  have hst := h.total
  have hp := h.part_le
  have hsT := sumCpuStat_toNat_of_lt (s := s) (by omega)
  have htT := sumCpuStat_toNat_of_lt ht
  refine ⟨?_, ?_, toNat_sub_of_le h.iowait⟩
  · rw [toNat_sub_of_le (by omega), htT, hsT]
  · rw [UInt64.toNat_add, toNat_sub_of_le h.idle, toNat_sub_of_le h.steal]
    omega

def Percent (d : Double) : Prop := ∃ x : ℚ, d = .fin x ∧ 0 ≤ x ∧ x ≤ 100

theorem percent_zero : Percent 0 := ⟨0, rfl, le_rfl, by norm_num⟩

theorem percentOf_percent_iff (a n : UInt64) :
    Percent (Double.percentOf binary64 a n) ↔ n.toNat ≠ 0 ∧ AtMostWhole a.toNat n.toNat := by
  by_cases hn : n.toNat = 0
  · refine iff_of_false ?_ fun h => h.1 hn
    rintro ⟨x, hx, -⟩
    obtain rfl : n = 0 := UInt64.toNat_inj.mp hn
    exact Double.percentOf_binary64_zero a x hx
  · rw [Double.percentOf_binary64 a hn, ← percent64_le_hundred_iff hn]
    constructor
    · rintro ⟨x, hx, -, h100⟩
      rw [Double.fin_inj] at hx
      exact ⟨hn, hx ▸ h100⟩
    · exact fun h => ⟨_, rfl, percent64_nonneg _ _, h.2⟩

section Interval

variable (fl : ℚ → ℚ) (cur pre : Cpu)

theorem computeCpuStatBy_stat : (computeCpuStatBy fl cur pre).stat = cur.stat := by
  unfold computeCpuStatBy
  simp only
  split_ifs <;> rfl

variable {cur pre}

theorem computeCpuStatBy_of_unmoved
    (h : sumCpuStat pre.stat = 0 ∨ sumCpuStat cur.stat = sumCpuStat pre.stat) :
    computeCpuStatBy fl cur pre = cur := by
  unfold computeCpuStatBy
  simp only
  split_ifs with h0 ht
  · rfl
  · rfl
  · rcases h with h | h
    · exact absurd h h0
    · exact absurd (by rw [h, UInt64.sub_self]; exact UInt64.le_refl 0) ht

theorem computeCpuStatBy_of_moved (h0 : sumCpuStat pre.stat ≠ 0)
    (ht : sumCpuStat cur.stat ≠ sumCpuStat pre.stat) :
    (sumCpuStat cur.stat - sumCpuStat pre.stat).toNat ≠ 0 ∧
      computeCpuStatBy fl cur pre =
        { cur with
          idle := Double.percentOf fl
            ((cur.stat.idle - pre.stat.idle) + (cur.stat.steal - pre.stat.steal))
            (sumCpuStat cur.stat - sumCpuStat pre.stat)
          util := (.fin 100 - Double.percentOf fl
            ((cur.stat.idle - pre.stat.idle) + (cur.stat.steal - pre.stat.steal))
            (sumCpuStat cur.stat - sumCpuStat pre.stat)).map fl
          wa := Double.percentOf fl (cur.stat.iowait - pre.stat.iowait)
            (sumCpuStat cur.stat - sumCpuStat pre.stat) } := by
  have hne : (sumCpuStat cur.stat - sumCpuStat pre.stat).toNat ≠ 0 := by
    rw [ne_eq, toNat_sub_eq_zero_iff]
    exact ht
  have hle : ¬sumCpuStat cur.stat - sumCpuStat pre.stat ≤ 0 := by
    intro h
    exact hne (Nat.le_zero.mp (UInt64.le_iff_toNat_le.mp h))
  refine ⟨hne, ?_⟩
  unfold computeCpuStatBy
  simp only [if_neg h0, if_neg hle]

end Interval

theorem computeCpuStat_stat (cur pre : Cpu) : (computeCpuStat cur pre).stat = cur.stat :=
  computeCpuStatBy_stat id cur pre

theorem computeCpuStat_of_unmoved {cur pre : Cpu}
    (h : sumCpuStat pre.stat = 0 ∨ sumCpuStat cur.stat = sumCpuStat pre.stat) :
    computeCpuStat cur pre = cur := computeCpuStatBy_of_unmoved id h

theorem computeCpuStat_of_moved (cur pre : Cpu) (h0 : sumCpuStat pre.stat ≠ 0)
    (ht : sumCpuStat cur.stat ≠ sumCpuStat pre.stat) :
    ∃ i w : ℚ,
      i = (((cur.stat.idle - pre.stat.idle) + (cur.stat.steal - pre.stat.steal)).toNat : ℚ) *
        100 / (sumCpuStat cur.stat - sumCpuStat pre.stat).toNat ∧
      w = ((cur.stat.iowait - pre.stat.iowait).toNat : ℚ) * 100 /
        (sumCpuStat cur.stat - sumCpuStat pre.stat).toNat ∧
      (sumCpuStat cur.stat - sumCpuStat pre.stat).toNat ≠ 0 ∧
      computeCpuStat cur pre =
        { cur with idle := .fin i, util := .fin (100 - i), wa := .fin w } := by
  obtain ⟨hne, hrec⟩ := computeCpuStatBy_of_moved id h0 ht
  have hq : ((sumCpuStat cur.stat - sumCpuStat pre.stat).toNat : ℚ) ≠ 0 := Nat.cast_ne_zero.mpr hne
  refine ⟨_, _, rfl, rfl, hne, ?_⟩
  rw [computeCpuStat, hrec]
  simp only [Double.percentOf_id, Double.ofU64_eq, Double.fin_mul, Double.fin_div hq,
    Double.fin_sub, Double.map_id]

end Zsr
