import Zsr.CLib.Word
import Zsr.ModProc
import Zsr.ReportLoop
import Mathlib.Algebra.BigOperators.Group.Finset.Basic
import Mathlib.Algebra.BigOperators.Ring.Finset

namespace Zsr
open CLib

/-- Samples in all of which a process stands at the same position, among distinct ones, and
whose ticks do not go back while the clock goes on. -/
structure KeepsPosition (pid : UInt64) (pos n : ℕ) (env : ℕ → ProcEnv) (sample : ℕ → List Proc)
    (p : ℕ → Proc) : Prop where
  read : ∀ k < n, getAllProc (env k) = some (sample k)
  distinct : ∀ k < n, ((sample k).map Proc.pid).Nodup
  allRead : ∀ k < n, 0 ∉ (sample k).map Proc.pid
  entry : ∀ k < n, (sample k)[pos]? = some (p k) ∧ (p k).pid = pid
  ticks : ∀ k, k + 1 < n → (p k).cpuTime ≤ (p (k + 1)).cpuTime
  clock : ∀ k, k + 1 < n → (p k).sysCpuTime < (p (k + 1)).sysCpuTime

def procReport (p : ℕ → Proc) : ℕ → Proc
  | 0 => p 0
  | k + 1 => { p (k + 1) with cpuUtil := (slotOf (p (k + 1)) (p k)).util id }

theorem procReport_raw (p : ℕ → Proc) (k : ℕ) : (procReport p k).pid = (p k).pid ∧
    ∀ e, slotOf e (procReport p k) = slotOf e (p k) := by
  cases k with
  | zero => exact ⟨rfl, fun _ => rfl⟩
  | succ k => exact ⟨rfl, fun _ => rfl⟩

theorem ModProc.collectRecord_concat {env : ProcEnv} {cur prev : List Proc}
    (h : getAllProc env = some cur) {l lists : List (List Proc)} (hl : l.getLast? = some prev)
    (hc : ModProc.collectRecord env l = some lists) :
    ∃ out, computeProcCpuStat cur prev = some out ∧ lists = l ++ [out] := by
  simp only [ModProc.collectRecord, h, hl, Option.bind_eq_bind, Option.bind_some,
    Option.bind_eq_some_iff, Option.some.injEq] at hc
  obtain ⟨out, hout, rfl⟩ := hc
  exact ⟨out, hout, rfl⟩

namespace KeepsPosition

variable {pid : UInt64} {pos n : ℕ} {env : ℕ → ProcEnv} {sample : ℕ → List Proc} {p : ℕ → Proc}

theorem init (h : KeepsPosition pid pos (n + 1) env sample p) :
    KeepsPosition pid pos n env sample p where
  read k hk := h.read k (by omega)
  distinct k hk := h.distinct k (by omega)
  allRead k hk := h.allRead k (by omega)
  entry k hk := h.entry k (by omega)
  ticks k hk := h.ticks k (by omega)
  clock k hk := h.clock k (by omega)

theorem lists (h : KeepsPosition pid pos n env sample p) {lists : List (List Proc)}
    (hrun : cycles ModProc.collectRecord ((List.range n).map env) [] = some lists) :
    lists.length = n ∧
      ∀ k < n, ∃ l, lists[k]? = some l ∧ l[pos]? = some (procReport p k) := by
  induction n generalizing lists with
  | zero =>
    obtain rfl := Option.some.inj hrun
    exact ⟨rfl, fun k hk => absurd hk (Nat.not_lt_zero k)⟩
  | succ n ih =>
    rw [List.range_succ, List.map_append, List.map_singleton, cycles_concat,
      Option.bind_eq_some_iff] at hrun
    obtain ⟨done, hdone, hc⟩ := hrun
    obtain ⟨hlen, hold⟩ := ih h.init hdone
    have hread := h.read n (Nat.lt_succ_self n)
    obtain ⟨hentry, hpid⟩ := h.entry n (Nat.lt_succ_self n)
    -- the newest list, behind the ones of the run so far
    obtain ⟨out, hout, rfl⟩ : ∃ out, out[pos]? = some (procReport p n) ∧
        lists = done ++ [out] := by
      cases n with
      | zero =>
        obtain rfl := List.length_eq_zero_iff.mp hlen
        simp only [ModProc.collectRecord, hread] at hc
        obtain rfl := Option.some.inj hc
        exact ⟨sample 0, hentry, rfl⟩
      | succ n =>
        obtain ⟨prev, hprev, hat⟩ := hold n (Nat.lt_succ_self n)
        have hlast : done.getLast? = some prev := by
          rw [List.getLast?_eq_getElem?, hlen]
          exact hprev
        obtain ⟨out, hout, hlists⟩ := ModProc.collectRecord_concat hread hlast hc
        obtain ⟨hprevPid, hslot⟩ := procReport_raw p n
        have hmem : (p (n + 1)).pid ∈ prev.map Proc.pid := by
          rw [hpid, ← (h.entry n (by omega)).2, ← hprevPid]
          exact List.mem_map_of_mem (List.mem_of_getElem? hat)
        have hget := ((computeProcCpuStat_getElem (h.distinct (n + 1) (by omega))
          (h.allRead (n + 1) (by omega)) hout).2 pos _ hentry).1 _ hmem hat
        rw [hslot] at hget
        exact ⟨out, hget, hlists⟩
    refine ⟨by rw [List.length_append, hlen]; rfl, fun k hk => ?_⟩
    rcases Nat.lt_succ_iff_lt_or_eq.mp hk with hk | rfl
    · obtain ⟨l, hl, hat⟩ := hold k hk
      exact ⟨l, by rw [List.getElem?_append_left (by omega)]; exact hl, hat⟩
    · exact ⟨out, by rw [← hlen, List.getElem?_concat_length], hout⟩

theorem report_util (h : KeepsPosition pid pos n env sample p) {k : ℕ} (hk : k + 1 < n) :
    ∃ q : ℚ, (procReport p (k + 1)).cpuUtil = .fin q ∧ 0 ≤ q ∧
      q * ((p (k + 1)).sysCpuTime.toNat - (p k).sysCpuTime.toNat) =
        100 * ((p (k + 1)).cpuTime.toNat - (p k).cpuTime.toNat) := by
  have hclock := h.clock k hk
  have hne : (p (k + 1)).sysCpuTime ≠ (p k).sysCpuTime := (UInt64.ne_of_lt hclock).symm
  have hutil := (slotOf_util_eq_iff hne).mpr ⟨hne, rfl⟩
  have hpos : ((p (k + 1)).sysCpuTime.toNat : ℚ) - (p k).sysCpuTime.toNat ≠ 0 := by
    rw [sub_ne_zero, Ne, Nat.cast_inj, UInt64.toNat_inj]
    exact hne
  refine ⟨_, hutil, by positivity, ?_⟩
  rw [cast_toNat_sub (h.ticks k hk), cast_toNat_sub (UInt64.le_of_lt hclock),
    div_mul_cancel₀ _ hpos]

theorem ticks_sum (h : KeepsPosition pid pos n env sample p) :
    ∑ k ∈ Finset.range (n - 1), (procReport p (k + 1)).cpuUtil.toRat *
        ((p (k + 1)).sysCpuTime.toNat - (p k).sysCpuTime.toNat) =
      100 * (((p (n - 1)).cpuTime.toNat : ℚ) - (p 0).cpuTime.toNat) := by
  have hk : ∀ k ∈ Finset.range (n - 1), (procReport p (k + 1)).cpuUtil.toRat *
        ((p (k + 1)).sysCpuTime.toNat - (p k).sysCpuTime.toNat) =
      100 * (((p (k + 1)).cpuTime.toNat : ℚ) - (p k).cpuTime.toNat) := by
    intro k hk
    obtain ⟨q, hq, -, hsum⟩ := h.report_util (k := k) (by have := Finset.mem_range.mp hk; omega)
    rw [hq, Double.toRat_fin, hsum]
  rw [Finset.sum_congr rfl hk, ← Finset.mul_sum,
    Finset.sum_range_sub fun k => ((p k).cpuTime.toNat : ℚ)]

end KeepsPosition

/-- The reports of a process that keeps its position are in the lists of the run, and the
shares times the times that have passed add up to the ticks of the process, a hundredfold. -/
theorem procRun_telescopes {pid : UInt64} {pos n : ℕ} {env : ℕ → ProcEnv}
    {sample : ℕ → List Proc} {p : ℕ → Proc} (h : KeepsPosition pid pos n env sample p)
    {lists : List (List Proc)}
    (hrun : cycles ModProc.collectRecord ((List.range n).map env) [] = some lists) :
    (∀ k < n, ∃ l, lists[k]? = some l ∧ l[pos]? = some (procReport p k)) ∧
      (∀ k, k + 1 < n → ∃ q, (procReport p (k + 1)).cpuUtil = .fin q ∧ 0 ≤ q) ∧
      ∑ k ∈ Finset.range (n - 1), (procReport p (k + 1)).cpuUtil.toRat *
          ((p (k + 1)).sysCpuTime.toNat - (p k).sysCpuTime.toNat) =
        100 * (((p (n - 1)).cpuTime.toNat : ℚ) - (p 0).cpuTime.toNat) := by
  refine ⟨(h.lists hrun).2, fun k hk => ?_, h.ticks_sum⟩
  obtain ⟨q, hq, hpos, -⟩ := h.report_util hk
  exact ⟨q, hq, hpos⟩

/-- A process with these user ticks, on a machine with so many ticks in all. -/
def tickDir (pid utime total : Text) : ProcDir where
  name := pid
  isDir := true
  stat := some (pid ++ " (sh) S 7 1 1 0 0 0 0 0 0 0 ".toList ++ utime ++
    " 2 0 0 20 0 1 0 500\n".toList)
  exe := none
  status := none
  procStat := some ("cpu  ".toList ++ total ++ " 0 0 0 0 0 0 0 0 0\n".toList)
  totalram := none

def tickProc (pid utime total : UInt64) : Proc :=
  { pid := pid, state := 'S', ppid := 7, startTime := 500, cpuTime := utime + 2,
    sysCpuTime := total, cmd := "sh".toList }

/-- A second process is there in one of the samples only. -/
def tickEnv : ℕ → ProcEnv
  | 0 => procEnv [tickDir "41".toList "10".toList "100".toList]
  | 1 => procEnv [tickDir "41".toList "25".toList "200".toList,
      tickDir "60".toList "1".toList "201".toList]
  | _ => procEnv [tickDir "41".toList "26".toList "400".toList]

def tickEntry : ℕ → Proc
  | 0 => tickProc 41 10 100
  | 1 => tickProc 41 25 200
  | _ => tickProc 41 26 400

def tickSample : ℕ → List Proc
  | 1 => [tickEntry 1, tickProc 60 1 201]
  | k => [tickEntry k]

theorem procRun_telescopes_ticks : KeepsPosition 41 0 3 tickEnv tickSample tickEntry ∧
    ∃ lists, cycles ModProc.collectRecord ((List.range 3).map tickEnv) [] = some lists ∧
      ∑ k ∈ Finset.range 2, (procReport tickEntry (k + 1)).cpuUtil.toRat *
          ((tickEntry (k + 1)).sysCpuTime.toNat - (tickEntry k).sysCpuTime.toNat) =
        100 * (((tickEntry 2).cpuTime.toNat : ℚ) - (tickEntry 0).cpuTime.toNat) := by
  have h : KeepsPosition 41 0 3 tickEnv tickSample tickEntry := by
    constructor
    · decide +kernel
    · decide +kernel
    · decide +kernel
    · decide +kernel
    · intro k hk
      obtain rfl | rfl : k = 0 ∨ k = 1 := by omega
      · decide
      · decide
    · intro k hk
      obtain rfl | rfl : k = 0 ∨ k = 1 := by omega
      · decide
      · decide
  have hruns : (cycles ModProc.collectRecord ((List.range 3).map tickEnv) []).isSome := by
    decide +kernel
  obtain ⟨lists, hrun⟩ := Option.isSome_iff_exists.mp hruns
  exact ⟨h, lists, hrun, (procRun_telescopes h hrun).2.2⟩

end Zsr
