import Zsr.IoClock
import Zsr.IoRates
import Mathlib.Algebra.BigOperators.Group.Finset.Basic
import Mathlib.Algebra.BigOperators.Ring.Finset

namespace Zsr
open CLib

section
variable (st : IoStatics)

def ioClock (c : Io) : UInt64 := if 1 < st.numOfCpu then c.stat.uptime0 else c.stat.uptime

theorem ioInterval_eq_sub (c p : Io) :
    ioInterval st c.stat p.stat = ioClock st c - ioClock st p := by
  unfold ioInterval ioClock
  split <;> rfl

/-- The operations completed since the machine was started. -/
def Io.ops (c : Io) : ℕ := c.stat.rdIos.toNat + c.stat.wrIos.toNat

def ioLists (snap : ℕ → List Io) : ℕ → List Io
  | 0 => snap 0
  | k + 1 => (computeIoStat st (snap (k + 1)) (ioLists snap k)).1

/-- What the reports make of a device that is in every snapshot. -/
def ioReport (snap : ℕ → List Io) (c : ℕ → Io) : ℕ → Io
  | 0 => c 0
  | k + 1 => matchPrev st (c (k + 1)) (ioLists st snap k)

theorem ioReport_raw (snap : ℕ → List Io) (c : ℕ → Io) (k : ℕ) :
    (ioReport st snap c k).dev = (c k).dev ∧ (ioReport st snap c k).stat = (c k).stat := by
  cases k with
  | zero => exact ⟨rfl, rfl⟩
  | succ k => exact matchPrev_raw st _ _

theorem ioLists_dev (snap : ℕ → List Io) (k : ℕ) :
    (ioLists st snap k).map Io.dev = (snap k).map Io.dev := by
  cases k with
  | zero => rfl
  | succ k =>
    rw [ioLists, computeIoStat, List.map_map]
    apply List.map_congr_left
    exact fun c _ => (matchPrev_raw st c _).1

theorem ioReport_mem {snap : ℕ → List Io} {c : ℕ → Io} {k : ℕ} (h : c k ∈ snap k) :
    ioReport st snap c k ∈ ioLists st snap k := by
  cases k with
  | zero => exact h
  | succ k => exact List.mem_map_of_mem h

theorem collectRecord_concat {env : IoEnv} {st : IoStatics} {cur : List Io}
    (h : readIoStat env = some (st, cur)) (l : List (List Io)) (prev : List Io) :
    ModIo.collectRecord env (l ++ [prev]) =
      some (l ++ [prev] ++ [(computeIoStat st cur prev).1]) := by
  simp only [ModIo.collectRecord, h, Option.bind_eq_bind, Option.bind_some,
    List.getLast?_append, List.getLast?_singleton, Option.some_or, List.dropLast_concat,
    computeIoStat, List.append_assoc, List.cons_append, List.nil_append]

theorem ioCycles {env : ℕ → IoEnv} {snap : ℕ → List Io} {n : ℕ}
    (h : ∀ k < n, readIoStat (env k) = some (st, snap k)) :
    cycles ModIo.collectRecord ((List.range n).map env) [] =
      some ((List.range n).map (ioLists st snap)) := by
  induction n with
  | zero => rfl
  | succ n ih =>
    rw [List.range_succ, List.map_append, List.map_singleton, cycles_concat,
      ih fun k hk => h k (Nat.lt_succ_of_lt hk), Option.bind_some, List.map_append,
      List.map_singleton]
    have hread := h n (Nat.lt_succ_self n)
    cases n with
    | zero =>
      simp only [ModIo.collectRecord, hread]
      rfl
    | succ n =>
      rw [List.range_succ, List.map_append, List.map_singleton, collectRecord_concat hread]
      rfl

theorem toNat_ops {c : Io} (hrd : c.stat.rdIos.toNat < 2 ^ 63) (hwr : c.stat.wrIos.toNat < 2 ^ 63) :
    (c.stat.rdIos + c.stat.wrIos).toNat = c.ops := by
  rw [UInt64.toNat_add, Io.ops]
  exact Nat.mod_eq_of_lt (by omega)

theorem computeRates_tps {c p : Io} (hrd : p.stat.rdIos ≤ c.stat.rdIos)
    (hwr : p.stat.wrIos ≤ c.stat.wrIos)
    (hmax : c.stat.rdIos.toNat < 2 ^ 63 ∧ c.stat.wrIos.toNat < 2 ^ 63)
    (hclock : ioClock st p < ioClock st c) :
    ∃ q : ℚ, (computeRates st c p).tps = .fin q ∧
      q * ((ioClock st c).toNat - (ioClock st p).toNat) = st.hz.toNat * ((c.ops : ℚ) - p.ops) := by
  rw [UInt64.le_iff_toNat_le] at hrd hwr
  have hlt := UInt64.lt_iff_toNat_lt.mp hclock
  have hc := toNat_ops hmax.1 hmax.2
  have hp : (p.stat.rdIos + p.stat.wrIos).toNat = p.ops := toNat_ops (by omega) (by omega)
  have hops : p.stat.rdIos + p.stat.wrIos ≤ c.stat.rdIos + c.stat.wrIos := by
    rw [UInt64.le_iff_toNat_le, hc, hp]
    exact Nat.add_le_add hrd hwr
  have hitv : ((ioInterval st c.stat p.stat).toNat : ℚ) =
      (ioClock st c).toNat - (ioClock st p).toNat := by
    rw [ioInterval_eq_sub, cast_toNat_sub (UInt64.le_of_lt hclock)]
  have hpos : ((ioClock st c).toNat : ℚ) - (ioClock st p).toNat ≠ 0 := by
    rw [sub_ne_zero, Ne, Nat.cast_inj]
    omega
  have hne : ioInterval st c.stat p.stat ≠ 0 := by
    intro h
    rw [h] at hitv
    exact hpos hitv.symm
  refine ⟨_, (computeRates_rates st hne).tps, ?_⟩
  rw [rate, cast_toNat_sub hops, hc, hp, hitv]
  field_simp

/-- Snapshots that all have a device, under distinct names, whose counters do not go back
and whose clock goes on. -/
structure InAllSnapshots (dev : Text) (n : ℕ) (env : ℕ → IoEnv) (snap : ℕ → List Io)
    (c : ℕ → Io) : Prop where
  read : ∀ k < n, readIoStat (env k) = some (st, snap k)
  distinct : ∀ k < n, ((snap k).map Io.dev).Nodup
  mem : ∀ k < n, c k ∈ snap k ∧ (c k).dev = dev
  le : ∀ k, k + 1 < n → (c k).stat.rdIos ≤ (c (k + 1)).stat.rdIos ∧
    (c k).stat.wrIos ≤ (c (k + 1)).stat.wrIos
  small : ∀ k < n, (c k).stat.rdIos.toNat < 2 ^ 63 ∧ (c k).stat.wrIos.toNat < 2 ^ 63
  clock : ∀ k, k + 1 < n → ioClock st (c k) < ioClock st (c (k + 1))

/-- What a run reports about the device. -/
structure DeviceReport (dev : Text) (n : ℕ) (env : ℕ → IoEnv) (c : ℕ → Io)
    (lists : ℕ → List Io) (report : ℕ → Io) : Prop where
  /-- No list is altered by a later collection. -/
  kept : ∀ k ≤ n, cycles ModIo.collectRecord ((List.range k).map env) [] =
    some ((List.range k).map lists)
  mem : ∀ k < n, report k ∈ lists k ∧ (report k).dev = dev ∧ (report k).stat = (c k).stat
  only : ∀ k < n, ∀ r ∈ lists k, r.dev = dev → r = report k
  finite : ∀ k, k + 1 < n → ∃ q, (report (k + 1)).tps = .fin q
  ops_sum : ∑ k ∈ Finset.range (n - 1), (report (k + 1)).tps.toRat *
      ((ioClock st (c (k + 1))).toNat - (ioClock st (c k)).toNat) =
    st.hz.toNat * (((c (n - 1)).ops : ℚ) - (c 0).ops)

namespace InAllSnapshots

variable {st} {dev : Text} {n : ℕ} {env : ℕ → IoEnv} {snap : ℕ → List Io} {c : ℕ → Io}

theorem distinct_lists (h : InAllSnapshots st dev n env snap c) {k : ℕ} (hk : k < n) :
    ((ioLists st snap k).map Io.dev).Nodup := by
  rw [ioLists_dev]
  exact h.distinct k hk

theorem report_succ (h : InAllSnapshots st dev n env snap c) {k : ℕ} (hk : k + 1 < n) :
    ioReport st snap c (k + 1) = computeRates st (c (k + 1)) (ioReport st snap c k) := by
  have hlt : k < n := Nat.lt_of_succ_lt hk
  apply matchPrev_of_mem st (h.distinct_lists hlt) (ioReport_mem st (h.mem k hlt).1)
  rw [(ioReport_raw st snap c k).1, (h.mem k hlt).2, (h.mem (k + 1) hk).2]

theorem report_tps (h : InAllSnapshots st dev n env snap c) {k : ℕ} (hk : k + 1 < n) :
    ∃ q : ℚ, (ioReport st snap c (k + 1)).tps = .fin q ∧
      q * ((ioClock st (c (k + 1))).toNat - (ioClock st (c k)).toNat) =
        st.hz.toNat * (((c (k + 1)).ops : ℚ) - (c k).ops) := by
  have hstat := (ioReport_raw st snap c k).2
  have hops : (ioReport st snap c k).ops = (c k).ops := by rw [Io.ops, hstat, Io.ops]
  have hclock : ioClock st (ioReport st snap c k) = ioClock st (c k) := by
    rw [ioClock, hstat, ioClock]
  rw [h.report_succ hk, ← hops, ← hclock]
  apply computeRates_tps st _ _ (h.small (k + 1) hk)
  · rw [hclock]
    exact h.clock k hk
  · rw [hstat]
    exact (h.le k hk).1
  · rw [hstat]
    exact (h.le k hk).2

theorem ops_sum (h : InAllSnapshots st dev n env snap c) :
    ∑ k ∈ Finset.range (n - 1), (ioReport st snap c (k + 1)).tps.toRat *
        ((ioClock st (c (k + 1))).toNat - (ioClock st (c k)).toNat) =
      st.hz.toNat * (((c (n - 1)).ops : ℚ) - (c 0).ops) := by
  have hk : ∀ k ∈ Finset.range (n - 1), (ioReport st snap c (k + 1)).tps.toRat *
        ((ioClock st (c (k + 1))).toNat - (ioClock st (c k)).toNat) =
      st.hz.toNat * (((c (k + 1)).ops : ℚ) - (c k).ops) := by
    intro k hk
    obtain ⟨q, hq, hsum⟩ := h.report_tps (k := k) (by have := Finset.mem_range.mp hk; omega)
    rw [hq, Double.toRat_fin, hsum]
  rw [Finset.sum_congr rfl hk, ← Finset.mul_sum, Finset.sum_range_sub fun k => ((c k).ops : ℚ)]

end InAllSnapshots

/-- In a run no operation of the device is lost or counted twice. -/
theorem ioRun_telescopes (dev : Text) (n : ℕ) (env : ℕ → IoEnv) (snap : ℕ → List Io) (c : ℕ → Io)
    (h : InAllSnapshots st dev n env snap c) :
    ∃ lists report, DeviceReport st dev n env c lists report := by
  refine ⟨ioLists st snap, ioReport st snap c, ?_, ?_, ?_, ?_, h.ops_sum⟩
  · exact fun k hk => ioCycles st fun i hi => h.read i (hi.trans_le hk)
  · intro k hk
    obtain ⟨hdev, hstat⟩ := ioReport_raw st snap c k
    exact ⟨ioReport_mem st (h.mem k hk).1, hdev.trans (h.mem k hk).2, hstat⟩
  · intro k hk r hr hdev
    apply List.inj_on_of_nodup_map (h.distinct_lists hk) hr (ioReport_mem st (h.mem k hk).1)
    rw [hdev, (ioReport_raw st snap c k).1, (h.mem k hk).2]
  · intro k hk
    obtain ⟨q, hq, -⟩ := h.report_tps hk
    exact ⟨q, hq⟩

end

/-- A machine with one CPU, and what it says about its disks. -/
def diskEnv (procStat diskstats : Text) : IoEnv where
  cpus := some procStat
  ticks := 100
  diskstats := some diskstats
  stat := fun _ => some procStat
  uptime := fun _ => none

/-- A second disk appears in front of the first and goes again. -/
def diskEnvs : ℕ → IoEnv
  | 0 => diskEnv "cpu  1 0 0 0 0 0 0 0\ncpu0 1 0 0 0\n".toList
    "8 0 sda 1 0 0 0 0 0 0 0 0 0 0\n".toList
  | 1 => diskEnv "cpu  1 0 0 5 0 0 0 0\ncpu0 1 0 0 5\n".toList
    "8 16 sdb 7 0 0 0 0 0 0 0 0 0 0\n8 0 sda 3 0 0 0 1 0 0 0 0 0 0\n".toList
  | _ => diskEnv "cpu  1 0 0 9 0 0 0 0\ncpu0 1 0 0 9\n".toList
    "8 0 sda 3 0 0 0 4 0 0 0 0 0 0\n".toList

def diskEntry : ℕ → Io
  | 0 => .ofLine 1 0 "sda".toList [1]
  | 1 => .ofLine 6 0 "sda".toList [3, 0, 0, 0, 1]
  | _ => .ofLine 10 0 "sda".toList [3, 0, 0, 0, 4]

def diskSnapshots : ℕ → List Io
  | 1 => [.ofLine 6 0 "sdb".toList [7], diskEntry 1]
  | k => [diskEntry k]

theorem ioRun_telescopes_disks :
    InAllSnapshots ⟨100, 1⟩ "sda".toList 3 diskEnvs diskSnapshots diskEntry ∧
      ∃ lists report, DeviceReport ⟨100, 1⟩ "sda".toList 3 diskEnvs diskEntry lists report := by
  have h : InAllSnapshots ⟨100, 1⟩ "sda".toList 3 diskEnvs diskSnapshots diskEntry := by
    constructor
    · decide +kernel
    · decide +kernel
    · decide +kernel
    · intro k hk
      obtain rfl | rfl : k = 0 ∨ k = 1 := by omega
      · decide
      · decide
    · decide +kernel
    · intro k hk
      obtain rfl | rfl : k = 0 ∨ k = 1 := by omega
      · decide
      · decide
  exact ⟨h, ioRun_telescopes ⟨100, 1⟩ "sda".toList 3 diskEnvs diskSnapshots diskEntry h⟩

end Zsr
