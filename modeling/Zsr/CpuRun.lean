import Zsr.CpuStat
import Mathlib.Algebra.BigOperators.Group.Finset.Basic
import Mathlib.Algebra.BigOperators.Ring.Finset
import Mathlib.Tactic.Linarith

namespace Zsr
open CLib

/-- The record computed from two successive snapshots. -/
def interval (s t : CpuStat) : Cpu := computeCpuStat { stat := t } { stat := s }

/-- The three products of a percentage with the length of its interval. -/
structure IntervalShares (s t : CpuStat) (i u w : ℚ) : Prop where
  idle : i * ((t.total : ℚ) - s.total) =
    100 * (((t.idle.toNat : ℚ) - s.idle.toNat) + ((t.steal.toNat : ℚ) - s.steal.toNat))
  util : u * ((t.total : ℚ) - s.total) =
    100 * (((t.total : ℚ) - s.total) - ((t.idle.toNat : ℚ) - s.idle.toNat) -
      ((t.steal.toNat : ℚ) - s.steal.toNat))
  wa : w * ((t.total : ℚ) - s.total) = 100 * ((t.iowait.toNat : ℚ) - s.iowait.toNat)

theorem intervalShares_of_unmoved {s t : CpuStat} (hle : s.Le t) (ht : t.total = s.total) :
    IntervalShares s t 0 0 0 := by
  have hp := hle.part_le
  have hi : t.idle.toNat = s.idle.toNat := by have := hle.idle; omega
  have hs : t.steal.toNat = s.steal.toNat := by have := hle.steal; omega
  have hw : t.iowait.toNat = s.iowait.toNat := by have := hle.iowait; omega
  constructor <;> rw [ht] <;> simp [hi, hs, hw]

theorem intervalShares_of_moved {s t : CpuStat} (hle : s.Le t) (ht : t.total < 2 ^ 64)
    (h0 : sumCpuStat s ≠ 0) (hne : sumCpuStat t ≠ sumCpuStat s) :
    ∃ i u w, interval s t = ⟨.fin i, .fin u, .fin w, t⟩ ∧ IntervalShares s t i u w := by
  have hst := hle.total
  obtain ⟨hT, hsum, hwa⟩ := hle.toNat_sub ht
  obtain ⟨i, w, hi, hw, hd, hrec⟩ := computeCpuStat_of_moved { stat := t } { stat := s } h0 hne
  rw [hT] at hi hw hd
  rw [hsum, Nat.cast_add, Nat.cast_sub hle.idle, Nat.cast_sub hle.steal] at hi
  rw [hwa, Nat.cast_sub hle.iowait] at hw
  have hq : ((t.total : ℚ) - s.total) ≠ 0 := by
    rw [← Nat.cast_sub hst]
    exact Nat.cast_ne_zero.mpr hd
  rw [Nat.cast_sub hst, eq_div_iff hq] at hi hw
  refine ⟨i, 100 - i, w, hrec, ⟨?_, ?_, ?_⟩⟩
  · rw [hi]
    ring
  · rw [sub_mul, hi]
    ring
  · rw [hw]
    ring

theorem interval_shares {s t : CpuStat} (hle : s.Le t) (hs : 0 < s.total)
    (ht : t.total < 2 ^ 64) :
    ∃ i u w, interval s t = ⟨.fin i, .fin u, .fin w, t⟩ ∧ IntervalShares s t i u w := by
  have hmax : s.total < 2 ^ 64 := hle.total.trans_lt ht
  by_cases hmove : t.total = s.total
  · -- without a tick the code returns early, and every product is zero
    refine ⟨0, 0, 0, ?_, intervalShares_of_unmoved hle hmove⟩
    apply computeCpuStat_of_unmoved
    exact .inr ((sumCpuStat_inj_of_lt ht hmax).mpr hmove)
  · apply intervalShares_of_moved hle ht
    · exact mt (sumCpuStat_eq_zero_iff hmax).mp hs.ne'
    · exact mt (sumCpuStat_inj_of_lt ht hmax).mp hmove

def cpuRecord (snap : ℕ → CpuStat) : ℕ → Cpu
  | 0 => { stat := snap 0 }
  | k + 1 => interval (snap k) (snap (k + 1))

theorem cpuRecord_stat (snap : ℕ → CpuStat) (k : ℕ) : (cpuRecord snap k).stat = snap k := by
  cases k with
  | zero => rfl
  | succ k => exact computeCpuStat_stat _ _

theorem collectSnapshot_concat (snap : CpuStat) (l : List Cpu) (r : Cpu) :
    ModCpu.collectSnapshot snap (l ++ [r]) = l ++ [r] ++ [interval r.stat snap] := by
  unfold ModCpu.collectSnapshot
  rw [List.getLast?_append, List.getLast?_singleton]
  rfl

theorem foldl_collectSnapshot (snap : ℕ → CpuStat) (n : ℕ) :
    ((List.range n).map snap).foldl (fun l stat => ModCpu.collectSnapshot stat l) [] =
      (List.range n).map (cpuRecord snap) := by
  induction n with
  | zero => rfl
  | succ n ih =>
    rw [List.range_succ, List.map_append, List.map_singleton, List.foldl_append, ih,
      List.map_append, List.map_singleton]
    cases n with
    | zero => rfl
    | succ n =>
      rw [List.range_succ, List.map_append, List.map_singleton, List.foldl_cons, List.foldl_nil,
        collectSnapshot_concat, cpuRecord_stat]
      rfl

/-- Snapshots as a machine delivers them: no counter goes back, no total wraps. -/
structure Advancing (n : ℕ) (snap : ℕ → CpuStat) : Prop where
  le : ∀ k, k + 1 < n → (snap k).Le (snap (k + 1))
  total_lt : ∀ k < n, (snap k).total < 2 ^ 64
  first_pos : 0 < (snap 0).total

namespace Advancing

variable {n : ℕ} {snap : ℕ → CpuStat}

theorem total_pos (h : Advancing n snap) : ∀ k < n, 0 < (snap k).total := by
  intro k hk
  induction k with
  | zero => exact h.first_pos
  | succ k ih => exact (ih (by omega)).trans_le (h.le k hk).total

theorem shares (h : Advancing n snap) {k : ℕ} (hk : k + 1 < n) :
    ∃ i u w, cpuRecord snap (k + 1) = ⟨.fin i, .fin u, .fin w, snap (k + 1)⟩ ∧
      IntervalShares (snap k) (snap (k + 1)) i u w :=
  interval_shares (h.le k hk) (h.total_pos k (by omega)) (h.total_lt (k + 1) hk)

theorem idle_sum (h : Advancing n snap) :
    ∑ k ∈ Finset.range (n - 1), (cpuRecord snap (k + 1)).idle.toRat *
        (((snap (k + 1)).total : ℚ) - (snap k).total) =
      100 * ((((snap (n - 1)).idle.toNat : ℚ) - (snap 0).idle.toNat) +
        (((snap (n - 1)).steal.toNat : ℚ) - (snap 0).steal.toNat)) := by
  have hk : ∀ k ∈ Finset.range (n - 1), (cpuRecord snap (k + 1)).idle.toRat *
        (((snap (k + 1)).total : ℚ) - (snap k).total) =
      100 * (((snap (k + 1)).idle.toNat + (snap (k + 1)).steal.toNat : ℚ) -
        ((snap k).idle.toNat + (snap k).steal.toNat)) := by
    intro k hk
    obtain ⟨i, u, w, hr, hs⟩ := h.shares (k := k) (by have := Finset.mem_range.mp hk; omega)
    rw [hr, Double.toRat_fin, hs.idle]
    ring
  rw [Finset.sum_congr rfl hk, ← Finset.mul_sum, Finset.sum_range_sub
    (fun k => ((snap k).idle.toNat + (snap k).steal.toNat : ℚ))]
  ring

theorem wa_sum (h : Advancing n snap) :
    ∑ k ∈ Finset.range (n - 1), (cpuRecord snap (k + 1)).wa.toRat *
        (((snap (k + 1)).total : ℚ) - (snap k).total) =
      100 * (((snap (n - 1)).iowait.toNat : ℚ) - (snap 0).iowait.toNat) := by
  have hk : ∀ k ∈ Finset.range (n - 1), (cpuRecord snap (k + 1)).wa.toRat *
        (((snap (k + 1)).total : ℚ) - (snap k).total) =
      100 * (((snap (k + 1)).iowait.toNat : ℚ) - (snap k).iowait.toNat) := by
    intro k hk
    obtain ⟨i, u, w, hr, hs⟩ := h.shares (k := k) (by have := Finset.mem_range.mp hk; omega)
    rw [hr, Double.toRat_fin, hs.wa]
  rw [Finset.sum_congr rfl hk, ← Finset.mul_sum, Finset.sum_range_sub
    (fun k => ((snap k).iowait.toNat : ℚ))]

theorem util_sum (h : Advancing n snap) :
    ∑ k ∈ Finset.range (n - 1), (cpuRecord snap (k + 1)).util.toRat *
        (((snap (k + 1)).total : ℚ) - (snap k).total) =
      100 * ((((snap (n - 1)).total : ℚ) - (snap 0).total) -
        (((snap (n - 1)).idle.toNat : ℚ) - (snap 0).idle.toNat) -
        (((snap (n - 1)).steal.toNat : ℚ) - (snap 0).steal.toNat)) := by
  have hk : ∀ k ∈ Finset.range (n - 1), (cpuRecord snap (k + 1)).util.toRat *
        (((snap (k + 1)).total : ℚ) - (snap k).total) =
      100 * (((snap (k + 1)).total - (snap (k + 1)).idle.toNat - (snap (k + 1)).steal.toNat : ℚ) -
        ((snap k).total - (snap k).idle.toNat - (snap k).steal.toNat)) := by
    intro k hk
    obtain ⟨i, u, w, hr, hs⟩ := h.shares (k := k) (by have := Finset.mem_range.mp hk; omega)
    rw [hr, Double.toRat_fin, hs.util]
    ring
  rw [Finset.sum_congr rfl hk, ← Finset.mul_sum, Finset.sum_range_sub
    (fun k => ((snap k).total - (snap k).idle.toNat - (snap k).steal.toNat : ℚ))]
  ring

theorem finite (h : Advancing n snap) :
    ∀ k < n, ∃ i u w : ℚ, cpuRecord snap k = ⟨.fin i, .fin u, .fin w, snap k⟩ := by
  intro k hk
  cases k with
  | zero => exact ⟨0, 0, 0, rfl⟩
  | succ k =>
    obtain ⟨i, u, w, hr, -⟩ := h.shares hk
    exact ⟨i, u, w, hr⟩

end Advancing

end Zsr
