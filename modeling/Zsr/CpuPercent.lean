import Zsr.CpuStat

namespace Zsr
open CLib

/-- Percentages that fit together: iowait is part of the busy time. -/
structure SharesFit (r : Cpu) : Prop where
  numbers : ∃ i u w : ℚ, r.idle = .fin i ∧ r.util = .fin u ∧ r.wa = .fin w ∧
    0 ≤ i ∧ i ≤ 100 ∧ i + u = 100 ∧ 0 ≤ w ∧ w ≤ u

theorem computeCpuStat_fit {cur pre : Cpu} (hle : pre.stat.Le cur.stat)
    (hcur : cur.stat.total < 2 ^ 64) (h0 : pre.stat.total ≠ 0)
    (hlt : pre.stat.total < cur.stat.total) : SharesFit (computeCpuStat cur pre) := by
  obtain ⟨hn, ha, hb⟩ := hle.toNat_sub hcur
  have hpre := hlt.trans hcur
  have h0' : sumCpuStat pre.stat ≠ 0 := mt (sumCpuStat_eq_zero_iff hpre).mp h0
  have hne : sumCpuStat cur.stat ≠ sumCpuStat pre.stat :=
    mt (sumCpuStat_inj_of_lt hcur hpre).mp hlt.ne'
  obtain ⟨i, w, hi, hw, hd, hrec⟩ := computeCpuStat_of_moved cur pre h0' hne
  have hpart := hle.part_le
  rw [ha, hn] at hi
  rw [hb, hn] at hw
  rw [hn] at hd
  have hpos : (0 : ℚ) < (cur.stat.total - pre.stat.total : ℕ) := Nat.cast_pos.mpr (by omega)
  -- idle, steal and iowait are different parts of the total
  have hsum : i + w ≤ 100 := by
    have hcast : (((cur.stat.idle.toNat - pre.stat.idle.toNat) +
        (cur.stat.steal.toNat - pre.stat.steal.toNat) : ℕ) : ℚ) +
        ((cur.stat.iowait.toNat - pre.stat.iowait.toNat : ℕ) : ℚ) ≤
        ((cur.stat.total - pre.stat.total : ℕ) : ℚ) := by
      exact_mod_cast hpart
    rw [hi, hw, ← add_div, div_le_iff₀ hpos, ← add_mul, mul_comm]
    exact mul_le_mul_of_nonneg_left hcast (by norm_num)
  have hi0 : 0 ≤ i := by
    rw [hi]
    positivity
  have hw0 : 0 ≤ w := by
    rw [hw]
    positivity
  rw [hrec]
  exact ⟨i, 100 - i, w, rfl, rfl, rfl, hi0, by linarith, by ring, hw0, by linarith⟩

/-- Advancing counters give percentages that fit, and without a total before or without a
tick nothing is changed. -/
theorem computeCpuStat_shares (cur pre : Cpu) :
    (pre.stat.Le cur.stat → pre.stat.total < 2 ^ 64 → cur.stat.total < 2 ^ 64 →
      pre.stat.total ≠ 0 → pre.stat.total < cur.stat.total →
      SharesFit (computeCpuStat cur pre)) ∧
    (sumCpuStat pre.stat = 0 ∨ sumCpuStat cur.stat = sumCpuStat pre.stat →
      computeCpuStat cur pre = cur) :=
  ⟨fun hle _ hcur h0 hlt => computeCpuStat_fit hle hcur h0 hlt, computeCpuStat_of_unmoved⟩

def busyBefore : Cpu := { stat := { user := 10, idle := 10 } }

def busyAfter : Cpu := { stat := { user := 13, idle := 12, iowait := 1, steal := 2 } }

theorem computeCpuStat_shares_busy :
    SharesFit (computeCpuStat busyAfter busyBefore) ∧
      computeCpuStat busyBefore busyBefore = busyBefore := by
  constructor
  · exact (computeCpuStat_shares busyAfter busyBefore).1 (by constructor <;> decide) (by decide)
      (by decide) (by decide) (by decide)
  · exact (computeCpuStat_shares busyBefore busyBefore).2 (.inr rfl)

/-- The percentages lie between 0 and 100, and a total that went back leaves them alone. -/
structure Sane (s t : CpuStat) (r : Cpu) : Prop where
  idle : Percent r.idle
  util : Percent r.util
  wa : Percent r.wa
  reset : sumCpuStat t < sumCpuStat s → r.idle = 0 ∧ r.util = 0 ∧ r.wa = 0

/-- The total went on, and in doubles neither idle with steal nor iowait is more than the whole
of it. All differences are those in 64 bits. -/
def AdvancesWithin (s t : CpuStat) : Prop :=
  sumCpuStat s < sumCpuStat t ∧
  AtMostWhole ((t.idle - s.idle) + (t.steal - s.steal)).toNat
    (sumCpuStat t - sumCpuStat s).toNat ∧
  AtMostWhole (t.iowait - s.iowait).toNat (sumCpuStat t - sumCpuStat s).toNat

theorem percent_compl {x : ℚ} (h : Percent (.fin x)) :
    Percent ((Double.fin 100 - .fin x).map binary64) := by
  obtain ⟨y, hy, h0, h100⟩ := h
  obtain rfl := Double.fin_inj.mp hy
  refine ⟨_, rfl, binary64_nonneg (by linarith), ?_⟩
  rw [binary64_le_hundred_iff (by linarith)]
  linarith [(by positivity : (0 : ℚ) ≤ 1 / 2 ^ 47)]

theorem sane_iff (t : CpuStat) (pre : Cpu) :
    Sane pre.stat t (computeCpuStatBy binary64 { stat := t } pre) ↔
      sumCpuStat pre.stat = 0 ∨ sumCpuStat t = sumCpuStat pre.stat ∨
        AdvancesWithin pre.stat t := by
  by_cases hstop : sumCpuStat pre.stat = 0 ∨ sumCpuStat t = sumCpuStat pre.stat
  · -- the fresh record stays as it is
    have hrec : computeCpuStatBy binary64 { stat := t } pre = { stat := t } :=
      computeCpuStatBy_of_unmoved binary64 hstop
    rw [hrec]
    refine iff_of_true ⟨percent_zero, percent_zero, percent_zero, fun _ => ⟨rfl, rfl, rfl⟩⟩ ?_
    rcases hstop with h | h
    · exact .inl h
    · exact .inr (.inl h)
  · rw [not_or] at hstop
    obtain ⟨hd, hrec⟩ := @computeCpuStatBy_of_moved binary64 { stat := t } pre hstop.1 hstop.2
    have hiff (a : UInt64) := (percentOf_percent_iff a _).trans (and_iff_right hd)
    rw [hrec, AdvancesWithin, ← hiff, ← hiff, Double.percentOf_binary64 _ hd]
    constructor
    · intro h
      refine .inr (.inr ⟨?_, h.idle, h.wa⟩)
      by_contra hback
      have hlt : sumCpuStat t < sumCpuStat pre.stat :=
        UInt64.lt_of_le_of_ne (UInt64.not_lt.mp hback) hstop.2
      -- idle and util cannot both be zero
      obtain ⟨h1, h2, -⟩ := h.reset hlt
      have h1 := Double.fin_inj.mp h1
      have h2 := Double.fin_inj.mp h2
      rw [h1] at h2
      revert h2
      decide +kernel
    · rintro (h | h | ⟨hlt, h1, h2⟩)
      · exact absurd h hstop.1
      · exact absurd h hstop.2
      · exact ⟨h1, percent_compl h1, h2, fun h => absurd hlt (UInt64.lt_asymm h)⟩

/-- What this means for totals far from their maximum, when the total does not advance too far:
neither idle with steal nor iowait goes back or advances by more than the total. -/
theorem advancesWithin_iff {s t : CpuStat} (hs : s.total < 2 ^ 63) (ht : t.total < 2 ^ 63)
    (hst : t.total < s.total + 2 ^ 46) :
    AdvancesWithin s t ↔ s.total < t.total ∧
      (s.idle.toNat + s.steal.toNat ≤ t.idle.toNat + t.steal.toNat ∧
        t.idle.toNat + t.steal.toNat - (s.idle.toNat + s.steal.toNat) ≤ t.total - s.total) ∧
      s.iowait.toNat ≤ t.iowait.toNat ∧
        t.iowait.toNat - s.iowait.toNat ≤ t.total - s.total := by
  have hsT := sumCpuStat_toNat_of_lt (s := s) (by omega)
  have htT := sumCpuStat_toNat_of_lt (s := t) (by omega)
  have hparts (c : CpuStat) : c.idle.toNat + c.steal.toNat + c.iowait.toNat ≤ c.total := by
    unfold CpuStat.total
    omega
  have hps := hparts s
  have hpt := hparts t
  unfold AdvancesWithin
  rw [UInt64.lt_iff_toNat_lt, hsT, htT]
  apply and_congr_right
  intro hlt
  have hsub : (sumCpuStat t - sumCpuStat s).toNat = t.total - s.total := by
    rw [toNat_sub_of_le (by omega), htT, hsT]
  have hidle : ((t.idle - s.idle) + (t.steal - s.steal)).toNat =
      (2 ^ 64 - (s.idle.toNat + s.steal.toNat) + (t.idle.toNat + t.steal.toNat)) % 2 ^ 64 := by
    rw [UInt64.toNat_add, UInt64.toNat_sub, UInt64.toNat_sub]
    omega
  rw [hsub, atMostWhole_iff (by omega), atMostWhole_iff (by omega), hidle, UInt64.toNat_sub,
    toNat_sub_le_iff (by omega) (by omega) (by omega),
    toNat_sub_le_iff (by omega) (by omega) (by omega)]

/-- The percentages of a fresh record are sane exactly when the code returns early or the
parts advance with the total. -/
theorem computeCpuStat_sane_iff (t : CpuStat) (pre : Cpu) :
    (Sane pre.stat t (computeCpuStatBy binary64 { stat := t } pre) ↔
      sumCpuStat pre.stat = 0 ∨ sumCpuStat t = sumCpuStat pre.stat ∨
        AdvancesWithin pre.stat t) ∧
    (pre.stat.total < 2 ^ 63 → t.total < 2 ^ 63 → t.total < pre.stat.total + 2 ^ 46 →
      (AdvancesWithin pre.stat t ↔ pre.stat.total < t.total ∧
        (pre.stat.idle.toNat + pre.stat.steal.toNat ≤ t.idle.toNat + t.steal.toNat ∧
          t.idle.toNat + t.steal.toNat - (pre.stat.idle.toNat + pre.stat.steal.toNat) ≤
            t.total - pre.stat.total) ∧
        pre.stat.iowait.toNat ≤ t.iowait.toNat ∧
          t.iowait.toNat - pre.stat.iowait.toNat ≤ t.total - pre.stat.total)) :=
  ⟨sane_iff t pre, advancesWithin_iff⟩

theorem computeCpuStat_sane_busy :
    Sane busyBefore.stat busyAfter.stat
      (computeCpuStatBy binary64 { stat := busyAfter.stat } busyBefore) :=
  (computeCpuStat_sane_iff busyAfter.stat busyBefore).1.mpr
    (.inr (.inr (((computeCpuStat_sane_iff busyAfter.stat busyBefore).2 (by decide)
      (by decide) (by decide)).mpr (by decide))))

/-- The idle counter goes back by one tick while ten others pass, and a machine starts over. -/
theorem computeCpuStat_back :
    (computeCpuStatBy binary64 { stat := { user := 21, idle := 9 } }
      { stat := { user := 10, idle := 10 } }).idle = .fin 184467440737095516160 ∧
    (computeCpuStatBy binary64 { stat := { user := 10 } } { stat := { user := 20 } }).util =
      .fin 100 ∧
    ¬Sane { user := 10, idle := 10 } { user := 21, idle := 9 }
      (computeCpuStatBy binary64 { stat := { user := 21, idle := 9 } }
        { stat := { user := 10, idle := 10 } }) ∧
    ¬Sane { user := 20 } { user := 10 }
      (computeCpuStatBy binary64 { stat := { user := 10 } } { stat := { user := 20 } }) := by
  have hidle : (computeCpuStatBy binary64 { stat := { user := 21, idle := 9 } }
      { stat := { user := 10, idle := 10 } }).idle = .fin 184467440737095516160 := by
    decide +kernel
  have hutil : (computeCpuStatBy binary64 { stat := { user := 10 } }
      { stat := { user := 20 } }).util = .fin 100 := by decide +kernel
  refine ⟨hidle, hutil, fun h => ?_, fun h => ?_⟩
  · obtain ⟨x, hx, -, h100⟩ := h.idle
    rw [hidle, Double.fin_inj] at hx
    rw [← hx] at h100
    norm_num at h100
  · have hzero := (h.reset (by decide)).2.1
    rw [hutil] at hzero
    revert hzero
    decide +kernel

end Zsr
