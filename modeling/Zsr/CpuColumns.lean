import Zsr.CpuRun

/-!
# The columns of `/proc/stat`

The kernel prints irq and softirq before steal, `read_cpu_stat` scans steal before
both, so the field named `steal` holds the irq column.
-/

namespace Zsr
open CLib

/-- The aggregate line in the column order of the kernel. -/
structure CpuColumns where
  user : UInt64
  nice : UInt64
  system : UInt64
  idle : UInt64
  iowait : UInt64
  irq : UInt64
  softirq : UInt64
  steal : UInt64
  guest : UInt64
  guestNice : UInt64

namespace CpuColumns

def values (c : CpuColumns) : List UInt64 :=
  [c.user, c.nice, c.system, c.idle, c.iowait, c.irq, c.softirq, c.steal, c.guest, c.guestNice]

def line (c : CpuColumns) : Text := "cpu ".toList ++ decFields c.values

def total (c : CpuColumns) : ℕ :=
  c.user.toNat + c.nice.toNat + c.system.toNat + c.idle.toNat + c.iowait.toNat + c.irq.toNat +
    c.softirq.toNat + c.steal.toNat

def scanned (c : CpuColumns) : CpuStat where
  user := c.user
  nice := c.nice
  sys := c.system
  idle := c.idle
  iowait := c.iowait
  steal := c.irq
  hardirq := c.softirq
  softirq := c.steal
  guest := c.guest
  number := c.guestNice

theorem scanned_total (c : CpuColumns) : c.scanned.total = c.total := by
  simp only [CpuStat.total, scanned, total]

end CpuColumns

theorem CpuColumns.not_mem_line (c : CpuColumns) {d : Char} (hd : d.isDigit = false)
    (hs : d ≠ ' ') (hm : d ∉ "cpu ".toList) : d ∉ c.line := by
  intro h
  rcases List.mem_append.mp h with h | h
  · exact hm h
  · exact not_mem_decFields hd hs _ h

theorem readCpuStat_line (c : CpuColumns) (hlen : c.line.length ≤ 127) {r : Text}
    (hr : NoDigit r) (cpu : CpuStat) :
    readCpuStat (some (c.line ++ r)) cpu = c.scanned := by
  obtain ⟨t, bufs, ht, hb⟩ := fgetsLines_first (n := LEN_128) (by decide) (l := c.line)
    (by simp [CpuColumns.line]) (c.not_mem_line rfl (by decide) (by decide))
    (c.not_mem_line rfl (by decide) (by decide)) hlen r
  have hscan : scanLus 10 ((c.line ++ t).drop 4) = c.values := by
    have hd : (c.line ++ t).drop 4 = decFields c.values ++ t := rfl
    rw [hd]
    exact scanLus_decFields c.values (hr.of_prefix ht)
  have hpre : "cpu ".toList <+: c.line ++ t :=
    ⟨decFields c.values ++ t, (List.append_assoc _ _ _).symm⟩
  rw [readCpuStat, hb, readCpuLines, if_pos hpre, hscan]
  rfl

structure CpuColumns.Le (s t : CpuColumns) : Prop where
  user : s.user.toNat ≤ t.user.toNat
  nice : s.nice.toNat ≤ t.nice.toNat
  system : s.system.toNat ≤ t.system.toNat
  idle : s.idle.toNat ≤ t.idle.toNat
  iowait : s.iowait.toNat ≤ t.iowait.toNat
  irq : s.irq.toNat ≤ t.irq.toNat
  softirq : s.softirq.toNat ≤ t.softirq.toNat
  steal : s.steal.toNat ≤ t.steal.toNat
  guest : s.guest.toNat ≤ t.guest.toNat
  guestNice : s.guestNice.toNat ≤ t.guestNice.toNat

/-- The record computed from two texts of `/proc/stat`. -/
def readInterval (s t : Text) : Cpu :=
  computeCpuStat { stat := readCpuStat (some t) {} } { stat := readCpuStat (some s) {} }

/-- Idle time is the idle and the steal column; all the others, irq and softirq among
them, are busy time. -/
def CountsColumns (s t : CpuColumns) (r : Cpu) : Prop :=
  r.idle = .fin (100 * (((t.idle.toNat : ℚ) - s.idle.toNat) +
    ((t.steal.toNat : ℚ) - s.steal.toNat)) / ((t.total : ℚ) - s.total)) ∧
  r.util = .fin (100 * (((t.user.toNat : ℚ) - s.user.toNat) +
    ((t.nice.toNat : ℚ) - s.nice.toNat) + ((t.system.toNat : ℚ) - s.system.toNat) +
    ((t.iowait.toNat : ℚ) - s.iowait.toNat) + ((t.irq.toNat : ℚ) - s.irq.toNat) +
    ((t.softirq.toNat : ℚ) - s.softirq.toNat)) / ((t.total : ℚ) - s.total)) ∧
  r.util = .fin 100 - r.idle

/-- The wrapped sums stay apart from zero and from each other, and the wrapped advance of
idle and irq stands to the wrapped total as the advance of idle and steal does to the total. -/
def ColumnsAgree (s t : CpuColumns) : Prop :=
  s.total % 2 ^ 64 ≠ 0 ∧ (t.total - s.total) % 2 ^ 64 ≠ 0 ∧
  (((t.idle.toNat - s.idle.toNat) + (t.irq.toNat - s.irq.toNat)) % 2 ^ 64) *
      (t.total - s.total) =
    ((t.idle.toNat - s.idle.toNat) + (t.steal.toNat - s.steal.toNat)) *
      ((t.total - s.total) % 2 ^ 64)

theorem columnsAgree_iff_of_lt {s t : CpuColumns} (hle : s.Le t) (h0 : s.total ≠ 0)
    (hlt : s.total < t.total) (ht : t.total < 2 ^ 64) :
    ColumnsAgree s t ↔ t.irq.toNat - s.irq.toNat = t.steal.toNat - s.steal.toNat := by
  have hpart : (t.idle.toNat - s.idle.toNat) + (t.irq.toNat - s.irq.toNat) ≤
      t.total - s.total := by
    obtain ⟨h1, h2, h3, h4, h5, h6, h7, h8, -, -⟩ := hle
    unfold CpuColumns.total
    omega
  unfold ColumnsAgree
  rw [Nat.mod_eq_of_lt (by omega), Nat.mod_eq_of_lt (a := t.total - s.total) (by omega),
    Nat.mod_eq_of_lt (a := _ + (t.irq.toNat - s.irq.toNat)) (by omega)]
  constructor
  · rintro ⟨-, -, h⟩
    have := Nat.eq_of_mul_eq_mul_right (by omega) h
    omega
  · intro h
    exact ⟨h0, by omega, by rw [h]⟩

theorem busy_share {s t : CpuColumns} (hlt : s.total < t.total) {i : ℚ}
    (hi : i = 100 * (((t.idle.toNat : ℚ) - s.idle.toNat) +
      ((t.steal.toNat : ℚ) - s.steal.toNat)) / ((t.total : ℚ) - s.total)) :
    100 - i = 100 * (((t.user.toNat : ℚ) - s.user.toNat) +
      ((t.nice.toNat : ℚ) - s.nice.toNat) + ((t.system.toNat : ℚ) - s.system.toNat) +
      ((t.iowait.toNat : ℚ) - s.iowait.toNat) + ((t.irq.toNat : ℚ) - s.irq.toNat) +
      ((t.softirq.toNat : ℚ) - s.softirq.toNat)) / ((t.total : ℚ) - s.total) := by
  have hd : ((t.total : ℚ) - s.total) ≠ 0 := by
    rw [← Nat.cast_sub hlt.le]
    apply Nat.cast_ne_zero.mpr
    omega
  rw [hi, eq_div_iff hd, sub_mul, div_mul_cancel₀ _ hd]
  simp only [CpuColumns.total, Nat.cast_add]
  ring

theorem sumCpuStat_sub_toNat {s t : CpuStat} (h : s.total ≤ t.total) :
    (sumCpuStat t - sumCpuStat s).toNat = (t.total - s.total) % 2 ^ 64 := by
  rw [UInt64.toNat_sub, sumCpuStat_toNat, sumCpuStat_toNat]
  omega

theorem share_eq_iff {a b d n : ℕ} (hd : d ≠ 0) (hn : n ≠ 0) :
    (a : ℚ) * 100 / d = 100 * b / n ↔ a * n = b * d := by
  rw [div_eq_div_iff (Nat.cast_ne_zero.mpr hd) (Nat.cast_ne_zero.mpr hn), mul_comm (a : ℚ),
    mul_assoc, mul_assoc, mul_right_inj' (by norm_num)]
  exact_mod_cast Iff.rfl

theorem not_countsColumns_of_unmoved {s t : CpuColumns}
    (h : sumCpuStat s.scanned = 0 ∨ sumCpuStat t.scanned = sumCpuStat s.scanned) :
    ¬CountsColumns s t (interval s.scanned t.scanned) := by
  have hrec : interval s.scanned t.scanned = { stat := t.scanned } := computeCpuStat_of_unmoved h
  rintro ⟨-, -, hu⟩
  rw [hrec] at hu
  exact absurd (show (0 : Double) = .fin 100 - 0 from hu) (by decide +kernel)

theorem scanned_idle_toNat {s t : CpuColumns} (hle : s.Le t) :
    ((t.scanned.idle - s.scanned.idle) + (t.scanned.steal - s.scanned.steal)).toNat =
      ((t.idle.toNat - s.idle.toNat) + (t.irq.toNat - s.irq.toNat)) % 2 ^ 64 := by
  rw [UInt64.toNat_add]
  change ((t.idle - s.idle).toNat + (t.irq - s.irq).toNat) % 2 ^ 64 = _
  rw [toNat_sub_of_le hle.idle, toNat_sub_of_le hle.irq]

theorem countsColumns_iff {s t : CpuColumns} (hle : s.Le t) (hlt : s.total < t.total) :
    CountsColumns s t (interval s.scanned t.scanned) ↔ ColumnsAgree s t := by
  have hs := s.scanned_total
  have ht := t.scanned_total
  have hsub := sumCpuStat_sub_toNat (s := s.scanned) (t := t.scanned) (by omega)
  have hsum := sumCpuStat_toNat s.scanned
  rw [hs, ht] at hsub
  rw [hs] at hsum
  by_cases hmove : sumCpuStat s.scanned = 0 ∨ sumCpuStat t.scanned = sumCpuStat s.scanned
  · apply iff_of_false (not_countsColumns_of_unmoved hmove)
    rintro ⟨h0, h1, -⟩
    rcases hmove with h | h
    · rw [h] at hsum
      exact h0 hsum.symm
    · rw [h, UInt64.sub_self] at hsub
      exact h1 hsub.symm
  · rw [not_or] at hmove
    obtain ⟨i, w, hi, -, hd, hrec⟩ := computeCpuStat_of_moved
      { stat := t.scanned } { stat := s.scanned } hmove.1 hmove.2
    have h0 : s.total % 2 ^ 64 ≠ 0 := by
      intro h
      rw [h] at hsum
      exact hmove.1 (UInt64.toNat_inj.mp hsum)
    dsimp only at hi hd
    rw [scanned_idle_toNat hle, hsub] at hi
    rw [hsub] at hd
    have hshare : i = 100 * (((t.idle.toNat : ℚ) - s.idle.toNat) +
        ((t.steal.toNat : ℚ) - s.steal.toNat)) / ((t.total : ℚ) - s.total) ↔
        ColumnsAgree s t := by
      rw [hi, ← Nat.cast_sub hle.idle, ← Nat.cast_sub hle.steal, ← Nat.cast_sub hlt.le,
        ← Nat.cast_add, share_eq_iff hd (by omega)]
      exact ⟨fun h => ⟨h0, hd, h⟩, fun h => h.2.2⟩
    have hr : interval s.scanned t.scanned =
        ⟨.fin i, .fin (100 - i), .fin w, t.scanned⟩ := hrec
    rw [← hshare, CountsColumns, hr]
    simp only [Double.fin_inj, Double.fin_sub, and_true, and_iff_left_iff_imp]
    -- the busy share follows from the idle one
    exact fun h => busy_share hlt h

/-- Reading two lines and computing from them counts the columns as it should exactly
when the irq and the steal column advanced alike, as long as the total does not wrap. -/
theorem readInterval_counts_columns_iff (s t : CpuColumns) (more more' : Text)
    (hs : s.line.length ≤ 127) (ht : t.line.length ≤ 127) (hle : s.Le t) (h0 : s.total ≠ 0)
    (hlt : s.total < t.total) :
    (CountsColumns s t (readInterval (s.line ++ '\n' :: more) (t.line ++ '\n' :: more')) ↔
      ColumnsAgree s t) ∧
    (t.total < 2 ^ 64 →
      (ColumnsAgree s t ↔ t.irq.toNat - s.irq.toNat = t.steal.toNat - s.steal.toNat)) := by
  refine ⟨?_, columnsAgree_iff_of_lt hle h0 hlt⟩
  rw [readInterval, readCpuStat_line s hs (noDigit_cons rfl more),
    readCpuStat_line t ht (noDigit_cons rfl more')]
  exact countsColumns_iff hle hlt

/-- Two lines that differ by one tick of hard interrupts. -/
def irqBefore : CpuColumns := ⟨1, 0, 0, 0, 0, 0, 0, 0, 0, 0⟩

def irqAfter : CpuColumns := ⟨1, 0, 0, 0, 0, 1, 0, 0, 0, 0⟩

theorem irqBefore_le_irqAfter : irqBefore.Le irqAfter := by constructor <;> decide

theorem readInterval_counts_columns_irq :
    CountsColumns irqBefore irqAfter
        (readInterval (irqBefore.line ++ ['\n']) (irqAfter.line ++ ['\n'])) ↔
      ColumnsAgree irqBefore irqAfter :=
  (readInterval_counts_columns_iff irqBefore irqAfter [] [] (by decide) (by decide)
    irqBefore_le_irqAfter (by decide) (by decide)).1

/-- The tick of hard interrupts is counted as idle time. -/
theorem readInterval_irq_idle :
    ¬CountsColumns irqBefore irqAfter
      (readInterval (irqBefore.line ++ ['\n']) (irqAfter.line ++ ['\n'])) := by
  rintro ⟨hi, -, -⟩
  have hr : readInterval (irqBefore.line ++ ['\n']) (irqAfter.line ++ ['\n']) =
      interval irqBefore.scanned irqAfter.scanned := by
    rw [readInterval, readCpuStat_line irqBefore (by decide) (noDigit_cons rfl []),
      readCpuStat_line irqAfter (by decide) (noDigit_cons rfl [])]
    rfl
  rw [hr] at hi
  revert hi
  decide +kernel

end Zsr
