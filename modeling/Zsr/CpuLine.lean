import Zsr.CpuColumns
import Mathlib.Tactic.IntervalCases

namespace Zsr
open CLib

theorem readCpuStat_long (c : CpuColumns) (hlen : 127 < c.line.length) (more : Text)
    (cpu : CpuStat) :
    readCpuStat (some (c.line ++ more)) cpu =
      cpu.store (scanLus 10 ((decFields c.values).take 123)) := by
  have hnl : '\n' ∉ c.line := c.not_mem_line rfl (by decide) (by decide)
  have hnul : '\x00' ∉ c.line.take 127 := fun h =>
    c.not_mem_line rfl (by decide) (by decide) (List.mem_of_mem_take h)
  have hbuf : cstr (takeLine (LEN_128 - 1) (c.line ++ more)).1 =
      "cpu ".toList ++ (decFields c.values).take 123 := by
    rw [takeLine_cut hnl (k := LEN_128 - 1) hlen.le]
    exact cstr_eq_self hnul
  have hpre : "cpu ".toList <+: "cpu ".toList ++ (decFields c.values).take 123 :=
    List.prefix_append _ _
  have hne : c.line ++ more ≠ [] := by simp [CpuColumns.line]
  rw [readCpuStat, fgetsLines_cons (by decide) hne, hbuf, readCpuLines, if_pos hpre]
  rfl

/-- Every counter that is not zero ends within the characters that the buffer takes. -/
def CpuColumns.EndsInBuffer (c : CpuColumns) : Prop :=
  ∀ us v, us ++ [v] <+: c.values → v ≠ 0 →
    ("cpu ".toList ++ decFields (us ++ [v])).length ≤ 127

theorem store_eq_scanned_iff (c : CpuColumns) (read : List UInt64) :
    CpuStat.store {} read = c.scanned ↔ ∀ i < 10, read.getD i 0 = c.values.getD i 0 := by
  constructor
  · intro h i hi
    have hc : CpuStat.store {} read = CpuStat.store {} c.values := h
    simp only [CpuStat.store, CpuStat.mk.injEq] at hc
    obtain ⟨h0, h1, h2, h3, h4, h5, h6, h7, h8, h9⟩ := hc
    interval_cases i <;> assumption
  · intro h
    have hc : CpuStat.store {} c.values = c.scanned := rfl
    rw [← hc]
    simp only [CpuStat.store, CpuStat.mk.injEq]
    exact ⟨h 0 (by decide), h 1 (by decide), h 2 (by decide), h 3 (by decide), h 4 (by decide),
      h 5 (by decide), h 6 (by decide), h 7 (by decide), h 8 (by decide), h 9 (by decide)⟩

/-- Reading undoes printing exactly when every counter that is not zero ends within the
buffer. -/
theorem readCpuStat_decimal_iff (c : CpuColumns) (more : Text) :
    readCpuStat (some (c.line ++ '\n' :: more)) {} = c.scanned ↔ c.EndsInBuffer := by
  by_cases hlen : c.line.length ≤ 127
  · -- the whole line fits, and with it every beginning
    refine iff_of_true (readCpuStat_line c hlen (noDigit_cons rfl more) {}) ?_
    rintro us v ⟨t, ht⟩ -
    apply le_trans _ hlen
    rw [CpuColumns.line, ← ht, decFields_append (us ++ [v]) t, ← List.append_assoc]
    exact (List.prefix_append _ _).length_le
  · rw [readCpuStat_long c (not_le.mp hlen), store_eq_scanned_iff]
    have h := scanLus_take_iff c.values 123
    have hten : c.values.length = 10 := rfl
    rw [hten] at h
    rw [h]
    refine forall₃_congr fun us v _ => imp_congr_right fun _ => ?_
    have hcpu : "cpu ".toList.length = 4 := rfl
    rw [List.length_append, hcpu]
    omega

def fullColumns : CpuColumns :=
  ⟨-1, -1, -1, -1, -1, -1, -1, -1, -1, -1⟩

/-- The sixth counter is cut to 17 digits, and the last four are not read. -/
theorem readCpuStat_full :
    readCpuStat (some (fullColumns.line ++ ['\n'])) {} =
      { user := -1, nice := -1, sys := -1, idle := -1, iowait := -1,
        steal := 18446744073709551 } ∧
    readCpuStat (some (fullColumns.line ++ ['\n'])) {} ≠ fullColumns.scanned := by
  have hread : readCpuStat (some (fullColumns.line ++ ['\n'])) {} =
      { user := -1, nice := -1, sys := -1, idle := -1, iowait := -1,
        steal := 18446744073709551 } := by
    decide +kernel
  refine ⟨hread, ?_⟩
  rw [hread]
  decide

end Zsr
