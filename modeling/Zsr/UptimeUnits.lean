import Zsr.Gauges
import Zsr.CLib.Units

namespace Zsr
open CLib

namespace Uptime

/-- The seconds in a year, a month, a day, an hour and a minute. -/
def unitSec : List ℕ := [31536000, 2592000, 86400, 3600, 60]

/-- Years, months, days, hours and minutes, in this order. -/
def units (up : Uptime) : List ℕ :=
  [up.year.toNat, up.month.toNat, up.day.toNat, up.hour.toNat, up.minute.toNat]

def seconds (up : Uptime) : ℕ :=
  31536000 * up.year.toNat + 2592000 * up.month.toNat + 86400 * up.day.toNat +
    3600 * up.hour.toNat + 60 * up.minute.toNat

theorem joinUnits_units (up : Uptime) : joinUnits unitSec up.units = up.seconds := by
  simp only [unitSec, units, joinUnits, seconds, Nat.add_assoc, Nat.add_zero]

/-- Every component is smaller than what makes one of the next larger unit. -/
structure BelowCarry (up : Uptime) : Prop where
  month : up.month.toNat < 12
  day : up.day.toNat < 30
  hour : up.hour.toNat < 24
  minute : up.minute.toNat < 60

end Uptime

theorem units_setUptime (totalSec : UInt64) :
    (setUptime totalSec).units = splitUnits Uptime.unitSec totalSec.toNat := by
  simp only [Uptime.units, setUptime, Uptime.unitSec, splitUnits, UInt64.toNat_div,
    UInt64.toNat_mod, UInt64.reduceToNat]

/-- The components make the seconds again, up to the minute, and a later uptime is not shown
as an earlier one. -/
theorem setUptime_recomposes :
    (∀ totalSec : UInt64, (setUptime totalSec).seconds ≤ totalSec.toNat ∧
      totalSec.toNat < (setUptime totalSec).seconds + 60) ∧
    ∀ t u : UInt64, t ≤ u → (setUptime t).units = (setUptime u).units ∨
      List.Lex (· < ·) (setUptime t).units (setUptime u).units := by
  constructor
  · intro totalSec
    have hjoin := joinUnits_splitUnits Uptime.unitSec totalSec.toNat
    have hrest : unitsRest Uptime.unitSec totalSec.toNat < 60 := by
      have hlast : Uptime.unitSec = [31536000, 2592000, 86400, 3600] ++ [60] := rfl
      rw [hlast]
      exact unitsRest_lt (by decide) totalSec.toNat
    rw [← units_setUptime, Uptime.joinUnits_units] at hjoin
    omega
  · intro t u h
    rw [units_setUptime, units_setUptime]
    exact splitUnits_mono (UInt64.le_iff_toNat_le.mp h) Uptime.unitSec

theorem toNat_month_setUptime (totalSec : UInt64) :
    (setUptime totalSec).month.toNat = totalSec.toNat % 31536000 / 2592000 := by
  simp only [setUptime, UInt64.toNat_div, UInt64.toNat_mod, UInt64.reduceToNat]

theorem setUptime_day (totalSec : UInt64) :
    (setUptime totalSec).day.toNat < 30 ∧ (setUptime totalSec).hour.toNat < 24 ∧
      (setUptime totalSec).minute.toNat < 60 := by
  simp only [setUptime, UInt64.toNat_div, UInt64.toNat_mod, UInt64.reduceToNat]
  exact ⟨mod_div_lt (by decide) (by decide) _, mod_div_lt (by decide) (by decide) _,
    mod_div_lt (by decide) (by decide) _⟩

/-- Every component stays below its carry exactly outside the last five days of a year. -/
theorem setUptime_belowCarry_iff (totalSec : UInt64) :
    (setUptime totalSec).BelowCarry ↔ totalSec.toNat % 31536000 < 31104000 := by
  have hmonth : (setUptime totalSec).month.toNat < 12 ↔ totalSec.toNat % 31536000 < 31104000 := by
    rw [toNat_month_setUptime]
    exact Nat.div_lt_iff_lt_mul (by decide)
  rw [← hmonth]
  obtain ⟨hday, hhour, hminute⟩ := setUptime_day totalSec
  exact ⟨fun h => h.month, fun h => ⟨h, hday, hhour, hminute⟩⟩

/-- After 360 days the twelfth month has passed and the year has not. -/
theorem setUptime_360_days :
    setUptime 31104000 =
      { totalSec := 31104000, year := 0, month := 12, day := 0, hour := 0, minute := 0 } ∧
    ¬(setUptime 31104000).BelowCarry := by
  refine ⟨by decide, fun h => ?_⟩
  have hmonth := h.month
  revert hmonth
  decide

end Zsr
