import Zsr.Divisors
import Mathlib.Algebra.Order.Floor.Semifield

namespace Zsr
open CLib

/-- No counter of the device went back, and neither its counted operations nor what was added to
its sectors and ticks overflow when reads and writes are added up. -/
structure IoStat.Advances (ps cs : IoStat) : Prop where
  rdIos : ps.rdIos ≤ cs.rdIos
  wrIos : ps.wrIos ≤ cs.wrIos
  rdSectors : ps.rdSectors ≤ cs.rdSectors
  wrSectors : ps.wrSectors ≤ cs.wrSectors
  rdTicks : ps.rdTicks ≤ cs.rdTicks
  wrTicks : ps.wrTicks ≤ cs.wrTicks
  totTicks : ps.totTicks ≤ cs.totTicks
  ios : cs.rdIos.toNat + cs.wrIos.toNat < 2 ^ 64
  sectors : (cs.rdSectors - ps.rdSectors).toNat + (cs.wrSectors - ps.wrSectors).toNat < 2 ^ 64
  ticks : (cs.rdTicks - ps.rdTicks).toNat + (cs.wrTicks - ps.wrTicks).toNat < 2 ^ 64

section
variable (st : IoStatics)

/-- The figures of `out` agree with one another, where `c` was sampled after `p`. -/
structure Consistent (c p out : Io) : Prop where
  finite : out.FiniteRates
  tps : out.tps.toRat = out.rPerSec.toRat + out.wPerSec.toRat
  /-- The size of the requests is counted in sectors, the speeds in MB. -/
  avgrqSz : p.stat.rdIos ≠ c.stat.rdIos ∨ p.stat.wrIos ≠ c.stat.wrIos →
    out.avgrqSz.toRat * out.tps.toRat = 2048 * (out.rSpeedPerSec.toRat + out.wSpeedPerSec.toRat)
  await : p.stat.rdIos ≠ c.stat.rdIos → p.stat.wrIos ≠ c.stat.wrIos →
    min out.rAwait.toRat out.wAwait.toRat ≤ out.await.toRat ∧
      out.await.toRat ≤ max out.rAwait.toRat out.wAwait.toRat
  readByte : st.hz ≠ 0 → out.readByte.toNat =
    ⌊out.rSpeedPerSec.toRat * (ioInterval st c.stat p.stat).toNat / st.hz.toNat⌋₊
  wrtnByte : st.hz ≠ 0 → out.wrtnByte.toNat =
    ⌊out.wSpeedPerSec.toRat * (ioInterval st c.stat p.stat).toNat / st.hz.toNat⌋₊
  /-- The printed utilisation against the busy milliseconds. -/
  util : st.hz ≠ 0 → ((out.util / .fin 10).toRat ≤ 100 ↔
    (c.stat.totTicks.toNat : ℚ) - p.stat.totTicks.toNat ≤
      (ioInterval st c.stat p.stat).toNat * 1000 / st.hz.toNat)

theorem rate_add {itv a b x y : UInt64} (ha : x ≤ a) (hb : y ≤ b)
    (hsum : a.toNat + b.toNat < 2 ^ 64) :
    rate st itv (a + b) (x + y) = rate st itv a x + rate st itv b y := by
  rw [rate, rate, rate, toNat_sum_sub ha hb hsum]
  push_cast
  ring

theorem average_mul_rate {itv a c p : UInt64} (hops : c - p ≠ 0) :
    average a (c - p) * rate st itv c p = a.toNat / itv.toNat * st.hz.toNat := by
  have hne : ((c - p).toNat : ℚ) ≠ 0 := toNat_ne_zero hops
  rw [average, if_neg hops, rate]
  field_simp

theorem hz_pos (hhz : st.hz ≠ 0) : (0 : ℚ) < st.hz.toNat := by
  have hne : st.hz.toNat ≠ 0 := fun h => hhz (UInt32.toNat_inj.mp h)
  exact Nat.cast_pos.mpr (Nat.pos_of_ne_zero hne)

theorem floor_speed {itv : UInt64} (hitv : itv ≠ 0) (hhz : st.hz ≠ 0) (c p : UInt64) :
    ((c - p) / 2048).toNat = ⌊rate st itv c p / 2048 * itv.toNat / st.hz.toNat⌋₊ := by
  have hitv' : (itv.toNat : ℚ) ≠ 0 := toNat_ne_zero hitv
  have hhz' : (st.hz.toNat : ℚ) ≠ 0 := (hz_pos st hhz).ne'
  have hquot : rate st itv c p / 2048 * itv.toNat / st.hz.toNat = (c - p).toNat / (2048 : ℕ) := by
    rw [rate]
    push_cast
    field_simp
  rw [hquot, Nat.floor_div_eq_div]
  rfl

theorem util_le_iff {itv c p : UInt64} (hitv : itv ≠ 0) (hhz : st.hz ≠ 0) (h : p ≤ c) :
    rate st itv c p / 10 ≤ 100 ↔
      (c.toNat : ℚ) - p.toNat ≤ itv.toNat * 1000 / st.hz.toNat := by
  have hitv' : (0 : ℚ) < itv.toNat := toNat_pos hitv
  have hhz' : (0 : ℚ) < st.hz.toNat := hz_pos st hhz
  rw [← cast_toNat_sub h, rate, le_div_iff₀ hhz', div_le_iff₀ (by norm_num : (0 : ℚ) < 10),
    div_mul_eq_mul_div, div_le_iff₀ hitv']
  constructor
  · intro hle
    linarith
  · intro hle
    linarith

theorem IoStat.Advances.ops {ps cs : IoStat} (h : ps.Advances cs) :
    (cs.rdIos + cs.wrIos - (ps.rdIos + ps.wrIos)).toNat =
      (cs.rdIos - ps.rdIos).toNat + (cs.wrIos - ps.wrIos).toNat :=
  toNat_sum_sub h.rdIos h.wrIos h.ios

theorem IoStat.Advances.ops_ne_zero {ps cs : IoStat} (h : ps.Advances cs)
    (hops : ps.rdIos ≠ cs.rdIos ∨ ps.wrIos ≠ cs.wrIos) :
    cs.rdIos + cs.wrIos - (ps.rdIos + ps.wrIos) ≠ 0 := by
  intro hzero
  have hsum := h.ops
  rw [hzero, UInt64.toNat_zero] at hsum
  rcases hops with hne | hne
  · exact hne (toNat_sub_eq_zero_iff.mp (by omega)).symm
  · exact hne (toNat_sub_eq_zero_iff.mp (by omega)).symm

theorem computeRates_consistent {c p : Io} (hitv : ioInterval st c.stat p.stat ≠ 0)
    (h : p.stat.Advances c.stat) : Consistent st c p (computeRates st c p) := by
  have hrates := computeRates_rates st hitv
  have hten : Double.fin (rate st (ioInterval st c.stat p.stat) c.stat.totTicks p.stat.totTicks) /
      .fin 10 = .fin (rate st (ioInterval st c.stat p.stat) c.stat.totTicks p.stat.totTicks / 10) :=
    Double.fin_div (by norm_num)
  constructor
  case finite => exact (computeRates_finite_iff st c p).mpr hitv
  case tps =>
    rw [hrates.tps, hrates.rPerSec, hrates.wPerSec]
    exact rate_add st h.rdIos h.wrIos h.ios
  case avgrqSz =>
    intro hops
    rw [hrates.avgrqSz, hrates.tps, hrates.rSpeedPerSec, hrates.wSpeedPerSec]
    simp only [Double.toRat_fin]
    rw [average_mul_rate st (h.ops_ne_zero hops), UInt64.toNat_add, Nat.mod_eq_of_lt h.sectors]
    simp only [rate]
    push_cast
    ring
  case await =>
    intro hrd hwr
    have hne {a b : UInt64} (hab : b ≠ a) : a - b ≠ 0 := by
      intro hzero
      exact hab (toNat_sub_eq_zero_iff.mp (congrArg UInt64.toNat hzero)).symm
    have hrd' := hne hrd
    have hwr' := hne hwr
    rw [hrates.await, hrates.rAwait, hrates.wAwait]
    simp only [Double.toRat_fin]
    rw [average, average, average, if_neg hrd', if_neg hwr', if_neg (h.ops_ne_zero (.inl hrd)),
      h.ops, UInt64.toNat_add, Nat.mod_eq_of_lt h.ticks, Nat.cast_add, Nat.cast_add]
    exact ⟨min_le_add_div_add (toNat_pos hrd') (toNat_pos hwr'),
      add_div_add_le_max (toNat_pos hrd') (toNat_pos hwr')⟩
  case readByte =>
    intro hhz
    rw [hrates.readByte, hrates.rSpeedPerSec]
    exact floor_speed st hitv hhz _ _
  case wrtnByte =>
    intro hhz
    rw [hrates.wrtnByte, hrates.wSpeedPerSec]
    exact floor_speed st hitv hhz _ _
  case util =>
    intro hhz
    rw [hrates.util, hten]
    exact util_le_iff st hitv hhz h.totTicks

/-- A device that is in both samples gets figures that agree with one another. -/
theorem computeIoStat_consistent {currList prevList : List Io} {c p : Io} {i : ℕ}
    (hc : currList[i]? = some c) (hp : prevList.find? (fun p => p.dev == c.dev) = some p)
    (hitv : ioInterval st c.stat p.stat ≠ 0) (h : p.stat.Advances c.stat) :
    ∃ out, (computeIoStat st currList prevList).1[i]? = some out ∧ out.dev = c.dev ∧
      Consistent st c p out := by
  refine ⟨computeRates st c p, ?_, rfl, computeRates_consistent st hitv h⟩
  rw [computeIoStat, List.getElem?_map, hc, Option.map_some, matchPrev_eq_find?, hp]
  rfl

end

/-- A disk with three reads and a write in ten ticks. -/
def busyDisk : Io :=
  { dev := "sda".toList
    stat := { uptime := 30, rdIos := 5, wrIos := 2, rdSectors := 4096, rdTicks := 9 } }

def busyDiskBefore : Io :=
  { dev := "sda".toList
    stat := { uptime := 20, rdIos := 2, wrIos := 1, rdSectors := 2048, rdTicks := 3 } }

theorem computeIoStat_consistent_disk :
    ∃ out, (computeIoStat ⟨100, 1⟩ [busyDisk] [busyDiskBefore]).1[0]? = some out ∧
      out.dev = busyDisk.dev ∧ Consistent ⟨100, 1⟩ busyDisk busyDiskBefore out :=
  computeIoStat_consistent ⟨100, 1⟩ rfl rfl (by decide) (by constructor <;> decide)

end Zsr
