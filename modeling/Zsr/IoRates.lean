import Zsr.IoStat
import Mathlib.Data.List.Nodup
import Mathlib.Tactic.NormNum

namespace Zsr
open CLib

section
variable (st : IoStatics)

theorem matchPrev_of_not_mem {curr : Io} {prevs : List Io} (h : ∀ p ∈ prevs, p.dev ≠ curr.dev) :
    matchPrev st curr prevs = curr := by
  induction prevs with
  | nil => rfl
  | cons p prevs ih =>
    rw [matchPrev, if_pos (h p List.mem_cons_self).symm]
    exact ih fun q hq => h q (List.mem_cons_of_mem _ hq)

theorem matchPrev_of_mem {curr p : Io} {prevs : List Io} (hn : (prevs.map Io.dev).Nodup)
    (hp : p ∈ prevs) (hdev : p.dev = curr.dev) :
    matchPrev st curr prevs = computeRates st curr p := by
  induction prevs with
  | nil => cases hp
  | cons q prevs ih =>
    rw [List.map_cons, List.nodup_cons] at hn
    rcases List.mem_cons.mp hp with rfl | hp
    · rw [matchPrev, if_neg (not_not.mpr hdev.symm)]
    · have hne : curr.dev ≠ q.dev := by
        intro h
        apply hn.1
        rw [← h, ← hdev]
        exact List.mem_map_of_mem hp
      rw [matchPrev, if_pos hne, ih hn.2 hp]

theorem matchPrev_perm {curr : Io} {prevs prevs' : List Io} (hn : (prevs.map Io.dev).Nodup)
    (hperm : prevs'.Perm prevs) : matchPrev st curr prevs' = matchPrev st curr prevs := by
  have hn' : (prevs'.map Io.dev).Nodup := (hperm.map Io.dev).nodup_iff.mpr hn
  by_cases h : ∃ p ∈ prevs, p.dev = curr.dev
  · obtain ⟨p, hp, hdev⟩ := h
    rw [matchPrev_of_mem st hn hp hdev, matchPrev_of_mem st hn' (hperm.mem_iff.mpr hp) hdev]
  · have h : ∀ p ∈ prevs, p.dev ≠ curr.dev := fun p hp hdev => h ⟨p, hp, hdev⟩
    rw [matchPrev_of_not_mem st h, matchPrev_of_not_mem st fun p hp => h p (hperm.mem_iff.mp hp)]

/-- A counter's wrapped difference in each second of the interval. -/
def rate (itv c p : UInt64) : ℚ := (c - p).toNat / itv.toNat * st.hz.toNat

/-- The average per operation, none without an operation. -/
def average (a n : UInt64) : ℚ := if n = 0 then 0 else a.toNat / n.toNat

/-- The rates of `out` are those of `c` since `p`. -/
structure IoRates (c p out : Io) : Prop where
  tps : out.tps = .fin (rate st (ioInterval st c.stat p.stat)
    (c.stat.rdIos + c.stat.wrIos) (p.stat.rdIos + p.stat.wrIos))
  readByte : out.readByte = (c.stat.rdSectors - p.stat.rdSectors) / 2048
  wrtnByte : out.wrtnByte = (c.stat.wrSectors - p.stat.wrSectors) / 2048
  rrqmPerSec : out.rrqmPerSec =
    .fin (rate st (ioInterval st c.stat p.stat) c.stat.rdMerges p.stat.rdMerges)
  wrqmPerSec : out.wrqmPerSec =
    .fin (rate st (ioInterval st c.stat p.stat) c.stat.wrMerges p.stat.wrMerges)
  rPerSec : out.rPerSec = .fin (rate st (ioInterval st c.stat p.stat) c.stat.rdIos p.stat.rdIos)
  wPerSec : out.wPerSec = .fin (rate st (ioInterval st c.stat p.stat) c.stat.wrIos p.stat.wrIos)
  rSpeedPerSec : out.rSpeedPerSec =
    .fin (rate st (ioInterval st c.stat p.stat) c.stat.rdSectors p.stat.rdSectors / 2048)
  wSpeedPerSec : out.wSpeedPerSec =
    .fin (rate st (ioInterval st c.stat p.stat) c.stat.wrSectors p.stat.wrSectors / 2048)
  avgrqSz : out.avgrqSz = .fin (average
    ((c.stat.rdSectors - p.stat.rdSectors) + (c.stat.wrSectors - p.stat.wrSectors))
    ((c.stat.rdIos + c.stat.wrIos) - (p.stat.rdIos + p.stat.wrIos)))
  avgquSz : out.avgquSz =
    .fin (rate st (ioInterval st c.stat p.stat) c.stat.rqTicks p.stat.rqTicks / 1000)
  await : out.await = .fin (average
    ((c.stat.rdTicks - p.stat.rdTicks) + (c.stat.wrTicks - p.stat.wrTicks))
    ((c.stat.rdIos + c.stat.wrIos) - (p.stat.rdIos + p.stat.wrIos)))
  rAwait : out.rAwait =
    .fin (average (c.stat.rdTicks - p.stat.rdTicks) (c.stat.rdIos - p.stat.rdIos))
  wAwait : out.wAwait =
    .fin (average (c.stat.wrTicks - p.stat.wrTicks) (c.stat.wrIos - p.stat.wrIos))
  util : out.util = .fin (rate st (ioInterval st c.stat p.stat) c.stat.totTicks p.stat.totTicks)

theorem computeStat_eq {itv : UInt64} (hitv : itv ≠ 0) (c p : UInt64) :
    computeStat st c p itv = .fin (rate st itv c p) := by
  rw [computeStat, Double.ofU64_eq, Double.ofU64_eq, Double.ofU64_eq,
    Double.fin_div (toNat_ne_zero hitv), Double.fin_mul, rate, UInt32.toNat_toUInt64]

theorem perOp_eq (a n : UInt64) : perOp a n = .fin (average a n) := by
  by_cases hn : n = 0
  · rw [perOp, if_neg (not_not.mpr hn), average, if_pos hn]
    rfl
  · rw [perOp, if_pos hn, average, if_neg hn, Double.ofU64_eq, Double.ofU64_eq,
      Double.fin_div (toNat_ne_zero hn)]

theorem factor_toNat : (factor.toNat : ℚ) = 2048 := by
  have h : factor.toNat = 2048 := rfl
  rw [h]
  norm_num

theorem computeRates_rates {c p : Io} (hitv : ioInterval st c.stat p.stat ≠ 0) :
    IoRates st c p (computeRates st c p) := by
  have h2048 (q : ℚ) : Double.fin q / Double.ofU64 factor = .fin (q / 2048) := by
    rw [Double.ofU64_eq, factor_toNat, Double.fin_div (by norm_num)]
  have h1000 (q : ℚ) : Double.fin q / .fin 1000 = .fin (q / 1000) := Double.fin_div (by norm_num)
  constructor <;> simp only [computeRates, computeStat_eq st hitv, perOp_eq, h2048, h1000]
  · rfl
  · rfl

structure DeviceResult (prevList : List Io) (c out : Io) : Prop where
  dev : out.dev = c.dev
  stat : out.stat = c.stat
  joined : ∀ p ∈ prevList, p.dev = c.dev → ioInterval st c.stat p.stat ≠ 0 → IoRates st c p out
  alone : (∀ p ∈ prevList, p.dev ≠ c.dev) → out = c

/-- Each device gets the rates since the entry of its name. Its result does not depend on
where it and the others stand, and the previous list stays as it is. -/
theorem computeIoStat_rates (currList prevList : List Io) (hprev : (prevList.map Io.dev).Nodup) :
    ∃ result : Io → Io,
      (∀ currList' prevList', currList'.Perm currList → prevList'.Perm prevList →
        computeIoStat st currList' prevList' = (currList'.map result, prevList')) ∧
      ∀ c ∈ currList, DeviceResult st prevList c (result c) := by
  refine ⟨fun c => matchPrev st c prevList, ?_, ?_⟩
  · intro currList' prevList' _ hperm
    rw [computeIoStat]
    congr 2
    funext c
    exact matchPrev_perm st hprev hperm
  · intro c _
    obtain ⟨hdev, hstat⟩ := matchPrev_raw st c prevList
    refine ⟨hdev, hstat, ?_, matchPrev_of_not_mem st⟩
    intro p hp hpdev hitv
    show IoRates st c p (matchPrev st c prevList)
    rw [matchPrev_of_mem st hprev hp hpdev]
    exact computeRates_rates st hitv

end

def diskList : List Io :=
  [{ dev := "sda".toList, stat := { uptime := 30, rdIos := 5 } }, { dev := "sdb".toList }]

def diskPrevList : List Io := [{ dev := "sda".toList, stat := { uptime := 10, rdIos := 1 } }]

theorem computeIoStat_rates_disks :
    ∃ result : Io → Io,
      (∀ currList' prevList', currList'.Perm diskList → prevList'.Perm diskPrevList →
        computeIoStat ⟨100, 1⟩ currList' prevList' = (currList'.map result, prevList')) ∧
      ∀ c ∈ diskList, DeviceResult ⟨100, 1⟩ diskPrevList c (result c) :=
  computeIoStat_rates ⟨100, 1⟩ diskList diskPrevList (by decide)

example : ((computeIoStat ⟨100, 1⟩ diskList diskPrevList).1.map Io.rPerSec) = [.fin 20, 0] := by
  decide +kernel

end Zsr
