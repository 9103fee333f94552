import Zsr.IoClock
import Zsr.IoRates
import Zsr.ProcSample

namespace Zsr
open CLib

def Io.rates (e : Io) : List Double :=
  [e.tps, e.rrqmPerSec, e.wrqmPerSec, e.rPerSec, e.wPerSec, e.rSpeedPerSec, e.wSpeedPerSec,
    e.avgrqSz, e.avgquSz, e.await, e.rAwait, e.wAwait, e.util]

def Io.FiniteRates (e : Io) : Prop := ∀ d ∈ e.rates, d.IsFinite

theorem finiteRates_ofLine (uptime uptime0 : UInt64) (dev : Text) (v : List UInt64) :
    (Io.ofLine uptime uptime0 dev v).FiniteRates := by
  simp [Io.FiniteRates, Io.rates, Io.ofLine, Double.isFinite_zero]

theorem readIoLines_finite {env : IoEnv} {numOfCpu hz : UInt32} {i : ℕ} {bufs : List Text}
    {nodes : List Io} (h : readIoLines env numOfCpu hz i bufs = some nodes) :
    ∀ c ∈ nodes, c.FiniteRates := by
  induction bufs generalizing i nodes with
  | nil =>
    obtain rfl := Option.some.inj h
    simp
  | cons buf bufs ih =>
    simp only [readIoLines, Option.bind_eq_bind, Option.bind_eq_some_iff] at h
    obtain ⟨uptime0, -, line, -, h⟩ := h
    cases line with
    | none =>
      obtain rfl := Option.some.inj h
      simp
    | some line =>
      simp only [Option.bind_eq_some_iff, Option.some.injEq] at h
      obtain ⟨rest, hrest, rfl⟩ := h
      rw [List.forall_mem_cons]
      exact ⟨finiteRates_ofLine _ _ _ _, ih hrest⟩

theorem readIoStat_finite {env : IoEnv} {st : IoStatics} {nodes : List Io}
    (h : readIoStat env = some (st, nodes)) : ∀ c ∈ nodes, c.FiniteRates := by
  simp only [readIoStat, Option.bind_eq_bind, Option.bind_eq_some_iff] at h
  obtain ⟨n, -, hz, -, h⟩ := h
  cases hd : env.diskstats with
  | none =>
    simp only [hd, Option.some.injEq, Prod.mk.injEq] at h
    simp [← h.2]
  | some s =>
    simp only [hd, Option.bind_eq_some_iff, Option.some.injEq, Prod.mk.injEq] at h
    obtain ⟨nodes', hnodes, -, rfl⟩ := h
    exact readIoLines_finite hnodes

section
variable (st : IoStatics)

theorem computeRates_finite_iff (c p : Io) :
    (computeRates st c p).FiniteRates ↔ ioInterval st c.stat p.stat ≠ 0 := by
  constructor
  · intro h hitv
    have htps : (computeRates st c p).tps.IsFinite := h _ (by simp [Io.rates])
    have hquot := Double.isFinite_div_iff.mp htps.of_mul_fin
    rw [hitv] at hquot
    exact hquot rfl
  · intro hitv
    have h := computeRates_rates st hitv
    simp only [Io.FiniteRates, Io.rates, List.forall_mem_cons, h.tps, h.rrqmPerSec, h.wrqmPerSec,
      h.rPerSec, h.wPerSec, h.rSpeedPerSec, h.wSpeedPerSec, h.avgrqSz, h.avgquSz, h.await,
      h.rAwait, h.wAwait, h.util, Double.isFinite_fin, true_and]
    simp

theorem matchPrev_eq_find? (c : Io) (prevs : List Io) :
    matchPrev st c prevs = (prevs.find? fun p => p.dev == c.dev).elim c (computeRates st c) := by
  induction prevs with
  | nil => rfl
  | cons p prevs ih =>
    rw [matchPrev, List.find?_cons]
    by_cases hdev : c.dev = p.dev
    · rw [if_neg (not_not.mpr hdev), hdev, beq_self_eq_true]
      rfl
    · rw [if_pos hdev, beq_false_of_ne (Ne.symm hdev)]
      exact ih

/-- Every device has ticks in the interval to the entry it is compared with. -/
def IntervalsMove (currList prevList : List Io) : Prop :=
  ∀ c ∈ currList, ∀ p, prevList.find? (fun p => p.dev == c.dev) = some p →
    ioInterval st c.stat p.stat ≠ 0

theorem computeIoStat_finite_iff {currList : List Io} (hcur : ∀ c ∈ currList, c.FiniteRates)
    (prevList : List Io) :
    (∀ e ∈ (computeIoStat st currList prevList).1, e.FiniteRates) ↔
      IntervalsMove st currList prevList := by
  rw [computeIoStat, List.forall_mem_map, IntervalsMove]
  apply forall₂_congr
  intro c hc
  rw [matchPrev_eq_find?]
  cases prevList.find? fun p => p.dev == c.dev with
  | none => simpa using hcur c hc
  | some p =>
    rw [Option.elim_some, computeRates_finite_iff]
    simp

end

/-- The arrays that the pairs of loops over `c` and `p` leave. -/
def joinArrays (curList prevList : List Proc) : Option ProcCpuStatArray :=
  ((List.range curList.length).foldlM (fun st c => matchProc (.ofList curList)
      (.ofList prevList) c (List.range prevList.length) st)
    (ProcCpuStatArray.calloc curList.length, 0)).map Prod.fst

/-- The list after the first `i` turns of the write-back. -/
def writtenBack (cs : ProcCpuStatArray) (curList : List Proc) (i : ℕ) : Option (List Proc) :=
  (List.range i).foldlM (fun l i => writeBack id cs i l) curList

theorem computeProcCpuStat_writtenBack (curList prevList : List Proc) :
    computeProcCpuStat curList prevList =
      (joinArrays curList prevList).bind fun cs => writtenBack cs curList curList.length := by
  unfold computeProcCpuStat computeProcCpuStatBy joinArrays writtenBack
  rw [Option.bind_map]
  rfl

/-- All percentages are numbers, after every turn of the write-back. -/
def StoresFinite (curList prevList : List Proc) : Prop :=
  ∃ cs, joinArrays curList prevList = some cs ∧ ∀ i ≤ curList.length,
    ∃ l, writtenBack cs curList i = some l ∧ ∀ e ∈ l, e.cpuUtil.IsFinite

theorem joinArrays_eq (curList prevList : List Proc) :
    joinArrays curList prevList = (slotsOf curList prevList).map .ofSlots := by
  have hcalloc : ProcCpuStatArray.calloc curList.length =
      .ofSlots ([] ++ List.replicate curList.length .zero) := by
    simp [ProcCpuStatArray.calloc, ProcCpuStatArray.ofSlots, Slot.zero]
  have hturns := matchProc_turns curList prevList curList 0 rfl [] curList.length le_rfl
  rw [List.length_nil, ← List.range_eq_range'] at hturns
  rw [joinArrays, hcalloc, hturns, slotsOf, Option.map_map, Option.map_map]
  rfl

theorem writtenBack_eq {slots : List Slot} {i : ℕ} (hi : i ≤ slots.length) (l : List Proc) :
    writtenBack (.ofSlots slots) l i =
      some ((slots.take i).foldl (fun l s => setUtil id s l) l) := by
  induction i with
  | zero => rfl
  | succ i ih =>
    have hs : slots[i]? = some slots[i] := List.getElem?_eq_getElem hi
    have ih := ih (Nat.le_of_succ_le hi)
    unfold writtenBack at ih ⊢
    rw [List.range_succ, List.foldlM_append, ih, List.take_succ_eq_append_getElem hi,
      List.foldl_append]
    simp only [List.foldlM_cons, List.foldlM_nil, Option.bind_eq_bind, Option.bind_some,
      writeBack_eq slots hs]
    rfl

/-- What is stored stays in the list for one turn at least, so it is always a number exactly
when the slots that are written are. -/
theorem writtenBack_finite_iff {slots : List Slot} {l : List Proc}
    (hfresh : ∀ e ∈ l, e.cpuUtil = 0) :
    (∀ i ≤ slots.length, ∀ e ∈ (slots.take i).foldl (fun l s => setUtil id s l) l,
      e.cpuUtil.IsFinite) ↔
    ∀ s ∈ slots, s.pid ∈ l.map Proc.pid → (s.util id).IsFinite := by
  constructor
  · intro h s hs hpid
    obtain ⟨i, hi, rfl⟩ := List.getElem_of_mem hs
    have hturn := h (i + 1) hi
    rw [List.take_succ_eq_append_getElem hi, List.foldl_append] at hturn
    obtain ⟨e, he, -, hutil⟩ := exists_mem_setUtil
      (s := slots[i]) (l := (slots.take i).foldl (fun l s => setUtil id s l) l)
      (by rw [foldl_setUtil_pid]; exact hpid)
    exact hutil ▸ hturn e he
  · intro h i _ e he
    have hall : List.Forall₂ (fun d e => d ∈ l ∧ e.pid = d.pid ∧ e.cpuUtil.IsFinite) l
        ((slots.take i).foldl (fun l s => setUtil id s l) l) := by
      apply foldl_setUtil_forall₂
      · rintro s hs d e hpid ⟨hd, hed, -⟩
        refine ⟨hd, hed, h s (List.mem_of_mem_take hs) ?_⟩
        rw [← hpid, hed]
        exact List.mem_map_of_mem hd
      · refine List.forall₂_same.mpr fun e he => ⟨he, rfl, ?_⟩
        rw [hfresh e he]
        exact Double.isFinite_zero
    obtain ⟨d, -, -, -, hfinite⟩ := exists_of_forall₂ hall he
    exact hfinite

theorem slotOf_util_isFinite_iff (e r : Proc) :
    ((slotOf e r).util id).IsFinite ↔ e.sysCpuTime ≠ r.sysCpuTime := by
  rw [Slot.util, slotOf, Double.percentOf_id, Double.ofU64_eq, Double.ofU64_eq, Double.fin_mul,
    Double.isFinite_div_iff, Nat.cast_ne_zero, ne_eq, toNat_sub_eq_zero_iff]

/-- The clock has moved since the entry at the position of each process of both lists, and
where a process could not be read no slot is left unused. -/
def TicksMove (curList prevList : List Proc) : Prop :=
  (∀ (c : ℕ) (e : Proc), curList[c]? = some e → e.pid ∈ prevList.map Proc.pid →
    ∃ r, prevList[c]? = some r ∧ e.sysCpuTime ≠ r.sysCpuTime) ∧
  (0 ∈ curList.map Proc.pid → ∀ e ∈ curList, e.pid ∈ prevList.map Proc.pid)

theorem storesFinite_slots {curList : List Proc} (hfresh : ∀ e ∈ curList, e.cpuUtil = 0)
    (prevList : List Proc) : StoresFinite curList prevList ↔
      ∃ slots, slotsOf curList prevList = some slots ∧
        ∀ s ∈ slots, s.pid ∈ curList.map Proc.pid → (s.util id).IsFinite := by
  unfold StoresFinite
  rw [joinArrays_eq]
  cases hslots : slotsOf curList prevList with
  | none => simp
  | some slots =>
    simp only [Option.map_some, Option.some.injEq, exists_eq_left']
    rw [← writtenBack_finite_iff hfresh, slotsOf_length hslots]
    apply forall₂_congr
    intro i hi
    rw [writtenBack_eq ((slotsOf_length hslots).symm ▸ hi)]
    simp only [Option.some.injEq, exists_eq_left']

theorem ticksMove_of_slots {curList prevList : List Proc} {slots : List Slot}
    (hslots : slotsOf curList prevList = some slots)
    (hfinite : ∀ s ∈ slots, s.pid ∈ curList.map Proc.pid → (s.util id).IsFinite) :
    TicksMove curList prevList := by
  constructor
  · intro c e he hm
    obtain ⟨t, ht, rfl⟩ := Option.map_eq_some_iff.mp hslots
    obtain ⟨r, hr, hmem⟩ := mem_turns ht he hm
    rw [Nat.zero_add] at hr
    refine ⟨r, hr, (slotOf_util_isFinite_iff e r).mp ?_⟩
    apply hfinite _ (List.mem_append_left _ hmem)
    exact List.mem_map_of_mem (List.mem_of_getElem? he)
  · intro h0 e he
    by_contra hm
    obtain ⟨init, rfl⟩ := slotsOf_unused hslots he hm
    have hzero := hfinite .zero (by simp) h0
    rw [Slot.zero_util rfl] at hzero
    exact Double.not_isFinite_nan _ hzero

namespace TicksMove

variable {curList prevList : List Proc}

theorem inside (h : TicksMove curList prevList) : InsidePrev curList prevList := by
  intro c e he hm
  obtain ⟨r, hr, -⟩ := h.1 c e he hm
  exact (List.getElem?_eq_some_iff.mp hr).1

theorem turns_finite (h : TicksMove curList prevList) {t : List Slot}
    (ht : turns prevList curList 0 = some t) {s : Slot} (hs : s ∈ t) : (s.util id).IsFinite := by
  obtain ⟨k, e, r, he, hr, rfl⟩ := turns_mem ht hs
  have hm := List.mem_map_of_mem (f := Slot.pid) hs
  rw [turns_pid ht, List.mem_filter] at hm
  obtain ⟨r', hr', hsys⟩ := h.1 k e he (of_decide_eq_true hm.2)
  rw [Nat.zero_add] at hr
  obtain rfl := Option.some.inj (hr.symm.trans hr')
  exact (slotOf_util_isFinite_iff e r).mpr hsys

theorem slots (h : TicksMove curList prevList) :
    ∃ slots, slotsOf curList prevList = some slots ∧
      ∀ s ∈ slots, s.pid ∈ curList.map Proc.pid → (s.util id).IsFinite := by
  obtain ⟨t, ht⟩ := h.inside.exists_turns
  by_cases h0 : 0 ∈ curList.map Proc.pid
  · exact ⟨t, slotsOf_full ht (h.2 h0), fun s hs _ => h.turns_finite ht hs⟩
  · -- an unused slot has the pid of a process that could not be read
    refine ⟨_, by rw [slotsOf, ht]; rfl, fun s hs hpid => ?_⟩
    rcases List.mem_append.mp hs with hs | hs
    · exact h.turns_finite ht hs
    · obtain rfl := List.eq_of_mem_replicate hs
      exact absurd hpid h0

end TicksMove

theorem storesFinite_iff {curList : List Proc} (hfresh : ∀ e ∈ curList, e.cpuUtil = 0)
    (prevList : List Proc) : StoresFinite curList prevList ↔ TicksMove curList prevList := by
  rw [storesFinite_slots hfresh]
  constructor
  · rintro ⟨slots, hslots, hfinite⟩
    exact ticksMove_of_slots hslots hfinite
  · exact TicksMove.slots

/-- No divisor is zero, and what is stored is a number, exactly when the clocks have moved
for every entry that is compared. -/
theorem computeStats_finite_iff {env : IoEnv} {env' : ProcEnv} {st : IoStatics}
    {ioList : List Io} {procList : List Proc} (hio : readIoStat env = some (st, ioList))
    (hproc : getAllProc env' = some procList) (ioPrev : List Io) (procPrev : List Proc) :
    ((∀ e ∈ (computeIoStat st ioList ioPrev).1, e.FiniteRates) ↔
      IntervalsMove st ioList ioPrev) ∧
    (StoresFinite procList procPrev ↔ TicksMove procList procPrev) := by
  constructor
  · exact computeIoStat_finite_iff st (readIoStat_finite hio) ioPrev
  · exact storesFinite_iff (getAllProc_fresh hproc) procPrev

theorem computeStats_finite_sameTick :
    ((∀ e ∈ (computeIoStat ⟨100, 0⟩ [sda 1 0] [sda 1 0]).1, e.FiniteRates) ↔
      IntervalsMove ⟨100, 0⟩ [sda 1 0] [sda 1 0]) ∧
    (StoresFinite [liveProc] [liveProc] ↔ TicksMove [liveProc] [liveProc]) :=
  computeStats_finite_iff
    (show readIoStat (ioEnv singleStat []) = some (⟨100, 0⟩, [sda 1 0]) by decide +kernel)
    (show getAllProc (procEnv [liveDir]) = some [liveProc] by decide +kernel)
    [sda 1 0] [liveProc]

/-- All rates of a device and the percentage of a process are zero divided by zero. -/
theorem computeStats_sameTick :
    readIoStat (ioEnv singleStat []) = some (⟨100, 0⟩, [sda 1 0]) ∧
    getAllProc (procEnv [liveDir]) = some [liveProc] ∧
    (computeIoStat ⟨100, 0⟩ [sda 1 0] [sda 1 0]).1.map Io.tps = [.nan true] ∧
    computeProcCpuStat [liveProc] [liveProc] = some [{ liveProc with cpuUtil := .nan true }] ∧
    (¬∀ e ∈ (computeIoStat ⟨100, 0⟩ [sda 1 0] [sda 1 0]).1, e.FiniteRates) ∧
    ¬StoresFinite [liveProc] [liveProc] := by
  have htps : (computeIoStat ⟨100, 0⟩ [sda 1 0] [sda 1 0]).1.map Io.tps = [.nan true] := by
    decide +kernel
  refine ⟨by decide +kernel, by decide +kernel, htps, by decide +kernel, fun h => ?_, fun h => ?_⟩
  · rw [List.map_eq_singleton_iff] at htps
    obtain ⟨e, he, hnan⟩ := htps
    have hfinite := h e (he ▸ List.mem_singleton_self e) e.tps (by simp [Io.rates])
    rw [hnan] at hfinite
    exact Double.not_isFinite_nan _ hfinite
  · rw [storesFinite_iff (by decide)] at h
    obtain ⟨r, hr, hsys⟩ := h.1 0 liveProc rfl (by decide)
    obtain rfl := Option.some.inj hr
    exact hsys rfl

end Zsr
