import Zsr.ProcIdentity

namespace Zsr
open CLib

/-- The time of the guests, the part in which the two sums differ. -/
def CpuStat.guestTime (cpu : CpuStat) : UInt64 := cpu.guest + cpu.number

theorem setSysCpuTime_sysCpuTime (cpu : CpuStat) (proc : Proc) :
    (setSysCpuTime cpu proc).sysCpuTime = sumCpuStat cpu + cpu.guestTime := by
  simp only [setSysCpuTime, sumCpuStat, CpuStat.guestTime]
  apply UInt64.toNat_inj.mp
  simp only [UInt64.toNat_add]
  omega

@[simp] theorem setSysCpuTime_pid (cpu : CpuStat) (proc : Proc) :
    (setSysCpuTime cpu proc).pid = proc.pid := rfl

@[simp] theorem setSysCpuTime_cpuTime (cpu : CpuStat) (proc : Proc) :
    (setSysCpuTime cpu proc).cpuTime = proc.cpuTime := rfl

theorem elapsed_eq_iff (s t : CpuStat) (cur prev : Proc) :
    (setSysCpuTime t cur).sysCpuTime - (setSysCpuTime s prev).sysCpuTime =
      sumCpuStat t - sumCpuStat s ↔ t.guestTime = s.guestTime := by
  rw [setSysCpuTime_sysCpuTime, setSysCpuTime_sysCpuTime]
  exact sub_eq_sub_iff_of_add _ _ _ _

/-- The process `cur`, at position `c`, was `prev` before: both measure the time between the
snapshots as the cpu module does, and it is charged with its share of that time. -/
structure MeasuredAlike (curList prevList : List Proc) (s t : CpuStat) (c : ℕ) (cur prev : Proc) :
    Prop where
  elapsed : (setSysCpuTime t cur).sysCpuTime - (setSysCpuTime s prev).sysCpuTime =
    sumCpuStat t - sumCpuStat s
  util : sumCpuStat t ≠ sumCpuStat s → ∃ out e, computeProcCpuStat curList prevList = some out ∧
    out[c]? = some e ∧ e.cpuUtil = .fin (100 * ((cur.cpuTime - prev.cpuTime).toNat : ℚ) /
      ((sumCpuStat t - sumCpuStat s).toNat : ℚ))

/-- The entry at the position of the process serves as its own one would. -/
def PositionAgrees (curList prevList : List Proc) (s t : CpuStat) (c : ℕ) (cur prev : Proc) :
    Prop :=
  InsidePrev curList prevList ∧ ∃ r, prevList[c]? = some r ∧
    (setSysCpuTime t cur).sysCpuTime ≠ r.sysCpuTime ∧
    (cur.cpuTime - r.cpuTime).toNat * (sumCpuStat t - sumCpuStat s).toNat =
      (cur.cpuTime - prev.cpuTime).toNat *
        ((setSysCpuTime t cur).sysCpuTime - r.sysCpuTime).toNat

section
variable {curList prevList : List Proc} {s t : CpuStat} {c : ℕ} {cur prev : Proc}

theorem sysCpuTime_ne_of_elapsed
    (he : (setSysCpuTime t cur).sysCpuTime - (setSysCpuTime s prev).sysCpuTime =
      sumCpuStat t - sumCpuStat s) (hmove : sumCpuStat t ≠ sumCpuStat s) :
    (setSysCpuTime t cur).sysCpuTime ≠ (setSysCpuTime s prev).sysCpuTime := by
  intro h
  rw [h, UInt64.sub_self] at he
  apply hmove
  rw [← toNat_sub_eq_zero_iff, ← he]
  rfl

theorem util_iff_positionAgrees (h : IsSample curList)
    (hcur : curList[c]? = some (setSysCpuTime t cur)) (hprev : setSysCpuTime s prev ∈ prevList)
    (h0 : cur.pid ≠ 0) (hpid : prev.pid = cur.pid)
    (he : (setSysCpuTime t cur).sysCpuTime - (setSysCpuTime s prev).sysCpuTime =
      sumCpuStat t - sumCpuStat s) (hmove : sumCpuStat t ≠ sumCpuStat s) :
    (∃ out e, computeProcCpuStat curList prevList = some out ∧ out[c]? = some e ∧
      e.cpuUtil = .fin (100 * ((cur.cpuTime - prev.cpuTime).toNat : ℚ) /
        ((sumCpuStat t - sumCpuStat s).toNat : ℚ))) ↔
    PositionAgrees curList prevList s t c cur prev := by
  have hm : (setSysCpuTime t cur).pid ∈ prevList.map Proc.pid := by
    have hmem := List.mem_map_of_mem (f := Proc.pid) hprev
    rwa [setSysCpuTime_pid, hpid] at hmem
  have hne := sysCpuTime_ne_of_elapsed he hmove
  have hiff (r : Proc) := slotOf_util_eq_iff (r := r) hne
  simp only [setSysCpuTime_cpuTime, he] at hiff
  constructor
  · rintro ⟨out, e, hout, hget, hutil⟩
    obtain ⟨r, hr, hget'⟩ := (h.getElem?_of_read hout hcur h0).1 hm
    obtain rfl := Option.some.inj (hget.symm.trans hget')
    exact ⟨inside_of_out hout, r, hr, (hiff r).mp hutil⟩
  · rintro ⟨hinside, r, hr, hagree⟩
    obtain ⟨out, hout⟩ := hinside.exists_out
    obtain ⟨r', hr', hget⟩ := (h.getElem?_of_read hout hcur h0).1 hm
    obtain rfl := Option.some.inj (hr.symm.trans hr')
    exact ⟨out, _, hout, hget, (hiff r).mpr hagree⟩

theorem measuredAlike_iff (h : IsSample curList)
    (hcur : curList[c]? = some (setSysCpuTime t cur)) (hprev : setSysCpuTime s prev ∈ prevList)
    (h0 : cur.pid ≠ 0) (hpid : prev.pid = cur.pid) :
    MeasuredAlike curList prevList s t c cur prev ↔ t.guestTime = s.guestTime ∧
      (sumCpuStat t ≠ sumCpuStat s → PositionAgrees curList prevList s t c cur prev) := by
  rw [← elapsed_eq_iff s t cur prev]
  constructor
  · rintro ⟨he, hutil⟩
    refine ⟨he, fun hmove => ?_⟩
    exact (util_iff_positionAgrees h hcur hprev h0 hpid he hmove).mp (hutil hmove)
  · rintro ⟨he, hagree⟩
    refine ⟨he, fun hmove => ?_⟩
    exact (util_iff_positionAgrees h hcur hprev h0 hpid he hmove).mpr (hagree hmove)

theorem positionAgrees_of_kept (hinside : InsidePrev curList prevList)
    (hprev : prevList[c]? = some (setSysCpuTime s prev)) (hguest : t.guestTime = s.guestTime)
    (hmove : sumCpuStat t ≠ sumCpuStat s) : PositionAgrees curList prevList s t c cur prev := by
  have he := (elapsed_eq_iff s t cur prev).mpr hguest
  refine ⟨hinside, _, hprev, sysCpuTime_ne_of_elapsed he hmove, ?_⟩
  rw [he, setSysCpuTime_cpuTime]

end

/-- A process is charged with its share of the time that the cpu module sees exactly when the
guests had none of it and the entry at its position serves as its own. The second is no
condition for a process that keeps its position. -/
theorem computeProcCpuStat_systemTime_iff (curList prevList : List Proc) (s t : CpuStat) (c : ℕ)
    (cur prev : Proc) (h : IsSample curList) (hcur : curList[c]? = some (setSysCpuTime t cur))
    (hprev : setSysCpuTime s prev ∈ prevList) (h0 : cur.pid ≠ 0) (hpid : prev.pid = cur.pid) :
    (MeasuredAlike curList prevList s t c cur prev ↔ t.guestTime = s.guestTime ∧
      (sumCpuStat t ≠ sumCpuStat s → PositionAgrees curList prevList s t c cur prev)) ∧
    (InsidePrev curList prevList → prevList[c]? = some (setSysCpuTime s prev) →
      (MeasuredAlike curList prevList s t c cur prev ↔ t.guestTime = s.guestTime)) := by
  have hiff := measuredAlike_iff h hcur hprev h0 hpid
  refine ⟨hiff, fun hinside hkept => ?_⟩
  rw [hiff]
  exact and_iff_left_of_imp fun hguest => positionAgrees_of_kept hinside hkept hguest

/-- A machine with a guest, and a process on it that used 10 of 100 ticks. -/
def guestBefore : CpuStat := { user := 100, idle := 50 }

def guestAfter : CpuStat := { user := 200, idle := 50, guest := 50 }

def hostProcess (cpuTime : UInt64) : Proc := { pid := 41, cpuTime := cpuTime }

def hostCur : List Proc := [setSysCpuTime guestAfter (hostProcess 30)]

def hostPrev : List Proc := [setSysCpuTime guestBefore (hostProcess 20)]

theorem isSample_hostCur : IsSample hostCur := ⟨by decide, List.pairwise_singleton _ _⟩

theorem insidePrev_host : InsidePrev hostCur hostPrev :=
  inside_of_out (show computeProcCpuStat hostCur hostPrev =
    some [{ setSysCpuTime guestAfter (hostProcess 30) with cpuUtil := .fin (20 / 3) }] by
      decide +kernel)

theorem computeProcCpuStat_systemTime_host :
    MeasuredAlike hostCur hostPrev guestBefore guestAfter 0 (hostProcess 30) (hostProcess 20) ↔
      guestAfter.guestTime = guestBefore.guestTime :=
  (computeProcCpuStat_systemTime_iff hostCur hostPrev guestBefore guestAfter 0 (hostProcess 30)
    (hostProcess 20) isSample_hostCur rfl (List.mem_singleton_self _) (by decide) rfl).2
    insidePrev_host rfl

/-- The process is charged with 6.67 percent, and the cpu module sees it at 10 percent. -/
theorem computeProcCpuStat_guest :
    computeProcCpuStat hostCur hostPrev =
      some [{ setSysCpuTime guestAfter (hostProcess 30) with cpuUtil := .fin (20 / 3) }] ∧
    sumCpuStat guestAfter - sumCpuStat guestBefore = 100 ∧
    ¬MeasuredAlike hostCur hostPrev guestBefore guestAfter 0 (hostProcess 30)
      (hostProcess 20) := by
  refine ⟨by decide +kernel, by decide, fun h => ?_⟩
  have he := h.elapsed
  revert he
  decide

end Zsr
