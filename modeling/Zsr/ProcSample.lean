import Zsr.ModProc

namespace Zsr
open CLib

section Fresh

variable {u : Double} {proc out : Proc}

theorem storeCmd_cpuUtil {col : Text} (h : storeCmd proc col = some out)
    (hp : proc.cpuUtil = u) : out.cpuUtil = u := by
  unfold storeCmd at h
  split at h
  · obtain rfl := Option.some.inj h
    exact hp
  · split at h
    · obtain rfl := Option.some.inj h
      exact hp
    · cases h

theorem statColumns_cpuUtil {i : ℕ} {utime stime : UInt64} {cols : List Text}
    (h : statColumns i utime stime proc cols = some out) (hp : proc.cpuUtil = u) :
    out.cpuUtil = u := by
  induction cols generalizing i utime stime proc with
  | nil =>
    obtain rfl := Option.some.inj h
    exact hp
  | cons col cols ih =>
    unfold statColumns at h
    split at h
    · exact ih h hp
    · obtain ⟨proc', hcmd, h⟩ := Option.bind_eq_some_iff.mp h
      exact ih h (storeCmd_cpuUtil hcmd hp)
    · exact ih h hp
    · exact ih h hp
    · exact ih h hp
    · exact ih h hp
    · obtain rfl := Option.some.inj h
      exact hp
    · exact ih h hp

theorem readPidStat_cpuUtil {stat : Option Text} (h : readPidStat stat proc = some out)
    (hp : proc.cpuUtil = u) : out.cpuUtil = u := by
  unfold readPidStat at h
  split at h
  · obtain rfl := Option.some.inj h
    exact hp
  · split at h
    · cases h
    · exact statColumns_cpuUtil h hp

theorem readPidExe_cpuUtil {exe : Option Text} (h : readPidExe exe proc = some out)
    (hp : proc.cpuUtil = u) : out.cpuUtil = u := by
  unfold readPidExe at h
  split at h
  · obtain rfl := Option.some.inj h
    exact hp
  · split at h
    · obtain rfl := Option.some.inj h
      exact hp
    · cases h

theorem statusLines_cpuUtil (uid : UInt32) (bufs : List Text) (hp : proc.cpuUtil = u) :
    (statusLines uid proc bufs).2.cpuUtil = u := by
  induction bufs generalizing uid proc with
  | nil => exact hp
  | cons buf bufs ih =>
    unfold statusLines
    split
    · exact ih _ hp
    · split
      · exact ih uid hp
      · split
        · exact hp
        · exact ih uid hp

theorem readPidStatus_cpuUtil {status : Option Text} {getpwuid : UInt32 → Option Passwd}
    {getgrgid : UInt32 → Option Text} (h : readPidStatus status getpwuid getgrgid proc = some out)
    (hp : proc.cpuUtil = u) : out.cpuUtil = u := by
  unfold readPidStatus at h
  split at h
  · obtain rfl := Option.some.inj h
    exact hp
  · next s =>
    have hlines := statusLines_cpuUtil 0 (fgetsLines LEN_128 s) hp
    dsimp only at h
    split at h
    · cases h
    · split at h
      · split at h
        · obtain rfl := Option.some.inj h
          exact hlines
        · split at h
          · obtain rfl := Option.some.inj h
            exact hlines
          · cases h
      · cases h

theorem storeSinglePidInfo_cpuUtil {env : ProcEnv} {d : ProcDir}
    (h : storeSinglePidInfo env d proc = some out) (hp : proc.cpuUtil = u) : out.cpuUtil = u := by
  simp only [storeSinglePidInfo, Option.bind_eq_bind, Option.bind_eq_some_iff,
    Option.some.injEq] at h
  obtain ⟨p, hstat, e, hexe, s, hstatus, rfl⟩ := h
  have hs := readPidStatus_cpuUtil hstatus
    (readPidExe_cpuUtil hexe (readPidStat_cpuUtil hstat hp))
  unfold setPidMemUntil
  split
  · exact hs
  · exact hs

end Fresh

theorem getAllProc_fresh {env : ProcEnv} {l : List Proc} (h : getAllProc env = some l) :
    ∀ e ∈ l, e.cpuUtil = 0 := by
  unfold getAllProc at h
  split at h
  · obtain rfl := Option.some.inj h
    simp
  · intro e he
    have hall := forall₂_of_mapM h
    obtain ⟨i, hi, rfl⟩ := List.getElem_of_mem he
    exact storeSinglePidInfo_cpuUtil (hall.get (hall.length_eq ▸ hi) hi) rfl

/-- The entries of a current list whose pid is in the previous one all stand at positions
that the previous list has. -/
def InsidePrev (curList prevList : List Proc) : Prop :=
  ∀ (c : ℕ) (e : Proc), curList[c]? = some e → e.pid ∈ prevList.map Proc.pid → c < prevList.length

theorem turns_inside_iff (curList prevList : List Proc) :
    (turns prevList curList 0).isSome ↔ InsidePrev curList prevList := by
  rw [turns_isSome_iff]
  simp only [Nat.zero_add, InsidePrev]

theorem InsidePrev.exists_turns {curList prevList : List Proc} (h : InsidePrev curList prevList) :
    ∃ t, turns prevList curList 0 = some t :=
  Option.isSome_iff_exists.mp ((turns_inside_iff curList prevList).mpr h)

theorem InsidePrev.exists_outBy {curList prevList : List Proc} (h : InsidePrev curList prevList)
    (fl : ℚ → ℚ) : ∃ out, computeProcCpuStatBy fl curList prevList = some out := by
  obtain ⟨t, ht⟩ := h.exists_turns
  rw [computeProcCpuStatBy_eq, ht]
  exact ⟨_, rfl⟩

theorem InsidePrev.exists_out {curList prevList : List Proc} (h : InsidePrev curList prevList) :
    ∃ out, computeProcCpuStat curList prevList = some out := h.exists_outBy id

theorem inside_of_out {curList prevList out : List Proc}
    (hout : computeProcCpuStat curList prevList = some out) : InsidePrev curList prevList := by
  rw [computeProcCpuStat_eq] at hout
  obtain ⟨t, ht, -⟩ := Option.map_eq_some_iff.mp hout
  exact (turns_inside_iff curList prevList).mp (Option.isSome_of_eq_some ht)

/-- Every access is inside its array exactly when the processes of both lists are. -/
theorem computeProcCpuStat_inside_iff (curList prevList : List Proc) :
    (computeProcCpuStat curList prevList).isSome ↔ InsidePrev curList prevList := by
  rw [Option.isSome_iff_exists]
  constructor
  · rintro ⟨out, hout⟩
    exact inside_of_out hout
  · exact InsidePrev.exists_out

def arrivedCur : List Proc := [{ pid := 5 }, { pid := 7 }]

def arrivedPrev : List Proc := [{ pid := 7 }]

/-- The times of process 7 are read at index 1 of arrays with one entry. -/
theorem computeProcCpuStat_outside :
    computeProcCpuStat arrivedCur arrivedPrev = none ∧
      ¬∀ curList prevList, (computeProcCpuStat curList prevList).isSome := by
  have hnone : computeProcCpuStat arrivedCur arrivedPrev = none := by decide
  refine ⟨hnone, fun hall => ?_⟩
  have h := hall arrivedCur arrivedPrev
  rw [hnone] at h
  cases h

/-- The slots of the compacted array, those behind the last match still zero. -/
def slotsOf (curList prevList : List Proc) : Option (List Slot) :=
  (turns prevList curList 0).map fun s => s ++ List.replicate (curList.length - s.length) .zero

theorem computeProcCpuStatBy_slots (fl : ℚ → ℚ) (curList prevList : List Proc) :
    computeProcCpuStatBy fl curList prevList =
      (slotsOf curList prevList).map fun slots =>
        slots.foldl (fun l s => setUtil fl s l) curList := by
  rw [computeProcCpuStatBy_eq, slotsOf, Option.map_map]
  rfl

theorem computeProcCpuStat_slots (curList prevList : List Proc) :
    computeProcCpuStat curList prevList =
      (slotsOf curList prevList).map fun slots =>
        slots.foldl (fun l s => setUtil id s l) curList := computeProcCpuStatBy_slots id _ _

theorem turns_mem {prevList l : List Proc} {c : ℕ} {s : List Slot}
    (h : turns prevList l c = some s) {t : Slot} (ht : t ∈ s) :
    ∃ k e r, l[k]? = some e ∧ prevList[c + k]? = some r ∧ t = slotOf e r := by
  induction l generalizing c s with
  | nil =>
    obtain rfl := Option.some.inj h
    exact absurd ht List.not_mem_nil
  | cons x l ih =>
    obtain ⟨u, hu, h⟩ := Option.bind_eq_some_iff.mp h
    obtain ⟨v, hv, h⟩ := Option.bind_eq_some_iff.mp h
    obtain rfl := Option.some.inj h
    rcases List.mem_append.mp ht with ht | ht
    · unfold turn at hu
      split at hu
      · obtain ⟨r, hr, rfl⟩ := Option.map_eq_some_iff.mp hu
        exact ⟨0, x, r, rfl, hr, List.mem_singleton.mp ht⟩
      · obtain rfl := Option.some.inj hu
        exact absurd ht List.not_mem_nil
    · obtain ⟨k, e, r, he, hr, hslot⟩ := ih hv ht
      refine ⟨k + 1, e, r, he, ?_, hslot⟩
      rw [← Nat.add_assoc, Nat.add_right_comm]
      exact hr

section Slots

variable {curList prevList : List Proc} {slots : List Slot}

theorem slotsOf_length (h : slotsOf curList prevList = some slots) :
    slots.length = curList.length := by
  obtain ⟨t, ht, rfl⟩ := Option.map_eq_some_iff.mp h
  have hle := turns_length_le ht
  rw [List.length_append, List.length_replicate]
  omega

theorem slotsOf_mem (h : slotsOf curList prevList = some slots) {s : Slot} (hs : s ∈ slots) :
    s.pid ∈ prevList.map Proc.pid ∨ s = .zero := by
  obtain ⟨t, ht, rfl⟩ := Option.map_eq_some_iff.mp h
  rcases List.mem_append.mp hs with hs | hs
  · have hpid := List.mem_map_of_mem (f := Slot.pid) hs
    rw [turns_pid ht, List.mem_filter] at hpid
    exact .inl (by simpa using hpid.2)
  · exact .inr (List.eq_of_mem_replicate hs)

theorem slotsOf_full {t : List Slot} (ht : turns prevList curList 0 = some t)
    (hall : ∀ e ∈ curList, e.pid ∈ prevList.map Proc.pid) : slotsOf curList prevList = some t := by
  have hlen := congrArg List.length (turns_pid ht)
  rw [List.filter_eq_self.mpr (by simpa using hall), List.length_map, List.length_map] at hlen
  rw [slotsOf, ht, Option.map_some, hlen, Nat.sub_self, List.replicate_zero, List.append_nil]

theorem slotsOf_unused (h : slotsOf curList prevList = some slots) {e : Proc} (he : e ∈ curList)
    (hm : e.pid ∉ prevList.map Proc.pid) : ∃ init, slots = init ++ [.zero] := by
  obtain ⟨t, ht, rfl⟩ := Option.map_eq_some_iff.mp h
  have hlt : t.length < curList.length := by
    have hlen := congrArg List.length (turns_pid ht)
    have hcur : (curList.map Proc.pid).length = curList.length := List.length_map _
    rw [List.length_map] at hlen
    rw [hlen, ← hcur, List.length_filter_lt_length_iff_exists]
    exact ⟨e.pid, List.mem_map_of_mem he, by simpa using hm⟩
  obtain ⟨k, hk⟩ : ∃ k, curList.length - t.length = k + 1 :=
    ⟨curList.length - t.length - 1, by omega⟩
  refine ⟨t ++ List.replicate k .zero, ?_⟩
  rw [hk, List.replicate_succ', List.append_assoc]

theorem exists_mem_setUtil {fl : ℚ → ℚ} {s : Slot} {l : List Proc}
    (h : s.pid ∈ l.map Proc.pid) :
    ∃ e ∈ setUtil fl s l, e.pid = s.pid ∧ e.cpuUtil = s.util fl := by
  induction l with
  | nil => exact absurd h List.not_mem_nil
  | cons x l ih =>
    unfold setUtil
    split
    · next hx => exact ⟨_, List.mem_cons_self, hx, rfl⟩
    · next hx =>
      have hl := (List.mem_cons.mp h).resolve_left (Ne.symm hx)
      obtain ⟨e, he, hes⟩ := ih hl
      exact ⟨e, List.mem_cons_of_mem _ he, hes⟩

end Slots

/-- Only the percentage may change, and only that of a process of the previous list. -/
structure UtilFramed (prevList : List Proc) (e e' : Proc) : Prop where
  fields : e' = { e with cpuUtil := e'.cpuUtil }
  util : e.pid ∉ prevList.map Proc.pid → e'.cpuUtil = e.cpuUtil

theorem UtilFramed.pid {prevList : List Proc} {e e' : Proc} (h : UtilFramed prevList e e') :
    e'.pid = e.pid := by
  rw [h.fields]

theorem exists_of_forall₂ {α β : Type} {R : α → β → Prop} {l : List α} {l' : List β}
    (h : List.Forall₂ R l l') {b : β} (hb : b ∈ l') : ∃ a ∈ l, R a b := by
  obtain ⟨i, hi, rfl⟩ := List.getElem_of_mem hb
  exact ⟨_, List.getElem_mem (h.length_eq ▸ hi), h.get (h.length_eq ▸ hi) hi⟩

theorem Slot.zero_util {fl : ℚ → ℚ} (h : fl 0 = 0) : Slot.zero.util fl = .nan true := by
  have hzero : (Double.ofU64 0).map fl = .fin 0 := congrArg Double.fin h
  rw [Slot.util, Slot.zero, Double.percentOf, hzero, Double.fin_mul, zero_mul, Double.map_fin, h]
  rfl

theorem exists_nan {curList prevList out : List Proc}
    (hout : computeProcCpuStat curList prevList = some out) {e : Proc} (he : e ∈ curList)
    (hm : e.pid ∉ prevList.map Proc.pid) (h0 : 0 ∈ curList.map Proc.pid) :
    ∃ e' ∈ out, e'.pid = 0 ∧ e'.cpuUtil = .nan true := by
  rw [computeProcCpuStat_slots] at hout
  obtain ⟨slots, hslots, rfl⟩ := Option.map_eq_some_iff.mp hout
  obtain ⟨init, rfl⟩ := slotsOf_unused hslots he hm
  rw [List.foldl_append, List.foldl_cons, List.foldl_nil,
    ← @Slot.zero_util id rfl]
  apply exists_mem_setUtil
  rw [foldl_setUtil_pid]
  exact h0

theorem computeProcCpuStat_framed {curList prevList out : List Proc}
    (hout : computeProcCpuStat curList prevList = some out)
    (h0 : 0 ∈ curList.map Proc.pid → 0 ∈ prevList.map Proc.pid) :
    List.Forall₂ (UtilFramed prevList) curList out := by
  rw [computeProcCpuStat_slots] at hout
  obtain ⟨slots, hslots, rfl⟩ := Option.map_eq_some_iff.mp hout
  have hfold : List.Forall₂ (fun d e => d ∈ curList ∧ UtilFramed prevList d e) curList
      (slots.foldl (fun l s => setUtil id s l) curList) := by
    apply foldl_setUtil_forall₂
    · rintro s hs d e hpid ⟨hd, he⟩
      -- an unused slot is written to an unread process only
      have hprev : d.pid ∈ prevList.map Proc.pid := by
        rw [← he.pid, hpid]
        rcases slotsOf_mem hslots hs with h | rfl
        · exact h
        · apply h0
          rw [← show e.pid = 0 from hpid, he.pid]
          exact List.mem_map_of_mem hd
      refine ⟨hd, ?_, fun h => absurd hprev h⟩
      rw [he.fields]
    · exact List.forall₂_same.mpr fun e he => ⟨he, rfl, fun _ => rfl⟩
  exact hfold.imp fun _ _ h => h.2

/-- Only percentages of processes of the previous list are written exactly when the accesses
are inside and an unread process has an unread one in the previous list. -/
theorem computeProcCpuStat_framed_iff (env : ProcEnv) (curList prevList : List Proc)
    (hcur : getAllProc env = some curList) :
    (∃ out, computeProcCpuStat curList prevList = some out ∧
      List.Forall₂ (UtilFramed prevList) curList out) ↔
    InsidePrev curList prevList ∧
      (0 ∈ curList.map Proc.pid → 0 ∈ prevList.map Proc.pid) := by
  constructor
  · rintro ⟨out, hout, hframed⟩
    refine ⟨inside_of_out hout, fun h0 => ?_⟩
    by_contra hprev
    obtain ⟨e, he, hpid⟩ := List.mem_map.mp h0
    obtain ⟨e', he', hpid', hnan⟩ := exists_nan hout he (hpid ▸ hprev) h0
    obtain ⟨d, hd, hde⟩ := exists_of_forall₂ hframed he'
    have hutil := hde.util (by rw [← hde.pid, hpid']; exact hprev)
    rw [hnan, getAllProc_fresh hcur d hd] at hutil
    cases hutil
  · rintro ⟨hinside, h0⟩
    obtain ⟨out, hout⟩ := hinside.exists_out
    exact ⟨out, hout, computeProcCpuStat_framed hout h0⟩

theorem computeProcCpuStat_framed_live :
    (∃ out, computeProcCpuStat [liveProc] [{}, liveProc] = some out ∧
      List.Forall₂ (UtilFramed [{}, liveProc]) [liveProc] out) ↔
    InsidePrev [liveProc] [{}, liveProc] ∧
      (0 ∈ [liveProc].map Proc.pid → 0 ∈ [{}, liveProc].map Proc.pid) :=
  computeProcCpuStat_framed_iff (procEnv [liveDir]) [liveProc] [{}, liveProc] (by decide +kernel)

/-- A process that vanishes is not in the previous list and gets a percentage all the same,
which is none. -/
theorem computeProcCpuStat_gone :
    getAllProc (procEnv [liveDir, goneDir]) = some [liveProc, {}] ∧
    getAllProc (procEnv [liveDir]) = some [liveProc] ∧
    computeProcCpuStat [liveProc, {}] [liveProc] =
      some [{ liveProc with cpuUtil := .nan true }, { cpuUtil := .nan true }] ∧
    ¬∃ out, computeProcCpuStat [liveProc, {}] [liveProc] = some out ∧
      List.Forall₂ (UtilFramed [liveProc]) [liveProc, {}] out := by
  have hcomp : computeProcCpuStat [liveProc, {}] [liveProc] =
      some [{ liveProc with cpuUtil := .nan true }, { cpuUtil := .nan true }] := by decide +kernel
  refine ⟨by decide +kernel, by decide +kernel, hcomp, ?_⟩
  rintro ⟨out, hout, hframed⟩
  rw [hcomp] at hout
  obtain rfl := Option.some.inj hout
  obtain ⟨-, hrest⟩ := List.forall₂_cons.mp hframed
  have hutil := (List.forall₂_cons.mp hrest).1.util (by decide)
  cases hutil

end Zsr
