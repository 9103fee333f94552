import Zsr.IoStat
import Zsr.ReportLoop

namespace Zsr
open CLib

inductive Clock
  | procStat
  | procUptime
  deriving DecidableEq

/-- What a clock says when line `i` is handled; `none` when its file cannot be read, or has fewer
numbers than are added up. -/
def Clock.value (env : IoEnv) (i : ℕ) : Clock → Option UInt64
  | .procStat => do
    let buf ← (fgetsLines LEN_128 (← env.stat i)).find? fun buf => "cpu ".toList <+: buf
    let v := scanLus 10 (buf.drop 4)
    if 8 ≤ v.length then some ((v.take 8).foldr (· + ·) 0) else none
  | .procUptime => do
    let hz ← getHZ env.ticks
    let (line, _) ← (env.uptime i).bind (fgets LEN_128)
    let (upSec, upCent) ← scanUptime (cstr line)
    some (upSec * hz.toUInt64 + upCent * hz.toUInt64 / 100)

/-- The clock as it is read for line `i`; `none` when it is not. -/
def Clock.read (env : IoEnv) (i : ℕ) : Clock → Option UInt64
  | .procStat => Clock.procStat.value env i
  | .procUptime => do
    if 1 < (← getNumOfCpu env.cpus) then Clock.procUptime.value env i else none

def IoEnv.Smp (env : IoEnv) : Prop := ∃ n, getNumOfCpu env.cpus = some n ∧ 1 < n

theorem readCpuLines_of_find? {cpu : CpuStat} {bufs : List Text} {buf : Text}
    (h : bufs.find? (fun buf => "cpu ".toList <+: buf) = some buf) :
    readCpuLines cpu bufs = cpu.store (scanLus 10 (buf.drop 4)) := by
  induction bufs with
  | nil => cases h
  | cons b bufs ih =>
    rw [List.find?_cons] at h
    rw [readCpuLines]
    by_cases hp : "cpu ".toList <+: b
    · rw [decide_eq_true hp] at h
      obtain rfl := Option.some.inj h
      rw [if_pos hp]
    · rw [decide_eq_false hp] at h
      rw [if_neg hp, ih h]

theorem sumCpuStat_store {cpu : CpuStat} {v : List UInt64} (h : 8 ≤ v.length) :
    sumCpuStat (cpu.store v) = (v.take 8).foldr (· + ·) 0 := by
  match v, h with
  | v0 :: v1 :: v2 :: v3 :: v4 :: v5 :: v6 :: v7 :: v, _ =>
    -- the fields are not added in the order of the line
    show v6 + v3 + v4 + v1 + v7 + v5 + v2 + v0 =
      v0 + (v1 + (v2 + (v3 + (v4 + (v5 + (v6 + (v7 + 0)))))))
    rw [UInt64.add_zero]
    ac_rfl

theorem getCpuTimeInJiffies_of_value {env : IoEnv} {i : ℕ} {a : UInt64}
    (h : Clock.procStat.value env i = some a) : getCpuTimeInJiffies (env.stat i) = a := by
  simp only [Clock.value, Option.bind_eq_bind, Option.bind_eq_some_iff,
    Option.ite_none_right_eq_some, Option.some.injEq] at h
  obtain ⟨s, hs, buf, hbuf, hlen, hsum⟩ := h
  rw [getCpuTimeInJiffies, hs, readCpuStat, readCpuLines_of_find? hbuf, sumCpuStat_store hlen,
    hsum]

theorem readUptimeInJiffies_of_value {env : IoEnv} {i : ℕ} {a : UInt64} {hz : UInt32}
    (hhz : getHZ env.ticks = some hz) (h : Clock.procUptime.value env i = some a) :
    readUptimeInJiffies hz (env.uptime i) = some a := by
  simp only [Clock.value, hhz, Option.bind_eq_bind, Option.bind_some, Option.bind_eq_some_iff,
    Option.some.injEq] at h
  obtain ⟨⟨line, r⟩, ⟨s, hs, hline⟩, ⟨upSec, upCent⟩, hscan, rfl⟩ := h
  rw [readUptimeInJiffies, hs, Option.bind_some, hline]
  simp only [hscan, Option.map_some]

theorem read_procUptime_iff {env : IoEnv} {i : ℕ} {a : UInt64} :
    Clock.procUptime.read env i = some a ↔
      env.Smp ∧ Clock.procUptime.value env i = some a := by
  simp only [Clock.read, Option.bind_eq_bind, Option.bind_eq_some_iff,
    Option.ite_none_right_eq_some]
  constructor
  · rintro ⟨n, hn, hsmp, h⟩
    exact ⟨⟨n, hn, hsmp⟩, h⟩
  · rintro ⟨⟨n, hn, hsmp⟩, h⟩
    exact ⟨n, hn, hsmp, h⟩

/-- What the node for line `i` has recorded. -/
structure Recorded (env : IoEnv) (st : IoStatics) (i : ℕ) (c : Io) : Prop where
  uptime : c.stat.uptime = getCpuTimeInJiffies (env.stat i)
  uptime0 : smpUptime st.numOfCpu st.hz (env.uptime i) = some c.stat.uptime0

theorem readIoLines_recorded {env : IoEnv} (st : IoStatics) {i : ℕ} {bufs : List Text}
    {nodes : List Io} (h : readIoLines env st.numOfCpu st.hz i bufs = some nodes) {j : ℕ} {c : Io}
    (hc : nodes[j]? = some c) : Recorded env st (i + j) c := by
  induction bufs generalizing i j nodes with
  | nil =>
    obtain rfl := Option.some.inj h
    cases hc
  | cons buf bufs ih =>
    simp only [readIoLines, Option.bind_eq_bind, Option.bind_eq_some_iff] at h
    obtain ⟨uptime0, hup, line, -, h⟩ := h
    cases line with
    | none =>
      obtain rfl := Option.some.inj h
      cases hc
    | some line =>
      simp only [Option.bind_eq_some_iff, Option.some.injEq] at h
      obtain ⟨nodes', hnodes, rfl⟩ := h
      cases j with
      | zero =>
        obtain rfl := Option.some.inj hc
        exact ⟨rfl, hup⟩
      | succ j =>
        have hrec := ih hnodes (j := j) hc
        rwa [Nat.add_right_comm] at hrec

def IoEnv.statics (env : IoEnv) : Option IoStatics := do
  let numOfCpu ← getNumOfCpu env.cpus
  let hz ← getHZ env.ticks
  some ⟨hz, numOfCpu⟩

theorem readIoStat_recorded {env : IoEnv} {st : IoStatics} {nodes : List Io}
    (h : readIoStat env = some (st, nodes)) : env.statics = some st ∧
      ∀ (j : ℕ) (c : Io), nodes[j]? = some c → Recorded env st j c := by
  simp only [readIoStat, Option.bind_eq_bind, Option.bind_eq_some_iff] at h
  obtain ⟨n, hn, hz, hhz, h⟩ := h
  have hst : env.statics = some ⟨hz, n⟩ := by
    simp only [IoEnv.statics, Option.bind_eq_bind, hn, hhz, Option.bind_some]
  cases hd : env.diskstats with
  | none =>
    simp only [hd, Option.some.injEq, Prod.mk.injEq] at h
    obtain ⟨rfl, rfl⟩ := h
    refine ⟨hst, ?_⟩
    intro j c hc
    cases hc
  | some s =>
    simp only [hd, Option.bind_eq_some_iff, Option.some.injEq, Prod.mk.injEq] at h
    obtain ⟨nodes', hnodes, rfl, rfl⟩ := h
    refine ⟨hst, ?_⟩
    intro j c hc
    simpa using readIoLines_recorded ⟨hz, n⟩ hnodes hc

/-- The names of the devices that a collection reads. -/
def IoEnv.devices (env : IoEnv) : List Text :=
  ((readIoStat env).map fun r => r.2.map Io.dev).getD []

/-- The list that the module holds for a collection. -/
structure Held (env : IoEnv) (l : List Io) : Prop where
  devices : l.map Io.dev = env.devices
  recorded : ∃ st, env.statics = some st ∧
    ∀ (j : ℕ) (c : Io), l[j]? = some c → Recorded env st j c

theorem ModIo.collectRecord_held (env : IoEnv) (recordList lists : List (List Io))
    (h : ModIo.collectRecord env recordList = some lists) :
    ∃ cur, lists = recordList ++ [cur] ∧ Held env cur := by
  simp only [ModIo.collectRecord, Option.bind_eq_bind, Option.bind_eq_some_iff] at h
  obtain ⟨⟨st, nodes⟩, hread, h⟩ := h
  obtain ⟨hst, hrec⟩ := readIoStat_recorded hread
  have hdev : env.devices = nodes.map Io.dev := by
    rw [IoEnv.devices, hread]
    rfl
  cases hlast : recordList.getLast? with
  | none =>
    rw [List.getLast?_eq_none_iff] at hlast
    subst hlast
    obtain rfl := Option.some.inj h
    exact ⟨nodes, rfl, hdev.symm, st, hst, hrec⟩
  | some prev =>
    simp only [hlast, computeIoStat, Option.some.injEq] at h
    refine ⟨nodes.map fun curr => matchPrev st curr prev, ?_, ?_, st, hst, ?_⟩
    · have hsplit := List.dropLast_append_getLast? prev hlast
      rw [← h, ← hsplit]
      simp
    · rw [hdev, List.map_map]
      apply List.map_congr_left
      exact fun c _ => (matchPrev_raw st c prev).1
    · intro j c hc
      rw [List.getElem?_map, Option.map_eq_some_iff] at hc
      obtain ⟨c0, hc0, rfl⟩ := hc
      have hstat := (matchPrev_raw st c0 prev).2
      have hrec0 := hrec j c0 hc0
      exact ⟨hstat ▸ hrec0.uptime, hstat ▸ hrec0.uptime0⟩

/-- The clock that `compute_io_stat` takes the interval from. -/
def IoStatics.clock (st : IoStatics) : Clock :=
  if 1 < st.numOfCpu then .procUptime else .procStat

/-- For every device of two successive lists, and the previous entry it is compared with, the
interval is the difference of what was read from one clock in both collections. -/
def SameClock (env env' : IoEnv) (prev cur : List Io) : Prop :=
  ∀ st, env'.statics = some st → ∀ (i j : ℕ) (c p : Io), cur[i]? = some c → prev[j]? = some p →
    prev.findIdx? (fun p => p.dev == c.dev) = some j →
      ∃ a b, st.clock.read env' i = some a ∧ st.clock.read env j = some b ∧
        ioInterval st c.stat p.stat = a - b

/-- For every device of two successive collections: when the later one sees more than one
CPU, so does the earlier one; and the file of the clock that counts then can be read for the
device both times. -/
def ClockKept (env env' : IoEnv) : Prop :=
  ∀ (i j : ℕ) (dev : Text), env'.devices[i]? = some dev →
    env.devices.findIdx? (· == dev) = some j →
      (env'.Smp → env.Smp ∧ (Clock.procUptime.value env' i).isSome ∧
        (Clock.procUptime.value env j).isSome) ∧
      (¬env'.Smp → (Clock.procStat.value env' i).isSome ∧ (Clock.procStat.value env j).isSome)

theorem matchPrev_of_findIdx? (st : IoStatics) {curr p : Io} {prevs : List Io} {j : ℕ}
    (hj : prevs.findIdx? (fun p => p.dev == curr.dev) = some j) (hp : prevs[j]? = some p) :
    matchPrev st curr prevs = computeRates st curr p := by
  induction prevs generalizing j with
  | nil => cases hj
  | cons q prevs ih =>
    rw [List.findIdx?_cons] at hj
    by_cases hq : q.dev = curr.dev
    · rw [if_pos (by simpa using hq)] at hj
      obtain rfl := Option.some.inj hj
      obtain rfl : q = p := Option.some.inj hp
      rw [matchPrev, if_neg (not_not.mpr hq.symm)]
    · rw [if_neg (by simpa using hq)] at hj
      obtain ⟨k, hk, rfl⟩ := Option.map_eq_some_iff.mp hj
      rw [matchPrev, if_pos (Ne.symm hq)]
      exact ih hk (by simpa using hp)

theorem statics_smp {env : IoEnv} {st : IoStatics} (h : env.statics = some st) :
    env.Smp ↔ 1 < st.numOfCpu := by
  simp only [IoEnv.statics, Option.bind_eq_bind, Option.bind_eq_some_iff, Option.some.injEq] at h
  obtain ⟨n, hn, hz, hhz, rfl⟩ := h
  constructor
  · rintro ⟨m, hm, hlt⟩
    obtain rfl : n = m := Option.some.inj (hn.symm.trans hm)
    exact hlt
  · intro hlt
    exact ⟨n, hn, hlt⟩

theorem statics_hz {env : IoEnv} {st : IoStatics} (h : env.statics = some st) :
    getHZ env.ticks = some st.hz := by
  simp only [IoEnv.statics, Option.bind_eq_bind, Option.bind_eq_some_iff, Option.some.injEq] at h
  obtain ⟨n, hn, hz, hhz, rfl⟩ := h
  exact hhz

theorem Recorded.uptime0_of_value {env : IoEnv} {st : IoStatics} {i : ℕ} {c : Io}
    (hc : Recorded env st i c) (hst : env.statics = some st) (hsmp : env.Smp) {a : UInt64}
    (h : Clock.procUptime.value env i = some a) : c.stat.uptime0 = a := by
  have hread := readUptimeInJiffies_of_value (statics_hz hst) h
  have h0 := hc.uptime0
  rw [smpUptime, if_pos ((statics_smp hst).mp hsmp), hread] at h0
  exact (Option.some.inj h0).symm

theorem ioInterval_eq {env env' : IoEnv} {st st' : IoStatics} {i j : ℕ} {c p : Io}
    (hst : env.statics = some st) (hst' : env'.statics = some st')
    (hp : Recorded env st j p) (hc : Recorded env' st' i c) {a b : UInt64}
    (ha : st'.clock.read env' i = some a) (hb : st'.clock.read env j = some b) :
    ioInterval st' c.stat p.stat = a - b := by
  by_cases hsmp : 1 < st'.numOfCpu
  · rw [IoStatics.clock, if_pos hsmp, read_procUptime_iff] at ha hb
    rw [ioInterval, if_pos hsmp, hc.uptime0_of_value hst' ha.1 ha.2,
      hp.uptime0_of_value hst hb.1 hb.2]
  · rw [IoStatics.clock, if_neg hsmp] at ha hb
    rw [ioInterval, if_neg hsmp, hc.uptime, hp.uptime, getCpuTimeInJiffies_of_value ha,
      getCpuTimeInJiffies_of_value hb]

/-- The clock that counts is read in both collections exactly under the condition on their
CPUs and files. -/
theorem clock_read_iff {env env' : IoEnv} {st' : IoStatics} (hst' : env'.statics = some st')
    (i j : ℕ) :
    (∃ a b, st'.clock.read env' i = some a ∧ st'.clock.read env j = some b) ↔
      (env'.Smp → env.Smp ∧ (Clock.procUptime.value env' i).isSome ∧
        (Clock.procUptime.value env j).isSome) ∧
      (¬env'.Smp → (Clock.procStat.value env' i).isSome ∧
        (Clock.procStat.value env j).isSome) := by
  by_cases hsmp : env'.Smp
  · simp only [IoStatics.clock, if_pos ((statics_smp hst').mp hsmp), read_procUptime_iff, hsmp,
      true_and, forall_const, not_true_eq_false, false_imp_iff, and_true,
      Option.isSome_iff_exists]
    constructor
    · rintro ⟨a, b, ha, hb, hv⟩
      exact ⟨hb, ⟨a, ha⟩, b, hv⟩
    · rintro ⟨hb, ⟨a, ha⟩, b, hv⟩
      exact ⟨a, b, ha, hb, hv⟩
  · have hnot : ¬1 < st'.numOfCpu := fun h => hsmp ((statics_smp hst').mpr h)
    simp only [IoStatics.clock, if_neg hnot, Clock.read, hsmp, false_imp_iff, true_and,
      not_false_eq_true, forall_const, Option.isSome_iff_exists]
    constructor
    · rintro ⟨a, b, ha, hb⟩
      exact ⟨⟨a, ha⟩, b, hb⟩
    · rintro ⟨⟨a, ha⟩, b, hb⟩
      exact ⟨a, b, ha, hb⟩

theorem sameClock_iff {env env' : IoEnv} {prev cur : List Io} (hprev : Held env prev)
    (hcur : Held env' cur) : SameClock env env' prev cur ↔ ClockKept env env' := by
  obtain ⟨hdev, st, hst, hrec⟩ := hprev
  obtain ⟨hdev', st', hst', hrec'⟩ := hcur
  constructor
  · intro h i j dev hi hj
    rw [← hdev', List.getElem?_map, Option.map_eq_some_iff] at hi
    obtain ⟨c, hc, rfl⟩ := hi
    rw [← hdev, List.findIdx?_map] at hj
    obtain ⟨p, hp⟩ : ∃ p, prev[j]? = some p := by
      obtain ⟨hlt, -⟩ := List.findIdx?_eq_some_iff_getElem.mp hj
      exact ⟨_, List.getElem?_eq_getElem hlt⟩
    obtain ⟨a, b, ha, hb, -⟩ := h st' hst' i j c p hc hp hj
    exact (clock_read_iff hst' i j).mp ⟨a, b, ha, hb⟩
  · intro h st'' hst'' i j c p hc hp hj
    obtain rfl : st' = st'' := Option.some.inj (hst'.symm.trans hst'')
    have hi : env'.devices[i]? = some c.dev := by
      rw [← hdev', List.getElem?_map, hc]
      rfl
    have hkept := h i j c.dev hi (by rw [← hdev, List.findIdx?_map]; exact hj)
    obtain ⟨a, b, ha, hb⟩ := (clock_read_iff hst' i j).mpr hkept
    exact ⟨a, b, ha, hb, ioInterval_eq hst hst' (hrec j p hp) (hrec' i c hc) ha hb⟩

theorem ioRun_held {envs : List IoEnv} {lists : List (List Io)}
    (hrun : cycles ModIo.collectRecord envs [] = some lists) : List.Forall₂ Held envs lists :=
  cycles_forall₂ ModIo.collectRecord_held hrun

theorem held_getElem {envs : List IoEnv} {lists : List (List Io)}
    (hheld : List.Forall₂ Held envs lists) {k : ℕ} {env : IoEnv} {l : List Io}
    (he : envs[k]? = some env) (hl : lists[k]? = some l) : Held env l := by
  obtain ⟨hk, rfl⟩ := List.getElem?_eq_some_iff.mp he
  obtain ⟨hk', rfl⟩ := List.getElem?_eq_some_iff.mp hl
  exact hheld.get hk hk'

/-- In a run every interval is taken from one clock exactly when no collection with more
than one CPU follows one without, on a device they share, and the clocks can be read. -/
theorem ioRun_sameClock_iff (envs : List IoEnv) (lists : List (List Io))
    (hrun : cycles ModIo.collectRecord envs [] = some lists) :
    lists.length = envs.length ∧
    ((∀ (k : ℕ) (env env' : IoEnv) (prev cur : List Io), envs[k]? = some env →
        envs[k + 1]? = some env' → lists[k]? = some prev → lists[k + 1]? = some cur →
        SameClock env env' prev cur) ↔
      ∀ (k : ℕ) (env env' : IoEnv), envs[k]? = some env → envs[k + 1]? = some env' →
        ClockKept env env') := by
  have hheld := ioRun_held hrun
  refine ⟨hheld.length_eq.symm, ?_⟩
  have hlist {k : ℕ} {env : IoEnv} (he : envs[k]? = some env) : ∃ l, lists[k]? = some l := by
    obtain ⟨hk, -⟩ := List.getElem?_eq_some_iff.mp he
    exact ⟨_, List.getElem?_eq_getElem (hheld.length_eq ▸ hk)⟩
  constructor
  · intro h k env env' he he'
    obtain ⟨prev, hp⟩ := hlist he
    obtain ⟨cur, hc⟩ := hlist he'
    exact (sameClock_iff (held_getElem hheld he hp) (held_getElem hheld he' hc)).mp (h k env env' prev cur he he' hp hc)
  · intro h k env env' prev cur he he' hp hc
    exact (sameClock_iff (held_getElem hheld he hp) (held_getElem hheld he' hc)).mpr (h k env env' he he')

/-- A machine on which every line meets the same texts. -/
def ioEnv (procStat procUptime : Text) : IoEnv where
  cpus := some procStat
  ticks := 100
  diskstats := some "8 0 sda 1 0 0 0 0 0 0 0 0 0 0\n".toList
  stat := fun _ => some procStat
  uptime := fun _ => some procUptime

def singleStat : Text := "cpu  1 0 0 0 0 0 0 0\n".toList

def smpStat : Text := "cpu  1 0 0 0 0 0 0 1\ncpu0 1 0 0 0\ncpu1 0 0 0 0\n".toList

def sda (uptime uptime0 : UInt64) : Io := .ofLine uptime uptime0 "sda".toList [1]

theorem ioRun_sameClock_smp :
    let env := ioEnv smpStat "49.00 1.00\n".toList
    let env' := ioEnv smpStat "50.00 1.00\n".toList
    let lists := [[sda 2 4900], [computeRates ⟨100, 2⟩ (sda 2 5000) (sda 2 4900)]]
    lists.length = [env, env'].length ∧
    ((∀ (k : ℕ) (e e' : IoEnv) (prev cur : List Io), [env, env'][k]? = some e →
        [env, env'][k + 1]? = some e' → lists[k]? = some prev → lists[k + 1]? = some cur →
        SameClock e e' prev cur) ↔
      ∀ (k : ℕ) (e e' : IoEnv), [env, env'][k]? = some e → [env, env'][k + 1]? = some e' →
        ClockKept e e') :=
  ioRun_sameClock_iff _ _ (by decide +kernel)

/-- A second CPU appears: the interval is what `/proc/uptime` says since the machine was
started, less the zero that nothing was stored over. -/
theorem ioRun_second_cpu :
    let env := ioEnv singleStat "49.00 1.00\n".toList
    let env' := ioEnv smpStat "50.00 1.00\n".toList
    let prev := [sda 1 0]
    let cur := [computeRates ⟨100, 2⟩ (sda 2 5000) (sda 1 0)]
    cycles ModIo.collectRecord [env, env'] [] = some [prev, cur] ∧
      ioInterval ⟨100, 2⟩ (sda 2 5000).stat (sda 1 0).stat = 5000 ∧
      (¬∃ clock a b, Clock.read env' 0 clock = some a ∧ Clock.read env 0 clock = some b ∧
        ioInterval ⟨100, 2⟩ (sda 2 5000).stat (sda 1 0).stat = a - b) ∧
      ¬SameClock env env' prev cur := by
  intro env env' prev cur
  have hstat : Clock.procStat.read env 0 = some 1 ∧ Clock.procStat.read env' 0 = some 2 := by
    decide +kernel
  have huptime : Clock.procUptime.read env 0 = none := by decide +kernel
  have hclock : ¬∃ clock a b, Clock.read env' 0 clock = some a ∧
      Clock.read env 0 clock = some b ∧
      ioInterval ⟨100, 2⟩ (sda 2 5000).stat (sda 1 0).stat = a - b := by
    rintro ⟨clock, a, b, ha, hb, hab⟩
    cases clock with
    | procStat =>
      rw [hstat.2, Option.some.injEq] at ha
      rw [hstat.1, Option.some.injEq] at hb
      subst ha hb
      revert hab
      decide
    | procUptime =>
      rw [huptime] at hb
      cases hb
  refine ⟨by decide +kernel, by decide, hclock, ?_⟩
  intro h
  obtain ⟨a, b, -, hb, -⟩ := h ⟨100, 2⟩ (by decide +kernel) 0 0 _ _ rfl rfl (by decide)
  have hclock' : (⟨100, 2⟩ : IoStatics).clock = .procUptime := by decide
  rw [hclock', huptime] at hb
  cases hb

end Zsr
