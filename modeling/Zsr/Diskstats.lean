import Zsr.IoStat
import Zsr.CLib.Lines

/-!
# The lines of `/proc/diskstats`

`read_io_stat` reads pieces of up to 255 characters and returns at the first one that is no
record, although its message says that the line is ignored.
-/

namespace Zsr
open CLib

/-- The device and the eleven counters of a line that begins with all 14 columns. -/
def diskLine (line : Text) : Option (Text × List UInt64) :=
  match (scanU (cstr line)).bind fun r => (scanU r.2).bind fun r => scanS r.2 with
  | none => none
  | some (dev, r) =>
    let v := scanLus 11 r
    if v.length = 11 then some (dev, v) else none

/-- Name and counters of a node, in the order of the columns. -/
def Io.record (io : Io) : Text × List UInt64 :=
  (io.dev, [io.stat.rdIos, io.stat.rdMerges, io.stat.rdSectors, io.stat.rdTicks,
    io.stat.wrIos, io.stat.wrMerges, io.stat.wrSectors, io.stat.wrTicks,
    io.stat.iosPgr, io.stat.totTicks, io.stat.rqTicks])

/-- The other files that `read_io_stat` opens hold what it looks for. -/
def ClocksReadable (env : IoEnv) : Prop :=
  ∃ numOfCpu hz, getNumOfCpu env.cpus = some numOfCpu ∧ getHZ env.ticks = some hz ∧
    ∀ i, (smpUptime numOfCpu hz (env.uptime i)).isSome

/-- One node for each line that is a record, with its name and its counters. -/
def ReadsDisks (env : IoEnv) (ls : List Text) : Prop :=
  ∃ st nodes, readIoStat { env with diskstats := some ls.flatten } = some (st, nodes) ∧
    nodes.map Io.record = ls.filterMap diskLine

theorem record_ofLine (uptime uptime0 : UInt64) (dev : Text) {v : List UInt64}
    (hv : v.length = 11) : (Io.ofLine uptime uptime0 dev v).record = (dev, v) := by
  match v, hv with
  | [_, _, _, _, _, _, _, _, _, _, _], _ => rfl

theorem diskLine_of_scanDisk {s : Text} {r : Option (Text × List UInt64)}
    (h : scanDisk (cstr s) = some r) : diskLine s = r := by
  rcases hc : (scanU (cstr s)).bind fun r => (scanU r.2).bind fun r => scanS r.2 with _ | ⟨dev, t⟩
  · simp only [scanDisk, hc, Option.some.injEq] at h
    simp only [diskLine, hc, h]
  · simp only [scanDisk, hc] at h
    simp only [diskLine, hc]
    split at h
    · exact Option.some.inj h
    · cases h

theorem length_of_scanDisk {p : Text} {r : Text × List UInt64}
    (h : scanDisk p = some (some r)) : r.2.length = 11 := by
  unfold scanDisk at h
  split at h
  · cases h
  · split at h
    · rw [Option.some.injEq] at h
      split at h
      · next hv =>
        obtain rfl := Option.some.inj h
        exact hv
      · cases h
    · cases h

/-- The records that the loop takes from the pieces. -/
def diskPieces : List Text → Option (List (Text × List UInt64))
  | [] => some []
  | p :: ps =>
    match scanDisk p with
    | none => none
    | some none => some []
    | some (some r) => (diskPieces ps).map (r :: ·)

section
variable {p : Text}

theorem diskPieces_outside (h : scanDisk p = none) (ps : List Text) :
    diskPieces (p :: ps) = none := by
  rw [diskPieces, h]

theorem diskPieces_unknown (h : scanDisk p = some none) (ps : List Text) :
    diskPieces (p :: ps) = some [] := by
  rw [diskPieces, h]

theorem diskPieces_record {r : Text × List UInt64} (h : scanDisk p = some (some r))
    (ps : List Text) : diskPieces (p :: ps) = (diskPieces ps).map (r :: ·) := by
  rw [diskPieces, h]

end

theorem readIoLines_record {env : IoEnv} {numOfCpu hz : UInt32}
    (hup : ∀ i, (smpUptime numOfCpu hz (env.uptime i)).isSome) (i : ℕ) (bufs : List Text) :
    (readIoLines env numOfCpu hz i bufs).map (List.map Io.record) = diskPieces bufs := by
  induction bufs generalizing i with
  | nil => rfl
  | cons buf bufs ih =>
    obtain ⟨uptime0, hu⟩ := Option.isSome_iff_exists.mp (hup i)
    rw [readIoLines, hu]
    rcases hscan : scanDisk buf with _ | _ | ⟨dev, v⟩
    · rw [diskPieces_outside hscan]
      rfl
    · rw [diskPieces_unknown hscan]
      rfl
    · rw [diskPieces_record hscan, ← ih (i + 1)]
      cases readIoLines env numOfCpu hz (i + 1) bufs with
      | none => rfl
      | some nodes =>
        have hrec := record_ofLine (getCpuTimeInJiffies (env.stat i)) uptime0 dev
          (length_of_scanDisk hscan)
        exact congrArg (fun r => some (r :: nodes.map Io.record)) hrec

theorem readsDisks_iff {env : IoEnv} (hclocks : ClocksReadable env) (ls : List Text) :
    ReadsDisks env ls ↔
      diskPieces (fgetsLines LEN_256 ls.flatten) = some (ls.filterMap diskLine) := by
  obtain ⟨numOfCpu, hz, hn, hh, hup⟩ := hclocks
  let e : IoEnv := { env with diskstats := some ls.flatten }
  have hread : readIoStat e = (readIoLines e numOfCpu hz 0 (fgetsLines LEN_256 ls.flatten)).map
      fun nodes => (⟨hz, numOfCpu⟩, nodes) := by
    have hn' : getNumOfCpu e.cpus = some numOfCpu := hn
    have hh' : getHZ e.ticks = some hz := hh
    simp only [readIoStat, hn', hh', Option.bind_eq_bind, Option.bind_some]
    exact Option.map_eq_bind.symm
  have hup' : ∀ i, (smpUptime numOfCpu hz (e.uptime i)).isSome := hup
  have hrec := readIoLines_record hup' 0 (fgetsLines LEN_256 ls.flatten)
  rw [ReadsDisks, hread, ← hrec]
  cases readIoLines e numOfCpu hz 0 (fgetsLines LEN_256 ls.flatten) with
  | none => simp
  | some nodes => simp

/-- A line that is read in one piece, and that piece is a record. -/
def OneRecord (line : Text) : Prop :=
  ∃ p r, fgetsLines LEN_256 line = [p] ∧ scanDisk p = some (some r)

/-- A line that ends the loop in time: it is no record and its first piece is none either, or
the first piece holds the record of the line and the second piece is none. -/
def EndsInTime (line : Text) : Prop :=
  (∃ p ps, fgetsLines LEN_256 line = p :: ps ∧ scanDisk p = some none ∧ diskLine line = none) ∨
  ∃ p q ps r, fgetsLines LEN_256 line = p :: q :: ps ∧ scanDisk p = some (some r) ∧
    diskLine line = some r ∧ scanDisk q = some none

/-- Every line is one record, up to a line that ends the loop in time and behind which no line
is a record. -/
def OneRecordEach : List Text → Prop
  | [] => True
  | l :: ls => (OneRecord l ∧ OneRecordEach ls) ∨ (EndsInTime l ∧ ∀ m ∈ ls, diskLine m = none)

def AllRecords (ps : List Text) : Prop := ∀ p ∈ ps, ∃ r, scanDisk p = some (some r)

theorem diskPieces_append_of_all {ps : List Text} (h : AllRecords ps) :
    ∃ rs, rs.length = ps.length ∧
      ∀ qs, diskPieces (ps ++ qs) = (diskPieces qs).map (rs ++ ·) := by
  induction ps with
  | nil => exact ⟨[], rfl, fun qs => by simp⟩
  | cons p ps ih =>
    obtain ⟨r, hr⟩ := h p List.mem_cons_self
    obtain ⟨rs, hlen, happ⟩ := ih fun q hq => h q (List.mem_cons_of_mem p hq)
    refine ⟨r :: rs, congrArg Nat.succ hlen, fun qs => ?_⟩
    rw [List.cons_append, diskPieces_record hr, happ, Option.map_map]
    rfl

theorem diskPieces_append_of_not_all {ps : List Text} (h : ¬AllRecords ps) (qs : List Text) :
    diskPieces (ps ++ qs) = diskPieces ps := by
  induction ps with
  | nil => exact absurd (fun p hp => absurd hp List.not_mem_nil) h
  | cons p ps ih =>
    rw [List.cons_append]
    rcases hscan : scanDisk p with _ | _ | r
    · rw [diskPieces_outside hscan, diskPieces_outside hscan]
    · rw [diskPieces_unknown hscan, diskPieces_unknown hscan]
    · rw [diskPieces_record hscan, diskPieces_record hscan, ih]
      intro hall
      exact h (List.forall_mem_cons.mpr ⟨⟨r, hscan⟩, hall⟩)

theorem oneRecord_of_length {l : Text} (hall : AllRecords (fgetsLines LEN_256 l))
    (h : (fgetsLines LEN_256 l).length = 1) : OneRecord l := by
  obtain ⟨p, hp⟩ := List.length_eq_one_iff.mp h
  obtain ⟨r, hr⟩ := hall p (hp ▸ List.mem_singleton_self p)
  exact ⟨p, r, hp, hr⟩

theorem OneRecord.all {l : Text} (h : OneRecord l) : AllRecords (fgetsLines LEN_256 l) := by
  obtain ⟨p, r, hp, hr⟩ := h
  intro q hq
  rw [hp, List.mem_singleton] at hq
  exact ⟨r, hq ▸ hr⟩

theorem diskLine_of_oneRecord {l : Text} (h : OneRecord l) :
    ∃ r, diskLine l = some r ∧
      ∀ qs, diskPieces (fgetsLines LEN_256 l ++ qs) = (diskPieces qs).map (r :: ·) := by
  obtain ⟨p, r, hp, hr⟩ := h
  have hcstr := eq_cstr_of_fgetsLines (by decide) hp
  refine ⟨r, diskLine_of_scanDisk (hcstr ▸ hr), fun qs => ?_⟩
  rw [hp, List.singleton_append, diskPieces_record hr]

theorem not_endsInTime_of_all {l : Text} (hall : AllRecords (fgetsLines LEN_256 l)) :
    ¬EndsInTime l := by
  have hno {p : Text} (hp : p ∈ fgetsLines LEN_256 l) : scanDisk p ≠ some none := by
    obtain ⟨r, hr⟩ := hall p hp
    rw [hr]
    simp
  rintro (⟨p, ps, h, hscan, -⟩ | ⟨p, q, ps, r, h, -, -, hscan⟩)
  · exact hno (by simp [h]) hscan
  · exact hno (by simp [h]) hscan

/-- Where the loop ends within a line, it has taken the record of the line exactly when it
ends in time. -/
theorem endsInTime_iff {l : Text} (hl : l ≠ []) (hstop : ¬AllRecords (fgetsLines LEN_256 l)) :
    EndsInTime l ↔ diskPieces (fgetsLines LEN_256 l) = some (diskLine l).toList := by
  constructor
  · rintro (⟨p, ps, h, hscan, hline⟩ | ⟨p, q, ps, r, h, hp, hline, hq⟩)
    · rw [h, diskPieces_unknown hscan, hline]
      rfl
    · rw [h, diskPieces_record hp, diskPieces_unknown hq, hline]
      rfl
  · intro h
    obtain ⟨p, ps, hps⟩ := List.exists_cons_of_ne_nil
      (mt (fgetsLines_eq_nil_iff (n := LEN_256) (by decide)).mp hl)
    rw [hps] at h hstop
    rcases hp : scanDisk p with _ | _ | r
    · rw [diskPieces_outside hp] at h
      cases h
    · rw [diskPieces_unknown hp, Option.some.injEq] at h
      exact .inl ⟨p, ps, hps, hp, by simpa using h.symm⟩
    · -- nothing came behind the first piece, and there is a second one
      rw [diskPieces_record hp, Option.map_eq_some_iff] at h
      obtain ⟨ds, hds, h⟩ := h
      obtain ⟨hline, rfl⟩ : diskLine l = some r ∧ ds = [] := by
        cases hl : diskLine l with
        | none =>
          rw [hl] at h
          cases h
        | some r' =>
          rw [hl] at h
          obtain ⟨rfl, rfl⟩ := List.cons.inj h
          exact ⟨rfl, rfl⟩
      cases ps with
      | nil =>
        refine absurd (fun p' hp' => ?_) hstop
        obtain rfl := List.mem_singleton.mp hp'
        exact ⟨r, hp⟩
      | cons q ps =>
        refine .inr ⟨p, q, ps, r, hps, hp, hline, ?_⟩
        rcases hq : scanDisk q with _ | _ | r'
        · rw [diskPieces_outside hq] at hds
          cases hds
        · rfl
        · rw [diskPieces_record hq, Option.map_eq_some_iff] at hds
          obtain ⟨_, -, hds⟩ := hds
          cases hds

/-- The loop takes one record for each line, in every beginning, exactly when each line is
one record or ends the loop in time. -/
theorem forall_prefix_diskPieces_iff {ls : List Text} (hne : ∀ l ∈ ls, l ≠ []) :
    (∀ ms, ms <+: ls →
      diskPieces (ms.map (fgetsLines LEN_256)).flatten = some (ms.filterMap diskLine)) ↔
    OneRecordEach ls := by
  induction ls with
  | nil =>
    refine iff_of_true (fun ms hms => ?_) trivial
    obtain rfl := List.prefix_nil.mp hms
    rfl
  | cons l ls ih =>
    obtain ⟨hl, hls⟩ := List.forall_mem_cons.mp hne
    have hstart : diskPieces (([] : List Text).map (fgetsLines LEN_256)).flatten =
        some (([] : List Text).filterMap diskLine) := rfl
    rw [forall_prefix_cons, and_iff_right hstart, OneRecordEach, ← ih hls]
    simp only [List.map_cons, List.flatten_cons, filterMap_cons_toList]
    by_cases hall : AllRecords (fgetsLines LEN_256 l)
    · rw [or_iff_left fun h => not_endsInTime_of_all hall h.1]
      by_cases hone : OneRecord l
      · -- the line is passed, and the loop goes on behind it
        obtain ⟨r, hline, hpieces⟩ := diskLine_of_oneRecord hone
        rw [and_iff_right hone]
        refine forall₂_congr fun ms _ => ?_
        rw [hpieces, hline, Option.toList_some, List.singleton_append, Option.map_eq_some_iff]
        simp
      · -- several records come from one line
        obtain ⟨rs, hlen, hpieces⟩ := diskPieces_append_of_all hall
        refine iff_of_false (fun h => hone ?_) fun h => hone h.1
        have hnil := h [] List.nil_prefix
        rw [hpieces, List.filterMap_nil, List.append_nil] at hnil
        have hrs := congrArg List.length (Option.some.inj hnil)
        have hle : (diskLine l).toList.length ≤ 1 := by
          cases diskLine l <;> simp
        have hpos := List.length_pos_iff.mpr
          (mt (fgetsLines_eq_nil_iff (n := LEN_256) (by decide)).mp hl)
        apply oneRecord_of_length hall
        simp only [List.append_nil] at hrs
        omega
    · -- the loop ends within the line, so there is nothing to come
      rw [or_iff_right fun h => hall h.1.all, endsInTime_iff hl hall]
      simp only [diskPieces_append_of_not_all hall]
      constructor
      · intro h
        have hnil := h [] List.nil_prefix
        rw [List.filterMap_nil, List.append_nil] at hnil
        have hrest := h ls List.prefix_rfl
        rw [hnil, Option.some.injEq, List.self_eq_append_right,
          List.filterMap_eq_nil_iff] at hrest
        exact ⟨hnil, hrest⟩
      · rintro ⟨hline, hrest⟩ ms hms
        have hnone : ms.filterMap diskLine = [] :=
          List.filterMap_eq_nil_iff.mpr fun m hm => hrest m (hms.subset hm)
        rw [hline, hnone, List.append_nil]

/-- A line that fits the buffer, with a third word that fits its array. -/
def ShortLine (l : Text) : Prop := l.length < LEN_256 ∧ (scanDisk (cstr l)).isSome

instance (l : Text) : Decidable (ShortLine l) := inferInstanceAs (Decidable (_ ∧ _))

theorem scanDisk_of_short {l : Text} (h : ShortLine l) :
    scanDisk (cstr l) = some (diskLine l) := by
  obtain ⟨r, hr⟩ := Option.isSome_iff_exists.mp h.2
  rw [hr, diskLine_of_scanDisk hr]

theorem oneRecordEach_iff_of_short {s : Text} (h : ∀ l ∈ cutLines s, ShortLine l) :
    OneRecordEach (cutLines s) ↔
      (cutLines s).Pairwise fun l m => diskLine l = none → diskLine m = none := by
  have hpiece : ∀ l ∈ cutLines s, fgetsLines LEN_256 l = [cstr l] := by
    intro l hl
    obtain ⟨hne, hnl⟩ := mem_cutLines hl
    exact fgetsLines_short hne hnl (h l hl).1
  generalize cutLines s = ls at h hpiece ⊢
  induction ls with
  | nil => exact iff_of_true trivial .nil
  | cons l ls ih =>
    obtain ⟨hl, hls⟩ := List.forall_mem_cons.mp h
    obtain ⟨hpl, hpls⟩ := List.forall_mem_cons.mp hpiece
    have hscan := scanDisk_of_short hl
    rw [OneRecordEach, List.pairwise_cons]
    cases hline : diskLine l with
    | none =>
      rw [hline] at hscan
      have hno : ¬OneRecord l := by
        rintro ⟨p, r, hp, hr⟩
        obtain rfl := List.singleton_inj.mp (hpl.symm.trans hp)
        rw [hscan] at hr
        cases hr
      rw [or_iff_right fun h => hno h.1, and_iff_right (.inl ⟨_, [], hpl, hscan, hline⟩)]
      constructor
      · intro hnone
        refine ⟨fun m hm _ => hnone m hm, ?_⟩
        exact List.pairwise_of_forall_mem_list fun _ _ m hm _ => hnone m hm
      · rintro ⟨hnone, -⟩ m hm
        exact hnone m hm rfl
    | some r =>
      rw [hline] at hscan
      have hall : AllRecords (fgetsLines LEN_256 l) := OneRecord.all ⟨_, r, hpl, hscan⟩
      rw [or_iff_left fun h => not_endsInTime_of_all hall h.1, and_iff_right ⟨_, r, hpl, hscan⟩]
      have hsome : ∀ m ∈ ls, some r = none → diskLine m = none := fun m _ h => nomatch h
      rw [and_iff_right hsome]
      exact ih hls hpls

/-- After every line the list holds one node for each line that is a record exactly when each
line is one record or ends the loop in time. Where all lines are short, the condition is that
no record comes behind a line that is none. -/
theorem readIoStat_lines_iff (env : IoEnv) (hclocks : ClocksReadable env) (s : Text) :
    ((∀ ls, ls <+: cutLines s → ReadsDisks env ls) ↔ OneRecordEach (cutLines s)) ∧
    ((∀ l ∈ cutLines s, ShortLine l) →
      (OneRecordEach (cutLines s) ↔
        (cutLines s).Pairwise fun l m => diskLine l = none → diskLine m = none)) := by
  refine ⟨?_, oneRecordEach_iff_of_short⟩
  rw [← forall_prefix_diskPieces_iff fun l hl => (mem_cutLines hl).1]
  refine forall₂_congr fun ls hls => ?_
  have hended : EndedLines ls := EndedLines.of_prefix (endedLines_cutLines s) hls
  rw [readsDisks_iff hclocks, fgetsLines_flatten (by decide) hended]

def diskstatsEnv : IoEnv where
  cpus := some "cpu0 1\n".toList
  ticks := 100
  diskstats := none
  stat _ := none
  uptime _ := none

def diskColumns : Text := "8 0 sda 1 2 3 4 5 6 7 8 9 10 11\n".toList

theorem clocksReadable_diskstatsEnv : ClocksReadable diskstatsEnv :=
  ⟨1, 100, by decide, by decide, fun _ => rfl⟩

theorem readIoStat_lines_disk :
    OneRecordEach (cutLines diskColumns) ∧
      ∀ ls, ls <+: cutLines diskColumns → ReadsDisks diskstatsEnv ls := by
  obtain ⟨hreads, hshort⟩ :=
    readIoStat_lines_iff diskstatsEnv clocksReadable_diskstatsEnv diskColumns
  have hone : OneRecordEach (cutLines diskColumns) :=
    (hshort (by decide +kernel)).mpr (by decide +kernel)
  exact ⟨hone, hreads.mpr hone⟩

/-- A line that is no record hides the disk behind it. -/
theorem readIoStat_unknown :
    readIoStat { diskstatsEnv with diskstats := some ("x\n".toList ++ diskColumns) } =
      some (⟨100, 1⟩, []) ∧
    ¬ReadsDisks diskstatsEnv (cutLines ("x\n".toList ++ diskColumns)) := by
  have hread : readIoStat { diskstatsEnv with diskstats := some ("x\n".toList ++ diskColumns) } =
      some (⟨100, 1⟩, []) := by
    decide +kernel
  refine ⟨hread, ?_⟩
  rintro ⟨st, nodes, h, hnodes⟩
  rw [flatten_cutLines, hread] at h
  cases h
  revert hnodes
  decide +kernel

end Zsr
