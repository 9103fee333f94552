import Zsr.CLib.Loop
import Zsr.Framework
import Mathlib.Data.List.Infix

namespace Zsr
open CLib

namespace ModName

/-- A record of which a row is printed. -/
abbrev Entry : ModName → Type
  | io => Io
  | proc => Proc
  | m => m.Rec

/-- The newest entry, all entries, or the entries of the newest inner list. -/
def held : (m : ModName) → List m.Rec → List m.Entry
  | cpu | gateway | loadAvg | mem | swap | time | uptime => fun l => l.getLast?.toList
  | dns | fs | ip | network | who => fun l => l
  | io | proc => fun l => l.getLast?.getD []

def row : (m : ModName) → m.Entry → Option Text
  | cpu => fun entry => some (ModCpu.row entry)
  | dns => ModDns.row
  | fs => ModFs.row
  | gateway => ModGateway.row
  | io => fun entry => some (ModIo.row entry)
  | ip => ModIp.row
  | loadAvg => fun entry => some (ModLoadAvg.row entry)
  | mem => fun entry => some (ModMem.row entry)
  | network => ModNetwork.row
  | proc => fun entry => some (ModProc.row entry)
  | swap => fun entry => some (ModSwap.row entry)
  | time => fun entry => some (ModTime.row entry)
  | uptime => fun entry => some (ModUptime.row entry)
  | who => ModWho.row

/-- The encodings of the records held; an array without its NUL has none. -/
def encoding (m : ModName) (l : List m.Rec) : Text := ((m.held l).filterMap m.row).flatten

/-- The collection of a module finds nothing; those with one record always hold it. -/
def FindsNone : (m : ModName) → m.Env → Prop
  | cpu | gateway | loadAvg | mem | swap | time | uptime => fun _ => False
  | dns => fun env => LatestMod.dns.entries env = some []
  | fs => fun env => LatestMod.fs.entries env = some []
  | io => fun env => ∃ st, readIoStat env = some (st, [])
  | ip => fun env => LatestMod.ip.entries env = some []
  | network => fun env => LatestMod.network.entries env = some []
  | proc => fun env => getAllProc env = some []
  | who => fun env => LatestMod.who.entries env = some []

end ModName

section ToStr

variable {ε : Type} (print : Text → ℕ → Text → Option Text) (row : ε → Option Text)

theorem lastToStr_eq (l : List ε) (r : Text) : lastToStr print row l r =
    (l.getLast?.toList.mapM row).bind fun rows => printRows print rows r 0 := by
  unfold lastToStr
  cases l.getLast? with
  | none => rfl
  | some e => cases h : row e <;> simp [h, printRows]

theorem allToStr_eq (l : List ε) (r : Text) : allToStr print row l r =
    (l.mapM row).bind fun rows => printRows print rows r 0 := by
  unfold allToStr
  split
  · next h => rw [h]; rfl
  · rfl

theorem innerToStr_eq (l : List (List ε)) (r : Text) : innerToStr print row l r =
    ((l.getLast?.getD []).mapM row).bind fun rows => printRows print rows r 0 := by
  unfold innerToStr
  cases l.getLast? with
  | none => rfl
  | some l => rfl

end ToStr

theorem ModProc.recordToStr_eq (l : List (List Proc)) (r : Text) : ModProc.recordToStr l r =
    ((l.getLast?.getD []).mapM fun e => some (ModProc.row e)).bind fun rows =>
      printRows sprintfRecord rows r 0 := by
  have hrows (l : List Proc) : (l.mapM fun e => some (ModProc.row e)) = some (l.map ModProc.row) :=
    List.mapM_pure
  unfold ModProc.recordToStr
  cases l.getLast? with
  | none => rfl
  | some l => rw [Option.getD_some, hrows]; rfl

namespace ModName

def print : ModName → Text → ℕ → Text → Option Text
  | dns | gateway | ip | proc => sprintfRecord
  | cpu | fs | io | loadAvg | mem | network | swap | time | uptime | who => snprintfRecord

theorem print_eq (m : ModName) : m.print = sprintfRecord ∨ m.print = snprintfRecord := by
  cases m with
  | dns | gateway | ip | proc => exact .inl rfl
  | cpu | fs | io | loadAvg | mem | network | swap | time | uptime | who => exact .inr rfl

theorem recordToStr_eq (m : ModName) (l : List m.Rec) (r : Text) : m.recordToStr l r =
    ((m.held l).mapM m.row).bind fun rows => printRows m.print rows r 0 := by
  cases m with
  | cpu | gateway | loadAvg | mem | swap | time | uptime => exact lastToStr_eq _ _ l r
  | dns | fs | ip | network | who => exact allToStr_eq _ _ l r
  | io => exact innerToStr_eq _ _ l r
  | proc => exact ModProc.recordToStr_eq l r

theorem row_end_ne_nil (s : Text) : s ++ ";\n".toList ≠ [] :=
  List.append_ne_nil_of_right_ne_nil s (by decide)

theorem row_ne_nil (m : ModName) {e : m.Entry} {t : Text} (h : m.row e = some t) : t ≠ [] := by
  cases m with
  | cpu | io | loadAvg | mem | proc | swap | time | uptime =>
    obtain rfl := Option.some.inj h
    exact row_end_ne_nil _
  | dns | gateway | network =>
    obtain ⟨w, -, h⟩ := Option.bind_eq_some_iff.mp h
    obtain rfl := Option.some.inj h
    exact row_end_ne_nil _
  | fs | who =>
    simp only [row, ModFs.row, ModFs.rowBy, ModWho.row, ModWho.rowBy, Option.bind_eq_bind,
      Option.bind_eq_some_iff, Option.pure_def, Option.some.injEq] at h
    obtain ⟨w, -, u, -, v, -, rfl⟩ := h
    exact row_end_ne_nil _
  | ip =>
    simp only [row, ModIp.row, ModIp.rowBy, Option.bind_eq_bind, Option.bind_eq_some_iff,
      Option.pure_def, Option.some.injEq] at h
    obtain ⟨w, -, u, -, v, -, rfl⟩ := h
    apply List.append_ne_nil_of_right_ne_nil
    cases e.ipVer <;> decide

theorem mapM_row_eq {m : ModName} {l : List m.Entry} {rows : List Text}
    (h : l.mapM m.row = some rows) :
    l.filterMap m.row = rows ∧ (rows.flatten = [] ↔ l = []) := by
  induction l generalizing rows with
  | nil =>
    obtain rfl := Option.some.inj h
    exact ⟨rfl, by simp⟩
  | cons e l ih =>
    simp only [List.mapM_cons, Option.bind_eq_bind, Option.bind_eq_some_iff, Option.pure_def,
      Option.some.injEq] at h
    obtain ⟨t, ht, rows, hrows, rfl⟩ := h
    constructor
    · rw [List.filterMap_cons_some ht, (ih hrows).1]
    · simp [row_ne_nil m ht]

/-- Printing into the record: nothing happens when nothing is held, else the record reads
as the encoding. -/
theorem recordToStr_spec {m : ModName} {l : List m.Rec} {r r' : Text}
    (h : m.recordToStr l r = some r') (hnul : '\x00' ∉ m.encoding l)
    (hlen : (m.encoding l).length < LEN_1M) :
    (m.held l = [] ∧ m.encoding l = [] ∧ cstr r' = cstr r) ∨
      (m.held l ≠ [] ∧ m.encoding l ≠ [] ∧ cstr r' = m.encoding l) := by
  rw [recordToStr_eq] at h
  obtain ⟨rows, hrows, h⟩ := Option.bind_eq_some_iff.mp h
  obtain ⟨hfilter, hnil⟩ := mapM_row_eq hrows
  have henc : m.encoding l = rows.flatten := congrArg List.flatten hfilter
  rw [henc] at hnul hlen ⊢
  have hsprintf : printRows m.print rows r 0 = printRows sprintfRecord rows r 0 := by
    rcases m.print_eq with hprint | hprint
    · rw [hprint]
    · -- a row is no longer than all rows together, so nothing is cut off
      rw [hprint]
      apply printRows_snprintf
      intro t ht
      exact (List.sublist_flatten_of_mem ht).length_le.trans_lt hlen
  by_cases hheld : m.held l = []
  · refine .inl ⟨hheld, hnil.mpr hheld, ?_⟩
    rw [hheld] at hrows
    obtain rfl := Option.some.inj hrows
    obtain rfl := Option.some.inj h
    rfl
  · have hne : rows ≠ [] := by
      rintro rfl
      exact hheld (hnil.mp rfl)
    obtain ⟨tail, htail⟩ := printRows_sprintf_start hne r hlen
    obtain rfl := Option.some.inj (htail.symm.trans (hsprintf.symm.trans h))
    exact .inr ⟨hheld, fun h => hheld (hnil.mp h), cstr_append_nul hnul tail⟩

theorem getLast?_collectSingle {ε : Type} {read : ε → Option ε} {zeroed : ε} {l l' : List ε}
    (h : collectSingle read zeroed l = some l') : l'.getLast?.toList ≠ [] := by
  unfold collectSingle at h
  split at h
  · obtain ⟨e, -, rfl⟩ := Option.map_eq_some_iff.mp h
    simp
  · obtain ⟨e, -, rfl⟩ := Option.map_eq_some_iff.mp h
    simp

theorem getLast?_collectIo {env : IoEnv} {l l' : List (List Io)}
    (h : ModIo.collectRecord env l = some l') :
    l'.getLast?.getD [] = [] ↔ ∃ st, readIoStat env = some (st, []) := by
  simp only [ModIo.collectRecord, Option.bind_eq_bind, Option.bind_eq_some_iff] at h
  obtain ⟨⟨st, nodes⟩, hread, h⟩ := h
  have hlast : l'.getLast?.getD [] = [] ↔ nodes = [] := by
    dsimp only at h
    split at h
    · obtain rfl := Option.some.inj h
      simp
    · obtain rfl := Option.some.inj h
      simp [computeIoStat]
  rw [hlast, hread]
  simp

theorem getLast?_collectProc {env : ProcEnv} {l l' : List (List Proc)}
    (h : ModProc.collectRecord env l = some l') :
    l'.getLast?.getD [] = [] ↔ getAllProc env = some [] := by
  simp only [ModProc.collectRecord, Option.bind_eq_bind, Option.bind_eq_some_iff] at h
  obtain ⟨cur, hcur, h⟩ := h
  have hlast : l'.getLast?.getD [] = [] ↔ cur = [] := by
    cases hprev : l.getLast? with
    | none =>
      simp only [hprev, Option.bind_some, Option.some.injEq] at h
      simp [← h]
    | some prev =>
      simp only [hprev, Option.bind_eq_some_iff, Option.some.injEq] at h
      obtain ⟨out, hout, rfl⟩ := h
      -- only percentages change, so there are as many entries as before
      have hsame := computeProcCpuStat_forall₂ (R := fun _ _ : Proc => True)
        (fun _ _ _ _ => trivial) hout (List.forall₂_same.mpr fun _ _ => trivial)
      have hlen := hsame.length_eq
      rw [List.getLast?_append, List.getLast?_singleton, Option.some_or, Option.getD_some,
        ← List.length_eq_zero_iff, ← hlen, List.length_eq_zero_iff]
  rw [hlast, hcur, Option.some.injEq]

theorem held_eq_nil_iff {m : ModName} {env : m.Env} {l l' : List m.Rec}
    (h : m.collectRecord env l = some l') : m.held l' = [] ↔ m.FindsNone env := by
  cases m with
  | cpu =>
    obtain rfl := Option.some.inj h
    refine iff_of_false ?_ id
    show (ModCpu.collectRecord env l).getLast?.toList ≠ []
    unfold ModCpu.collectRecord ModCpu.collectSnapshot
    split <;> simp
  | gateway | loadAvg | mem | swap | time | uptime =>
    simp only [collectRecord, ModGateway.collectRecord, ModLoadAvg.collectRecord,
      ModMem.collectRecord, ModSwap.collectRecord, ModTime.collectRecord,
      ModUptime.collectRecord] at h
    exact iff_of_false (getLast?_collectSingle h) id
  | dns | fs | ip | network | who =>
    have hq := (collectQuery_eq _ l).symm.trans h
    show l' = [] ↔ _ = some []
    rw [hq, Option.some.injEq]
  | io => exact getLast?_collectIo h
  | proc => exact getLast?_collectProc h

end ModName

/-- What the enabled modules hold, in the order of `load_modules`. -/
def heldText (enable : ModName → Bool) (mods : Modules) : Text :=
  ((loadModules.filter enable).map fun m => m.encoding (mods m).recordList).flatten

theorem collectRecord_spec {e : System} {mods mods' : Modules}
    (h : collectRecord e mods = some mods') (m : ModName) :
    m.collectRecord (e m) (mods m).recordList = some (mods' m).recordList ∧
      (mods' m).record = (mods m).record := by
  let f (m : ModName) (mod : Module m) : Option (Module m) :=
    (m.collectRecord (e m) mod.recordList).map fun l => { mod with recordList := l }
  have hloop : collectRecord e mods =
      loadModules.foldlM (fun s m => (f m (s m)).map (Function.update s m)) mods := by
    simp only [collectRecord, f, Option.map_map]
    rfl
  have hm := (foldlM_update loadModules_nodup (hloop.symm.trans h)).1 m (mem_loadModules m)
  obtain ⟨l, hl, hmod⟩ := Option.map_eq_some_iff.mp hm
  rw [← hmod]
  exact ⟨hl, rfl⟩

theorem flatten_map_filter {ι ω : Type} (p : ι → Bool) (f : ι → List ω) (l : List ι) :
    (l.map fun i => if p i then f i else []).flatten = ((l.filter p).map f).flatten := by
  induction l with
  | nil => rfl
  | cons a l ih =>
    rw [List.map_cons, List.flatten_cons, ih]
    cases hp : p a with
    | false => rw [List.filter_cons_of_neg (by simp [hp])]; rfl
    | true => rw [List.filter_cons_of_pos hp]; rfl

theorem printModRecord_spec {enable : ModName → Bool} {mods mods' : Modules} {text : Text}
    (h : printModRecord enable mods = some (mods', text)) :
    (∀ m, (mods' m).recordList = (mods m).recordList ∧ (enable m = true →
      m.recordToStr (mods m).recordList (mods m).record = some (mods' m).record)) ∧
    text = ((loadModules.filter enable).map fun m => cstr (mods' m).record).flatten := by
  let f (m : ModName) (mod : Module m) : Option (Module m × Text) :=
    if enable m then (m.recordToStr mod.recordList mod.record).map fun r =>
      ({ mod with record := r }, cstr r)
    else some (mod, [])
  obtain ⟨t, hin, -, hemit⟩ := foldlM_update_emit (f := f) (fun s out m => by
    dsimp only [f]
    split
    · rw [Option.map_map]
      rfl
    · simp) loadModules_nodup h
  have hmod (m : ModName) : ((mods' m).recordList = (mods m).recordList ∧ (enable m = true →
      m.recordToStr (mods m).recordList (mods m).record = some (mods' m).record)) ∧
      t m = if enable m then cstr (mods' m).record else [] := by
    have hm := hin m (mem_loadModules m)
    dsimp only [f] at hm
    cases hen : enable m with
    | false =>
      rw [hen, if_neg Bool.false_ne_true, Option.some.injEq, Prod.mk.injEq] at hm
      rw [← hm.1, ← hm.2]
      exact ⟨⟨rfl, fun h => by cases h⟩, rfl⟩
    | true =>
      rw [hen, if_pos rfl] at hm
      obtain ⟨r, hr, hy⟩ := Option.map_eq_some_iff.mp hm
      rw [Prod.mk.injEq] at hy
      rw [← hy.1, ← hy.2]
      exact ⟨⟨rfl, fun _ => hr⟩, rfl⟩
  refine ⟨fun m => (hmod m).1, ?_⟩
  rw [hemit, List.nil_append, ← flatten_map_filter]
  congr 2
  funext m
  exact (hmod m).2

structure CycleOf (enable : ModName → Bool) (e : System) (s s' : Tool) (m : ModName) : Prop where
  collect : m.collectRecord (e m) (s.mods m).recordList = some (s'.mods m).recordList
  toStr : enable m = true →
    m.recordToStr (s'.mods m).recordList (s.mods m).record = some (s'.mods m).record

theorem toolCycle_spec {enable : ModName → Bool} {e : System} {s s' : Tool}
    (h : toolCycle enable e s = some s') : (∀ m, CycleOf enable e s s' m) ∧
      s'.out = s.out ++
        [((loadModules.filter enable).map fun m => cstr (s'.mods m).record).flatten] := by
  simp only [toolCycle, Option.bind_eq_bind, Option.bind_eq_some_iff, Option.some.injEq] at h
  obtain ⟨mods, hc, ⟨mods', text⟩, hp, rfl⟩ := h
  obtain ⟨hmods, rfl⟩ := printModRecord_spec hp
  refine ⟨fun m => ⟨?_, fun hen => ?_⟩, rfl⟩
  · rw [(hmods m).1]
    exact (collectRecord_spec hc m).1
  · rw [(hmods m).1, ← (collectRecord_spec hc m).2]
    exact (hmods m).2 hen

/-- The texts are strings that the record has room for. -/
def ShortTexts (enable : ModName → Bool) (es : List System) : Prop :=
  ∀ es' s, es' <+: es → toolRun enable es' = some s → ∀ m, enable m = true →
    '\x00' ∉ m.encoding (s.mods m).recordList ∧ (m.encoding (s.mods m).recordList).length < LEN_1M

instance (enable : ModName → Bool) (es : List System) : Decidable (ShortTexts enable es) :=
  decidable_of_iff (∀ es' ∈ es.inits, ∀ s ∈ (toolRun enable es').toList, ∀ m ∈ loadModules,
      enable m = true → '\x00' ∉ m.encoding (s.mods m).recordList ∧
        (m.encoding (s.mods m).recordList).length < LEN_1M) <| by
    simp only [ShortTexts, List.mem_inits, Option.mem_toList, mem_loadModules, forall_const]
    exact ⟨fun h es' s hes hs m => h es' hes s hs m, fun h es' hes s hs m => h es' s hes hs m⟩

/-- What each cycle of a run has printed is what the enabled modules held in it. -/
def PrintsHeld (enable : ModName → Bool) (es : List System) (s : Tool) : Prop :=
  ∀ es' e, es' ++ [e] <+: es → ∃ s', toolRun enable (es' ++ [e]) = some s' ∧
    s.out[es'.length]? = some (heldText enable s'.mods)

section Run

variable {enable : ModName → Bool} {es : List System} {e : System} {s s' : Tool}

theorem toolRun_concat (h : toolRun enable (es ++ [e]) = some s') :
    ∃ s, toolRun enable es = some s ∧ toolCycle enable e s = some s' := by
  rw [toolRun, cycles_concat] at h
  exact Option.bind_eq_some_iff.mp h

theorem toolRun_out_length (h : toolRun enable es = some s) : s.out.length = es.length := by
  induction es using List.reverseRecOn generalizing s with
  | nil =>
    obtain rfl := Option.some.inj h
    rfl
  | append_singleton es e ih =>
    obtain ⟨s1, h1, h2⟩ := toolRun_concat h
    rw [(toolCycle_spec h2).2, List.length_append, List.length_append, ih h1]
    rfl

theorem toolRun_recordList (h : toolRun enable es = some s) (m : ModName) :
    cycles m.collectRecord (es.map fun e => e m) [] = some (s.mods m).recordList := by
  induction es using List.reverseRecOn generalizing s with
  | nil =>
    obtain rfl := Option.some.inj h
    rfl
  | append_singleton es e ih =>
    obtain ⟨s1, h1, h2⟩ := toolRun_concat h
    rw [List.map_append, List.map_singleton, cycles_concat, ih h1]
    exact ((toolCycle_spec h2).1 m).collect

/-- A cycle either leaves the record of a module as it was, and nothing is held, or makes
it the encoding of what is held. -/
theorem record_cycle (hshort : ShortTexts enable (es ++ [e])) (h : toolRun enable es = some s)
    (hc : toolCycle enable e s = some s') {m : ModName} (hen : enable m = true) :
    (m.FindsNone (e m) ∧ m.encoding (s'.mods m).recordList = [] ∧
      cstr (s'.mods m).record = cstr (s.mods m).record) ∨
    (¬m.FindsNone (e m) ∧ m.encoding (s'.mods m).recordList ≠ [] ∧
      cstr (s'.mods m).record = m.encoding (s'.mods m).recordList) := by
  have hm := (toolCycle_spec hc).1 m
  have hrun : toolRun enable (es ++ [e]) = some s' := by
    rw [toolRun, cycles_concat]
    exact Option.bind_eq_some_iff.mpr ⟨s, h, hc⟩
  obtain ⟨hnul, hlen⟩ := hshort _ s' List.prefix_rfl hrun m hen
  rw [← ModName.held_eq_nil_iff hm.collect]
  exact ModName.recordToStr_spec (hm.toStr hen) hnul hlen

theorem ShortTexts.init (hshort : ShortTexts enable (es ++ [e])) : ShortTexts enable es :=
  fun es' s hes => hshort es' s (hes.trans (List.prefix_append es [e]))

theorem record_nil_iff (hshort : ShortTexts enable es) (h : toolRun enable es = some s)
    {m : ModName} (hen : enable m = true) :
    cstr (s.mods m).record = [] ↔ ∀ e ∈ es, m.FindsNone (e m) := by
  induction es using List.reverseRecOn generalizing s with
  | nil =>
    obtain rfl := Option.some.inj h
    exact iff_of_true rfl fun e he => (List.not_mem_nil he).elim
  | append_singleton es e ih =>
    obtain ⟨s1, h1, h2⟩ := toolRun_concat h
    have ih := ih hshort.init h1
    rw [List.forall_mem_append, List.forall_mem_singleton, ← ih]
    rcases record_cycle hshort h1 h2 hen with ⟨hnone, -, hkept⟩ | ⟨hsome, hne, hnew⟩
    · rw [hkept]
      exact (and_iff_left hnone).symm
    · rw [hnew]
      exact iff_of_false hne fun h => hsome h.2

/-- The last cycle prints what is held exactly when no module that finds nothing in it has
found something before. -/
theorem last_prints_iff (hshort : ShortTexts enable (es ++ [e])) (h : toolRun enable es = some s)
    (hc : toolCycle enable e s = some s') :
    ((loadModules.filter enable).map fun m => cstr (s'.mods m).record).flatten =
        heldText enable s'.mods ↔
      ∀ m, enable m = true → m.FindsNone (e m) → ∀ e' ∈ es, m.FindsNone (e' m) := by
  have hcycle {m : ModName} (hen : enable m = true) := record_cycle hshort h hc hen
  -- a stale record can only add to the output, so the texts can be compared one by one
  have hle : ∀ m ∈ loadModules.filter enable,
      (m.encoding (s'.mods m).recordList).length ≤ (cstr (s'.mods m).record).length := by
    intro m hm
    rcases hcycle (List.mem_filter.mp hm).2 with ⟨-, hnil, -⟩ | ⟨-, -, hnew⟩
    · rw [hnil]
      exact Nat.zero_le _
    · rw [hnew]
  rw [heldText, flatten_map_inj hle]
  have hmem (m : ModName) : m ∈ loadModules.filter enable ↔ enable m = true := by
    simp [List.mem_filter, mem_loadModules]
  apply forall_congr'
  intro m
  rw [hmem]
  apply imp_congr_right
  intro hen
  rcases hcycle hen with ⟨hnone, hnil, hkept⟩ | ⟨hsome, -, hnew⟩
  · rw [hkept, hnil, record_nil_iff hshort.init h hen]
    exact ⟨fun h _ => h, fun h => h hnone⟩
  · exact iff_of_true hnew fun h => absurd h hsome

theorem printsHeld_concat_iff (h : toolRun enable es = some s)
    (hc : toolCycle enable e s = some s') :
    PrintsHeld enable (es ++ [e]) s' ↔ PrintsHeld enable es s ∧
      ((loadModules.filter enable).map fun m => cstr (s'.mods m).record).flatten =
        heldText enable s'.mods := by
  have hout := (toolCycle_spec hc).2
  have hrun : toolRun enable (es ++ [e]) = some s' := by
    rw [toolRun, cycles_concat]
    exact Option.bind_eq_some_iff.mpr ⟨s, h, hc⟩
  have hlast : s'.out[es.length]? =
      some ((loadModules.filter enable).map fun m => cstr (s'.mods m).record).flatten := by
    rw [hout, ← toolRun_out_length h]
    exact List.getElem?_concat_length
  have hold {es' : List System} {e' : System} (hes : es' ++ [e'] <+: es) :
      s'.out[es'.length]? = s.out[es'.length]? := by
    have hle := hes.length_le
    rw [List.length_append, List.length_singleton, ← toolRun_out_length h] at hle
    rw [hout, List.getElem?_append_left (by omega)]
  constructor
  · intro hall
    constructor
    · intro es' e' hes
      rw [← hold hes]
      exact hall es' e' (hes.trans (List.prefix_append es [e]))
    · obtain ⟨s1, hs1, ht⟩ := hall es e List.prefix_rfl
      obtain rfl := Option.some.inj (hrun.symm.trans hs1)
      exact Option.some.inj (hlast.symm.trans ht)
  · intro hall es' e' hes
    rcases List.prefix_concat_iff.mp hes with heq | hes
    · obtain ⟨rfl, -⟩ := List.append_inj' heq rfl
      rw [heq]
      exact ⟨s', hrun, hlast.trans (congrArg some hall.2)⟩
    · rw [hold hes]
      exact hall.1 es' e' hes

end Run

/-- A run prints what is held in every cycle exactly when no enabled module finds nothing
in a cycle after one in which it found something. -/
theorem toolRun_prints_iff (enable : ModName → Bool) (es : List System) {s : Tool}
    (hrun : toolRun enable es = some s) (hshort : ShortTexts enable es) :
    PrintsHeld enable es s ↔
      ∀ m, enable m = true → es.Pairwise fun e e' => m.FindsNone (e' m) → m.FindsNone (e m) := by
  induction es using List.reverseRecOn generalizing s with
  | nil =>
    refine iff_of_true (fun es' e h => ?_) fun m _ => .nil
    simp at h
  | append_singleton es e ih =>
    obtain ⟨s1, h1, h2⟩ := toolRun_concat hrun
    rw [printsHeld_concat_iff h1 h2, ih h1 hshort.init, last_prints_iff hshort h1 h2]
    simp only [List.pairwise_append, List.pairwise_singleton, List.mem_singleton, forall_eq,
      true_and]
    constructor
    · intro h m hen
      exact ⟨h.1 m hen, fun e' he' hnone => h.2 m hen hnone e' he'⟩
    · intro h
      exact ⟨fun m hen => (h m hen).1, fun m hen hnone e' he' => (h m hen).2 e' he' hnone⟩

/-- A machine without disks, processes and addresses, on which `users` are logged in. -/
def loggedIn (users : List Utmp) : System
  | .cpu | .gateway | .loadAvg | .mem | .swap | .uptime => none
  | .dns | .fs | .ip | .network => none
  | .io => ⟨some "cpu  1 0 0 0\n".toList, 100, none, fun _ => none, fun _ => none⟩
  | .proc => procEnv []
  | .time => 0
  | .who => users

def rootUser : Utmp where
  isUserProcess := true
  user := strncpy LEN_32 "root".toList
  line := strncpy LEN_32 "tty1".toList
  host := strncpy LEN_256 []
  time := 60
  user_length := strncpy_length _ _
  line_length := strncpy_length _ _
  host_length := strncpy_length _ _

def onlyWho (m : ModName) : Bool := m == .who

theorem toolRun_prints_login :
    ∃ s, toolRun onlyWho [loggedIn [], loggedIn [rootUser]] = some s ∧
      s.out = [[], "who=root,tty1,,60;\n".toList] ∧
      PrintsHeld onlyWho [loggedIn [], loggedIn [rootUser]] s := by
  have hout : (toolRun onlyWho [loggedIn [], loggedIn [rootUser]]).map Tool.out =
      some [[], "who=root,tty1,,60;\n".toList] := by decide +kernel
  obtain ⟨s, hrun, hs⟩ := Option.map_eq_some_iff.mp hout
  refine ⟨s, hrun, hs, (toolRun_prints_iff onlyWho _ hrun (by decide +kernel)).mpr ?_⟩
  intro m hm
  obtain rfl : m = .who := eq_of_beq hm
  rw [List.pairwise_pair]
  exact fun _ => rfl

/-- The row of a user who has logged out is printed again. -/
theorem toolRun_logout_stale :
    (toolRun onlyWho [loggedIn [rootUser], loggedIn []]).map Tool.out =
      some ["who=root,tty1,,60;\n".toList, "who=root,tty1,,60;\n".toList] ∧
    ¬∀ enable es s, toolRun enable es = some s → ShortTexts enable es →
      PrintsHeld enable es s := by
  have hout : (toolRun onlyWho [loggedIn [rootUser], loggedIn []]).map Tool.out =
      some ["who=root,tty1,,60;\n".toList, "who=root,tty1,,60;\n".toList] := by decide +kernel
  refine ⟨hout, fun hall => ?_⟩
  obtain ⟨s, hrun, hs⟩ := Option.map_eq_some_iff.mp hout
  obtain ⟨s', hrun', ht⟩ := hall onlyWho _ s hrun (by decide +kernel) [loggedIn [rootUser]]
    (loggedIn []) List.prefix_rfl
  have hheld : (toolRun onlyWho [loggedIn [rootUser], loggedIn []]).map
      (fun s => heldText onlyWho s.mods) = some [] := by decide +kernel
  rw [List.singleton_append, hrun] at hrun'
  obtain rfl := Option.some.inj hrun'
  rw [hrun, Option.map_some, Option.some.injEq] at hheld
  rw [hs, hheld] at ht
  revert ht
  decide

end Zsr
