import Zsr.CpuRun
import Zsr.ModuleRun
import Zsr.StatusUser
import Zsr.StdioRun

namespace Zsr
open CLib

def onlyCpu (m : ModName) : Bool := m == .cpu

/-- The snapshots that `read_cpu_stat` delivers in the cycles of a run. -/
def delivered (limit : ℕ) (es : List System) : List CpuStat :=
  (Stdio.limitRun limit 0 es).map fun e => readCpuStat (e .cpu) {}

/-- No other module ends the program in these cycles. -/
def OthersCollect (limit : ℕ) (es : List System) : Prop :=
  ∀ m : ModName, m ≠ .cpu →
    (moduleRun m false ((Stdio.limitRun limit 0 es).map fun e => e m)).isSome

/-- What `-c n --cpu` has to collect in the cycles `es` from the snapshots of them. -/
structure CpuReport (limit n : ℕ) (es rest : List System) (snap : ℕ → CpuStat)
    (record : ℕ → Cpu) : Prop where
  finished : ∃ x, Stdio.toolMain limit (countOpts n "--cpu".toList) (es ++ rest) =
    .go (.finished x rest) ∧ (x.1.mods .cpu).recordList = (List.range n).map record
  kept : ∀ k ≤ n, ∃ x, Stdio.toolRun limit onlyCpu (es.take k) = some x ∧
    (x.1.mods .cpu).recordList = (List.range k).map record
  stat : ∀ k < n, (record k).stat = snap k
  first : (record 0).idle = 0 ∧ (record 0).util = 0 ∧ (record 0).wa = 0
  finite : ∀ k < n, ∃ i u w : ℚ, record k = ⟨.fin i, .fin u, .fin w, snap k⟩
  idle_sum : ∑ k ∈ Finset.range (n - 1),
      (record (k + 1)).idle.toRat * (((snap (k + 1)).total : ℚ) - (snap k).total) =
    100 * ((((snap (n - 1)).idle.toNat : ℚ) - (snap 0).idle.toNat) +
      (((snap (n - 1)).steal.toNat : ℚ) - (snap 0).steal.toNat))
  wa_sum : ∑ k ∈ Finset.range (n - 1),
      (record (k + 1)).wa.toRat * (((snap (k + 1)).total : ℚ) - (snap k).total) =
    100 * (((snap (n - 1)).iowait.toNat : ℚ) - (snap 0).iowait.toNat)
  util_sum : ∑ k ∈ Finset.range (n - 1),
      (record (k + 1)).util.toRat * (((snap (k + 1)).total : ℚ) - (snap k).total) =
    100 * ((((snap (n - 1)).total : ℚ) - (snap 0).total) -
      (((snap (n - 1)).idle.toNat : ℚ) - (snap 0).idle.toNat) -
      (((snap (n - 1)).steal.toNat : ℚ) - (snap 0).steal.toNat))

theorem ModCpu.exists_recordToStr (l : List Cpu) (r : Text) :
    ∃ r', ModCpu.recordToStr l r = some r' := by
  unfold ModCpu.recordToStr lastToStr
  cases l.getLast? with
  | none => exact ⟨r, rfl⟩
  | some entry =>
    have hlt : 0 + ((ModCpu.row entry).take (LEN_1M - 1)).length < LEN_1M := by
      have hle := List.length_take_le (LEN_1M - 1) (ModCpu.row entry)
      have hpos : 0 < LEN_1M := by decide
      omega
    exact ⟨_, if_pos hlt⟩

theorem moduleRun_cpu (enable : Bool) (envs : List (Option Text)) :
    ∃ mod, moduleRun .cpu enable envs = some mod ∧ mod.recordList =
      (envs.map fun procStat => readCpuStat procStat {}).foldl
        (fun l stat => ModCpu.collectSnapshot stat l) [] := by
  induction envs using List.reverseRecOn with
  | nil => exact ⟨_, rfl, rfl⟩
  | append_singleton envs procStat ih =>
    obtain ⟨mod, hrun, hlist⟩ := ih
    let l := ModCpu.collectRecord procStat mod.recordList
    have hstr : ∃ r', (if enable then ModCpu.recordToStr l mod.record else some mod.record) =
        some r' := by
      cases enable with
      | false => exact ⟨_, rfl⟩
      | true => exact ModCpu.exists_recordToStr l mod.record
    obtain ⟨r', hr'⟩ := hstr
    refine ⟨⟨r', l⟩, ?_, ?_⟩
    · rw [moduleRun_concat, hrun]
      exact moduleCycle_eq_some_iff.mpr ⟨rfl, hr'⟩
    · rw [List.map_append, List.foldl_append, ← hlist]
      rfl

section Run

variable {limit n : ℕ} {es : List System} {snap : ℕ → CpuStat}

theorem limitRun_take (m k : ℕ) (es : List System) :
    Stdio.limitRun limit m (es.take k) = (Stdio.limitRun limit m es).take k := by
  induction es generalizing m k with
  | nil => rw [List.take_nil]; exact List.take_nil.symm
  | cons e es ih =>
    cases k with
    | zero => rfl
    | succ k => exact congrArg (Stdio.limitSystem limit m e :: ·) (ih _ k)

theorem limitRun_length (m : ℕ) (es : List System) :
    (Stdio.limitRun limit m es).length = es.length := by
  induction es generalizing m with
  | nil => rfl
  | cons e es ih => exact congrArg (· + 1) (ih _)

theorem delivered_take (h : delivered limit es = (List.range n).map snap) {k : ℕ} (hk : k ≤ n) :
    delivered limit (es.take k) = (List.range k).map snap := by
  rw [delivered, limitRun_take, List.map_take]
  show (delivered limit es).take k = _
  rw [h, ← List.map_take, List.take_range, min_eq_left hk]

theorem toolRun_cpu (h : delivered limit es = (List.range n).map snap)
    {x : Tool × Heap Stdio.OpenFile} (hrun : Stdio.toolRun limit onlyCpu es = some x) :
    (x.1.mods .cpu).recordList = (List.range n).map (cpuRecord snap) := by
  have hrel : Option.Rel _ (Stdio.toolRun limit onlyCpu es) _ := Stdio.toolRun_rel onlyCpu es
  rw [hrun] at hrel
  generalize hs : Zsr.toolRun onlyCpu (Stdio.limitRun limit 0 es) = y at hrel
  cases hrel with
  | some hx =>
    obtain ⟨rfl, -⟩ := hx
    obtain ⟨mod, hmod, hlist⟩ := moduleRun_cpu true
      ((Stdio.limitRun limit 0 es).map fun e => e .cpu)
    have hcpu := (toolRun_modules hs).1 .cpu
    obtain rfl := Option.some.inj (hmod.symm.trans hcpu)
    rw [hlist, List.map_map, ← foldl_collectSnapshot, ← h]
    rfl

theorem exists_toolRun_onlyCpu (h : OthersCollect limit es) :
    ∃ x, Stdio.toolRun limit onlyCpu es = some x := by
  have hall (m : ModName) : ∃ mod, moduleRun m (onlyCpu m)
      ((Stdio.limitRun limit 0 es).map fun e => e m) = some mod := by
    by_cases hm : m = .cpu
    · subst hm
      obtain ⟨mod, hmod, -⟩ := moduleRun_cpu true
        ((Stdio.limitRun limit 0 es).map fun e => e .cpu)
      exact ⟨mod, hmod⟩
    · rw [show onlyCpu m = false from beq_false_of_ne hm]
      exact Option.isSome_iff_exists.mp (h m hm)
  choose mods hmods using hall
  obtain ⟨s, hs⟩ := exists_toolRun hmods
  have hrel : Option.Rel _ (Stdio.toolRun limit onlyCpu es) _ := Stdio.toolRun_rel onlyCpu es
  rw [hs] at hrel
  generalize Stdio.toolRun limit onlyCpu es = y at hrel ⊢
  cases hrel with
  | some hx => exact ⟨_, rfl⟩

theorem othersCollect_of_toolRun {x : Tool × Heap Stdio.OpenFile}
    (hrun : Stdio.toolRun limit onlyCpu es = some x) : OthersCollect limit es := by
  intro m hm
  have hrel : Option.Rel _ (Stdio.toolRun limit onlyCpu es) _ := Stdio.toolRun_rel onlyCpu es
  rw [hrun] at hrel
  generalize hs : Zsr.toolRun onlyCpu (Stdio.limitRun limit 0 es) = y at hrel
  cases hrel with
  | some hx =>
    have hmod := (toolRun_modules hs).1 m
    rw [show onlyCpu m = false from beq_false_of_ne hm] at hmod
    exact Option.isSome_iff_exists.mpr ⟨_, hmod⟩

end Run

theorem toolMain_onlyCpu (limit n : ℕ) (es : List System) :
    Stdio.toolMain limit (countOpts n "--cpu".toList) es =
      .go (reportLoop (Stdio.cycleOn limit onlyCpu) (decide (atoi (dec n) ≤ 0)) (atoi (dec n)) es
        ({}, Heap.empty)) := by
  let opts := countOpts n "--cpu".toList
  have hall : ∀ opt ∈ opts, opt.goes = true := by
    intro opt hopt
    obtain rfl | rfl : opt = .count (dec n) ∨ opt = .unknown "--cpu".toList := by
      simpa [opts, countOpts] using hopt
    · rfl
    · decide
  have henable : (fun m : ModName => (asked opts).enable m.optLine) = onlyCpu := by
    funext m
    cases m <;> rfl
  have hacc : Accepted opts := ⟨hall, .cpu, rfl⟩
  have hparse : parseTurn opts {} = .go (asked opts) := parseTurn_go_iff.mpr ⟨hacc, rfl⟩
  have hcount : (asked opts).optCount = atoi (dec n) := rfl
  unfold Stdio.toolMain
  rw [hparse, Turn.map, henable, hcount]

/-- A machine on which only the processors do something. -/
def ticking (procStat : Text) : System := Function.update (loggedIn []) .cpu (some procStat)

/-- A machine with a process of a user who has no account. -/
def withStranger : System :=
  Function.update (ticking "cpu  1 0 0 0 0 0 0 0 0 0\n".toList) .proc
    ⟨some [{ procDir "41".toList none with status := some "Uid:\t1000\n".toList }], rootOnly,
      fun _ => none⟩

theorem toolMain_withStranger :
    Stdio.toolMain 8 (countOpts 1 "--cpu".toList) [withStranger] = .go .crashed := by
  have hnone : cycles (Stdio.cycleOn 8 onlyCpu) [withStranger] ({}, Heap.empty) = none := by
    rw [← Option.isNone_iff_eq_none]
    decide +kernel
  have hes : [withStranger] = [withStranger] ++ [] := rfl
  rw [toolMain_onlyCpu, hes, reportLoop_crashed (.inr (by decide)) hnone]

end Zsr
