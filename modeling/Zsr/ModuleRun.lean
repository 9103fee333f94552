import Zsr.PrintRun

namespace Zsr
open CLib

def moduleCycle (m : ModName) (enable : Bool) (env : m.Env) (mod : Module m) :
    Option (Module m) := do
  let recordList ← m.collectRecord env mod.recordList
  if enable then
    (m.recordToStr recordList mod.record).map fun record => ⟨record, recordList⟩
  else some { mod with recordList := recordList }

def moduleRun (m : ModName) (enable : Bool) (envs : List m.Env) : Option (Module m) :=
  cycles (moduleCycle m enable) envs {}

/-- What an enabled module prints in the last of the cycles. -/
def moduleText (m : ModName) (envs : List m.Env) : Text :=
  ((moduleRun m true envs).map fun mod => cstr mod.record).getD []

def cycleText (enable : ModName → Bool) (es : List System) : Text :=
  ((loadModules.filter enable).map fun m => moduleText m (es.map fun e => e m)).flatten

theorem moduleCycle_eq_some_iff {m : ModName} {enable : Bool} {env : m.Env} {mod mod' : Module m} :
    moduleCycle m enable env mod = some mod' ↔
      m.collectRecord env mod.recordList = some mod'.recordList ∧
        (if enable then m.recordToStr mod'.recordList mod.record else some mod.record) =
          some mod'.record := by
  obtain ⟨record', recordList'⟩ := mod'
  unfold moduleCycle
  cases m.collectRecord env mod.recordList with
  | none => simp
  | some l =>
    simp only [Option.bind_eq_bind, Option.bind_some, Option.some.injEq]
    cases enable with
    | true =>
      simp only [if_true, Option.map_eq_some_iff, Module.mk.injEq]
      constructor
      · rintro ⟨r, hr, rfl, rfl⟩
        exact ⟨rfl, hr⟩
      · rintro ⟨rfl, hr⟩
        exact ⟨_, hr, rfl, rfl⟩
    | false =>
      simp only [Bool.false_eq_true, if_false, Option.some.injEq, Module.mk.injEq]
      exact and_comm

section Cycle

variable {enable : ModName → Bool} {e : System}

theorem collectRecord_of {mods mods' : Modules}
    (h : ∀ m, (m.collectRecord (e m) (mods m).recordList).map
      (fun l => { mods m with recordList := l }) = some (mods' m)) :
    collectRecord e mods = some mods' := by
  have hloop := foldlM_update_of (f := fun m (mod : Module m) =>
    (m.collectRecord (e m) mod.recordList).map fun l => { mod with recordList := l })
    loadModules_nodup (fun m _ => h m) fun m hm => absurd (mem_loadModules m) hm
  simp only [Option.map_map] at hloop
  exact hloop

theorem printModRecord_of {mods mods' : Modules}
    (h : ∀ m, (if enable m then
      (m.recordToStr (mods m).recordList (mods m).record).map fun r => { mods m with record := r }
      else some (mods m)) = some (mods' m)) :
    printModRecord enable mods = some (mods',
      ((loadModules.filter enable).map fun m => cstr (mods' m).record).flatten) := by
  have hloop : printModRecord enable mods = some (mods', [] ++
      (loadModules.map fun m => if enable m then cstr (mods' m).record else []).flatten) := by
    apply foldlM_update_emit_of (f := fun m (mod : Module m) =>
      if enable m then (m.recordToStr mod.recordList mod.record).map fun r =>
        ({ mod with record := r }, cstr r)
      else some (mod, [])) _ loadModules_nodup
    · intro m _
      have hm := h m
      dsimp only at hm ⊢
      split at hm
      · next hen =>
        obtain ⟨r, hr, hm⟩ := Option.map_eq_some_iff.mp hm
        rw [if_pos hen, if_pos hen, hr, ← hm]
        rfl
      · next hen =>
        rw [if_neg hen, if_neg hen, Option.some.inj hm]
    · exact fun m hm => absurd (mem_loadModules m) hm
    · intro s out m
      dsimp only
      split
      · rw [Option.map_map]
        rfl
      · simp
  rw [hloop, List.nil_append, flatten_map_filter]

theorem toolCycle_eq_some_iff {s s' : Tool} : toolCycle enable e s = some s' ↔
    (∀ m, moduleCycle m (enable m) (e m) (s.mods m) = some (s'.mods m)) ∧
      s'.out = s.out ++
        [((loadModules.filter enable).map fun m => cstr (s'.mods m).record).flatten] := by
  have hof {s s' : Tool}
      (hmods : ∀ m, moduleCycle m (enable m) (e m) (s.mods m) = some (s'.mods m))
      (hout : s'.out = s.out ++
        [((loadModules.filter enable).map fun m => cstr (s'.mods m).record).flatten]) :
      toolCycle enable e s = some s' := by
    simp only [moduleCycle_eq_some_iff] at hmods
    let mods : Modules := fun m => { s.mods m with recordList := (s'.mods m).recordList }
    have hcollect : collectRecord e s.mods = some mods :=
      collectRecord_of fun m => by rw [(hmods m).1]; rfl
    have hprint : printModRecord enable mods = some (s'.mods,
        ((loadModules.filter enable).map fun m => cstr (s'.mods m).record).flatten) := by
      refine printModRecord_of fun m => ?_
      have hm := (hmods m).2
      split at hm
      · next hen => rw [if_pos hen, hm]; rfl
      · next hen =>
        rw [if_neg hen]
        exact congrArg (fun r => some (Module.mk r (s'.mods m).recordList)) (Option.some.inj hm)
    simp only [toolCycle, hcollect, hprint, Option.bind_eq_bind, Option.bind_some, ← hout]
  refine ⟨fun h => ?_, fun h => hof h.1 h.2⟩
  -- each module takes its step, and then there is only one result
  have hspec := toolCycle_spec h
  let t : Tool :=
    { mods m := if enable m then s'.mods m
        else { s.mods m with recordList := (s'.mods m).recordList }
      out := s'.out }
  have hmods (m : ModName) : moduleCycle m (enable m) (e m) (s.mods m) = some (t.mods m) := by
    rw [moduleCycle_eq_some_iff]
    cases hen : enable m with
    | true =>
      simp only [t, hen, if_true]
      exact ⟨(hspec.1 m).collect, (hspec.1 m).toStr hen⟩
    | false =>
      simp only [t, hen, Bool.false_eq_true, if_false, and_true]
      exact (hspec.1 m).collect
  have htext : (loadModules.filter enable).map (fun m => cstr (t.mods m).record) =
      (loadModules.filter enable).map fun m => cstr (s'.mods m).record := by
    apply List.map_congr_left
    intro m hm
    simp only [t, (List.mem_filter.mp hm).2, if_true]
  have ht : toolCycle enable e s = some t := hof hmods (by rw [htext]; exact hspec.2)
  have hst : t = s' := Option.some.inj (ht.symm.trans h)
  exact ⟨fun m => hst ▸ hmods m, hspec.2⟩

end Cycle

theorem moduleRun_concat (m : ModName) (enable : Bool) (envs : List m.Env) (env : m.Env) :
    moduleRun m enable (envs ++ [env]) =
      (moduleRun m enable envs).bind (moduleCycle m enable env) := cycles_concat _ _ _ _

theorem cycleText_eq {enable : ModName → Bool} {es : List System} {mods : Modules}
    (h : ∀ m, moduleRun m (enable m) (es.map fun e => e m) = some (mods m)) :
    cycleText enable es =
      ((loadModules.filter enable).map fun m => cstr (mods m).record).flatten := by
  rw [cycleText]
  congr 1
  apply List.map_congr_left
  intro m hm
  have hm' := h m
  rw [(List.mem_filter.mp hm).2] at hm'
  rw [moduleText, hm']
  rfl

theorem tail_inits_concat {α : Type} (l : List α) (a : α) :
    (l ++ [a]).inits.tail = l.inits.tail ++ [l ++ [a]] := by
  cases l <;> simp

section Run

variable {enable : ModName → Bool} {es : List System} {s : Tool}

theorem toolRun_modules (h : toolRun enable es = some s) :
    (∀ m, moduleRun m (enable m) (es.map fun e => e m) = some (s.mods m)) ∧
      s.out = es.inits.tail.map (cycleText enable) := by
  induction es using List.reverseRecOn generalizing s with
  | nil =>
    obtain rfl := Option.some.inj h
    exact ⟨fun m => rfl, rfl⟩
  | append_singleton es e ih =>
    obtain ⟨s1, h1, h2⟩ := toolRun_concat h
    obtain ⟨hmods1, hout1⟩ := ih h1
    obtain ⟨hmods, hout⟩ := toolCycle_eq_some_iff.mp h2
    have hall (m : ModName) : moduleRun m (enable m) ((es ++ [e]).map fun e => e m) =
        some (s.mods m) := by
      rw [List.map_append, List.map_singleton, moduleRun_concat, hmods1 m]
      exact hmods m
    refine ⟨hall, ?_⟩
    rw [tail_inits_concat, List.map_append, List.map_singleton, cycleText_eq hall, hout, hout1]

theorem exists_toolRun {mods : Modules}
    (h : ∀ m, moduleRun m (enable m) (es.map fun e => e m) = some (mods m)) :
    ∃ s, toolRun enable es = some s := by
  induction es using List.reverseRecOn generalizing mods with
  | nil => exact ⟨_, rfl⟩
  | append_singleton es e ih =>
    simp only [List.map_append, List.map_singleton, moduleRun_concat] at h
    choose mods1 h1 h2 using fun m => Option.bind_eq_some_iff.mp (h m)
    obtain ⟨s, hs⟩ := ih h1
    obtain rfl : mods1 = s.mods :=
      funext fun m => Option.some.inj ((h1 m).symm.trans ((toolRun_modules hs).1 m))
    let text := ((loadModules.filter enable).map fun m => cstr (mods m).record).flatten
    refine ⟨⟨mods, s.out ++ [text]⟩, ?_⟩
    rw [toolRun, cycles_concat]
    exact Option.bind_eq_some_iff.mpr ⟨s, hs, toolCycle_eq_some_iff.mpr ⟨h2, rfl⟩⟩

end Run

/-- A run of the program is one run of each module, and what it prints is put together from what
the enabled ones print. -/
theorem toolRun_eq_some_iff (enable : ModName → Bool) (es : List System) (s : Tool) :
    toolRun enable es = some s ↔
      (∀ m, moduleRun m (enable m) (es.map fun e => e m) = some (s.mods m)) ∧
        s.out = es.inits.tail.map (cycleText enable) := by
  refine ⟨toolRun_modules, ?_⟩
  rintro ⟨hmods, hout⟩
  obtain ⟨t, ht⟩ := exists_toolRun hmods
  obtain ⟨hmods', hout'⟩ := toolRun_modules ht
  have hst : t = s := by
    obtain ⟨mods, out⟩ := t
    obtain ⟨mods', out'⟩ := s
    obtain rfl : mods = mods' :=
      funext fun m => Option.some.inj ((hmods' m).symm.trans (hmods m))
    obtain rfl : out = out' := hout'.trans hout.symm
    rfl
  exact hst ▸ ht

end Zsr
