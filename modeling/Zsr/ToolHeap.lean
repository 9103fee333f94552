import Zsr.ModuleHeap
import Zsr.Registry

namespace Zsr
open CLib

/-- The memory of the program, and what each cycle has printed. The head of a module's list is a
field of its `module_t`; it is block 0 of the list's own heap. -/
structure ToolOn where
  mods : Heap ModuleT
  lists : (m : ModName) → Heap m.Entry
  out : List Text

def collectModule (e : System) (s : ToolOn) (node : ℕ) : Option ToolOn := do
  let mod ← s.mods.val? node
  (mod.fns.collectOn (e mod.fns) (s.lists mod.fns)).map fun h =>
    { s with lists := Function.update s.lists mod.fns h }

def collectRecordOn (e : System) (s : ToolOn) : Option ToolOn := do
  (← listForEachEntry s.mods modListHead).foldlM (collectModule e) s

/-- What `f` does to the list of the module at `node`. -/
def freeModule (f : (m : ModName) → Heap m.Entry → Option (Heap m.Entry)) (s : ToolOn)
    (node : ℕ) : Option ToolOn := do
  let mod ← s.mods.val? node
  (f mod.fns (s.lists mod.fns)).map fun h =>
    { s with lists := Function.update s.lists mod.fns h }

def freeModules (f : (m : ModName) → Heap m.Entry → Option (Heap m.Entry)) (s : ToolOn) :
    Option ToolOn := do
  (← listForEachEntry s.mods modListHead).foldlM (freeModule f) s

def freeRecordListOn : ToolOn → Option ToolOn := freeModules ModName.freeOn

def printModule (s : ToolOn × Text) (node : ℕ) : Option (ToolOn × Text) := do
  let mod ← s.1.mods.val? node
  if mod.enable then
    let record ← mod.fns.toStrOn (s.1.lists mod.fns) mod.record
    (s.1.mods.update node fun _ => { mod with record := record }).map fun mods =>
      ({ s.1 with mods := mods }, s.2 ++ cstr record)
  else some s

def printModRecordOn (s : ToolOn) : Option (ToolOn × Text) := do
  (← listForEachEntry s.mods modListHead).foldlM printModule (s, [])

def toolCycleOn (e : System) (s : ToolOn) : Option ToolOn := do
  let s ← collectRecordOn e s
  let (s, text) ← printModRecordOn s
  some { s with out := s.out ++ [text] }

def freeTool (s : ToolOn) : Option ToolOn := do
  let s ← freeRecordListOn s
  -- `free(mod)` frees the head with the `module_t` that it is in
  let s ← freeModules (fun _ h => h.free 0) s
  let mods ← freeModListHead s.mods
  some { s with mods := mods }

def startTool (opts : List Opt) : Option (Turn SettingsOn) := do
  let h ← initListHead staticBlocks modListHead
  let h ← loadModulesOn h
  parseOptsOn opts { mods := h }

def loopTool (s : SettingsOn) (es : List System) : Outcome System ToolOn :=
  match reportLoop toolCycleOn (decide (s.optCount ≤ 0)) s.optCount es
      ⟨s.mods, ModName.emptyOn, []⟩ with
  | .finished s rest =>
    match freeTool s with
    | some s => .finished s rest
    | none => .crashed
  | outcome => outcome

def toolMainOn (opts : List Opt) (es : List System) : Turn (Outcome System ToolOn) :=
  match startTool opts with
  | some t => t.map fun s => loopTool s es
  | none => .go .crashed

def reportTool (set : Settings) (es : List System) : Outcome System Tool :=
  reportLoop (toolCycle fun m => set.enable m.optLine) (decide (set.optCount ≤ 0)) set.optCount es
    {}

def toolMain (opts : List Opt) (es : List System) : Turn (Outcome System Tool) :=
  (parseTurn opts {}).map fun set => reportTool set es

def LatestMod.lostBy (m : LatestMod) (envs : List m.Env) : ℕ :=
  (envs.dropLast.map fun env => ((m.entries env).getD []).length).sum

/-- The blocks of a module that no list leads to, after collections that met `envs`. -/
def ModName.lostBy : (m : ModName) → List m.Env → ℕ
  | cpu | gateway | loadAvg | mem | proc | swap | time | uptime => fun _ => 0
  | dns => LatestMod.dns.lostBy
  | fs => LatestMod.fs.lostBy
  | io => fun envs => (envs.map ListMod.io.loses).sum
  | ip => LatestMod.ip.lostBy
  | network => LatestMod.network.lostBy
  | who => LatestMod.who.lostBy

theorem ModName.lostBy_nil (m : ModName) : m.lostBy [] = 0 := by
  cases m <;> rfl

theorem LatestMod.lostBy_concat (m : LatestMod) {envs : List m.Env} {l : List m.Rec}
    (h : cycles (fun env => collectQuery (m.entries env)) envs [] = some l) (env : m.Env) :
    m.lostBy (envs ++ [env]) = m.lostBy envs + l.length := by
  rw [lostBy, lostBy, List.dropLast_concat]
  rcases List.eq_nil_or_concat envs with rfl | ⟨envs, last, rfl⟩
  · obtain rfl := Option.some.inj h
    rfl
  · rw [List.concat_eq_append] at h ⊢
    rw [cycles_concat] at h
    obtain ⟨l', -, hl⟩ := Option.bind_eq_some_iff.mp h
    rw [collectQuery_eq] at hl
    rw [List.map_append, List.sum_append, List.dropLast_concat, List.map_singleton,
      List.sum_singleton, hl]
    rfl

theorem ModName.lostBy_concat (m : ModName) {envs : List m.Env} {l : List m.Rec}
    (h : cycles m.collectRecord envs [] = some l) (env : m.Env) :
    m.lostBy (envs ++ [env]) = m.lostBy envs + m.loses env l := by
  cases m with
  | cpu | gateway | loadAvg | mem | proc | swap | time | uptime => rfl
  | dns => exact LatestMod.dns.lostBy_concat h env
  | fs => exact LatestMod.fs.lostBy_concat h env
  | ip => exact LatestMod.ip.lostBy_concat h env
  | network => exact LatestMod.network.lostBy_concat h env
  | who => exact LatestMod.who.lostBy_concat h env
  | io => simp [lostBy, loses]

/-- The memory holds the modules and their lists, and nothing else but what was lost. -/
structure Holding (node : ModName → ℕ) (enable : ModName → Bool) (lost : ModName → ℕ)
    (s : ToolOn) (mods : Modules) : Prop where
  registered : Registered s.mods loadModules node enable fun m => (mods m).record
  lists : ∀ m : ModName, m.Leaves (s.lists m) (mods m).recordList (lost m)

namespace Holding

variable {node : ModName → ℕ} {enable : ModName → Bool} {lost : ModName → ℕ} {s : ToolOn}
  {mods : Modules}

theorem walk {β : Type} (hs : Holding node enable lost s mods) (f : β → ℕ → Option β) (b : β) :
    ((listForEachEntry s.mods modListHead).bind fun nodes => nodes.foldlM f b) =
      loadModules.foldlM (fun b m => f b (node m)) b := by
  rw [hs.registered.walk, Option.bind_some, List.foldlM_map]

end Holding

/-- The modules in `rest` have still to collect. -/
structure CollectedBut (node : ModName → ℕ) (enable : ModName → Bool) (lost : ModName → ℕ)
    (e : System) (old : Modules) (out : List Text) (rest : List ModName) (s : ToolOn)
    (mods : Modules) : Prop where
  holding : Holding node enable
    (fun m => lost m + if m ∈ rest then 0 else m.loses (e m) (old m).recordList) s mods
  nodup : rest.Nodup
  same : ∀ m ∈ rest, mods m = old m
  out : s.out = out

theorem CollectedBut.step {node : ModName → ℕ} {enable : ModName → Bool} {lost : ModName → ℕ}
    {e : System} {old : Modules} {out : List Text} {m : ModName} {rest : List ModName} {s : ToolOn}
    {mods : Modules} (hc : CollectedBut node enable lost e old out (m :: rest) s mods) :
    Option.Rel (CollectedBut node enable lost e old out rest) (collectModule e s (node m))
      ((m.collectRecord (e m) (mods m).recordList).map fun l =>
        Function.update mods m { mods m with recordList := l }) := by
  have hnd := List.nodup_cons.mp hc.nodup
  have hrel := m.collectOn_rel (e m) (hc.holding.lists m)
  rw [if_pos List.mem_cons_self, Nat.add_zero] at hrel
  simp only [collectModule, hc.holding.registered.val m (mem_loadModules m), Option.bind_eq_bind,
    Option.bind_some, ModName.moduleT]
  apply rel_map hrel
  intro h l hl
  refine ⟨⟨?_, fun m' => ?_⟩, hnd.2, fun m' hm' => ?_, hc.out⟩
  · convert hc.holding.registered using 2 with m'
    by_cases hm' : m' = m
    · subst hm'
      rw [Function.update_self]
    · rw [Function.update_of_ne hm']
  · show m'.Leaves (Function.update s.lists m h m') (Function.update mods m _ m').recordList _
    by_cases hm' : m' = m
    · subst hm'
      rw [Function.update_self, Function.update_self, if_neg hnd.1, ← hc.same m' List.mem_cons_self]
      exact hl
    · have hold := hc.holding.lists m'
      simp only [List.mem_cons, hm', false_or] at hold
      rw [Function.update_of_ne hm', Function.update_of_ne hm']
      exact hold
  · have hne : m' ≠ m := fun h => hnd.1 (h ▸ hm')
    rw [Function.update_of_ne hne, hc.same m' (List.mem_cons_of_mem m hm')]

theorem collectRecordOn_rel {node : ModName → ℕ} {enable : ModName → Bool} {lost : ModName → ℕ}
    {s : ToolOn} {mods : Modules} (hs : Holding node enable lost s mods) (e : System) :
    Option.Rel (fun s' mods' => s'.out = s.out ∧ Holding node enable
      (fun m => lost m + m.loses (e m) (mods m).recordList) s' mods')
      (collectRecordOn e s) (collectRecord e mods) := by
  have hstart : CollectedBut node enable lost e mods s.out loadModules s mods := by
    refine ⟨⟨hs.registered, fun m => ?_⟩, loadModules_nodup, fun _ _ => rfl, rfl⟩
    rw [if_pos (mem_loadModules m)]
    exact hs.lists m
  have hloop := rel_foldlM (fun _ _ _ _ hc => CollectedBut.step hc) hstart
  rw [collectRecordOn, Option.bind_eq_bind, hs.walk]
  refine rel_mono hloop fun s' mods' hc => ⟨hc.out, ?_⟩
  simpa using hc.holding

theorem update_record (mods : Modules) (m : ModName) (record : Text) :
    (fun m' => (Function.update mods m { mods m with record := record } m').record) =
      Function.update (fun m' => (mods m').record) m record := by
  funext m'
  by_cases hm : m' = m
  · subst hm
    rw [Function.update_self, Function.update_self]
  · rw [Function.update_of_ne hm, Function.update_of_ne hm]

/-- Both have printed the same so far. -/
structure Printing (node : ModName → ℕ) (enable : ModName → Bool) (lost : ModName → ℕ)
    (out : List Text) (x : ToolOn × Text) (y : Modules × Text) : Prop where
  holding : Holding node enable lost x.1 y.1
  out : x.1.out = out
  text : x.2 = y.2

theorem Printing.step {node : ModName → ℕ} {enable : ModName → Bool} {lost : ModName → ℕ}
    {out : List Text} {x : ToolOn × Text} {y : Modules × Text}
    (hp : Printing node enable lost out x y) (m : ModName) :
    Option.Rel (Printing node enable lost out) (printModule x (node m))
      (if enable m then
        (m.recordToStr (y.1 m).recordList (y.1 m).record).map fun record =>
          (Function.update y.1 m { y.1 m with record := record }, y.2 ++ cstr record)
      else some y) := by
  have hstr := m.toStrOn_eq (hp.holding.lists m) (y.1 m).record
  simp only [printModule, hp.holding.registered.val m (mem_loadModules m), Option.bind_eq_bind,
    Option.bind_some, ModName.moduleT]
  split
  · rw [hstr]
    cases m.recordToStr (y.1 m).recordList (y.1 m).record with
    | none => exact .none
    | some record =>
      obtain ⟨h, he, hr⟩ := hp.holding.registered.update (mem_loadModules m) (enable m) record
      simp only [ModName.moduleT] at he
      rw [Option.bind_some, he, Option.map_some, Option.map_some]
      refine .some ⟨⟨?_, fun m' => ?_⟩, hp.out, congrArg (· ++ cstr record) hp.text⟩
      · rw [Function.update_eq_self] at hr
        show Registered h loadModules node enable fun m' => (Function.update y.1 m _ m').record
        rwa [update_record]
      · have hold := hp.holding.lists m'
        show m'.Leaves (x.1.lists m') (Function.update y.1 m _ m').recordList _
        by_cases hm : m' = m
        · subst hm
          rw [Function.update_self]
          exact hold
        · rw [Function.update_of_ne hm]
          exact hold
  · exact .some hp

theorem printModRecordOn_rel {node : ModName → ℕ} {enable : ModName → Bool} {lost : ModName → ℕ}
    {s : ToolOn} {mods : Modules} (hs : Holding node enable lost s mods) :
    Option.Rel (Printing node enable lost s.out) (printModRecordOn s)
      (printModRecord enable mods) := by
  rw [printModRecordOn, Option.bind_eq_bind, hs.walk]
  exact rel_foldlM (R := fun _ => Printing node enable lost s.out) (fun m _ _ _ hp => hp.step m)
    ⟨hs, rfl, rfl⟩

/-- After the cycles `es` the program has printed the same in both forms, and has lost what
these cycles lose. -/
structure SameTool (node : ModName → ℕ) (enable : ModName → Bool) (es : List System) (s : ToolOn)
    (t : Tool) : Prop where
  run : toolRun enable es = some t
  holding : Holding node enable (fun m => m.lostBy (es.map fun e => e m)) s t.mods
  out : s.out = t.out

theorem toolCycleOn_rel {node : ModName → ℕ} {enable : ModName → Bool} {es : List System}
    {s : ToolOn} {t : Tool} (hs : SameTool node enable es s t) (e : System) :
    Option.Rel (SameTool node enable (es ++ [e])) (toolCycleOn e s) (toolCycle enable e t) := by
  have hrun {t' : Tool} (ht : toolCycle enable e t = some t') :
      toolRun enable (es ++ [e]) = some t' := by
    rw [toolRun, cycles_concat]
    exact Option.bind_eq_some_iff.mpr ⟨t, hs.run, ht⟩
  have hlost (m : ModName) : m.lostBy ((es ++ [e]).map fun e => e m) =
      m.lostBy (es.map fun e => e m) + m.loses (e m) (t.mods m).recordList := by
    rw [List.map_append, List.map_singleton, m.lostBy_concat (toolRun_recordList hs.run m)]
  have hrel : Option.Rel (fun s' t' => Holding node enable
      (fun m => ModName.lostBy m ((es ++ [e]).map fun e => e m)) s' t'.mods ∧ s'.out = t'.out)
      (toolCycleOn e s) (toolCycle enable e t) := by
    apply rel_bind (collectRecordOn_rel hs.holding e)
    rintro s1 mods1 ⟨hout1, hs1⟩
    apply rel_bind (printModRecordOn_rel hs1)
    rintro ⟨s2, text⟩ ⟨mods2, text'⟩ hp
    obtain rfl : text = text' := hp.text
    refine .some ⟨⟨hp.holding.registered, fun m => ?_⟩, ?_⟩
    · rw [hlost]
      exact hp.holding.lists m
    · show s2.out ++ [text] = t.out ++ [text]
      rw [hp.out, hout1, hs.out]
  exact rel_mono (rel_result hrel) fun s' t' h => ⟨hrun h.2, h.1.1, h.1.2⟩

/-- What is still allocated when `main` returns: `MOD_LIST_HEAD`, and what the cycles `es` have
lost. -/
structure Freed (es : List System) (s : ToolOn) (t : Tool) : Prop where
  mods : s.mods.liveCount = 1
  lists : ∀ m : ModName, (s.lists m).liveCount = m.lostBy (es.map fun e => e m)
  out : s.out = t.out

theorem freeModules_spec {node : ModName → ℕ} {enable : ModName → Bool} {record : ModName → Text}
    {f : (m : ModName) → Heap m.Entry → Option (Heap m.Entry)} {s : ToolOn}
    {P : (m : ModName) → Heap m.Entry → Prop}
    (hs : Registered s.mods loadModules node enable record)
    (hfree : ∀ m, ∃ h, f m (s.lists m) = some h ∧ P m h) :
    ∃ s', freeModules f s = some s' ∧ s'.mods = s.mods ∧ s'.out = s.out ∧
      ∀ m, P m (s'.lists m) := by
  have hloop : ∀ (l : List ModName) (s1 : ToolOn), l.Nodup → s1.mods = s.mods →
      (∀ m ∈ l, s1.lists m = s.lists m) →
      ∃ s', l.foldlM (fun s m => freeModule f s (node m)) s1 = some s' ∧ s'.mods = s1.mods ∧
        s'.out = s1.out ∧ (∀ m ∈ l, P m (s'.lists m)) ∧
        ∀ m, m ∉ l → s'.lists m = s1.lists m := by
    intro l
    induction l with
    | nil =>
      exact fun s1 _ _ _ =>
        ⟨s1, rfl, rfl, rfl, fun m hm => (List.not_mem_nil hm).elim, fun _ _ => rfl⟩
    | cons m l ih =>
      intro s1 hnd hmods hlists
      have hnd := List.nodup_cons.mp hnd
      obtain ⟨h, he, hP⟩ := hfree m
      have hstep : freeModule f s1 (node m) =
          some { s1 with lists := Function.update s1.lists m h } := by
        simp only [freeModule, hmods, hs.val m (mem_loadModules m), Option.bind_eq_bind,
          Option.bind_some, ModName.moduleT, hlists m List.mem_cons_self, he, Option.map_some]
      have hrest : ∀ m' ∈ l, Function.update s1.lists m h m' = s.lists m' := by
        intro m' hm'
        have hne : m' ≠ m := fun e => hnd.1 (e ▸ hm')
        rw [Function.update_of_ne hne, hlists m' (List.mem_cons_of_mem m hm')]
      obtain ⟨s', he', hmods', hout', hin, hother⟩ :=
        ih { s1 with lists := Function.update s1.lists m h } hnd.2 hmods hrest
      refine ⟨s', ?_, hmods', hout', fun m' hm' => ?_, fun m' hm' => ?_⟩
      · rw [List.foldlM_cons, hstep]
        exact he'
      · rcases List.mem_cons.mp hm' with rfl | hm'
        · rw [hother m' hnd.1]
          show P m' (Function.update s1.lists m' h m')
          rwa [Function.update_self]
        · exact hin m' hm'
      · rw [List.mem_cons, not_or] at hm'
        exact (hother m' hm'.2).trans (Function.update_of_ne hm'.1 _ _)
  obtain ⟨s', he, hmods, hout, hin, -⟩ := hloop loadModules s loadModules_nodup rfl fun _ _ => rfl
  refine ⟨s', ?_, hmods, hout, fun m => hin m (mem_loadModules m)⟩
  rw [freeModules, Option.bind_eq_bind, hs.walk, Option.bind_some, List.foldlM_map]
  exact he

theorem freeTool_spec {node : ModName → ℕ} {enable : ModName → Bool} {es : List System}
    {s : ToolOn} {t : Tool} (hs : SameTool node enable es s t) :
    ∃ s', freeTool s = some s' ∧ Freed es s' t := by
  have hreg := hs.holding.registered
  obtain ⟨s1, e1, hmods1, hout1, hlists1⟩ :=
    freeModules_spec hreg fun m => m.freeOn_leaves (hs.holding.lists m)
  -- the heads are the only blocks left that are not lost
  have hheads (m : ModName) : ∃ h, (s1.lists m).free 0 = some h ∧
      h.liveCount = m.lostBy (es.map fun e => e m) := by
    obtain ⟨hlive, hcount⟩ := hlists1 m
    refine ⟨_, Heap.free_of_live hlive, ?_⟩
    rw [Heap.liveCount_release, hcount, Nat.add_sub_cancel_left]
  obtain ⟨s2, e2, hmods2, hout2, hlists2⟩ :=
    freeModules_spec (P := fun m h => h.liveCount = m.lostBy (es.map fun e => e m))
      (f := fun _ h => h.free 0) (hmods1.symm ▸ hreg) hheads
  obtain ⟨h, he, hcount⟩ := hreg.freeModListHead
  refine ⟨{ s2 with mods := h }, ?_, hcount, hlists2, hout2.trans (hout1.trans hs.out)⟩
  simp only [freeTool, freeRecordListOn, e1, e2, hmods2, hmods1, he, Option.bind_eq_bind,
    Option.bind_some]

namespace Outcome

variable {E σ τ : Type}

def map (f : σ → τ) : Outcome E σ → Outcome E τ
  | finished s rest => finished (f s) rest
  | running s => running (f s)
  | crashed => crashed

/-- Both loops have come to the same point: after the same cycles, of those in `es`. -/
inductive Rel (R F : List E → σ → τ → Prop) (es : List E) : Outcome E σ → Outcome E τ → Prop
  | finished {done rest : List E} {s : σ} {t : τ} (hes : done ++ rest = es) (h : F done s t) :
      Rel R F es (finished s rest) (finished t rest)
  | running {s : σ} {t : τ} (h : R es s t) : Rel R F es (running s) (running t)
  | crashed : Rel R F es crashed crashed

end Outcome

theorem reportLoop_rel {E σ τ : Type} {R : List E → σ → τ → Prop} {f : E → σ → Option σ}
    {g : E → τ → Option τ} {done es : List E} {isLoop : Bool} {n : ℤ}
    (hstep : ∀ pre e s t, pre ++ [e] <+: done ++ es → isLoop ∨ pre.length < done.length + n →
      R pre s t → Option.Rel (R (pre ++ [e])) (f e s) (g e t))
    {s : σ} {t : τ} (h : R done s t) :
    Outcome.Rel R R (done ++ es) (reportLoop f isLoop n es s) (reportLoop g isLoop n es t) := by
  induction es generalizing done n s t with
  | nil =>
    rw [reportLoop, reportLoop]
    split
    · exact .finished rfl h
    · rw [List.append_nil]
      exact .running h
  | cons e es ih =>
    rw [reportLoop, reportLoop]
    split
    · exact .finished rfl h
    · next hgo =>
      have hcons : done ++ e :: es = done ++ [e] ++ es := by simp
      have hdue : isLoop ∨ (done.length : ℤ) < done.length + n := by
        cases isLoop with
        | true => exact .inl rfl
        | false => exact .inr (by simp at hgo; omega)
      have hrel := hstep done e s t (hcons ▸ List.prefix_append _ es) hdue h
      generalize f e s = x at hrel
      generalize g e t = y at hrel
      cases hrel with
      | none => exact .crashed
      | some h' =>
        rw [hcons] at hstep ⊢
        refine ih (fun pre e s t hpre hlt => hstep pre e s t hpre ?_) h'
        cases isLoop with
        | true => exact .inl rfl
        | false =>
          simp only [List.length_append, List.length_singleton, Bool.false_eq_true, if_false,
            false_or] at hlt
          exact .inr (by omega)

theorem startTool_rel (opts : List Opt) :
    ∃ node r, startTool opts = some r ∧ Turn.Rel (SameSettings node) r (parseTurn opts {}) := by
  obtain ⟨h, node, he, hr⟩ := exists_registered
  have hs : SameSettings node { mods := h } {} := ⟨hr, rfl, rfl⟩
  obtain ⟨r, hparse, hrel⟩ := hs.parseOptsOn opts
  refine ⟨node, r, ?_, hrel⟩
  obtain ⟨h0, e0, e1⟩ := Option.bind_eq_some_iff.mp he
  simp only [startTool, e0, e1, Option.bind_eq_bind, Option.bind_some, hparse]

theorem loopTool_rel {node : ModName → ℕ} {s : SettingsOn} {set : Settings}
    (hs : SameSettings node s set) (es : List System) :
    Outcome.Rel (fun _ s t => s.out = t.out) Freed es (loopTool s es) (reportTool set es) := by
  have hstart : SameTool node (fun m => set.enable m.optLine) []
      ⟨s.mods, ModName.emptyOn, []⟩ {} := by
    refine ⟨rfl, ⟨hs.mods, fun m => ?_⟩, rfl⟩
    rw [List.map_nil, m.lostBy_nil]
    exact m.leaves_empty
  let R := SameTool node fun m => set.enable m.optLine
  have hloop : Outcome.Rel R R es
      (reportLoop toolCycleOn (decide (set.optCount ≤ 0)) set.optCount es
        ⟨s.mods, ModName.emptyOn, []⟩)
      (reportLoop (toolCycle fun m => set.enable m.optLine) (decide (set.optCount ≤ 0))
        set.optCount es {}) :=
    reportLoop_rel (R := R) (fun done e s t _ _ h => toolCycleOn_rel h e) hstart
  rw [loopTool, reportTool, hs.optCount]
  generalize reportLoop toolCycleOn _ _ _ _ = x at hloop
  generalize reportLoop (toolCycle _) _ _ _ _ = y at hloop
  cases hloop with
  | finished hes h =>
    obtain ⟨s', he, hfreed⟩ := freeTool_spec h
    simp only [he]
    exact .finished hes hfreed
  | running h => exact .running h.out
  | crashed => exact .crashed

/-- The program on the heap goes as over the contents of the lists: it ends with the same
message, or prints the same in the same cycles; and when `main` returns, it has freed all but
what was lost. -/
theorem toolMainOn_rel (opts : List Opt) (es : List System) :
    Turn.Rel (Outcome.Rel (fun _ s t => s.out = t.out) Freed es) (toolMainOn opts es)
      (toolMain opts es) := by
  obtain ⟨node, r, he, hrel⟩ := startTool_rel opts
  rw [toolMainOn, he]
  exact hrel.map fun s set hs => loopTool_rel hs es

/-- What the program prints, and how it ends, does not depend on how the lists are kept: it does
not end by any access to memory that the program over their contents does not end by. -/
theorem toolMainOn_prints (opts : List Opt) (es : List System) :
    (toolMainOn opts es).map (Outcome.map ToolOn.out) =
      (toolMain opts es).map (Outcome.map Tool.out) := by
  have hrel := toolMainOn_rel opts es
  generalize toolMainOn opts es = x at hrel
  generalize toolMain opts es = y at hrel
  cases hrel with
  | exit out err => rfl
  | go hrel =>
    cases hrel with
    | finished hes h => simp only [Turn.map, Outcome.map, h.out]
    | running h => simp only [Turn.map, Outcome.map, h]
    | crashed => rfl

theorem exists_finished {opts : List Opt} {es rest : List System} {t : Tool}
    (h : toolMain opts es = .go (.finished t rest)) :
    ∃ s, toolMainOn opts es = .go (.finished s rest) := by
  have hrel := toolMainOn_rel opts es
  rw [h] at hrel
  generalize toolMainOn opts es = x at hrel
  cases hrel with
  | go hrel =>
    cases hrel with
    | finished hes hfreed => exact ⟨_, rfl⟩

def twoReports : List Opt := [.count "2".toList, .unknown "--who".toList]

end Zsr
