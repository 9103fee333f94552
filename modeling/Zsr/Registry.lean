import Zsr.CLib.Simulate
import Zsr.Framework
import Zsr.ListList
import Zsr.ListRun

namespace Zsr
open CLib

namespace ModName

def name : ModName → Text
  | cpu => "cpu".toList
  | dns => "dns".toList
  | fs => "fs".toList
  | gateway => "gateway".toList
  | io => "io".toList
  | ip => "ip".toList
  | loadAvg => "load_avg".toList
  | mem => "mem".toList
  | network => "network".toList
  | proc => "proc".toList
  | swap => "swap".toList
  | time => "time".toList
  | uptime => "uptime".toList
  | who => "who".toList

def usage : ModName → Text
  | cpu => "    --cpu        CPU share\n".toList ++ "                 (idle, util, wa)\n".toList
  | dns => "    --dns        Domain Name System\n".toList ++ "                 (dns)\n".toList
  | fs =>
    "    --fs         Report file system disk space usage\n".toList ++
      "                 (mnt_fsname, mnt_dir, mnt_type, total, used, \n".toList ++
      "                 available, util, inodes, iused, ifree, iutil)\n".toList
  | gateway => "    --gateway    Gateway\n".toList ++ "                 (gateway)\n".toList
  | io =>
    "    --io         Report input/output statistics for devices and partitions\n".toList ++
      "                 (dev, tps, util, rrqm/s, wrqm/s, r/s, w/s, rMB/s, wMB/s,\n".toList ++
      "                 avgrq-sz, avgqu-sz, await, r_await, w_await)\n".toList
  | ip =>
    "    --ip         IP address\n".toList ++
      "                 (dev, ip, netmask, ip_version)\n".toList
  | loadAvg =>
    "    --load_avg   Load average\n".toList ++
      "                 (one_min, five_min, fifteen_min)\n".toList
  | mem =>
    "    --mem        Display amount of free and used memory\n".toList ++
      "                 (total, used, free)\n".toList
  | network =>
    "    --network    Display bandwidth usage\n".toList ++
      "                 (dev, tx_packet, rx_packet, tx_byte, rx_byte)\n".toList
  | proc =>
    "    --proc       Display processes\n".toList ++
      "                 (pid, state, ppid, user, virt_mem_kb, res_mem_kb,\n".toList ++
      "                 mem_util, start_time, cpu_util, cmd, cmd_path)\n".toList
  | swap =>
    "    --swap       Display amount of free and used swap\n".toList ++
      "                 (total, used, free)\n".toList
  | time =>
    "    --time       System time(seconds since 1970-01-01 00:00:00 UTC)\n".toList ++
      "                 (time)\n".toList
  | uptime =>
    "    --uptime     Tell how long the system has been running\n".toList ++
      "                 (total_sec, year, month, day, hour, minute)\n".toList
  | who =>
    "    --who        Show who is logged in\n".toList ++
      "                 (username, tty, from, login_time)\n".toList

end ModName

/-- `module_t`. The function pointers are those of the module `fns`, and `record_list` is the
head in its heap. -/
structure ModuleT where
  name : Text
  optLine : Text
  usage : Text
  enable : Bool := false
  record : Text := []
  fns : ModName

def modListHead : ℕ := 1

/-- The blocks before `main`: nothing is at `NULL`. -/
@[irreducible]
def staticBlocks : Heap ModuleT :=
  ((Heap.empty.malloc none).release NULL rfl).malloc none

theorem staticBlocks_live : staticBlocks.Live modListHead := by
  unfold staticBlocks
  rfl

theorem staticBlocks_fresh : staticBlocks.fresh = 2 := by
  unfold staticBlocks
  rfl

theorem staticBlocks_freed : staticBlocks.freed = [NULL] := by
  unfold staticBlocks
  rfl

def registerModFileds (name opt usage : Text) (fns : ModName) (h : Heap ModuleT) :
    Option (Heap ModuleT) := do
  let name ← sprintfAt LEN_32 [] 0 name
  let optLine ← sprintfAt LEN_32 [] 0 opt
  let usage ← sprintfAt LEN_256 [] 0 usage
  listAddTail (h.malloc (some { name, optLine, usage, fns })) h.fresh modListHead

/-- The function `mod_.._register` of each module. -/
def ModName.register (m : ModName) : Heap ModuleT → Option (Heap ModuleT) :=
  registerModFileds m.name m.optLine m.usage m

def loadModulesOn (h : Heap ModuleT) : Option (Heap ModuleT) :=
  loadModules.foldlM (fun h m => m.register h) h

def modulesOn (h : Heap ModuleT) : Option (List ModuleT) := do
  (← listForEachEntry h modListHead).mapM h.val?

def setEnable (h : Heap ModuleT) (node : ℕ) : Option (Heap ModuleT) := do
  let mod ← h.val? node
  h.update node fun _ => { mod with enable := true }

def findOptOn (h : Heap ModuleT) (modOpt : Text) : List ℕ → Option (Option ℕ)
  | [] => some none
  | node :: nodes => do
    let mod ← h.val? node
    if cstr mod.optLine = modOpt then some (some node) else findOptOn h modOpt nodes

def enableAllModule (h : Heap ModuleT) : Option (Heap ModuleT) := do
  (← listForEachEntry h modListHead).foldlM setEnable h

def listEnableModule (h : Heap ModuleT) : Option Text := do
  let mods ← modulesOn h
  some ("\nModules Enabled:\n".toList ++
    ((mods.filter ModuleT.enable).map fun mod =>
      "    ".toList ++ cstr mod.optLine ++ "\n".toList).flatten ++ "\n".toList)

def listLoadModule (h : Heap ModuleT) : Option Text := do
  let mods ← modulesOn h
  some ("\nModules Loaded:\n".toList ++
    (mods.map fun mod => cstr mod.usage ++ "\n".toList).flatten ++ "\n".toList)

def usageOptions : Text :=
  "\nUsage: zsr [options]\n\nOptions:\n".toList ++
    "    -a, --all       enabled all modules\n".toList ++
    "    -c, --count     the value of count determines the number of reports generated\n".toList ++
    "    -d, --delay     delay-time interval\n".toList ++
    "    -l, --list      list enabled modules\n".toList ++
    "    -h, --help      help\n".toList

def usageOn (h : Heap ModuleT) : Option Text := do
  some (usageOptions ++ (← listLoadModule h) ++ (← listEnableModule h))

/-- Where a part of the program has come to. -/
inductive Turn (σ : Type)
  | go (s : σ)
  /-- `exit`, with what was written on the two streams. -/
  | exit (stdout stderr : Text)

structure SettingsOn where
  mods : Heap ModuleT
  optCount : ℤ := -1
  optInterval : ℤ := 2

def noSuchOption (modOpt : Text) : Text :=
  "Invalid module option: ".toList ++ modOpt ++ "\n".toList

def enableModuleOn (modOpt : Text) (h : Heap ModuleT) : Option (Turn (Heap ModuleT)) := do
  match ← findOptOn h modOpt (← listForEachEntry h modListHead) with
  | some node => (setEnable h node).map .go
  | none => some (.exit [] (noSuchOption modOpt))

def mustHaveParameter : Text := "must have parameter\n".toList

def handleOptOn (s : SettingsOn) : Opt → Option (Turn SettingsOn)
  | .all => (enableAllModule s.mods).map fun h => .go { s with mods := h }
  | .count optarg => some (.go { s with optCount := atoi optarg })
  | .delay optarg =>
    some (.go { s with optInterval := if 0 < atoi optarg then atoi optarg else 2 })
  | .list => (listEnableModule s.mods).map fun err => .exit [] err
  | .load => (listLoadModule s.mods).map fun err => .exit [] err
  | .help => (usageOn s.mods).map fun err => .exit [] err
  | .missing => (usageOn s.mods).map fun err => .exit mustHaveParameter err
  | .unknown arg =>
    if "--".toList <:+: arg then do
      match ← enableModuleOn arg s.mods with
      | .go h => some (.go { s with mods := h })
      | .exit out err => some (.exit out err)
    else (usageOn s.mods).map fun err => .exit [] err

def noModuleEnabled : Text := "No module is enabled.\n".toList

def checkEnableModule (s : SettingsOn) : Option (Turn SettingsOn) := do
  if (← modulesOn s.mods).any ModuleT.enable then some (.go s)
  else some (.exit [] noModuleEnabled)

def parseOptsOn : List Opt → SettingsOn → Option (Turn SettingsOn)
  | [], s => checkEnableModule s
  | opt :: opts, s => do
    match ← handleOptOn s opt with
    | .go s => parseOptsOn opts s
    | .exit out err => some (.exit out err)

def freeModListHead (h : Heap ModuleT) : Option (Heap ModuleT) := do
  let pos ← h.next? modListHead
  forEachEntrySafe (fun entry h => do (← listDel h entry).free entry) modListHead (h.fresh + 1) pos
    (← h.next? pos) h

def ModName.moduleT (m : ModName) (enable : Bool) (record : Text) : ModuleT where
  name := m.name ++ ['\x00']
  optLine := m.optLine ++ ['\x00']
  usage := m.usage ++ ['\x00']
  enable := enable
  record := record
  fns := m

theorem cstr_optLine (m : ModName) : cstr (m.optLine ++ ['\x00']) = m.optLine :=
  cstr_append_nul (by cases m <;> decide) []

theorem toList_lit {s : String} {l : Text} (h : s = String.ofList l) : s.toList = l := by
  rw [h, String.toList_ofList]

theorem usage_fits (m : ModName) : '\x00' ∉ m.usage ∧ m.usage.length < LEN_256 := by
  -- the literals are opened first: what they decode to is dear to compute
  cases m <;> dsimp only [ModName.usage] <;> (repeat rw [toList_lit rfl]) <;> decide +kernel

theorem cstr_usage (m : ModName) : cstr (m.usage ++ ['\x00']) = m.usage :=
  cstr_append_nul (usage_fits m).1 []

theorem sprintfAt_nil {cap : ℕ} {t : Text} (ht : t.length < cap) :
    sprintfAt cap [] 0 t = some (t ++ ['\x00']) := by
  rw [sprintfAt, if_pos (by rwa [Nat.zero_add])]
  rfl

theorem ModName.register_eq (m : ModName) (h : Heap ModuleT) :
    m.register h = listAddTail (h.malloc (some (m.moduleT false []))) h.fresh modListHead := by
  have hname : m.name.length < LEN_32 := by cases m <;> decide
  have hopt : m.optLine.length < LEN_32 := by cases m <;> decide
  have husage := (usage_fits m).2
  rw [register, registerModFileds, sprintfAt_nil hname, sprintfAt_nil hopt, sprintfAt_nil husage]
  rfl

/-- The modules `ms` are on the list, in this order, and nothing else is allocated. -/
structure Registered (h : Heap ModuleT) (ms : List ModName) (node : ModName → ℕ)
    (enable : ModName → Bool) (record : ModName → Text) : Prop where
  ring : IsRing h modListHead (ms.map node)
  val : ∀ m ∈ ms, h.val? (node m) = some (m.moduleT (enable m) (record m))
  fresh : h.fresh = ms.length + 2
  freed : h.freed = [NULL]

namespace Registered

variable {h : Heap ModuleT} {ms : List ModName} {node : ModName → ℕ} {enable : ModName → Bool}
  {record : ModName → Text}

theorem register (hr : Registered h ms node enable record) {m : ModName} (hm : m ∉ ms) :
    ∃ h', m.register h = some h' ∧ Registered h' (ms ++ [m])
      (Function.update node m h.fresh) (Function.update enable m false)
      (Function.update record m []) := by
  have hlive : (h.malloc (some (m.moduleT false []))).Live h.fresh :=
    (h.malloc_live _ _).mpr (.inl rfl)
  obtain ⟨h', he, hring, hrelink⟩ :=
    listAddTail_ring (hr.ring.malloc (some (m.moduleT false []))) hlive hr.ring.fresh_not_mem
  have hnode : ms.map (Function.update node m h.fresh) = ms.map node := by
    apply List.map_congr_left
    intro x hx
    exact Function.update_of_ne (fun e : x = m => hm (e ▸ hx)) _ _
  refine ⟨h', (m.register_eq h).trans he, ?_, fun x hx => ?_, ?_, hrelink.freed.trans hr.freed⟩
  · rwa [List.map_append, hnode, List.map_singleton, Function.update_self]
  · rw [hrelink.val, Heap.val?_malloc]
    rcases List.mem_append.mp hx with hx | hx
    · have hne : x ≠ m := fun e => hm (e ▸ hx)
      have hout : node x ≠ h.fresh := fun e =>
        hr.ring.fresh_not_mem (e ▸ List.mem_cons_of_mem _ (List.mem_map_of_mem hx))
      rw [Function.update_of_ne hne, Function.update_of_ne hne, Function.update_of_ne hne,
        if_neg hout, hr.val x hx]
    · obtain rfl := List.mem_singleton.mp hx
      rw [Function.update_self, Function.update_self, Function.update_self, if_pos rfl]
  · rw [hrelink.fresh, List.length_append, List.length_singleton, Nat.add_right_comm, ← hr.fresh]
    rfl

theorem update (hr : Registered h ms node enable record) {m : ModName} (hm : m ∈ ms) (b : Bool)
    (r : Text) : ∃ h', h.update (node m) (fun _ => m.moduleT b r) = some h' ∧
      Registered h' ms node (Function.update enable m b) (Function.update record m r) := by
  obtain ⟨h', he, hs, hv⟩ := update_spec (hr.val m hm) (m.moduleT b r)
  refine ⟨h', he, hs.ring hr.ring, fun x hx => ?_, hs.fresh.trans hr.fresh,
    hs.freed.trans hr.freed⟩
  by_cases hxm : x = m
  · subst hxm
    rw [hv, Function.update_self, Function.update_self]
  · -- the nodes of two modules differ
    have hne : node x ≠ node m := fun e =>
      hxm (List.inj_on_of_nodup_map (List.nodup_cons.mp hr.ring.nodup).2 hx hm e)
    rw [hs.val _ (by simpa using hne), hr.val x hx, Function.update_of_ne hxm,
      Function.update_of_ne hxm]

theorem walk (hr : Registered h ms node enable record) :
    listForEachEntry h modListHead = some (ms.map node) := listForEachEntry_ring hr.ring

theorem modulesOn (hr : Registered h ms node enable record) :
    modulesOn h = some (ms.map fun m => m.moduleT (enable m) (record m)) := by
  rw [Zsr.modulesOn, hr.walk]
  apply mapM_of_map_eq
  rw [List.map_map, List.map_map]
  exact List.map_congr_left hr.val

theorem setEnable (hr : Registered h ms node enable record) {m : ModName} (hm : m ∈ ms) :
    ∃ h', setEnable h (node m) = some h' ∧
      Registered h' ms node (Function.update enable m true) record := by
  obtain ⟨h', he, hr'⟩ := hr.update hm true (record m)
  refine ⟨h', ?_, by rwa [Function.update_eq_self] at hr'⟩
  rw [Zsr.setEnable, hr.val m hm]
  exact he

theorem setEnable_all (hr : Registered h ms node enable record) {l : List ModName} (hl : l ⊆ ms) :
    ∃ h', (l.map node).foldlM Zsr.setEnable h = some h' ∧
      Registered h' ms node (fun m => decide (m ∈ l) || enable m) record := by
  induction l generalizing h enable with
  | nil => exact ⟨h, rfl, by simpa using hr⟩
  | cons m l ih =>
    obtain ⟨h1, e1, hr1⟩ := hr.setEnable (hl List.mem_cons_self)
    obtain ⟨h', he, hr'⟩ := ih hr1 fun x hx => hl (List.mem_cons_of_mem m hx)
    refine ⟨h', ?_, ?_⟩
    · rw [List.map_cons, List.foldlM_cons, e1]
      exact he
    · convert hr' using 2 with x
      rw [Function.update_apply]
      by_cases hx : x = m <;> simp [hx]

theorem findOptOn (hr : Registered h ms node enable record) (modOpt : Text) {l : List ModName}
    (hl : l ⊆ ms) : findOptOn h modOpt (l.map node) =
      some ((l.find? fun m => m.optLine == modOpt).map node) := by
  induction l with
  | nil => rfl
  | cons m l ih =>
    have ih := ih fun x hx => hl (List.mem_cons_of_mem m hx)
    simp only [List.map_cons, Zsr.findOptOn, hr.val m (hl List.mem_cons_self),
      Option.bind_eq_bind, Option.bind_some, ModName.moduleT, cstr_optLine, ih, List.find?_cons]
    by_cases hm : m.optLine = modOpt
    · simp [hm]
    · rw [if_neg hm, beq_eq_false_iff_ne.mpr hm]

end Registered

theorem exists_registered : ∃ h node, (initListHead staticBlocks modListHead).bind loadModulesOn =
    some h ∧ Registered h loadModules node (fun _ => false) fun _ => [] := by
  have hload : ∀ (l ms : List ModName) (h : Heap ModuleT) (node : ModName → ℕ),
      (ms ++ l).Nodup → Registered h ms node (fun _ => false) (fun _ => []) →
      ∃ h' node', l.foldlM (fun h m => m.register h) h = some h' ∧
        Registered h' (ms ++ l) node' (fun _ => false) fun _ => [] := by
    intro l
    induction l with
    | nil => exact fun ms h node _ hr => ⟨h, node, rfl, by rwa [List.append_nil]⟩
    | cons m l ih =>
      intro ms h node hnd hr
      have hm : m ∉ ms := fun hm =>
        (List.nodup_append.mp hnd).2.2 m hm m List.mem_cons_self rfl
      obtain ⟨h1, e1, hr1⟩ := hr.register hm
      have hsame : Function.update (fun _ : ModName => false) m false = fun _ => false :=
        Function.update_eq_self m _
      have hsame' : Function.update (fun _ : ModName => ([] : Text)) m [] = fun _ => [] :=
        Function.update_eq_self m _
      rw [hsame, hsame'] at hr1
      obtain ⟨h', node', he, hr'⟩ := ih (ms ++ [m]) h1 _ (by rwa [List.append_assoc]) hr1
      refine ⟨h', node', ?_, by rwa [List.append_assoc] at hr'⟩
      rw [List.foldlM_cons, e1]
      exact he
  obtain ⟨h0, e0, hring, hrelink⟩ := initListHead_ring staticBlocks_live
  obtain ⟨h, node, he, hr⟩ := hload loadModules [] h0 (fun _ => 0) loadModules_nodup
    ⟨hring, fun m hm => (List.not_mem_nil hm).elim, hrelink.fresh.trans staticBlocks_fresh,
      hrelink.freed.trans staticBlocks_freed⟩
  refine ⟨h, node, ?_, hr⟩
  rw [e0]
  exact he

def enabledText (enable : Text → Bool) : Text :=
  "\nModules Enabled:\n".toList ++
    ((optLines.filter enable).map fun o => "    ".toList ++ o ++ "\n".toList).flatten ++
    "\n".toList

def loadedText : Text :=
  "\nModules Loaded:\n".toList ++
    (loadModules.map fun m => m.usage ++ "\n".toList).flatten ++ "\n".toList

def usageText (enable : Text → Bool) : Text := usageOptions ++ loadedText ++ enabledText enable

/-- What is written on the two streams by an option that ends the program. -/
def exitText (s : Settings) : Opt → Text × Text
  | .list => ([], enabledText s.enable)
  | .load => ([], loadedText)
  | .missing => (mustHaveParameter, usageText s.enable)
  | .unknown arg =>
    if "--".toList <:+: arg then ([], noSuchOption arg) else ([], usageText s.enable)
  | .help | .all | .count _ | .delay _ => ([], usageText s.enable)

def optTurn (s : Settings) (opt : Opt) : Turn Settings :=
  match handleOpt optLines s opt with
  | some s => .go s
  | none => .exit (exitText s opt).1 (exitText s opt).2

def parseTurn : List Opt → Settings → Turn Settings
  | [], s => if optLines.any s.enable then .go s else .exit [] noModuleEnabled
  | opt :: opts, s =>
    match optTurn s opt with
    | .go s => parseTurn opts s
    | .exit out err => .exit out err

namespace Turn

variable {σ τ : Type}

def map (f : σ → τ) : Turn σ → Turn τ
  | go s => go (f s)
  | exit out err => exit out err

/-- Both go on, in related states, or both print the same and end. -/
inductive Rel (R : σ → τ → Prop) : Turn σ → Turn τ → Prop
  | go {s : σ} {t : τ} (h : R s t) : Rel R (go s) (go t)
  | exit (out err : Text) : Rel R (exit out err) (exit out err)

theorem Rel.map {σ' τ' : Type} {R : σ → τ → Prop} {S : σ' → τ' → Prop} {f : σ → σ'} {g : τ → τ'}
    {s : Turn σ} {t : Turn τ} (h : Rel R s t) (hfg : ∀ s t, R s t → S (f s) (g t)) :
    Rel S (s.map f) (t.map g) := by
  cases h with
  | go h => exact .go (hfg _ _ h)
  | exit out err => exact .exit out err

end Turn

/-- The nodes have the flags, and the counters are the same. -/
structure SameSettings (node : ModName → ℕ) (s : SettingsOn) (t : Settings) : Prop where
  mods : Registered s.mods loadModules node (fun m => t.enable m.optLine) fun _ => []
  optCount : s.optCount = t.optCount
  optInterval : s.optInterval = t.optInterval

theorem optLine_inj {m m' : ModName} (h : m.optLine = m'.optLine) : m = m' := by
  cases m <;> cases m' <;> first | rfl | exact absurd h (by decide)

theorem filter_optLines (p : Text → Bool) :
    optLines.filter p = (loadModules.filter fun m => p m.optLine).map ModName.optLine := by
  rw [← ModName.map_optLine, List.filter_map]
  rfl

namespace SameSettings

variable {node : ModName → ℕ} {s : SettingsOn} {t : Settings}

theorem listEnableModule (hs : SameSettings node s t) :
    listEnableModule s.mods = some (enabledText t.enable) := by
  have hlines : ((loadModules.map fun m => m.moduleT (t.enable m.optLine) []).filter
        ModuleT.enable).map (fun mod => "    ".toList ++ cstr mod.optLine ++ "\n".toList) =
      (optLines.filter t.enable).map fun o => "    ".toList ++ o ++ "\n".toList := by
    rw [filter_optLines, List.filter_map, List.map_map, List.map_map]
    apply List.map_congr_left
    intro m _
    rw [Function.comp_apply, Function.comp_apply, ModName.moduleT, cstr_optLine]
  rw [Zsr.listEnableModule, hs.mods.modulesOn, Option.bind_eq_bind, Option.bind_some, hlines]
  rfl

theorem listLoadModule (hs : SameSettings node s t) : listLoadModule s.mods = some loadedText := by
  have hlines : (loadModules.map fun m => m.moduleT (t.enable m.optLine) []).map
      (fun mod => cstr mod.usage ++ "\n".toList) = loadModules.map fun m =>
        m.usage ++ "\n".toList := by
    rw [List.map_map]
    apply List.map_congr_left
    intro m _
    rw [Function.comp_apply, ModName.moduleT, cstr_usage]
  rw [Zsr.listLoadModule, hs.mods.modulesOn, Option.bind_eq_bind, Option.bind_some, hlines]
  rfl

theorem usageOn (hs : SameSettings node s t) : usageOn s.mods = some (usageText t.enable) := by
  simp only [Zsr.usageOn, hs.listLoadModule, hs.listEnableModule, Option.bind_eq_bind,
    Option.bind_some, usageText]

theorem enableAll (hs : SameSettings node s t) : ∃ h, enableAllModule s.mods = some h ∧
    SameSettings node { s with mods := h } { t with enable := fun _ => true } := by
  obtain ⟨h, he, hr⟩ := hs.mods.setEnable_all (List.Subset.refl _)
  refine ⟨h, ?_, ?_, hs.optCount, hs.optInterval⟩
  · rw [enableAllModule, hs.mods.walk]
    exact he
  · convert hr using 2 with m
    simp [mem_loadModules]

theorem enableModule (hs : SameSettings node s t) (arg : Text) :
    (∃ h t', Zsr.enableModule optLines arg t = some t' ∧
      enableModuleOn arg s.mods = some (.go h) ∧ SameSettings node { s with mods := h } t') ∨
    Zsr.enableModule optLines arg t = none ∧
      enableModuleOn arg s.mods = some (.exit [] (noSuchOption arg)) := by
  have hfind := hs.mods.findOptOn arg (List.Subset.refl loadModules)
  by_cases hm : arg ∈ optLines
  · left
    rw [← ModName.map_optLine] at hm
    obtain ⟨m, -, rfl⟩ := List.mem_map.mp hm
    have hfound : (loadModules.find? fun m' => m'.optLine == m.optLine) = some m := by
      cases m <;> rfl
    obtain ⟨h, he, hr⟩ := hs.mods.setEnable (mem_loadModules m)
    refine ⟨h, _, if_pos (by rwa [← ModName.map_optLine]), ?_, ?_, hs.optCount, hs.optInterval⟩
    · simp only [enableModuleOn, hs.mods.walk, hfind, hfound, Option.bind_eq_bind,
        Option.bind_some, Option.map_some, he]
    · convert hr using 2 with m'
      rw [Function.update_apply]
      by_cases hmm : m' = m
      · simp [hmm]
      · have hne : m'.optLine ≠ m.optLine := fun e => hmm (optLine_inj e)
        simp [hmm, hne]
  · right
    have hnone : (loadModules.find? fun m => m.optLine == arg) = none := by
      rw [List.find?_eq_none]
      intro m hmem he
      apply hm
      rw [← ModName.map_optLine, ← eq_of_beq he]
      exact List.mem_map_of_mem hmem
    refine ⟨if_neg hm, ?_⟩
    simp only [enableModuleOn, hs.mods.walk, hfind, hnone, Option.bind_eq_bind,
      Option.bind_some, Option.map_none]

theorem handleOptOn (hs : SameSettings node s t) (opt : Opt) :
    ∃ r, handleOptOn s opt = some r ∧ Turn.Rel (SameSettings node) r (optTurn t opt) := by
  cases opt with
  | all =>
    obtain ⟨h, he, hs'⟩ := hs.enableAll
    exact ⟨_, by rw [Zsr.handleOptOn, he]; rfl, .go hs'⟩
  | count optarg => exact ⟨_, rfl, .go ⟨hs.mods, rfl, hs.optInterval⟩⟩
  | delay optarg => exact ⟨_, rfl, .go ⟨hs.mods, hs.optCount, rfl⟩⟩
  | list => exact ⟨_, by rw [Zsr.handleOptOn, hs.listEnableModule]; rfl, .exit _ _⟩
  | load => exact ⟨_, by rw [Zsr.handleOptOn, hs.listLoadModule]; rfl, .exit _ _⟩
  | help => exact ⟨_, by rw [Zsr.handleOptOn, hs.usageOn]; rfl, .exit _ _⟩
  | missing => exact ⟨_, by rw [Zsr.handleOptOn, hs.usageOn]; rfl, .exit _ _⟩
  | unknown arg =>
    by_cases harg : "--".toList <:+: arg
    · rcases hs.enableModule arg with ⟨h, t', ht, he, hs'⟩ | ⟨ht, he⟩
      · refine ⟨.go { s with mods := h }, ?_, ?_⟩
        · simp only [Zsr.handleOptOn, if_pos harg, he, Option.bind_eq_bind, Option.bind_some]
        · simp only [optTurn, handleOpt, if_pos harg, ht]
          exact .go hs'
      · refine ⟨.exit [] (noSuchOption arg), ?_, ?_⟩
        · simp only [Zsr.handleOptOn, if_pos harg, he, Option.bind_eq_bind, Option.bind_some]
        · simp only [optTurn, handleOpt, if_pos harg, ht, exitText]
          exact .exit _ _
    · refine ⟨_, by rw [Zsr.handleOptOn, if_neg harg, hs.usageOn]; rfl, ?_⟩
      simp only [optTurn, handleOpt, if_neg harg, exitText]
      exact .exit _ _

theorem checkEnableModule (hs : SameSettings node s t) :
    ∃ r, checkEnableModule s = some r ∧ Turn.Rel (SameSettings node) r (parseTurn [] t) := by
  have hany : ((loadModules.map fun m => m.moduleT (t.enable m.optLine) []).any ModuleT.enable) =
      optLines.any t.enable := by
    rw [← ModName.map_optLine, List.any_map, List.any_map]
    rfl
  simp only [Zsr.checkEnableModule, hs.mods.modulesOn, Option.bind_eq_bind, Option.bind_some,
    hany, parseTurn]
  split
  · exact ⟨_, rfl, .go hs⟩
  · exact ⟨_, rfl, .exit _ _⟩

theorem parseOptsOn (hs : SameSettings node s t) (opts : List Opt) :
    ∃ r, parseOptsOn opts s = some r ∧ Turn.Rel (SameSettings node) r (parseTurn opts t) := by
  induction opts generalizing s t with
  | nil => exact hs.checkEnableModule
  | cons opt opts ih =>
    obtain ⟨r, he, hrel⟩ := hs.handleOptOn opt
    simp only [Zsr.parseOptsOn, he, Option.bind_eq_bind, Option.bind_some, parseTurn]
    generalize optTurn t opt = r' at hrel
    cases hrel with
    | go hs' => exact ih hs'
    | exit out err => exact ⟨_, rfl, .exit out err⟩

end SameSettings

section Delete

variable {α : Type} {h : Heap α} {head x : ℕ} {xs : List ℕ}

theorem listDel_ring (hr : IsRing h head (x :: xs)) :
    ∃ h', listDel h x = some h' ∧ SameBlocks h h' ∧ IsRing h' head xs := by
  let c : NodeLists ℕ := fun a => if a = head then some (x :: xs) else none
  have hhead : c head = some (x :: xs) := if_pos rfl
  have hx : x ≠ head := fun e => (List.nodup_cons.mp hr.nodup).1 (e ▸ List.mem_cons_self)
  have hc {a : ℕ} {ys : List ℕ} (ha : c a = some ys) : a = head ∧ x :: xs = ys := by
    obtain ⟨ha', hys⟩ := Option.ite_none_right_eq_some.mp ha
    exact ⟨ha', Option.some.inj hys⟩
  have hs : Shows h c := by
    refine ⟨fun a ys ha => ?_, fun a ys ha y hy => ?_⟩
    · obtain ⟨rfl, rfl⟩ := hc ha
      exact hr
    · obtain ⟨rfl, rfl⟩ := hc ha
      exact if_neg fun e : y = a => (List.nodup_cons.mp hr.nodup).1 (e ▸ hy)
  obtain ⟨h', he, hsame, hs'⟩ :=
    ListOp.goes (.del x) hs (.inr ⟨head, x :: xs, hhead, List.mem_cons_self⟩)
  refine ⟨h', he, hsame, hs'.ring head xs ?_⟩
  have hw := ListOp.without_head hhead hx
  rwa [List.erase_cons_head] at hw

/-- Of the entries on the ring those in front of `ys` were deleted and freed. -/
structure Deleted (h : Heap α) (head : ℕ) (xs ys : List ℕ) (h' : Heap α) : Prop where
  ring : IsRing h' head ys
  fresh : h'.fresh = h.fresh
  freed : ∃ zs, zs ++ ys = xs ∧ h'.freed = zs.reverse ++ h.freed

theorem Deleted.step {h' : Heap α} {ys : List ℕ} (hd : Deleted h head xs (x :: ys) h') :
    x ≠ head ∧ ∃ h2, (do (← listDel h' x).free x) = some h2 ∧ Deleted h head xs ys h2 := by
  obtain ⟨h1, e1, hsame, hring⟩ := listDel_ring hd.ring
  have hnd := hd.ring.nodup
  rw [List.nodup_cons, List.mem_cons, not_or] at hnd
  have hlive : h1.Live x := (hsame.live x).mpr (hd.ring.live x (by simp))
  have hout : x ∉ head :: ys := by
    rw [List.mem_cons, not_or]
    exact ⟨Ne.symm hnd.1.1, (List.nodup_cons.mp hnd.2).1⟩
  obtain ⟨zs, rfl, hfreed⟩ := hd.freed
  refine ⟨Ne.symm hnd.1.1, h1.release x hlive, ?_, hring.release hlive hout,
    hsame.fresh.trans hd.fresh, zs ++ [x], by simp, ?_⟩
  · rw [e1]
    exact Heap.free_of_live hlive
  · simp [hsame.freed, hfreed]

end Delete

theorem Registered.freeModListHead {h : Heap ModuleT} {ms : List ModName} {node : ModName → ℕ}
    {enable : ModName → Bool} {record : ModName → Text}
    (hr : Registered h ms node enable record) :
    ∃ h', freeModListHead h = some h' ∧ h'.liveCount = 1 := by
  have hfirst := headD_mem modListHead (ms.map node)
  obtain ⟨n, hn⟩ := Heap.exists_next (hr.ring.live _ hfirst)
  have hnext : ∀ x ys, ms.map node = x :: ys → n = ys.headD modListHead := by
    intro x ys he
    have hp := hr.ring.links.path
    rw [he] at hp hn
    exact Option.some.inj (hn.symm.trans hp.2.next_head)
  obtain ⟨h', he, hd⟩ := forEachEntrySafe_rule (Deleted h modListHead (ms.map node))
    (fun x ys h1 hd => hd.ring.links.2.path) (fun h1 hd => hd.ring.head_live)
    (fun x ys h1 hd => hd.step) ⟨hr.ring, rfl, [], rfl, rfl⟩
    (hr.ring.length_lt.trans (Nat.lt_succ_self _)) hnext
  refine ⟨h', ?_, ?_⟩
  · simp only [Zsr.freeModListHead, hr.ring.next_head, hn, Option.bind_eq_bind, Option.bind_some]
    exact he
  · obtain ⟨zs, hzs, hfreed⟩ := hd.freed
    rw [List.append_nil] at hzs
    have hcount := h'.liveCount_add_freed
    rw [hd.fresh, hr.fresh, hfreed, hr.freed, hzs, List.length_append, List.length_reverse,
      List.length_map, List.length_singleton] at hcount
    omega

end Zsr
