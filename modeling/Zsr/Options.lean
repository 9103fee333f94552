import Zsr.ToolHeap

namespace Zsr
open CLib

namespace Opt

def goes : Opt → Bool
  | .all | .count _ | .delay _ => true
  | .list | .load | .help | .missing => false
  | .unknown arg => optLines.contains arg

def enables (o : Text) : Opt → Bool
  | .all => true
  | .unknown arg => o == arg
  | .count _ | .delay _ | .list | .load | .help | .missing => false

def countOf : Opt → Option ℤ
  | .count optarg => some (atoi optarg)
  | .all | .delay _ | .list | .load | .help | .missing | .unknown _ => none

/-- An interval that is not positive is two seconds. -/
def delayOf : Opt → Option ℤ
  | .delay optarg => some (if 0 < atoi optarg then atoi optarg else 2)
  | .all | .count _ | .list | .load | .help | .missing | .unknown _ => none

end Opt

/-- The settings that the options ask for: every flag that some option sets, and the last count
and the last interval. -/
def asked (opts : List Opt) : Settings where
  enable o := opts.any (Opt.enables o)
  optCount := (opts.filterMap Opt.countOf).getLast?.getD (-1)
  optInterval := (opts.filterMap Opt.delayOf).getLast?.getD 2

theorem dashes_mem_optLines : ∀ o ∈ optLines, "--".toList <:+: o := by decide

theorem handleOpt_asked (opts : List Opt) (opt : Opt) : handleOpt optLines (asked opts) opt =
    if opt.goes then some (asked (opts ++ [opt])) else none := by
  cases opt with
  | all | count optarg | delay optarg =>
    simp [handleOpt, asked, Opt.goes, Opt.enables, Opt.countOf, Opt.delayOf]
  | list | load | help | missing => rfl
  | unknown arg =>
    by_cases harg : arg ∈ optLines
    · rw [handleOpt, if_pos (dashes_mem_optLines arg harg), enableModule, if_pos harg, Opt.goes,
        if_pos (List.contains_iff_mem.mpr harg)]
      simp [asked, Opt.enables, Opt.countOf, Opt.delayOf, Bool.or_comm]
    · rw [handleOpt, enableModule, if_neg harg, ite_self, Opt.goes, if_neg (by simpa using harg)]

/-- Where all options are accepted the settings are those asked for, else the first that is not
ends the program. -/
theorem parseTurn_eq (opts pre : List Opt) : parseTurn opts (asked pre) =
    match opts.find? fun opt => !opt.goes with
    | none =>
      if optLines.any (asked (pre ++ opts)).enable then .go (asked (pre ++ opts))
      else .exit [] noModuleEnabled
    | some opt =>
      .exit (exitText (asked (pre ++ opts.takeWhile Opt.goes)) opt).1
        (exitText (asked (pre ++ opts.takeWhile Opt.goes)) opt).2 := by
  induction opts generalizing pre with
  | nil => rw [parseTurn, List.append_nil]; rfl
  | cons opt opts ih =>
    rw [parseTurn, optTurn, handleOpt_asked]
    cases hgoes : opt.goes with
    | true =>
      have ih := ih (pre ++ [opt])
      simp only [List.append_assoc, List.singleton_append] at ih
      simp only [if_true, ih, List.find?_cons, hgoes, Bool.not_true, List.takeWhile_cons]
    | false =>
      simp only [Bool.false_eq_true, if_false, List.find?_cons, hgoes, Bool.not_false,
        List.takeWhile_cons, List.append_nil]

theorem parseTurn_nil (opts : List Opt) : parseTurn opts {} =
    match opts.find? fun opt => !opt.goes with
    | none =>
      if optLines.any (asked opts).enable then .go (asked opts) else .exit [] noModuleEnabled
    | some opt =>
      .exit (exitText (asked (opts.takeWhile Opt.goes)) opt).1
        (exitText (asked (opts.takeWhile Opt.goes)) opt).2 := parseTurn_eq opts []

theorem any_enable_iff (opts : List Opt) : optLines.any (asked opts).enable = true ↔
    ∃ m : ModName, (asked opts).enable m.optLine := by
  rw [← ModName.map_optLine, List.any_map, List.any_eq_true]
  exact ⟨fun ⟨m, _, h⟩ => ⟨m, h⟩, fun ⟨m, h⟩ => ⟨m, mem_loadModules m, h⟩⟩

/-- The options are accepted, and enable a module. -/
def Accepted (opts : List Opt) : Prop :=
  (∀ opt ∈ opts, opt.goes) ∧ ∃ m : ModName, (asked opts).enable m.optLine

theorem parseTurn_go_iff {opts : List Opt} {s : Settings} :
    parseTurn opts {} = .go s ↔ Accepted opts ∧ s = asked opts := by
  rw [parseTurn_nil, Accepted, ← any_enable_iff]
  cases hf : opts.find? fun opt => !opt.goes with
  | none =>
    have hall : ∀ opt ∈ opts, opt.goes = true := by
      simpa [List.find?_eq_none] using hf
    dsimp only
    split
    · next h =>
      constructor
      · intro he
        exact ⟨⟨hall, h⟩, (Turn.go.inj he).symm⟩
      · rintro ⟨-, rfl⟩
        rfl
    · next h =>
      refine iff_of_false (fun he => ?_) fun h' => h h'.1.2
      cases he
  | some opt =>
    have hmem := List.mem_of_find?_eq_some hf
    have hnot := List.find?_some hf
    simp only [reduceCtorEq, false_iff, not_and]
    rintro ⟨hall, -⟩
    rw [hall opt hmem] at hnot
    cases hnot

section Loop

variable {E σ : Type} {cycle : E → σ → Option σ}

theorem reportLoop_finished_iff {n : ℤ} {es rest : List E} {s s' : σ} :
    reportLoop cycle false n es s = .finished s' rest ↔
      ∃ done, done ++ rest = es ∧ done.length = n.toNat ∧ cycles cycle done s = some s' := by
  have hbool : (!false) = true := rfl
  induction es generalizing n s with
  | nil =>
    by_cases hn : n ≤ 0
    · rw [reportLoop, if_pos ⟨hbool, hn⟩]
      simp only [Outcome.finished.injEq, List.append_eq_nil_iff, Int.toNat_of_nonpos hn,
        List.length_eq_zero_iff]
      constructor
      · rintro ⟨rfl, rfl⟩
        exact ⟨[], ⟨rfl, rfl⟩, rfl, rfl⟩
      · rintro ⟨-, ⟨-, rfl⟩, rfl, h⟩
        exact ⟨Option.some.inj h, rfl⟩
    · rw [reportLoop, if_neg fun h => hn h.2]
      refine iff_of_false (by simp) ?_
      rintro ⟨done, hdone, hlen, -⟩
      rw [(List.append_eq_nil_iff.mp hdone).1, List.length_nil] at hlen
      omega
  | cons e es ih =>
    by_cases hn : n ≤ 0
    · rw [reportLoop, if_pos ⟨hbool, hn⟩]
      simp only [Outcome.finished.injEq, Int.toNat_of_nonpos hn, List.length_eq_zero_iff]
      constructor
      · rintro ⟨rfl, rfl⟩
        exact ⟨[], rfl, rfl, rfl⟩
      · rintro ⟨-, hes, rfl, h⟩
        exact ⟨Option.some.inj h, hes.symm⟩
    · rw [reportLoop, if_neg fun h => hn h.2]
      simp only [Bool.false_eq_true, if_false]
      constructor
      · cases hc : cycle e s with
        | none => simp
        | some s1 =>
          intro h
          obtain ⟨done, rfl, hlen, hdone⟩ := ih.mp h
          refine ⟨e :: done, rfl, ?_, ?_⟩
          · rw [List.length_cons, hlen]
            omega
          · rw [cycles_cons, hc]
            exact hdone
      · rintro ⟨done, hes, hlen, hdone⟩
        cases done with
        | nil =>
          rw [List.length_nil] at hlen
          omega
        | cons e' done =>
          obtain ⟨rfl, rfl⟩ := List.cons.inj hes
          rw [cycles_cons] at hdone
          obtain ⟨s1, hc, hdone⟩ := Option.bind_eq_some_iff.mp hdone
          rw [hc]
          refine ih.mpr ⟨done, rfl, ?_, hdone⟩
          rw [List.length_cons] at hlen
          omega

theorem reportLoop_crashed {isLoop : Bool} {n : ℤ} {done rest : List E} {s : σ}
    (hn : isLoop ∨ done.length ≤ n) (hcycles : cycles cycle done s = none) :
    reportLoop cycle isLoop n (done ++ rest) s = .crashed := by
  induction done generalizing n s with
  | nil => cases hcycles
  | cons e done ih =>
    have hgo : ¬((!isLoop) = true ∧ n ≤ 0) := by
      rintro ⟨hb, h0⟩
      rw [List.length_cons] at hn
      rcases hn with rfl | hn
      · cases hb
      · omega
    rw [List.cons_append, reportLoop, if_neg hgo]
    rw [cycles_cons] at hcycles
    cases hc : cycle e s with
    | none => rfl
    | some s1 =>
      rw [hc] at hcycles
      refine ih ?_ hcycles
      rw [List.length_cons] at hn
      rcases hn with rfl | hn
      · exact .inl rfl
      · cases isLoop with
        | true => exact .inl rfl
        | false => exact .inr (show (done.length : ℤ) ≤ n - 1 by omega)

end Loop

theorem toolMain_finished_iff (opts : List Opt) (es rest : List System) (t : Tool) :
    toolMain opts es = .go (.finished t rest) ↔
      Accepted opts ∧ 0 < (asked opts).optCount ∧ ∃ done, done ++ rest = es ∧
        done.length = (asked opts).optCount ∧
        toolRun (fun m => (asked opts).enable m.optLine) done = some t := by
  have hgo : toolMain opts es = .go (.finished t rest) ↔
      Accepted opts ∧ reportTool (asked opts) es = .finished t rest := by
    have hiff (s : Settings) := @parseTurn_go_iff opts s
    unfold toolMain
    cases hp : parseTurn opts {} with
    | go s =>
      obtain ⟨hacc, rfl⟩ := (hiff s).mp hp
      simp [Turn.map, hacc]
    | exit out err =>
      have hnot : ¬Accepted opts := by
        intro hacc
        rw [(hiff (asked opts)).mpr ⟨hacc, rfl⟩] at hp
        cases hp
      simp [Turn.map, hnot]
  rw [hgo]
  apply and_congr_right
  intro _
  by_cases hn : (asked opts).optCount ≤ 0
  · refine iff_of_false ?_ fun h => absurd h.1 (not_lt.mpr hn)
    rw [reportTool, decide_eq_true hn]
    exact reportLoop_unbounded _ _ _ _ _
  · have hpos : 0 < (asked opts).optCount := not_le.mp hn
    rw [reportTool, decide_eq_false hn, reportLoop_finished_iff]
    have hlen (done : List System) :
        done.length = (asked opts).optCount.toNat ↔ (done.length : ℤ) = (asked opts).optCount := by
      omega
    simp only [hpos, true_and, hlen]
    rfl

theorem takeWhile_goes {pre post : List Opt} {opt : Opt} (hpre : ∀ o ∈ pre, o.goes)
    (hopt : opt.goes = false) : (pre ++ opt :: post).takeWhile Opt.goes = pre := by
  rw [List.takeWhile_append_of_pos hpre, List.takeWhile_cons_of_neg (by simp [hopt]),
    List.append_nil]

/-- The first option that is not accepted ends the program, and what it prints tells what the
options in front of it have enabled; without such an option it ends when no module is enabled. -/
theorem parseTurn_exit_iff {opts : List Opt} {out err : Text} :
    parseTurn opts {} = .exit out err ↔
      (∃ pre opt post, opts = pre ++ opt :: post ∧ (∀ o ∈ pre, o.goes) ∧ opt.goes = false ∧
        exitText (asked pre) opt = (out, err)) ∨
      (∀ o ∈ opts, o.goes) ∧ (∀ m : ModName, (asked opts).enable m.optLine = false) ∧
        ([], noModuleEnabled) = (out, err) := by
  rw [parseTurn_nil]
  cases hf : opts.find? fun opt => !opt.goes with
  | none =>
    have hall : ∀ o ∈ opts, o.goes = true := by simpa [List.find?_eq_none] using hf
    have hfirst : ¬∃ pre opt post, opts = pre ++ opt :: post ∧ (∀ o ∈ pre, o.goes) ∧
        opt.goes = false ∧ exitText (asked pre) opt = (out, err) := by
      rintro ⟨pre, opt, post, rfl, -, hopt, -⟩
      rw [hall opt (by simp)] at hopt
      cases hopt
    have hnone := not_congr (any_enable_iff opts)
    rw [not_exists] at hnone
    simp only [hfirst, false_or, Bool.not_eq_true] at hnone ⊢
    split
    · next h =>
      refine iff_of_false (fun he => by cases he) fun h' => ?_
      rw [hnone.mpr h'.2.1] at h
      cases h
    · next h =>
      rw [Bool.not_eq_true] at h
      simp only [Turn.exit.injEq, Prod.mk.injEq, hnone.mp h, true_and, implies_true,
        iff_and_self]
      exact fun _ => hall
  | some opt =>
    obtain ⟨hopt, pre, post, rfl, hpre⟩ := List.find?_eq_some_iff_append.mp hf
    rw [Bool.not_eq_true'] at hopt
    have hpre : ∀ o ∈ pre, o.goes = true := by simpa using hpre
    simp only [takeWhile_goes hpre hopt, Turn.exit.injEq]
    have hnot : ¬∀ o ∈ pre ++ opt :: post, o.goes = true := by
      intro hall
      rw [hall opt (by simp)] at hopt
      cases hopt
    simp only [hnot, false_and, or_false]
    constructor
    · rintro ⟨rfl, rfl⟩
      exact ⟨pre, opt, post, rfl, hpre, hopt, rfl⟩
    · rintro ⟨pre', opt', post', heq, hpre', hopt', hexit⟩
      -- there is only one first option that is not accepted
      obtain rfl : pre = pre' := by
        rw [← takeWhile_goes hpre hopt, heq, takeWhile_goes hpre' hopt']
      obtain ⟨rfl, -⟩ := List.cons.inj (List.append_cancel_left heq)
      exact Prod.mk.inj hexit

theorem toolMainOn_exit {opts : List Opt} {es : List System} {out err : Text} :
    toolMainOn opts es = .exit out err ↔ parseTurn opts {} = .exit out err := by
  have hrel := toolMainOn_rel opts es
  unfold toolMain at hrel
  generalize toolMainOn opts es = x at hrel
  cases hp : parseTurn opts {} with
  | go s =>
    rw [hp] at hrel
    cases hrel with
    | go hrel => exact iff_of_false (fun h => by cases h) fun h => by cases h
  | exit out' err' =>
    rw [hp] at hrel
    cases hrel with
    | exit => exact ⟨fun h => by cases h; rfl, fun h => by cases h; rfl⟩

theorem toolMainOn_finished {opts : List Opt} {es rest : List System} {out : List Text} :
    (∃ s, toolMainOn opts es = .go (.finished s rest) ∧ s.out = out) ↔
      ∃ t, toolMain opts es = .go (.finished t rest) ∧ t.out = out := by
  have hrel := toolMainOn_rel opts es
  generalize toolMainOn opts es = x at hrel
  generalize toolMain opts es = y at hrel
  constructor
  · rintro ⟨s, rfl, rfl⟩
    cases hrel with
    | go hrel =>
      cases hrel with
      | finished hes h => exact ⟨_, rfl, h.out.symm⟩
  · rintro ⟨t, rfl, rfl⟩
    cases hrel with
    | go hrel =>
      cases hrel with
      | finished hes h => exact ⟨_, rfl, h.out⟩

/-- `main` returns exactly when the options are accepted, the last count is positive and as many
cycles go through. It has printed what these print. -/
theorem toolMainOn_finished_iff (opts : List Opt) (es rest : List System) (out : List Text) :
    (∃ s, toolMainOn opts es = .go (.finished s rest) ∧ s.out = out) ↔
      Accepted opts ∧ 0 < (asked opts).optCount ∧ ∃ done t, done ++ rest = es ∧
        done.length = (asked opts).optCount ∧
        toolRun (fun m => (asked opts).enable m.optLine) done = some t ∧ t.out = out := by
  rw [toolMainOn_finished]
  simp only [toolMain_finished_iff]
  constructor
  · rintro ⟨t, ⟨hacc, hpos, done, hes, hlen, hrun⟩, hout⟩
    exact ⟨hacc, hpos, done, t, hes, hlen, hrun, hout⟩
  · rintro ⟨hacc, hpos, done, t, hes, hlen, hrun, hout⟩
    exact ⟨t, ⟨hacc, hpos, done, hes, hlen, hrun⟩, hout⟩

/-- The program ends before the first cycle exactly when an option is not accepted or none
enables a module. The first such option says what is printed. -/
theorem toolMainOn_exit_iff (opts : List Opt) (es : List System) (out err : Text) :
    toolMainOn opts es = .exit out err ↔
      (∃ pre opt post, opts = pre ++ opt :: post ∧ (∀ o ∈ pre, o.goes) ∧ opt.goes = false ∧
        exitText (asked pre) opt = (out, err)) ∨
      (∀ o ∈ opts, o.goes) ∧ (∀ m : ModName, (asked opts).enable m.optLine = false) ∧
        ([], noModuleEnabled) = (out, err) :=
  toolMainOn_exit.trans parseTurn_exit_iff

end Zsr
