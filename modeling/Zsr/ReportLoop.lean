import Zsr.CLib.Scan
import Mathlib.Data.List.Forall2
import Mathlib.Data.List.Induction
import Mathlib.Data.List.Infix
import Mathlib.Tactic.Ring

/-!
# The options and the report loop of `main`

`getopt_long` belongs to the C library: what it returns for one argument is an
`Opt`. The loop is generic in the state that one cycle of collecting and printing
changes; every cycle meets the next state of the system, and a cycle that gives
`none` ended in undefined behaviour or in `exit`.
-/

namespace Zsr
open CLib

inductive Opt
  | all
  | count (optarg : Text)
  | delay (optarg : Text)
  | list
  | load
  | help
  /-- The answer `':'`. -/
  | missing
  /-- The answer `'?'`, with the argument it is about. -/
  | unknown (arg : Text)

structure Settings where
  /-- The `enable` flags, by `opt_line`. -/
  enable : Text → Bool := fun _ => false
  optCount : ℤ := -1
  optInterval : ℤ := 2

/-- The `opt_line`s in the order of `load_modules`. -/
def optLines : List Text :=
  ["--cpu".toList, "--dns".toList, "--fs".toList, "--gateway".toList, "--io".toList,
    "--ip".toList, "--load_avg".toList, "--mem".toList, "--network".toList, "--proc".toList,
    "--swap".toList, "--time".toList, "--uptime".toList, "--who".toList]

/-- `enable_module`, over the `opt_line`s of the loaded modules; `none` is its `exit`. -/
def enableModule (optLines : List Text) (modOpt : Text) (s : Settings) : Option Settings :=
  if modOpt ∈ optLines then some { s with enable := fun o => o == modOpt || s.enable o } else none

/-- One turn of the option loop; `none` where the program exits. -/
def handleOpt (optLines : List Text) (s : Settings) : Opt → Option Settings
  | .all => some { s with enable := fun _ => true }
  | .count optarg => some { s with optCount := atoi optarg }
  | .delay optarg => some { s with optInterval := if 0 < atoi optarg then atoi optarg else 2 }
  | .list | .load | .help | .missing => none
  | .unknown arg => if "--".toList <:+: arg then enableModule optLines arg s else none

inductive Outcome (E σ : Type)
  /-- The loop ended; the system states in `rest` were not met. -/
  | finished (s : σ) (rest : List E)
  /-- All system states were met and the loop goes on. -/
  | running (s : σ)
  | crashed

section Loop

variable {E σ : Type} (cycle : E → σ → Option σ)

/-- `while (1)`: `opt_count` is only counted down when the loop is bounded. -/
def reportLoop (isLoop : Bool) (optCount : ℤ) : List E → σ → Outcome E σ
  | [], s => if !isLoop ∧ optCount ≤ 0 then .finished s [] else .running s
  | e :: es, s =>
    if !isLoop ∧ optCount ≤ 0 then .finished s (e :: es)
    else
      -- `sleep` is left out: what changes meanwhile is in `e`
      match cycle e s with
      | none => .crashed
      | some s' => reportLoop isLoop (if isLoop then optCount else optCount - 1) es s'

def cycles (es : List E) (s : σ) : Option σ := es.foldlM (fun s e => cycle e s) s

theorem cycles_cons (e : E) (es : List E) (s : σ) :
    cycles cycle (e :: es) s = (cycle e s).bind (cycles cycle es) := rfl

theorem cycles_append (es fs : List E) (s : σ) :
    cycles cycle (es ++ fs) s = (cycles cycle es s).bind (cycles cycle fs) := by
  induction es generalizing s with
  | nil => rfl
  | cons e es ih =>
    rw [List.cons_append, cycles_cons, cycles_cons]
    cases cycle e s with
    | none => rfl
    | some s' => exact ih s'

theorem cycles_concat (es : List E) (e : E) (s : σ) :
    cycles cycle (es ++ [e]) s = (cycles cycle es s).bind (cycle e) := by
  rw [cycles_append]
  congr 1
  funext s'
  rw [cycles_cons]
  cases cycle e s' <;> rfl

variable {cycle}

/-- A run of cycles that each add one entry to a list: what holds of every entry added
holds along the whole list. -/
theorem cycles_forall₂ {ε : Type} {cycle : E → List ε → Option (List ε)} {R : E → ε → Prop}
    (hstep : ∀ e s s', cycle e s = some s' → ∃ a, s' = s ++ [a] ∧ R e a)
    {es : List E} {s : List ε} (h : cycles cycle es [] = some s) : List.Forall₂ R es s := by
  induction es using List.reverseRecOn generalizing s with
  | nil =>
    obtain rfl := Option.some.inj h
    exact .nil
  | append_singleton es e ih =>
    rw [cycles_concat] at h
    obtain ⟨s1, h1, h2⟩ := Option.bind_eq_some_iff.mp h
    obtain ⟨a, rfl, ha⟩ := hstep e s1 s h2
    exact List.rel_append (ih h1) (.cons ha .nil)

theorem reportLoop_bounded {n : ℕ} {es : List E} {s s' : σ} (hn : es.length = n)
    (fs : List E) (hc : cycles cycle es s = some s') :
    reportLoop cycle false n (es ++ fs) s = .finished s' fs := by
  induction es generalizing n s with
  | nil =>
    subst hn
    obtain rfl : s = s' := Option.some.inj hc
    cases fs <;> simp [reportLoop]
  | cons e es ih =>
    subst hn
    rw [cycles_cons] at hc
    obtain ⟨s1, h1, h2⟩ := Option.bind_eq_some_iff.mp hc
    have hpos : ¬((!false) = true ∧ ((e :: es).length : ℤ) ≤ 0) := by simp
    have hpred : ((e :: es).length : ℤ) - 1 = (es.length : ℤ) := by simp
    rw [List.cons_append, reportLoop, if_neg hpos, h1]
    simp only [Bool.false_eq_true, if_false]
    rw [hpred]
    exact ih rfl h2

theorem reportLoop_unbounded (n : ℤ) (es rest : List E) (s s' : σ) :
    reportLoop cycle true n es s ≠ .finished s' rest := by
  induction es generalizing s with
  | nil => simp [reportLoop]
  | cons e es ih =>
    rw [reportLoop, if_neg (by simp)]
    cases cycle e s with
    | none => simp
    | some s1 => exact ih s1

end Loop

def countOpts (n : ℕ) (opt : Text) : List Opt := [.count (dec n), .unknown opt]

end Zsr
