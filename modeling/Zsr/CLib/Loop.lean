import Zsr.CLib.Lists
import Mathlib.Algebra.Order.BigOperators.Group.List
import Mathlib.Algebra.Order.Ring.Nat
import Mathlib.Data.List.Induction
import Mathlib.Data.List.Infix
import Mathlib.Data.List.Nodup
import Mathlib.Logic.Function.Basic

namespace CLib

section Update

variable {ι : Type} [DecidableEq ι] {β : ι → Type} {f : (i : ι) → β i → Option (β i)}

theorem foldlM_update {l : List ι} (hl : l.Nodup) {s s' : (i : ι) → β i}
    (h : l.foldlM (fun s i => (f i (s i)).map (Function.update s i)) s = some s') :
    (∀ i ∈ l, f i (s i) = some (s' i)) ∧ ∀ i, i ∉ l → s' i = s i := by
  induction l generalizing s with
  | nil =>
    obtain rfl := Option.some.inj h
    exact ⟨fun i hi => (List.not_mem_nil hi).elim, fun _ _ => rfl⟩
  | cons a l ih =>
    have ⟨hal, hl⟩ := List.nodup_cons.mp hl
    rw [List.foldlM_cons, Option.bind_eq_bind, Option.bind_eq_some_iff] at h
    obtain ⟨s1, h1, h⟩ := h
    obtain ⟨b, hb, rfl⟩ := Option.map_eq_some_iff.mp h1
    obtain ⟨hin, hout⟩ := ih hl h
    constructor
    · intro i hi
      rcases List.mem_cons.mp hi with rfl | hi
      · rw [hout i hal, Function.update_self, hb]
      · have hne : i ≠ a := fun e => hal (e ▸ hi)
        rw [← hin i hi, Function.update_of_ne hne]
    · intro i hi
      rw [List.mem_cons, not_or] at hi
      rw [hout i hi.2, Function.update_of_ne hi.1]

theorem foldlM_update_of {l : List ι} (hl : l.Nodup) {s s' : (i : ι) → β i}
    (hin : ∀ i ∈ l, f i (s i) = some (s' i)) (hout : ∀ i, i ∉ l → s' i = s i) :
    l.foldlM (fun s i => (f i (s i)).map (Function.update s i)) s = some s' := by
  induction l generalizing s with
  | nil => exact congrArg some (funext fun i => (hout i List.not_mem_nil).symm)
  | cons a l ih =>
    have ⟨hal, hl⟩ := List.nodup_cons.mp hl
    rw [List.foldlM_cons, hin a List.mem_cons_self]
    apply ih hl
    · intro i hi
      have hne : i ≠ a := fun e => hal (e ▸ hi)
      rw [Function.update_of_ne hne, hin i (List.mem_cons_of_mem _ hi)]
    · intro i hi
      by_cases hia : i = a
      · subst hia
        rw [Function.update_self]
      · rw [Function.update_of_ne hia, hout i (by simp [hia, hi])]

end Update

section Emit

variable {ι ω : Type} [DecidableEq ι] {β : ι → Type}
  {step : ((i : ι) → β i) × List ω → ι → Option (((i : ι) → β i) × List ω)}
  {f : (i : ι) → β i → Option (β i × List ω)}

theorem foldlM_update_emit
    (hstep : ∀ s out i, step (s, out) i =
      (f i (s i)).map fun y => (Function.update s i y.1, out ++ y.2))
    {l : List ι} (hl : l.Nodup) {s s' : (i : ι) → β i} {out out' : List ω}
    (h : l.foldlM step (s, out) = some (s', out')) :
    ∃ t : ι → List ω, (∀ i ∈ l, f i (s i) = some (s' i, t i)) ∧ (∀ i, i ∉ l → s' i = s i) ∧
      out' = out ++ (l.map t).flatten := by
  induction l generalizing s out with
  | nil =>
    cases h
    exact ⟨fun _ => [], fun i hi => (List.not_mem_nil hi).elim, fun _ _ => rfl, by simp⟩
  | cons a l ih =>
    have ⟨hal, hl⟩ := List.nodup_cons.mp hl
    rw [List.foldlM_cons, hstep, Option.bind_eq_bind, Option.bind_eq_some_iff] at h
    obtain ⟨⟨s1, out1⟩, h1, h⟩ := h
    obtain ⟨⟨b, t⟩, hb, hy⟩ := Option.map_eq_some_iff.mp h1
    cases hy
    obtain ⟨u, hin, hrest, hemit⟩ := ih hl h
    refine ⟨Function.update u a t, ?_, ?_, ?_⟩
    · intro i hi
      rcases List.mem_cons.mp hi with rfl | hi
      · rw [hrest i hal, Function.update_self, Function.update_self, hb]
      · have hne : i ≠ a := fun e => hal (e ▸ hi)
        rw [Function.update_of_ne hne, ← hin i hi, Function.update_of_ne hne]
    · intro i hi
      rw [List.mem_cons, not_or] at hi
      rw [hrest i hi.2, Function.update_of_ne hi.1]
    · have hu : l.map (Function.update u a t) = l.map u := by
        apply List.map_congr_left
        intro i hi
        have hne : i ≠ a := fun e => hal (e ▸ hi)
        exact Function.update_of_ne hne t u
      rw [hemit, List.map_cons, List.flatten_cons, Function.update_self, hu, List.append_assoc]

theorem foldlM_update_emit_of
    (hstep : ∀ s out i, step (s, out) i =
      (f i (s i)).map fun y => (Function.update s i y.1, out ++ y.2))
    {l : List ι} (hl : l.Nodup) {s s' : (i : ι) → β i} {out : List ω} {t : ι → List ω}
    (hin : ∀ i ∈ l, f i (s i) = some (s' i, t i)) (hout : ∀ i, i ∉ l → s' i = s i) :
    l.foldlM step (s, out) = some (s', out ++ (l.map t).flatten) := by
  induction l generalizing s out with
  | nil =>
    obtain rfl : s' = s := funext fun i => hout i List.not_mem_nil
    simp
  | cons a l ih =>
    have ⟨hal, hl⟩ := List.nodup_cons.mp hl
    rw [List.foldlM_cons, hstep, hin a List.mem_cons_self, List.map_cons, List.flatten_cons,
      ← List.append_assoc]
    apply ih hl
    · intro i hi
      have hne : i ≠ a := fun e => hal (e ▸ hi)
      rw [Function.update_of_ne hne, hin i (List.mem_cons_of_mem _ hi)]
    · intro i hi
      by_cases hia : i = a
      · subst hia
        rw [Function.update_self]
      · rw [Function.update_of_ne hia, hout i (by simp [hia, hi])]

end Emit

/-- Where no text of one family is longer than its counterpart, the families read the
same only when all texts are. -/
theorem flatten_map_inj {ι ω : Type} {f g : ι → List ω} {l : List ι}
    (hle : ∀ i ∈ l, (g i).length ≤ (f i).length) :
    (l.map f).flatten = (l.map g).flatten ↔ ∀ i ∈ l, f i = g i := by
  have hlen : ∀ l : List ι, (∀ i ∈ l, (g i).length ≤ (f i).length) →
      (l.map g).flatten.length ≤ (l.map f).flatten.length := by
    intro l hle
    rw [List.length_flatten, List.length_flatten, List.map_map, List.map_map]
    exact List.sum_le_sum hle
  constructor
  · intro h
    induction l with
    | nil => exact fun i hi => (List.not_mem_nil hi).elim
    | cons a l ih =>
      have ha := hle a List.mem_cons_self
      have hl := hlen l fun i hi => hle i (List.mem_cons_of_mem _ hi)
      rw [List.map_cons, List.map_cons, List.flatten_cons, List.flatten_cons] at h
      have hsum := congrArg List.length h
      rw [List.length_append, List.length_append] at hsum
      obtain ⟨hfg, hrest⟩ := List.append_inj h (by omega)
      exact List.forall_mem_cons.mpr
        ⟨hfg, ih (fun i hi => hle i (List.mem_cons_of_mem _ hi)) hrest⟩
  · intro h
    rw [List.map_congr_left h]

section Prefixes

variable {E σ : Type} {step : σ → E → σ} {inv : σ → Prop} {good : E → σ → σ → Prop}
  {cond : E → σ → Prop}

/-- Where a step from a state with the invariant goes well exactly under a condition, and
then leaves a state with the invariant, all steps of a run go well exactly when each of them
meets the condition. -/
theorem forall_prefix_foldl_iff (hgood : ∀ e s, good e s (step s e) → inv (step s e))
    (hstep : ∀ e s, inv s → (good e s (step s e) ↔ cond e s)) {s : σ} (hs : inv s) (l : List E) :
    (∀ l' e, l' ++ [e] <+: l → good e (l'.foldl step s) ((l' ++ [e]).foldl step s)) ↔
      ∀ l' e, l' ++ [e] <+: l → cond e (l'.foldl step s) := by
  simp only [List.foldl_append, List.foldl_cons, List.foldl_nil]
  -- in both directions the invariant holds up to the step in question
  have hinv (p : List E → E → Prop)
      (hp : ∀ l' e, l' ++ [e] <+: l → inv (l'.foldl step s) → p l' e →
        good e (l'.foldl step s) (step (l'.foldl step s) e))
      (h : ∀ l' e, l' ++ [e] <+: l → p l' e) (l' : List E) (hl : l' <+: l) :
      inv (l'.foldl step s) := by
    induction l' using List.reverseRecOn with
    | nil => exact hs
    | append_singleton l' e ih =>
      have hi := ih ((List.prefix_append l' [e]).trans hl)
      rw [List.foldl_append, List.foldl_cons, List.foldl_nil]
      exact hgood e _ (hp l' e hl hi (h l' e hl))
  constructor
  · intro h l' e hl
    have hi := hinv _ (fun _ _ _ _ hg => hg) h l' ((List.prefix_append l' [e]).trans hl)
    exact (hstep e _ hi).mp (h l' e hl)
  · intro h l' e hl
    have hi := hinv _ (fun l' e _ hi hc => (hstep e _ hi).mpr hc) h l'
      ((List.prefix_append l' [e]).trans hl)
    exact (hstep e _ hi).mpr (h l' e hl)

end Prefixes

theorem foldl_append_if {ι α : Type} {p : ι → Prop} [DecidablePred p] {f : ι → α} (l : List ι)
    (acc : List α) : l.foldl (fun acc i => if p i then acc ++ [f i] else acc) acc =
      acc ++ l.filterMap fun i => if p i then some (f i) else none := by
  induction l generalizing acc with
  | nil => exact (List.append_nil acc).symm
  | cons i l ih =>
    rw [List.foldl_cons, ih, List.filterMap_cons]
    split <;> simp

theorem forIn_append_if {ι α : Type} {p : ι → Bool} {f : ι → Option α} (l : List ι)
    (acc : List α) :
    (forIn l acc fun i acc =>
      if p i then (f i).bind fun a => some (.yield (acc ++ [a])) else some (.yield acc)) =
      ((l.filter p).mapM f).map (acc ++ ·) := by
  induction l generalizing acc with
  | nil => exact congrArg some (List.append_nil acc).symm
  | cons i l ih =>
    rw [List.forIn_cons, List.filter_cons]
    split
    · rw [List.mapM_cons]
      cases f i with
      | none => rfl
      | some a =>
        refine (ih (acc ++ [a])).trans ?_
        cases (l.filter p).mapM f with
        | none => rfl
        | some as => exact congrArg some (List.append_assoc acc [a] as)
    · exact ih acc

end CLib
