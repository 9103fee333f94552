import Mathlib.Data.List.Basic
import Mathlib.Logic.Function.Basic

namespace CLib

variable {α β γ δ ι : Type}

theorem rel_bind {R : α → β → Prop} {S : γ → δ → Prop} {x : Option α} {y : Option β}
    {f : α → Option γ} {g : β → Option δ} (h : Option.Rel R x y)
    (hfg : ∀ a b, R a b → Option.Rel S (f a) (g b)) : Option.Rel S (x.bind f) (y.bind g) := by
  cases h with
  | none => exact .none
  | some h => exact hfg _ _ h

theorem rel_map {R : α → β → Prop} {S : γ → δ → Prop} {x : Option α} {y : Option β} {f : α → γ}
    {g : β → δ} (h : Option.Rel R x y) (hfg : ∀ a b, R a b → S (f a) (g b)) :
    Option.Rel S (x.map f) (y.map g) := by
  cases h with
  | none => exact .none
  | some h => exact .some (hfg _ _ h)

theorem rel_mono {R S : α → β → Prop} {x : Option α} {y : Option β} (h : Option.Rel R x y)
    (hR : ∀ a b, R a b → S a b) : Option.Rel S x y := by
  cases h with
  | none => exact .none
  | some h => exact .some (hR _ _ h)

theorem rel_result {R : α → β → Prop} {x : Option α} {y : Option β} (h : Option.Rel R x y) :
    Option.Rel (fun a b => R a b ∧ y = some b) x y := by
  cases h with
  | none => exact .none
  | some h => exact .some ⟨h, rfl⟩

theorem rel_and {R : α → β → Prop} {P : α → Prop} {x : Option α} {y : Option β}
    (h : Option.Rel R x y) (hP : ∀ a, x = some a → P a) :
    Option.Rel (fun a b => R a b ∧ P a) x y := by
  cases h with
  | none => exact .none
  | some h => exact .some ⟨h, hP _ rfl⟩

theorem rel_foldlM {R : List ι → α → β → Prop} {f : α → ι → Option α} {g : β → ι → Option β}
    (hstep : ∀ i l a b, R (i :: l) a b → Option.Rel (R l) (f a i) (g b i)) {l : List ι} {a : α}
    {b : β} (h : R l a b) : Option.Rel (R []) (l.foldlM f a) (l.foldlM g b) := by
  induction l generalizing a b with
  | nil => exact .some h
  | cons i l ih =>
    rw [List.foldlM_cons, List.foldlM_cons]
    exact rel_bind (hstep i l a b h) fun a' b' h' => ih h'

end CLib
