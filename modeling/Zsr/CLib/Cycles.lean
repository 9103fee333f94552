import Mathlib.Data.List.Nodup
import Mathlib.Logic.Equiv.Basic
import Mathlib.Algebra.Group.End

namespace CLib
open Equiv

variable {ι : Type} [DecidableEq ι]

/-- From `a` the permutation runs through `xs` to `b`. -/
def Runs (σ : Perm ι) : ι → List ι → ι → Prop
  | a, [], b => σ a = b
  | a, x :: xs, b => σ a = x ∧ Runs σ x xs b

/-- The cycle through `a`, from `a` on. -/
structure Cyc (σ : Perm ι) (a : ι) (xs : List ι) : Prop where
  nodup : (a :: xs).Nodup
  runs : Runs σ a xs a

section Runs

omit [DecidableEq ι]

variable {σ τ : Perm ι} {a a' b : ι} {xs ys : List ι}

theorem runs_append {x : ι} : Runs σ a (xs ++ x :: ys) b ↔ Runs σ a xs x ∧ Runs σ x ys b := by
  induction xs generalizing a with
  | nil => exact Iff.rfl
  | cons y xs ih =>
    simp only [List.cons_append, Runs]
    rw [ih, and_assoc]

theorem Runs.congr (h : Runs σ a xs b) (hstart : τ a' = σ a) (hin : ∀ x ∈ xs, τ x = σ x) :
    Runs τ a' xs b := by
  induction xs generalizing a a' with
  | nil => exact hstart.trans h
  | cons x xs ih =>
    refine ⟨hstart.trans h.1, ih h.2 (hin x List.mem_cons_self) fun y hy => ?_⟩
    exact hin y (List.mem_cons_of_mem x hy)

theorem Runs.mem_of_closed {s : Set ι} (h : Runs σ a xs b) (hs : ∀ x ∈ s, σ x ∈ s)
    (ha : a ∈ s) : b ∈ s := by
  induction xs generalizing a with
  | nil => exact h ▸ hs a ha
  | cons x xs ih => exact ih h.2 (h.1 ▸ hs a ha)

theorem Runs.forall_mem {s : Set ι} (h : Runs σ a xs b) (hs : ∀ x ∈ s, σ x ∈ s)
    (ha : a ∈ s) : ∀ x ∈ a :: xs, x ∈ s := by
  induction xs generalizing a with
  | nil => exact List.forall_mem_singleton.mpr ha
  | cons x xs ih => exact List.forall_mem_cons.mpr ⟨ha, ih h.2 (h.1 ▸ hs a ha)⟩

theorem Runs.map {κ : Type} {ρ : Perm κ} (f : ι → κ) (hf : ∀ x, ρ (f x) = f (σ x))
    (h : Runs σ a xs b) : Runs ρ (f a) (xs.map f) (f b) := by
  induction xs generalizing a with
  | nil => exact (hf a).trans (congrArg f h)
  | cons x xs ih => exact ⟨(hf a).trans (congrArg f h.1), ih h.2⟩

end Runs

namespace Cyc

variable {σ : Perm ι} {a b : ι} {xs ys : List ι}

section Rotate

omit [DecidableEq ι]

theorem rotate (h : Cyc σ a (xs ++ b :: ys)) : Cyc σ b (ys ++ a :: xs) := by
  obtain ⟨hx, hy⟩ := runs_append.mp h.runs
  refine ⟨?_, runs_append.mpr ⟨hy, hx⟩⟩
  have hperm : (a :: (xs ++ b :: ys)).Perm (b :: (ys ++ a :: xs)) :=
    @List.perm_append_comm _ (a :: xs) (b :: ys)
  exact hperm.nodup_iff.mp h.nodup

theorem apply_mem (h : Cyc σ a xs) : ∀ x ∈ a :: xs, σ x ∈ a :: xs := by
  intro x hx
  rcases List.mem_cons.mp hx with rfl | hx
  · cases xs with
    | nil => exact List.mem_singleton.mpr h.runs
    | cons y ys => exact h.runs.1 ▸ List.mem_cons_of_mem _ List.mem_cons_self
  · obtain ⟨us, vs, rfl⟩ := List.append_of_mem hx
    obtain ⟨-, hv⟩ := runs_append.mp h.runs
    cases vs with
    | nil => exact hv ▸ List.mem_cons_self
    | cons y vs => simp [hv.1]

theorem mem_of_common (h : Cyc σ a xs) (h' : Cyc σ b ys) {c : ι} (hc : c ∈ a :: xs)
    (hc' : c ∈ b :: ys) : b ∈ a :: xs := by
  rcases List.mem_cons.mp hc' with rfl | hc'
  · exact hc
  · obtain ⟨us, vs, rfl⟩ := List.append_of_mem hc'
    obtain ⟨-, hv⟩ := runs_append.mp h'.runs
    exact hv.mem_of_closed (s := {x | x ∈ a :: xs}) h.apply_mem hc

theorem not_mem (h : Cyc σ a xs) (h' : Cyc σ b ys) (hb : b ∉ a :: xs) :
    ∀ c ∈ b :: ys, c ∉ a :: xs := fun _ hc' hc => hb (h.mem_of_common h' hc hc')

theorem fixed_iff : Cyc σ a [] ↔ σ a = a :=
  ⟨fun h => h.runs, fun h => ⟨List.nodup_singleton a, h⟩⟩

theorem symm_apply (h : Cyc σ a xs) :
    (xs = [] ∧ σ.symm a = a) ∨ ∃ us, xs = us ++ [σ.symm a] := by
  rcases List.eq_nil_or_concat xs with rfl | ⟨us, p, rfl⟩
  · exact .inl ⟨rfl, σ.symm_apply_eq.mpr (fixed_iff.mp h).symm⟩
  · rw [List.concat_eq_append] at h ⊢
    have hp : σ p = a := (runs_append.mp h.runs).2
    exact .inr ⟨us, by rw [σ.symm_apply_eq.mpr hp.symm]⟩

theorem map {κ : Type} {ρ : Perm κ} {f : ι → κ} (hinj : Function.Injective f)
    (hf : ∀ x, ρ (f x) = f (σ x)) (h : Cyc σ a xs) : Cyc ρ (f a) (xs.map f) :=
  ⟨(List.nodup_map_iff hinj (l := a :: xs)).mpr h.nodup, h.runs.map f hf⟩

end Rotate

theorem join (ha : Cyc σ a xs) (hb : Cyc σ b ys) (hout : b ∉ a :: xs) :
    Cyc (σ * swap a b) a (ys ++ b :: xs) := by
  have hdis := ha.not_mem hb hout
  have hxs : ∀ x ∈ xs, (σ * swap a b) x = σ x := by
    intro x hx
    have hxa : x ≠ a := fun e => (List.nodup_cons.mp ha.nodup).1 (e ▸ hx)
    have hxb : x ≠ b := fun e => hout (e ▸ List.mem_cons_of_mem a hx)
    rw [Perm.mul_apply, swap_apply_of_ne_of_ne hxa hxb]
  have hys : ∀ y ∈ ys, (σ * swap a b) y = σ y := by
    intro y hy
    have hya : y ≠ a := fun e => hdis y (List.mem_cons_of_mem b hy) (e ▸ List.mem_cons_self)
    have hyb : y ≠ b := fun e => (List.nodup_cons.mp hb.nodup).1 (e ▸ hy)
    rw [Perm.mul_apply, swap_apply_of_ne_of_ne hya hyb]
  refine ⟨?_, runs_append.mpr ⟨hb.runs.congr ?_ hys, ha.runs.congr ?_ hxs⟩⟩
  · have hperm : (a :: (ys ++ b :: xs)).Perm ((b :: ys) ++ (a :: xs)) :=
      (List.perm_middle.cons a).trans ((List.Perm.swap b a _).trans (List.perm_middle.symm.cons b))
    rw [hperm.nodup_iff]
    exact List.nodup_append.mpr
      ⟨hb.nodup, ha.nodup, fun c hc d hd e => hdis c hc (e ▸ hd)⟩
  · rw [Perm.mul_apply, swap_apply_left]
  · rw [Perm.mul_apply, swap_apply_right]

theorem cut (h : Cyc σ a (ys ++ b :: xs)) :
    Cyc (σ * swap a b) a xs ∧ Cyc (σ * swap a b) b ys := by
  obtain ⟨hy, hx⟩ := runs_append.mp h.runs
  obtain ⟨ha, hnd⟩ := List.nodup_cons.mp h.nodup
  obtain ⟨hndy, hndb, hdis⟩ := List.nodup_append.mp hnd
  obtain ⟨hb, hndx⟩ := List.nodup_cons.mp hndb
  have hby : b ∉ ys := fun hm => hdis b hm b List.mem_cons_self rfl
  rw [List.mem_append, List.mem_cons, not_or, not_or] at ha
  have heq : ∀ x, x ≠ a → x ≠ b → (σ * swap a b) x = σ x := fun x hxa hxb => by
    rw [Perm.mul_apply, swap_apply_of_ne_of_ne hxa hxb]
  constructor
  · refine ⟨List.nodup_cons.mpr ⟨ha.2.2, hndx⟩, hx.congr ?_ fun x hm => ?_⟩
    · rw [Perm.mul_apply, swap_apply_left]
    · exact heq x (fun e => ha.2.2 (e ▸ hm)) fun e => hb (e ▸ hm)
  · refine ⟨List.nodup_cons.mpr ⟨hby, hndy⟩, hy.congr ?_ fun y hm => ?_⟩
    · rw [Perm.mul_apply, swap_apply_right]
    · exact heq y (fun e => ha.1 (e ▸ hm)) fun e => hby (e ▸ hm)

theorem frame {c d : ι} (h : Cyc σ a xs) (hc : c ∉ a :: xs) (hd : d ∉ a :: xs) :
    Cyc (σ * swap c d) a xs := by
  have heq : ∀ x ∈ a :: xs, (σ * swap c d) x = σ x := by
    intro x hx
    have hxc : x ≠ c := fun e => hc (e ▸ hx)
    have hxd : x ≠ d := fun e => hd (e ▸ hx)
    rw [Perm.mul_apply, swap_apply_of_ne_of_ne hxc hxd]
  exact ⟨h.nodup, h.runs.congr (heq a List.mem_cons_self)
    fun x hx => heq x (List.mem_cons_of_mem a hx)⟩

theorem join_before (ha : Cyc σ a xs) (hb : Cyc σ b ys) (hout : b ∉ a :: xs) :
    Cyc (σ * swap (σ.symm a) b) a (xs ++ (ys ++ [b])) := by
  rcases ha.symm_apply with ⟨rfl, hp⟩ | ⟨us, hus⟩
  · rw [hp]
    exact ha.join hb hout
  · generalize σ.symm a = p at hus ⊢
    subst hus
    have hp : Cyc σ p ([] ++ a :: us) := ha.rotate
    have hjoin := hp.join hb (fun hm => hout ?_)
    · have hback : Cyc (σ * swap p b) p ((ys ++ [b]) ++ a :: us) := by
        simpa using hjoin
      simpa using hback.rotate
    · simp only [List.nil_append, List.mem_cons, List.mem_append, List.not_mem_nil] at hm ⊢
      tauto

end Cyc

def takeOut (σ : Perm ι) (e : ι) : Perm ι := σ * swap (σ.symm e) e

def putBehind (σ : Perm ι) (a e : ι) : Perm ι := σ * swap a e

def putBefore (σ : Perm ι) (a e : ι) : Perm ι := σ * swap (σ.symm a) e

section

variable {σ : Perm ι} {a e : ι} {xs : List ι}

theorem takeOut_apply (σ : Perm ι) (e x : ι) :
    takeOut σ e x = if x = e then e else if σ x = e then σ e else σ x := by
  by_cases hx : x = e
  · subst hx
    rw [takeOut, Perm.mul_apply, swap_apply_right, σ.apply_symm_apply, if_pos rfl]
  · rw [takeOut, Perm.mul_apply, if_neg hx]
    by_cases hs : σ x = e
    · rw [if_pos hs, ← hs, σ.symm_apply_apply, swap_apply_left]
    · have hp : x ≠ σ.symm e := fun h => hs (h ▸ σ.apply_symm_apply e)
      rw [if_neg hs, swap_apply_of_ne_of_ne hp hx]

theorem takeOut_symm_apply (σ : Perm ι) (e x : ι) :
    (takeOut σ e).symm x = if x = e then e else if σ.symm x = e then σ.symm e else σ.symm x := by
  have hsymm : (takeOut σ e).symm x = swap (σ.symm e) e (σ.symm x) := rfl
  rw [hsymm, swap_apply_def]
  simp only [EmbeddingLike.apply_eq_iff_eq]

theorem takeOut_self (σ : Perm ι) (e : ι) : takeOut σ e e = e := by
  rw [takeOut_apply, if_pos rfl]

theorem Cyc.takeOut (h : Cyc σ a xs) (he : e ≠ a) : Cyc (takeOut σ e) a (xs.erase e) := by
  by_cases hm : e ∈ xs
  · obtain ⟨us, vs, hus, rfl, herase⟩ := List.exists_erase_eq hm
    rw [herase]
    have hcut : Cyc σ e (vs ++ a :: us) := h.rotate
    rcases hcut.symm_apply with ⟨hnil, -⟩ | ⟨ws, hws⟩
    · simp at hnil
    · -- the node in front of `e` is where the cycle is cut
      rw [CLib.takeOut]
      generalize σ.symm e = p at hws ⊢
      rw [hws] at hcut
      have hp : Cyc σ p ([] ++ e :: ws) := hcut.rotate
      have hkeep := hp.cut.1
      rcases List.eq_nil_or_concat us with rfl | ⟨us, q, rfl⟩
      · obtain ⟨rfl, hq⟩ := List.append_inj' hws rfl
        obtain rfl := List.singleton_inj.mp hq
        exact hkeep
      · rw [List.concat_eq_append, ← List.cons_append, ← List.append_assoc] at hws
        obtain ⟨rfl, hq⟩ := List.append_inj' hws rfl
        obtain rfl := List.singleton_inj.mp hq
        simpa using hkeep.rotate
  · rw [List.erase_of_not_mem hm]
    have hout : e ∉ a :: xs := by simp [he, hm]
    apply h.frame _ hout
    intro hs
    have := h.apply_mem _ hs
    rw [σ.apply_symm_apply] at this
    exact hout this

omit [DecidableEq ι] in
theorem Cyc.fixed_not_mem (h : Cyc σ a xs) (he : σ e = e) (hne : e ≠ a) : e ∉ a :: xs := by
  intro hm
  have ha := (Cyc.fixed_iff.mpr he).mem_of_common h List.mem_cons_self hm
  exact hne (List.mem_singleton.mp ha).symm

theorem Cyc.putBehind (h : Cyc σ a xs) (he : σ e = e) (hne : e ≠ a) :
    Cyc (putBehind σ a e) a (e :: xs) :=
  h.join (Cyc.fixed_iff.mpr he) (h.fixed_not_mem he hne)

theorem Cyc.putBefore (h : Cyc σ a xs) (he : σ e = e) (hne : e ≠ a) :
    Cyc (putBefore σ a e) a (xs ++ [e]) :=
  h.join_before (Cyc.fixed_iff.mpr he) (h.fixed_not_mem he hne)

end

end CLib
