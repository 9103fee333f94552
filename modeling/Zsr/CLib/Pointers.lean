import Zsr.CLib.Cycles
import Zsr.CLib.Ring
import Mathlib.Data.Set.Insert

namespace CLib
open Equiv

variable {α : Type}

/-- The nodes in `s` are linked as `σ` says, which moves no others. -/
structure Points (h : Heap α) (s : Set ℕ) (σ : Perm ℕ) : Prop where
  next : ∀ a ∈ s, h.next? a = some (σ a)
  prev : ∀ a ∈ s, h.prev? a = some (σ.symm a)
  fixed : ∀ a, a ∉ s → σ a = a

namespace Points

variable {h : Heap α} {s : Set ℕ} {σ : Perm ℕ} {a : ℕ} {xs : List ℕ}

theorem live (hp : Points h s σ) (ha : a ∈ s) : h.Live a :=
  Heap.next?_eq_some_live (hp.next a ha)

theorem apply_mem (hp : Points h s σ) (ha : a ∈ s) : σ a ∈ s := by
  by_contra hn
  have hfix := σ.injective (hp.fixed _ hn)
  exact hn (hfix.symm ▸ ha)

theorem symm_mem (hp : Points h s σ) (ha : a ∈ s) : σ.symm a ∈ s := by
  by_contra hn
  have hfix := hp.fixed _ hn
  rw [σ.apply_symm_apply] at hfix
  exact hn (hfix ▸ ha)

theorem isRing (hp : Points h s σ) (ha : a ∈ s) (hc : Cyc σ a xs) : IsRing h a xs := by
  have hlinked : ∀ x ∈ s, Linked h x (σ x) := by
    intro x hx
    refine ⟨hp.next x hx, ?_⟩
    rw [hp.prev _ (hp.apply_mem hx), σ.symm_apply_apply]
  have hlinks : ∀ {a b : ℕ} {xs : List ℕ}, a ∈ s → Runs σ a xs b → Links h a xs b := by
    intro a b xs ha hr
    induction xs generalizing a with
    | nil =>
      have hab := hlinked a ha
      rw [hr] at hab
      exact hab
    | cons x xs ih =>
      have hax := hlinked a ha
      rw [hr.1] at hax
      exact ⟨hax, ih (hr.1 ▸ hp.apply_mem ha) hr.2⟩
  exact ⟨hc.nodup, hlinks ha hc.runs⟩

theorem cyc (hp : Points h s σ) (hr : IsRing h a xs) (hs : ∀ x ∈ a :: xs, x ∈ s) :
    Cyc σ a xs := by
  have hruns : ∀ {a b : ℕ} {xs : List ℕ}, (∀ x ∈ a :: xs, x ∈ s) → Links h a xs b →
      Runs σ a xs b := by
    intro a b xs hs hl
    have hnext := hp.next a (hs a List.mem_cons_self)
    induction xs generalizing a with
    | nil => exact Option.some.inj (hnext.symm.trans hl.1)
    | cons x xs ih =>
      have hs' : ∀ y ∈ x :: xs, y ∈ s := fun y hy => hs y (List.mem_cons_of_mem a hy)
      refine ⟨Option.some.inj (hnext.symm.trans hl.1.1), ih hs' hl.2 ?_⟩
      exact hp.next x (hs' x List.mem_cons_self)
  exact ⟨hr.nodup, hruns hs hr.links⟩

end Points

/-- The nodes of some rings, each known by its head. -/
def ringNodes (c : ℕ → Option (List ℕ)) : Set ℕ := {x | ∃ a xs, c a = some xs ∧ x ∈ a :: xs}

theorem mem_ringNodes {c : ℕ → Option (List ℕ)} {a x : ℕ} {xs : List ℕ} (h : c a = some xs)
    (hx : x ∈ a :: xs) : x ∈ ringNodes c := ⟨a, xs, h, hx⟩

theorem exists_points {h : Heap α} {c : ℕ → Option (List ℕ)}
    (hring : ∀ a xs, c a = some xs → IsRing h a xs) :
    ∃ σ, Points h (ringNodes c) σ ∧ ∀ a xs, c a = some xs → Cyc σ a xs := by
  classical
  have hnext : ∀ x ∈ ringNodes c, ∃ y ∈ ringNodes c, Linked h x y := by
    rintro x ⟨a, xs, hc, hx⟩
    obtain ⟨y, hy, hl⟩ := (hring a xs hc).exists_next hx
    exact ⟨y, mem_ringNodes hc hy, hl⟩
  have hprev : ∀ y ∈ ringNodes c, ∃ x ∈ ringNodes c, Linked h x y := by
    rintro y ⟨a, xs, hc, hy⟩
    obtain ⟨x, hx, hl⟩ := (hring a xs hc).exists_prev hy
    exact ⟨x, mem_ringNodes hc hx, hl⟩
  let σ : Perm ℕ :=
    { toFun x := if x ∈ ringNodes c then (h.next? x).getD x else x
      invFun y := if y ∈ ringNodes c then (h.prev? y).getD y else y
      left_inv x := by
        by_cases hx : x ∈ ringNodes c
        · obtain ⟨y, hy, hl⟩ := hnext x hx
          simp [hx, hl.1, hy, hl.2]
        · simp [hx]
      right_inv y := by
        by_cases hy : y ∈ ringNodes c
        · obtain ⟨x, hx, hl⟩ := hprev y hy
          simp [hy, hl.2, hx, hl.1]
        · simp [hy] }
  have hp : Points h (ringNodes c) σ := by
    refine ⟨fun x hx => ?_, fun y hy => ?_, fun x hx => if_neg hx⟩
    · obtain ⟨y, -, hl⟩ := hnext x hx
      rw [hl.1]
      exact congrArg some (by simp [σ, hx, hl.1])
    · obtain ⟨x, -, hl⟩ := hprev y hy
      rw [hl.2]
      exact congrArg some (by simp [σ, Equiv.symm, hy, hl.2])
  exact ⟨σ, hp, fun a xs hc => hp.cyc (hring a xs hc) fun x hx => mem_ringNodes hc hx⟩

structure SameBlocks (h h' : Heap α) : Prop where
  fresh : h'.fresh = h.fresh
  freed : h'.freed = h.freed
  val : ∀ x, h'.val? x = h.val? x

namespace SameBlocks

variable {h h' h'' : Heap α}

theorem refl (h : Heap α) : SameBlocks h h := ⟨rfl, rfl, fun _ => rfl⟩

theorem trans (h1 : SameBlocks h h') (h2 : SameBlocks h' h'') : SameBlocks h h'' where
  fresh := h2.fresh.trans h1.fresh
  freed := h2.freed.trans h1.freed
  val x := (h2.val x).trans (h1.val x)

theorem live (hs : SameBlocks h h') (x : ℕ) : h'.Live x ↔ h.Live x := by
  rw [Heap.live_iff, Heap.live_iff, hs.fresh, hs.freed]

end SameBlocks

/-- The blocks and the records of `h`, with the forward links `n` and the backward links
`p`. -/
structure Relinked (h : Heap α) (n p : ℕ → Option ℕ) (h' : Heap α) : Prop where
  same : SameBlocks h h'
  next : h'.next? = n
  prev : h'.prev? = p

namespace Relinked

variable {h h' : Heap α} {n p : ℕ → Option ℕ} {a : ℕ}

theorem refl (h : Heap α) : Relinked h h.next? h.prev? h := ⟨.refl h, rfl, rfl⟩

theorem setNext (hr : Relinked h n p h') (ha : h.Live a) (v : ℕ) :
    ∃ h2, h'.setNext a v = some h2 ∧ Relinked h (Function.update n a (some v)) p h2 := by
  have ha' := (hr.same.live a).mpr ha
  refine ⟨_, Heap.modify_of_live ha' _, hr.same.trans ⟨rfl, rfl, fun x => ?_⟩, ?_, ?_⟩
  · exact Heap.val?_write_next _ _ _ _
  · funext x
    rw [Heap.next?_write_next _ _ _ _ ha', hr.next, Function.update_apply]
  · funext x
    rw [Heap.prev?_write_next, hr.prev]

theorem setPrev (hr : Relinked h n p h') (ha : h.Live a) (v : ℕ) :
    ∃ h2, h'.setPrev a v = some h2 ∧ Relinked h n (Function.update p a (some v)) h2 := by
  have ha' := (hr.same.live a).mpr ha
  refine ⟨_, Heap.modify_of_live ha' _, hr.same.trans ⟨rfl, rfl, fun x => ?_⟩, ?_, ?_⟩
  · exact Heap.val?_write_prev _ _ _ _
  · funext x
    rw [Heap.next?_write_prev, hr.next]
  · funext x
    rw [Heap.prev?_write_prev _ _ _ _ ha', hr.prev, Function.update_apply]

end Relinked

end CLib
