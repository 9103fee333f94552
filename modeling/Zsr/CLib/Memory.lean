import Mathlib.Logic.Function.Basic
import Mathlib.Data.List.Nodup
import Mathlib.Data.List.Perm.Basic
import Mathlib.Order.Basic
import Mathlib.Order.Lattice

/-!
# A checked heap of list nodes

Every access goes through `Option`: reading, writing or freeing a block that is not
allocated gives `none`, so a run that gives `some` never uses a block after it was
freed and frees no block twice. Addresses are handed out once.
-/

namespace CLib

/-- A block with list links in it; `val` is `none` in a bare list head. -/
structure Cell (α : Type) where
  next : ℕ
  prev : ℕ
  val : Option α
  deriving DecidableEq

structure Heap (α : Type) where
  cell : ℕ → Option (Cell α)
  /-- The address the next allocation returns. -/
  fresh : ℕ
  /-- The addresses freed so far, the latest first. -/
  freed : List ℕ
  dead_iff : ∀ a, cell a = none ↔ fresh ≤ a ∨ a ∈ freed
  freed_lt : ∀ a ∈ freed, a < fresh
  freed_nodup : freed.Nodup

namespace Heap

variable {α : Type}

def Live (h : Heap α) (a : ℕ) : Prop := (h.cell a).isSome = true

instance (h : Heap α) (a : ℕ) : Decidable (h.Live a) := inferInstanceAs (Decidable (_ = _))

def next? (h : Heap α) (a : ℕ) : Option ℕ := (h.cell a).map Cell.next

def prev? (h : Heap α) (a : ℕ) : Option ℕ := (h.cell a).map Cell.prev

def val? (h : Heap α) (a : ℕ) : Option α := (h.cell a).bind Cell.val

def empty : Heap α where
  cell _ := none
  fresh := 0
  freed := []
  dead_iff a := by simp
  freed_lt a ha := by cases ha
  freed_nodup := List.nodup_nil

/-- A heap after the allocation of a block, which lies at the old `fresh`. -/
def malloc (h : Heap α) (v : Option α) : Heap α where
  cell a := if a = h.fresh then some ⟨0, 0, v⟩ else h.cell a
  fresh := h.fresh + 1
  freed := h.freed
  dead_iff a := by
    have hd := h.dead_iff a
    have hl := h.freed_lt a
    split
    · rename_i ha
      simp only [reduceCtorEq, false_iff, not_or, not_le]
      exact ⟨by omega, fun hm => by have := hl hm; omega⟩
    · rename_i ha
      rw [hd]
      constructor <;> rintro (hc | hc) <;> first | exact Or.inr hc | exact Or.inl (by omega)
  freed_lt a ha := (h.freed_lt a ha).trans (Nat.lt_succ_self _)
  freed_nodup := h.freed_nodup

theorem live_iff {h : Heap α} {a : ℕ} : h.Live a ↔ a < h.fresh ∧ a ∉ h.freed := by
  rw [Live, Option.isSome_iff_ne_none, ne_eq, h.dead_iff, not_or, not_le]

theorem not_live_empty {a : ℕ} : ¬(empty : Heap α).Live a := by simp [live_iff, empty]

theorem Live.lt {h : Heap α} {a : ℕ} (ha : h.Live a) : a < h.fresh := (live_iff.mp ha).1

def write (h : Heap α) (a : ℕ) (f : Cell α → Cell α) : Heap α where
  cell x := if x = a then (h.cell x).map f else h.cell x
  fresh := h.fresh
  freed := h.freed
  dead_iff x := by
    rw [← h.dead_iff x]
    split
    · exact Option.map_eq_none_iff
    · exact Iff.rfl
  freed_lt := h.freed_lt
  freed_nodup := h.freed_nodup

def modify (h : Heap α) (a : ℕ) (f : Cell α → Cell α) : Option (Heap α) :=
  if h.Live a then some (h.write a f) else none

def setNext (h : Heap α) (a v : ℕ) : Option (Heap α) := h.modify a fun c => { c with next := v }

def setPrev (h : Heap α) (a v : ℕ) : Option (Heap α) := h.modify a fun c => { c with prev := v }

def update (h : Heap α) (a : ℕ) (f : α → α) : Option (Heap α) :=
  h.modify a fun c => { c with val := c.val.map f }

def release (h : Heap α) (a : ℕ) (ha : h.Live a) : Heap α where
  cell x := if x = a then none else h.cell x
  fresh := h.fresh
  freed := a :: h.freed
  dead_iff x := by
    have hd := h.dead_iff x
    rw [List.mem_cons]
    split
    · rename_i hx
      simp [hx]
    · rename_i hx
      rw [hd]
      simp [hx]
  freed_lt x hx := by
    rcases List.mem_cons.mp hx with rfl | hx
    · exact ha.lt
    · exact h.freed_lt x hx
  freed_nodup := List.nodup_cons.mpr ⟨(live_iff.mp ha).2, h.freed_nodup⟩

def free (h : Heap α) (a : ℕ) : Option (Heap α) :=
  if ha : h.Live a then some (h.release a ha) else none

section Fields

variable (h : Heap α) (a x : ℕ)

theorem malloc_cell (v : Option α) :
    (h.malloc v).cell x = if x = h.fresh then some ⟨0, 0, v⟩ else h.cell x := rfl

theorem malloc_cell_of_ne (v : Option α) {x : ℕ} (hx : x ≠ h.fresh) :
    (h.malloc v).cell x = h.cell x := if_neg hx

@[simp] theorem malloc_live (v : Option α) :
    (h.malloc v).Live x ↔ x = h.fresh ∨ h.Live x := by
  unfold Live
  rw [malloc_cell]
  split <;> simp [*]

theorem write_cell (f : Cell α → Cell α) :
    (h.write a f).cell x = if x = a then (h.cell x).map f else h.cell x := rfl

@[simp] theorem write_live (f : Cell α → Cell α) : (h.write a f).Live x ↔ h.Live x := by
  unfold Live
  rw [write_cell]
  split <;> simp

theorem modify_of_live {h : Heap α} {a : ℕ} (ha : h.Live a) (f : Cell α → Cell α) :
    h.modify a f = some (h.write a f) := if_pos ha

theorem free_of_live {h : Heap α} {a : ℕ} (ha : h.Live a) : h.free a = some (h.release a ha) :=
  dif_pos ha

theorem release_cell (ha : h.Live a) :
    (h.release a ha).cell x = if x = a then none else h.cell x := rfl

@[simp] theorem release_freed (ha : h.Live a) : (h.release a ha).freed = a :: h.freed := rfl

theorem next?_eq_some_live {h : Heap α} {a b : ℕ} (hn : h.next? a = some b) : h.Live a := by
  unfold next? at hn
  unfold Live
  cases hc : h.cell a with
  | none => rw [hc] at hn; cases hn
  | some c => rfl

theorem val?_eq_some_live {h : Heap α} {a : ℕ} {v : α} (hv : h.val? a = some v) : h.Live a := by
  unfold val? at hv
  unfold Live
  cases hc : h.cell a with
  | none => rw [hc] at hv; cases hv
  | some c => rfl

theorem exists_next {h : Heap α} {a : ℕ} (ha : h.Live a) : ∃ b, h.next? a = some b := by
  obtain ⟨c, hc⟩ := Option.isSome_iff_exists.mp ha
  exact ⟨c.next, by rw [next?, hc, Option.map_some]⟩

theorem next?_write_next (v : ℕ) (ha : h.Live a) :
    (h.write a fun c => { c with next := v }).next? x = if x = a then some v else h.next? x := by
  unfold next?
  rw [write_cell]
  obtain ⟨c, hc⟩ := Option.isSome_iff_exists.mp ha
  by_cases hx : x = a
  · subst hx
    simp [hc]
  · simp [hx]

theorem prev?_write_prev (v : ℕ) (ha : h.Live a) :
    (h.write a fun c => { c with prev := v }).prev? x = if x = a then some v else h.prev? x := by
  unfold prev?
  rw [write_cell]
  obtain ⟨c, hc⟩ := Option.isSome_iff_exists.mp ha
  by_cases hx : x = a
  · subst hx
    simp [hc]
  · simp [hx]

@[simp] theorem next?_write_prev (v : ℕ) :
    (h.write a fun c => { c with prev := v }).next? x = h.next? x := by
  unfold next?
  rw [write_cell]
  split <;> simp [Function.comp_def]

@[simp] theorem prev?_write_next (v : ℕ) :
    (h.write a fun c => { c with next := v }).prev? x = h.prev? x := by
  unfold prev?
  rw [write_cell]
  split <;> simp [Function.comp_def]

@[simp] theorem val?_write_next (v : ℕ) :
    (h.write a fun c => { c with next := v }).val? x = h.val? x := by
  unfold val?
  rw [write_cell]
  split
  · rw [Option.bind_map]
    rfl
  · rfl

@[simp] theorem val?_write_prev (v : ℕ) :
    (h.write a fun c => { c with prev := v }).val? x = h.val? x := by
  unfold val?
  rw [write_cell]
  split
  · rw [Option.bind_map]
    rfl
  · rfl

@[simp] theorem next?_write_val (f : α → α) :
    (h.write a fun c => { c with val := c.val.map f }).next? x = h.next? x := by
  unfold next?
  rw [write_cell]
  split <;> simp [Function.comp_def]

@[simp] theorem prev?_write_val (f : α → α) :
    (h.write a fun c => { c with val := c.val.map f }).prev? x = h.prev? x := by
  unfold prev?
  rw [write_cell]
  split <;> simp [Function.comp_def]

theorem val?_write_val (f : α → α) :
    (h.write a fun c => { c with val := c.val.map f }).val? x =
      if x = a then (h.val? x).map f else h.val? x := by
  unfold val?
  rw [write_cell]
  split
  · cases h.cell x <;> rfl
  · rfl

theorem val?_malloc (v : Option α) :
    (h.malloc v).val? x = if x = h.fresh then v else h.val? x := by
  unfold val?
  rw [malloc_cell]
  split <;> rfl

theorem next?_malloc_of_ne (v : Option α) {x : ℕ} (hx : x ≠ h.fresh) :
    (h.malloc v).next? x = h.next? x := by
  rw [next?, malloc_cell_of_ne h v hx, next?]

theorem prev?_malloc_of_ne (v : Option α) {x : ℕ} (hx : x ≠ h.fresh) :
    (h.malloc v).prev? x = h.prev? x := by
  rw [prev?, malloc_cell_of_ne h v hx, prev?]

theorem release_cell_of_ne (ha : h.Live a) {x : ℕ} (hx : x ≠ a) :
    (h.release a ha).cell x = h.cell x := if_neg hx

theorem next?_release_of_ne (ha : h.Live a) {x : ℕ} (hx : x ≠ a) :
    (h.release a ha).next? x = h.next? x := by
  rw [next?, release_cell_of_ne h a ha hx, next?]

theorem prev?_release_of_ne (ha : h.Live a) {x : ℕ} (hx : x ≠ a) :
    (h.release a ha).prev? x = h.prev? x := by
  rw [prev?, release_cell_of_ne h a ha hx, prev?]

theorem release_live (ha : h.Live a) : (h.release a ha).Live x ↔ x ≠ a ∧ h.Live x := by
  unfold Live
  rw [release_cell]
  split <;> simp [*]

theorem fresh_of_modify {h h' : Heap α} {a : ℕ} {f : Cell α → Cell α}
    (he : h.modify a f = some h') : h'.fresh = h.fresh := by
  unfold modify at he
  split at he
  · obtain rfl := Option.some.inj he
    rfl
  · cases he

end Fields

/-- The number of blocks that were allocated and not freed. -/
def liveCount (h : Heap α) : ℕ := ((List.range h.fresh).filter fun a => h.Live a).length

theorem liveCount_eq {h : Heap α} {l : List ℕ} (hl : l.Nodup) (hlive : ∀ a, h.Live a ↔ a ∈ l) :
    h.liveCount = l.length := by
  apply List.Perm.length_eq
  refine (List.perm_ext_iff_of_nodup (List.nodup_range.filter _) hl).mpr fun a => ?_
  rw [List.mem_filter, List.mem_range, decide_eq_true_eq, ← hlive]
  exact and_iff_right_of_imp Live.lt

theorem liveCount_add_freed (h : Heap α) : h.liveCount + h.freed.length = h.fresh := by
  have hdead :
      h.freed.length = ((List.range h.fresh).filter fun a => !decide (h.Live a)).length := by
    apply List.Perm.length_eq
    refine (List.perm_ext_iff_of_nodup h.freed_nodup (List.nodup_range.filter _)).mpr fun a => ?_
    rw [List.mem_filter, List.mem_range, Bool.not_eq_true', decide_eq_false_iff_not, live_iff]
    have hlt := h.freed_lt a
    tauto
  rw [hdead, liveCount, ← List.length_append]
  exact (List.filter_append_perm _ _).length_eq.trans List.length_range

theorem live_of_liveCount_le {h h' : Heap α} (hkept : ∀ a, h.Live a → h'.Live a)
    (hle : h'.liveCount ≤ h.liveCount) {a : ℕ} (ha : h'.Live a) : h.Live a := by
  have hmem (g : Heap α) (x : ℕ) : x ∈ (List.range g.fresh).filter (fun a => g.Live a) ↔
      g.Live x := by
    rw [List.mem_filter, List.mem_range, decide_eq_true_eq]
    exact and_iff_right_of_imp Live.lt
  have hsub : List.Subperm ((List.range h.fresh).filter fun a => h.Live a)
      ((List.range h'.fresh).filter fun a => h'.Live a) := by
    refine List.subperm_of_subset (List.nodup_range.filter _) fun x hx => ?_
    exact (hmem h' x).mpr (hkept x ((hmem h x).mp hx))
  exact (hmem h a).mp ((hsub.perm_of_length_le hle).mem_iff.mpr ((hmem h' a).mpr ha))

section Count

variable (h : Heap α) (a : ℕ)

theorem liveCount_malloc (v : Option α) : (h.malloc v).liveCount = h.liveCount + 1 := by
  have hcount := h.liveCount_add_freed
  have hcount' := (h.malloc v).liveCount_add_freed
  have hfreed : (h.malloc v).freed = h.freed := rfl
  have hfresh : (h.malloc v).fresh = h.fresh + 1 := rfl
  rw [hfreed, hfresh] at hcount'
  omega

theorem liveCount_write (f : Cell α → Cell α) : (h.write a f).liveCount = h.liveCount := by
  have hcount := h.liveCount_add_freed
  have hcount' := (h.write a f).liveCount_add_freed
  have hfreed : (h.write a f).freed = h.freed := rfl
  have hfresh : (h.write a f).fresh = h.fresh := rfl
  rw [hfreed, hfresh] at hcount'
  omega

theorem liveCount_release (ha : h.Live a) : (h.release a ha).liveCount = h.liveCount - 1 := by
  have hcount := h.liveCount_add_freed
  have hcount' := (h.release a ha).liveCount_add_freed
  have hfresh : (h.release a ha).fresh = h.fresh := rfl
  rw [release_freed, hfresh, List.length_cons] at hcount'
  omega

end Count

end Heap
end CLib
