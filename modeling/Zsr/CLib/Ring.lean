import Zsr.CLib.Memory
import Mathlib.Data.List.Induction
import Mathlib.Logic.Relation
import Mathlib.Data.List.Perm.Subperm

/-!
# Circular doubly linked lists in a checked heap

`Links h a xs b` says that the forward and the backward pointers of `h` both run
along `a, xs, b`. A ring is such a run from a head back to itself.
-/

namespace CLib

variable {α : Type}

/-- `a` and `b` point at each other: `b` is next after `a`, `a` is before `b`. -/
def Linked (h : Heap α) (a b : ℕ) : Prop := h.next? a = some b ∧ h.prev? b = some a

def Links (h : Heap α) : ℕ → List ℕ → ℕ → Prop
  | a, [], b => Linked h a b
  | a, x :: xs, b => Linked h a x ∧ Links h x xs b

structure IsRing (h : Heap α) (head : ℕ) (xs : List ℕ) : Prop where
  nodup : (head :: xs).Nodup
  links : Links h head xs head

theorem links_append {h : Heap α} {a x b : ℕ} {xs ys : List ℕ} :
    Links h a (xs ++ x :: ys) b ↔ Links h a xs x ∧ Links h x ys b := by
  induction xs generalizing a with
  | nil => exact Iff.rfl
  | cons y xs ih =>
    simp only [List.cons_append, Links]
    rw [ih, and_assoc]

/-- A run is untouched by writes to other forward and backward pointers. The last
forward pointer may be redirected along with the end of the run. -/
theorem Links.redirect {h h' : Heap α} {a b b' : ℕ} {xs : List ℕ} (hl : Links h a xs b)
    (hn : ∀ c ∈ (a :: xs).dropLast, h'.next? c = h.next? c)
    (hp : ∀ c ∈ xs, h'.prev? c = h.prev? c)
    (hb : Linked h' ((a :: xs).getLast (List.cons_ne_nil a xs)) b') : Links h' a xs b' := by
  induction xs generalizing a with
  | nil => exact hb
  | cons x xs ih =>
    refine ⟨⟨?_, ?_⟩, ih hl.2 ?_ ?_ ?_⟩
    · rw [hn a (by simp), hl.1.1]
    · rw [hp x (by simp), hl.1.2]
    · intro c hc
      apply hn
      simp [hc]
    · intro c hc
      apply hp
      simp [hc]
    · rwa [List.getLast_cons (List.cons_ne_nil x xs)] at hb

theorem Links.getLast {h : Heap α} {a b : ℕ} {xs : List ℕ} (hl : Links h a xs b) :
    Linked h ((a :: xs).getLast (List.cons_ne_nil a xs)) b := by
  induction xs generalizing a with
  | nil => exact hl
  | cons x xs ih =>
    rw [List.getLast_cons (List.cons_ne_nil x xs)]
    exact ih hl.2

theorem Links.frame {h h' : Heap α} {a b : ℕ} {xs : List ℕ} (hl : Links h a xs b)
    (hn : ∀ c ∈ a :: xs, h'.next? c = h.next? c)
    (hp : ∀ c ∈ xs ++ [b], h'.prev? c = h.prev? c) : Links h' a xs b := by
  refine hl.redirect (fun c hc => hn c (List.dropLast_subset _ hc))
    (fun c hc => hp c (by simp [hc])) ⟨?_, ?_⟩
  · rw [hn _ (List.getLast_mem _), hl.getLast.1]
  · rw [hp b (by simp), hl.getLast.2]

theorem Links.live {h : Heap α} {a b : ℕ} {xs : List ℕ} (hl : Links h a xs b) :
    ∀ c ∈ a :: xs, h.Live c := by
  induction xs generalizing a with
  | nil =>
    intro c hc
    rw [List.mem_singleton.mp hc]
    exact Heap.next?_eq_some_live hl.1
  | cons x xs ih =>
    intro c hc
    rcases List.mem_cons.mp hc with rfl | hc
    · exact Heap.next?_eq_some_live hl.1.1
    · exact ih hl.2 c hc

namespace IsRing

variable {h h' : Heap α} {head : ℕ} {xs : List ℕ}

theorem live (hr : IsRing h head xs) : ∀ c ∈ head :: xs, h.Live c := hr.links.live

theorem head_live (hr : IsRing h head xs) : h.Live head := hr.live head List.mem_cons_self

theorem next_head (hr : IsRing h head xs) : h.next? head = some (xs.headD head) := by
  cases xs with
  | nil => exact hr.links.1
  | cons x xs => exact hr.links.1.1

theorem prev_head (hr : IsRing h head xs) :
    h.prev? head = some ((head :: xs).getLast (List.cons_ne_nil head xs)) := hr.links.getLast.2

theorem frame (hr : IsRing h head xs) (hn : ∀ c ∈ head :: xs, h'.next? c = h.next? c)
    (hp : ∀ c ∈ head :: xs, h'.prev? c = h.prev? c) : IsRing h' head xs := by
  refine ⟨hr.nodup, hr.links.frame hn fun c hc => hp c ?_⟩
  rcases List.mem_append.mp hc with hc | hc
  · exact List.mem_cons_of_mem _ hc
  · rw [List.mem_singleton.mp hc]
    exact List.mem_cons_self

theorem fresh_not_mem (hr : IsRing h head xs) : h.fresh ∉ head :: xs := fun hm =>
  (hr.live _ hm).lt.ne rfl

theorem malloc (hr : IsRing h head xs) (v : Option α) : IsRing (h.malloc v) head xs := by
  have hne : ∀ c ∈ head :: xs, c ≠ h.fresh := fun c hc e => hr.fresh_not_mem (e ▸ hc)
  exact hr.frame (fun c hc => h.next?_malloc_of_ne v (hne c hc))
    fun c hc => h.prev?_malloc_of_ne v (hne c hc)

theorem write_val (hr : IsRing h head xs) (a : ℕ) (f : α → α) :
    IsRing (h.write a fun c => { c with val := c.val.map f }) head xs :=
  hr.frame (fun c _ => h.next?_write_val a c f) fun c _ => h.prev?_write_val a c f

theorem release (hr : IsRing h head xs) {a : ℕ} (ha : h.Live a) (hout : a ∉ head :: xs) :
    IsRing (h.release a ha) head xs := by
  have hne : ∀ c ∈ head :: xs, c ≠ a := fun c hc e => hout (e ▸ hc)
  exact hr.frame (fun c hc => h.next?_release_of_ne a ha (hne c hc))
    fun c hc => h.prev?_release_of_ne a ha (hne c hc)

theorem concat {new last : ℕ} (hr : IsRing h head xs)
    (hlast : (head :: xs).getLast (List.cons_ne_nil head xs) = last) (hout : new ∉ head :: xs)
    (hnext : ∀ x, h'.next? x =
      if x = last then some new else if x = new then some head else h.next? x)
    (hprev : ∀ x, h'.prev? x =
      if x = new then some last else if x = head then some new else h.prev? x) :
    IsRing h' head (xs ++ [new]) := by
  have hcut : (head :: xs).dropLast ++ [last] = head :: xs :=
    hlast ▸ List.dropLast_append_getLast _
  have hne : new ≠ head := fun e => hout (e ▸ List.mem_cons_self)
  have hnl : new ≠ last := by
    rintro rfl
    exact hout (hlast ▸ List.getLast_mem _)
  refine ⟨?_, links_append.mpr ⟨?_, ?_⟩⟩
  · rw [← List.cons_append]
    apply (List.perm_append_singleton new (head :: xs)).nodup_iff.mpr
    exact List.nodup_cons.mpr ⟨hout, hr.nodup⟩
  · -- all links of the old run but the last forward one are as before
    apply hr.links.redirect
    · intro c hc
      have hcl : c ≠ last := by
        have hnd := hr.nodup
        rw [← hcut, List.nodup_append] at hnd
        exact hnd.2.2 c hc last List.mem_cons_self
      have hcn : c ≠ new := by
        rintro rfl
        exact hout (List.dropLast_subset _ hc)
      rw [hnext, if_neg hcl, if_neg hcn]
    · intro c hc
      have hcn : c ≠ new := by
        rintro rfl
        exact hout (List.mem_cons_of_mem _ hc)
      have hch : c ≠ head := by
        rintro rfl
        exact (List.nodup_cons.mp hr.nodup).1 hc
      rw [hprev, if_neg hcn, if_neg hch]
    · rw [hlast]
      exact ⟨by rw [hnext, if_pos rfl], by rw [hprev, if_pos rfl]⟩
  · exact ⟨by rw [hnext, if_neg hnl, if_pos rfl], by rw [hprev, if_neg hne.symm, if_pos rfl]⟩

theorem length_lt (hr : IsRing h head xs) : xs.length < h.fresh := by
  have hsub : head :: xs ⊆ List.range h.fresh := fun c hc => List.mem_range.mpr (hr.live c hc).lt
  have hle := (hr.nodup.subperm hsub).length_le
  simpa [Nat.succ_le_iff] using hle

end IsRing

/-- What following the forward pointers from `a` can reach. -/
def Reaches (h : Heap α) (a b : ℕ) : Prop :=
  Relation.ReflTransGen (fun x y => h.next? x = some y) a b

/-- The forward pointers from `a` run along `xs` to `b`. -/
def Path (h : Heap α) : ℕ → List ℕ → ℕ → Prop
  | a, [], b => h.next? a = some b
  | a, x :: xs, b => h.next? a = some x ∧ Path h x xs b

theorem Links.path {h : Heap α} {a b : ℕ} {xs : List ℕ} (hl : Links h a xs b) :
    Path h a xs b := by
  induction xs generalizing a with
  | nil => exact hl.1
  | cons x xs ih => exact ⟨hl.1.1, ih hl.2⟩

theorem Path.next_head {h : Heap α} {a b : ℕ} {xs : List ℕ} (hp : Path h a xs b) :
    h.next? a = some (xs.headD b) := by
  cases xs with
  | nil => exact hp
  | cons x xs => exact hp.1

theorem Path.frame {h h' : Heap α} {a b : ℕ} {xs : List ℕ} (hp : Path h a xs b)
    (hn : ∀ c ∈ a :: xs, h'.next? c = h.next? c) : Path h' a xs b := by
  induction xs generalizing a with
  | nil =>
    rw [Path, hn a (by simp)]
    exact hp
  | cons x xs ih =>
    refine ⟨?_, ih hp.2 fun c hc => hn c (List.mem_cons_of_mem _ hc)⟩
    rw [hn a (by simp)]
    exact hp.1

theorem Path.release {h : Heap α} {a b c : ℕ} {xs : List ℕ} (hp : Path h a xs b) (hc : h.Live c)
    (hout : c ∉ a :: xs) : Path (h.release c hc) a xs b :=
  hp.frame fun _ hx => h.next?_release_of_ne c hc fun e => hout (e ▸ hx)

theorem Path.reaches {h : Heap α} {a b : ℕ} {xs : List ℕ} (hp : Path h a xs b) :
    ∀ c ∈ a :: xs, Reaches h a c := by
  induction xs generalizing a with
  | nil =>
    intro c hc
    rw [List.mem_singleton.mp hc]
    exact Relation.ReflTransGen.refl
  | cons x xs ih =>
    intro c hc
    rcases List.mem_cons.mp hc with rfl | hc
    · exact Relation.ReflTransGen.refl
    · exact Relation.ReflTransGen.head hp.1 (ih hp.2 c hc)

theorem Path.next_mem {h : Heap α} {a b : ℕ} {xs : List ℕ} (hp : Path h a xs b) :
    ∀ c ∈ a :: xs, ∀ d, h.next? c = some d → d ∈ b :: xs := by
  induction xs generalizing a with
  | nil =>
    intro c hc d hd
    rw [List.mem_singleton.mp hc, hp] at hd
    simp [Option.some.inj hd]
  | cons x xs ih =>
    intro c hc d hd
    rcases List.mem_cons.mp hc with rfl | hc
    · rw [hp.1] at hd
      simp [← Option.some.inj hd]
    · have hm := ih hp.2 c hc d hd
      rcases List.mem_cons.mp hm with rfl | hm
      · exact List.mem_cons_self
      · exact List.mem_cons_of_mem _ (List.mem_cons_of_mem _ hm)

theorem IsRing.reaches_iff {h : Heap α} {head : ℕ} {xs : List ℕ} (hr : IsRing h head xs)
    (c : ℕ) : Reaches h head c ↔ c ∈ head :: xs := by
  constructor
  · intro hc
    induction hc with
    | refl => exact List.mem_cons_self
    | tail _ hn ih => exact hr.links.path.next_mem _ ih _ hn
  · exact hr.links.path.reaches c

theorem Links.exists_next {h : Heap α} {a b : ℕ} {xs : List ℕ} (hl : Links h a xs b) :
    ∀ c ∈ a :: xs, ∃ d ∈ xs ++ [b], Linked h c d := by
  induction xs generalizing a with
  | nil =>
    intro c hc
    rw [List.mem_singleton.mp hc]
    exact ⟨b, List.mem_singleton_self b, hl⟩
  | cons x xs ih =>
    intro c hc
    rcases List.mem_cons.mp hc with rfl | hc
    · exact ⟨x, List.mem_cons_self, hl.1⟩
    · obtain ⟨d, hd, hcd⟩ := ih hl.2 c hc
      exact ⟨d, List.mem_cons_of_mem x hd, hcd⟩

theorem Links.exists_prev {h : Heap α} {a b : ℕ} {xs : List ℕ} (hl : Links h a xs b) :
    ∀ d ∈ xs ++ [b], ∃ c ∈ a :: xs, Linked h c d := by
  induction xs generalizing a with
  | nil =>
    intro d hd
    rw [List.mem_singleton.mp hd]
    exact ⟨a, List.mem_cons_self, hl⟩
  | cons x xs ih =>
    intro d hd
    rcases List.mem_cons.mp hd with rfl | hd
    · exact ⟨a, List.mem_cons_self, hl.1⟩
    · obtain ⟨c, hc, hcd⟩ := ih hl.2 d hd
      exact ⟨c, List.mem_cons_of_mem a hc, hcd⟩

/-- What following pointers in either direction from `a` can reach. -/
def Connected (h : Heap α) (a b : ℕ) : Prop :=
  Relation.ReflTransGen (fun x y => h.next? x = some y ∨ h.prev? x = some y) a b

namespace IsRing

variable {h : Heap α} {head : ℕ} {xs : List ℕ}

theorem exists_next (hr : IsRing h head xs) {c : ℕ} (hc : c ∈ head :: xs) :
    ∃ d ∈ head :: xs, Linked h c d := by
  obtain ⟨d, hd, hcd⟩ := hr.links.exists_next c hc
  exact ⟨d, (List.perm_append_singleton head xs).subset hd, hcd⟩

theorem exists_prev (hr : IsRing h head xs) {d : ℕ} (hd : d ∈ head :: xs) :
    ∃ c ∈ head :: xs, Linked h c d :=
  hr.links.exists_prev d ((List.perm_append_singleton head xs).symm.subset hd)

theorem next_iff_prev (hr : IsRing h head xs) {x y : ℕ} (hx : x ∈ head :: xs)
    (hy : y ∈ head :: xs) : h.next? x = some y ↔ h.prev? y = some x := by
  constructor
  · intro hn
    obtain ⟨d, -, hd⟩ := hr.exists_next hx
    rw [hd.1, Option.some.injEq] at hn
    rw [← hn, hd.2]
  · intro hp
    obtain ⟨c, -, hc⟩ := hr.exists_prev hy
    rw [hc.2, Option.some.injEq] at hp
    rw [← hp, hc.1]

theorem mem_of_connected (hr : IsRing h head xs) {c : ℕ} (hc : Connected h head c) :
    c ∈ head :: xs := by
  induction hc with
  | refl => exact List.mem_cons_self
  | tail _ hn ih =>
    rcases hn with hn | hp
    · obtain ⟨d, hd, hl⟩ := hr.exists_next ih
      rw [hl.1, Option.some.injEq] at hn
      rwa [← hn]
    · obtain ⟨d, hd, hl⟩ := hr.exists_prev ih
      rw [hl.2, Option.some.injEq] at hp
      rwa [← hp]

end IsRing

/-- The nodes met when a pointer is followed from `pos` until `head` comes. -/
def walk (link : ℕ → Option ℕ) (head : ℕ) : ℕ → ℕ → Option (List ℕ)
  | 0, _ => none
  | fuel + 1, pos =>
    if pos = head then some []
    else do
      let xs ← walk link head fuel (← link pos)
      some (pos :: xs)

theorem Path.walk_eq {h : Heap α} {a b : ℕ} {xs : List ℕ} (hp : Path h a xs b) (hb : b ∉ xs)
    {k : ℕ} (hk : xs.length < k) : (h.next? a).bind (walk h.next? b k) = some xs := by
  induction xs generalizing a k with
  | nil =>
    obtain ⟨k, rfl⟩ := Nat.exists_eq_succ_of_ne_zero (Nat.ne_of_gt hk)
    rw [hp, Option.bind_some, walk, if_pos rfl]
  | cons x xs ih =>
    obtain ⟨k, rfl⟩ := Nat.exists_eq_succ_of_ne_zero (Nat.ne_of_gt (Nat.zero_lt_of_lt hk))
    rw [List.mem_cons, not_or] at hb
    have hrest := ih hp.2 hb.2 (Nat.lt_of_succ_lt_succ hk)
    obtain ⟨y, hy, hw⟩ := Option.bind_eq_some_iff.mp hrest
    rw [hp.1, Option.bind_some, walk, if_neg (Ne.symm hb.1), hy]
    simp only [Option.bind_eq_bind, Option.bind_some, hw]

theorem Links.walk_prev_eq {h : Heap α} {a b : ℕ} {xs : List ℕ} (hl : Links h a xs b)
    (ha : a ∉ xs) {k : ℕ} (hk : xs.length < k) :
    (h.prev? b).bind (walk h.prev? a k) = some xs.reverse := by
  induction xs using List.reverseRecOn generalizing b k with
  | nil =>
    obtain ⟨k, rfl⟩ := Nat.exists_eq_succ_of_ne_zero (Nat.ne_of_gt hk)
    rw [hl.2, Option.bind_some, walk, if_pos rfl]
    rfl
  | append_singleton xs x ih =>
    obtain ⟨k, rfl⟩ := Nat.exists_eq_succ_of_ne_zero (Nat.ne_of_gt (Nat.zero_lt_of_lt hk))
    rw [List.mem_append, List.mem_singleton, not_or] at ha
    rw [List.length_append, List.length_singleton] at hk
    obtain ⟨hfront, hlast⟩ := links_append.mp hl
    have hrest := ih hfront ha.1 (Nat.lt_of_succ_lt_succ hk)
    obtain ⟨y, hy, hw⟩ := Option.bind_eq_some_iff.mp hrest
    rw [hlast.2, Option.bind_some, walk, if_neg (Ne.symm ha.2), hy]
    simp only [Option.bind_eq_bind, Option.bind_some, hw, List.reverse_append,
      List.reverse_singleton, List.singleton_append]

end CLib
