import Zsr.CLib.Ring

/-!
# The operations of `list.h`

Each of them writes what the source writes, in its order, on a checked heap; a node is
the address of its `list_head_t`, which is the first member of every record.
-/

namespace Zsr
open CLib

variable {α : Type}

def initListHead (h : Heap α) (list : ℕ) : Option (Heap α) := do
  let h ← h.setNext list list
  h.setPrev list list

def listAddBetween (h : Heap α) (new prev next : ℕ) : Option (Heap α) := do
  let h ← h.setPrev next new
  let h ← h.setNext new next
  let h ← h.setPrev new prev
  h.setNext prev new

def listAddTail (h : Heap α) (new head : ℕ) : Option (Heap α) := do
  listAddBetween h new (← h.prev? head) head

def listDelBetween (h : Heap α) (prev next : ℕ) : Option (Heap α) := do
  let h ← h.setPrev next prev
  h.setNext prev next

def listDelEntry (h : Heap α) (entry : ℕ) : Option (Heap α) := do
  listDelBetween h (← h.prev? entry) (← h.next? entry)

def listDelInit (h : Heap α) (entry : ℕ) : Option (Heap α) := do
  initListHead (← listDelEntry h entry) entry

def listEmpty (h : Heap α) (head : ℕ) : Option Bool := do
  some ((← h.next? head) == head)

/-- The loop of `FREE_LIST_HEAD`: the next node is fetched before the entry is freed. -/
def freeEntries (head : ℕ) : ℕ → ℕ → ℕ → Heap α → Option (Heap α)
  | 0, _, _, _ => none
  | fuel + 1, pos, n, h =>
    if pos = head then some h
    else do
      let h ← h.free pos
      freeEntries head fuel n (← h.next? n) h

/-- `list_for_each_entry_safe`, with the two cursors; the body may free the entry. -/
def forEachEntrySafe (body : ℕ → Heap α → Option (Heap α)) (head : ℕ) :
    ℕ → ℕ → ℕ → Heap α → Option (Heap α)
  | 0, _, _, _ => none
  | fuel + 1, pos, n, h =>
    if pos = head then some h
    else do
      let h ← body pos h
      forEachEntrySafe body head fuel n (← h.next? n) h

def listForEachEntry (h : Heap α) (head : ℕ) : Option (List ℕ) :=
  (h.next? head).bind (walk h.next? head (h.fresh + 1))

def listForEachEntryReverse (h : Heap α) (head : ℕ) : Option (List ℕ) :=
  (h.prev? head).bind (walk h.prev? head (h.fresh + 1))

/-- `FREE_LIST_HEAD`. No list has more nodes than addresses were handed out. -/
def freeListHead (h : Heap α) (head : ℕ) : Option (Heap α) := do
  let pos ← h.next? head
  freeEntries head (h.fresh + 1) pos (← h.next? pos) h

/-- The two heaps differ in the links of the nodes in `s` only. -/
structure RelinkedAt (s : List ℕ) (h h' : Heap α) : Prop where
  fresh : h'.fresh = h.fresh
  freed : h'.freed = h.freed
  val : ∀ x, h'.val? x = h.val? x
  next : ∀ x, x ∉ s → h'.next? x = h.next? x
  prev : ∀ x, x ∉ s → h'.prev? x = h.prev? x

namespace RelinkedAt

variable {s : List ℕ} {h h' h'' : Heap α}

theorem trans (h1 : RelinkedAt s h h') (h2 : RelinkedAt s h' h'') : RelinkedAt s h h'' where
  fresh := h2.fresh.trans h1.fresh
  freed := h2.freed.trans h1.freed
  val x := (h2.val x).trans (h1.val x)
  next x hx := (h2.next x hx).trans (h1.next x hx)
  prev x hx := (h2.prev x hx).trans (h1.prev x hx)

theorem live (h1 : RelinkedAt s h h') (x : ℕ) : h'.Live x ↔ h.Live x := by
  rw [Heap.live_iff, Heap.live_iff, h1.fresh, h1.freed]

theorem ring {head : ℕ} {xs : List ℕ} (h1 : RelinkedAt s h h') (hr : IsRing h head xs)
    (hs : ∀ x ∈ head :: xs, x ∉ s) : IsRing h' head xs :=
  hr.frame (fun x hx => h1.next x (hs x hx)) fun x hx => h1.prev x (hs x hx)

end RelinkedAt

theorem setNext_spec {s : List ℕ} {h : Heap α} {a : ℕ} (ha : h.Live a) (has : a ∈ s) (v : ℕ) :
    ∃ h', h.setNext a v = some h' ∧ RelinkedAt s h h' ∧
      (∀ x, h'.next? x = if x = a then some v else h.next? x) ∧ ∀ x, h'.prev? x = h.prev? x := by
  refine ⟨_, Heap.modify_of_live ha _, ⟨rfl, rfl, fun x => ?_, fun x hx => ?_, fun x hx => ?_⟩,
    fun x => ?_, fun x => ?_⟩
  · exact h.val?_write_next a x v
  · rw [h.next?_write_next a x v ha, if_neg]
    rintro rfl
    exact hx has
  · exact h.prev?_write_next a x v
  · exact h.next?_write_next a x v ha
  · exact h.prev?_write_next a x v

theorem setPrev_spec {s : List ℕ} {h : Heap α} {a : ℕ} (ha : h.Live a) (has : a ∈ s) (v : ℕ) :
    ∃ h', h.setPrev a v = some h' ∧ RelinkedAt s h h' ∧
      (∀ x, h'.prev? x = if x = a then some v else h.prev? x) ∧ ∀ x, h'.next? x = h.next? x := by
  refine ⟨_, Heap.modify_of_live ha _, ⟨rfl, rfl, fun x => ?_, fun x hx => ?_, fun x hx => ?_⟩,
    fun x => ?_, fun x => ?_⟩
  · exact h.val?_write_prev a x v
  · exact h.next?_write_prev a x v
  · rw [h.prev?_write_prev a x v ha, if_neg]
    rintro rfl
    exact hx has
  · exact h.prev?_write_prev a x v ha
  · exact h.next?_write_prev a x v

theorem headD_mem (head : ℕ) (xs : List ℕ) : xs.headD head ∈ head :: xs := by
  cases xs with
  | nil => exact List.mem_cons_self
  | cons x xs => exact List.mem_cons_of_mem _ List.mem_cons_self

theorem initListHead_ring {h : Heap α} {a : ℕ} (ha : h.Live a) :
    ∃ h', initListHead h a = some h' ∧ IsRing h' a [] ∧ RelinkedAt [a] h h' := by
  obtain ⟨h1, e1, r1, n1, p1⟩ := setNext_spec ha List.mem_cons_self a
  obtain ⟨h2, e2, r2, p2, n2⟩ := setPrev_spec ((r1.live a).mpr ha) (s := [a]) List.mem_cons_self a
  refine ⟨h2, ?_, ⟨List.nodup_singleton a, ?_, ?_⟩, r1.trans r2⟩
  · rw [initListHead, e1]
    exact e2
  · rw [n2, n1, if_pos rfl]
  · rw [p2, if_pos rfl]

theorem emptyList_ring : IsRing ((Heap.empty : Heap α).malloc none) 0 [] :=
  ⟨List.nodup_singleton 0, rfl, rfl⟩

theorem listAddTail_spec {h : Heap α} {new head last : ℕ} {xs : List ℕ} (hr : IsRing h head xs)
    (hlast : (head :: xs).getLast (List.cons_ne_nil head xs) = last) (hnew : h.Live new) :
    ∃ h', listAddTail h new head = some h' ∧ RelinkedAt (new :: head :: xs) h h' ∧
      (∀ x, h'.next? x =
        if x = last then some new else if x = new then some head else h.next? x) ∧
      ∀ x, h'.prev? x =
        if x = new then some last else if x = head then some new else h.prev? x := by
  have hmem : last ∈ head :: xs := hlast ▸ List.getLast_mem _
  have hprev : h.prev? head = some last := hlast ▸ hr.prev_head
  obtain ⟨h1, e1, r1, p1, n1⟩ :=
    setPrev_spec (s := new :: head :: xs) hr.head_live (by simp) new
  obtain ⟨h2, e2, r2, n2, p2⟩ :=
    setNext_spec (s := new :: head :: xs) ((r1.live new).mpr hnew) (by simp) head
  obtain ⟨h3, e3, r3, p3, n3⟩ :=
    setPrev_spec (s := new :: head :: xs) (((r1.trans r2).live new).mpr hnew) (by simp) last
  obtain ⟨h4, e4, r4, n4, p4⟩ :=
    setNext_spec (s := new :: head :: xs)
      ((((r1.trans r2).trans r3).live last).mpr (hr.live last hmem))
      (List.mem_cons_of_mem _ hmem) new
  refine ⟨h4, ?_, ((r1.trans r2).trans r3).trans r4, fun x => ?_, fun x => ?_⟩
  · rw [listAddTail, hprev]
    simp only [Option.bind_eq_bind, Option.bind_some, listAddBetween, e1, e2, e3, e4]
  · rw [n4, n3, n2, n1]
  · rw [p4, p3, p2, p1]

theorem listAddTail_ring {h : Heap α} {new head : ℕ} {xs : List ℕ} (hr : IsRing h head xs)
    (hnew : h.Live new) (hout : new ∉ head :: xs) :
    ∃ h', listAddTail h new head = some h' ∧ IsRing h' head (xs ++ [new]) ∧
      RelinkedAt (new :: head :: xs) h h' := by
  obtain ⟨last, hlast⟩ : ∃ l, (head :: xs).getLast (List.cons_ne_nil head xs) = l := ⟨_, rfl⟩
  obtain ⟨h', he, hrelink, hnext, hprev⟩ := listAddTail_spec hr hlast hnew
  exact ⟨h', he, hr.concat hlast hout hnext hprev, hrelink⟩

theorem listEmpty_ring {h : Heap α} {head : ℕ} {xs : List ℕ} (hr : IsRing h head xs) :
    listEmpty h head = some (decide (xs = [])) := by
  rw [listEmpty, hr.next_head]
  cases xs with
  | nil => simp
  | cons x xs =>
    have hne : x ≠ head := fun e => (List.nodup_cons.mp hr.nodup).1 (e ▸ List.mem_cons_self)
    simp [hne]

/-- Taking the head out of its ring leaves it empty, and the old nodes closed among
themselves: nothing of them is reached from the head any more. -/
theorem listDelInit_ring {h : Heap α} {head : ℕ} {xs : List ℕ} (hr : IsRing h head xs) :
    ∃ h', listDelInit h head = some h' ∧ IsRing h' head [] ∧ RelinkedAt (head :: xs) h h' := by
  have hlast : (head :: xs).getLast (List.cons_ne_nil head xs) ∈ head :: xs := List.getLast_mem _
  have hprev := hr.prev_head
  obtain ⟨last, hL⟩ : ∃ l, (head :: xs).getLast (List.cons_ne_nil head xs) = l := ⟨_, rfl⟩
  rw [hL] at hlast hprev
  have hnext := hr.next_head
  have hfirst := headD_mem head xs
  obtain ⟨h1, e1, r1, -, -⟩ := setPrev_spec (hr.live _ hfirst) hfirst last
  obtain ⟨h2, e2, r2, -, -⟩ :=
    setNext_spec ((r1.live _).mpr (hr.live _ hlast)) hlast (xs.headD head)
  obtain ⟨h3, e3, hring, r3⟩ := initListHead_ring (((r1.trans r2).live head).mpr hr.head_live)
  have r3' : RelinkedAt (head :: xs) h2 h3 :=
    ⟨r3.fresh, r3.freed, r3.val, fun x hx => r3.next x fun hx' => hx (by simp_all),
      fun x hx => r3.prev x fun hx' => hx (by simp_all)⟩
  refine ⟨h3, ?_, hring, (r1.trans r2).trans r3'⟩
  simp only [listDelInit, listDelEntry, listDelBetween, hprev, hnext, Option.bind_eq_bind,
    Option.bind_some, e1, e2, e3]

theorem listForEachEntry_ring {h : Heap α} {head : ℕ} {xs : List ℕ} (hr : IsRing h head xs) :
    listForEachEntry h head = some xs :=
  hr.links.path.walk_eq (List.nodup_cons.mp hr.nodup).1 (hr.length_lt.trans (Nat.lt_succ_self _))

theorem listForEachEntryReverse_ring {h : Heap α} {head : ℕ} {xs : List ℕ}
    (hr : IsRing h head xs) : listForEachEntryReverse h head = some xs.reverse :=
  hr.links.walk_prev_eq (List.nodup_cons.mp hr.nodup).1
    (hr.length_lt.trans (Nat.lt_succ_self _))

/-- The rule for the safe loop: `Inv xs h` holds when the entries `xs` are still to come. The
next entry is fetched before the body runs, so the body may free the one at hand. -/
theorem forEachEntrySafe_rule {body : ℕ → Heap α → Option (Heap α)} {head : ℕ}
    (Inv : List ℕ → Heap α → Prop) (hpath : ∀ x xs h, Inv (x :: xs) h → Path h x xs head)
    (hhead : ∀ h, Inv [] h → h.Live head)
    (hbody : ∀ x xs h, Inv (x :: xs) h → x ≠ head ∧ ∃ h', body x h = some h' ∧ Inv xs h')
    {xs : List ℕ} {h : Heap α} {n k : ℕ} (hinv : Inv xs h) (hk : xs.length < k)
    (hn : ∀ x ys, xs = x :: ys → n = ys.headD head) :
    ∃ h', forEachEntrySafe body head k (xs.headD head) n h = some h' ∧ Inv [] h' := by
  induction xs generalizing h n k with
  | nil =>
    obtain ⟨k, rfl⟩ := Nat.exists_eq_succ_of_ne_zero (Nat.ne_of_gt hk)
    exact ⟨h, by rw [List.headD_nil, forEachEntrySafe, if_pos rfl], hinv⟩
  | cons x xs ih =>
    obtain ⟨k, rfl⟩ := Nat.exists_eq_succ_of_ne_zero (Nat.ne_of_gt (Nat.zero_lt_of_lt hk))
    obtain ⟨hx, h1, hb, h1inv⟩ := hbody x xs h hinv
    obtain rfl := hn x xs rfl
    obtain ⟨m, hm, hnext⟩ : ∃ m, h1.next? (xs.headD head) = some m ∧
        ∀ y ys, xs = y :: ys → m = ys.headD head := by
      cases xs with
      | nil =>
        obtain ⟨m, hm⟩ := Heap.exists_next (hhead h1 h1inv)
        exact ⟨m, hm, fun y ys he => by cases he⟩
      | cons y ys =>
        refine ⟨_, (hpath y ys h1 h1inv).next_head, fun z zs he => ?_⟩
        obtain ⟨rfl, rfl⟩ := List.cons.inj he
        rfl
    obtain ⟨h', he, hdone⟩ := ih h1inv (Nat.lt_of_succ_lt_succ hk) hnext
    refine ⟨h', ?_, hdone⟩
    rw [List.headD_cons, forEachEntrySafe, if_neg hx, hb]
    simp only [Option.bind_eq_bind, Option.bind_some, hm, he]

theorem freeEntries_eq (head k pos n : ℕ) (h : Heap α) :
    freeEntries head k pos n h = forEachEntrySafe (fun pos h => h.free pos) head k pos n h := by
  induction k generalizing pos n h with
  | zero => rfl
  | succ k ih => simp only [freeEntries, forEachEntrySafe, ih]

/-- Of the entries `xs` those in front of `ys` have been freed, and nothing else changed. -/
structure Swept (h : Heap α) (xs ys : List ℕ) (h' : Heap α) : Prop where
  fresh : h'.fresh = h.fresh
  done : ∃ zs, zs ++ ys = xs ∧ h'.freed = zs.reverse ++ h.freed ∧
    ∀ c, c ∉ zs → h'.cell c = h.cell c

theorem Swept.head_live {h h' : Heap α} {head : ℕ} {xs ys : List ℕ} (hr : IsRing h head xs)
    (hs : Swept h xs ys h') : h'.Live head := by
  obtain ⟨zs, rfl, -, hcell⟩ := hs.done
  have hout : head ∉ zs := fun hm => (List.nodup_cons.mp hr.nodup).1 (List.mem_append_left ys hm)
  rw [Heap.Live, hcell head hout]
  exact hr.head_live

theorem Swept.links {h h' : Heap α} {head y : ℕ} {xs ys : List ℕ} (hr : IsRing h head xs)
    (hs : Swept h xs (y :: ys) h') :
    Path h' y ys head ∧ y ≠ head ∧ h'.Live y := by
  obtain ⟨zs, rfl, -, hcell⟩ := hs.done
  have hnd := List.nodup_cons.mp hr.nodup
  have hdis := (List.nodup_append.mp hnd.2).2.2
  have hkeep : ∀ c ∈ y :: ys, h'.cell c = h.cell c :=
    fun c hc => hcell c fun hm => hdis c hm c hc rfl
  refine ⟨(links_append.mp hr.links).2.path.frame fun c hc => ?_, ?_, ?_⟩
  · rw [Heap.next?, hkeep c hc, Heap.next?]
  · rintro rfl
    exact hnd.1 (List.mem_append_right zs List.mem_cons_self)
  · rw [Heap.Live, hkeep y List.mem_cons_self]
    exact hr.live y (List.mem_cons_of_mem _ (List.mem_append_right zs List.mem_cons_self))

theorem Swept.release {h h' : Heap α} {y : ℕ} {xs ys : List ℕ} (hs : Swept h xs (y :: ys) h')
    (hy : h'.Live y) : Swept h xs ys (h'.release y hy) := by
  obtain ⟨zs, hsplit, hfreed, hcell⟩ := hs.done
  refine ⟨hs.fresh, zs ++ [y], by rw [← hsplit, List.append_assoc]; rfl, ?_, fun c hc => ?_⟩
  · simp [hfreed]
  · rw [List.mem_append, List.mem_singleton, not_or] at hc
    rw [Heap.release_cell_of_ne _ _ _ hc.2, hcell c hc.1]

theorem freeListHead_ring {h : Heap α} {head : ℕ} {xs : List ℕ} (hr : IsRing h head xs) :
    ∃ h', freeListHead h head = some h' ∧ h'.fresh = h.fresh ∧
      h'.freed = xs.reverse ++ h.freed ∧ ∀ c, c ∉ xs → h'.cell c = h.cell c := by
  obtain ⟨n, hn⟩ := Heap.exists_next (hr.live _ (headD_mem head xs))
  have hnext : ∀ x ys, xs = x :: ys → n = ys.headD head := by
    rintro x ys rfl
    exact Option.some.inj (hn.symm.trans hr.links.path.2.next_head)
  obtain ⟨h', he, hs⟩ := forEachEntrySafe_rule (Swept h xs)
    (fun x ys h1 hs => (hs.links hr).1) (fun h1 hs => hs.head_live hr)
    (fun x ys h1 hs => by
      obtain ⟨-, hx, hlive⟩ := hs.links hr
      exact ⟨hx, _, Heap.free_of_live hlive, hs.release hlive⟩)
    ⟨rfl, [], rfl, rfl, fun _ _ => rfl⟩ (hr.length_lt.trans (Nat.lt_succ_self _)) hnext
  obtain ⟨zs, hsplit, hfreed, hcell⟩ := hs.done
  rw [List.append_nil] at hsplit
  subst hsplit
  refine ⟨h', ?_, hs.fresh, hfreed, hcell⟩
  simp only [freeListHead, hr.next_head, hn, Option.bind_eq_bind, Option.bind_some,
    freeEntries_eq, he]

end Zsr
