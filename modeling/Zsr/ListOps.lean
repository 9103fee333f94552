import Zsr.CLib.Pointers
import Zsr.ListHead

namespace Zsr
open CLib Equiv

variable {α : Type}

/-- What `list_del` leaves behind. In a heap that lists are deleted in, address 0 is never
handed out. -/
def NULL : ℕ := 0

def listAdd (h : Heap α) (new head : ℕ) : Option (Heap α) := do
  listAddBetween h new head (← h.next? head)

def listDel (h : Heap α) (entry : ℕ) : Option (Heap α) := do
  let h ← listDelBetween h (← h.prev? entry) (← h.next? entry)
  let h ← h.setNext entry NULL
  h.setPrev entry NULL

def listReplace (h : Heap α) (old new : ℕ) : Option (Heap α) := do
  let h ← h.setNext new (← h.next? old)
  let h ← h.setPrev (← h.next? new) new
  -- where `old` was alone this link has just become `new`
  let h ← h.setPrev new (← h.prev? old)
  h.setNext (← h.prev? new) new

def listReplaceInit (h : Heap α) (old new : ℕ) : Option (Heap α) := do
  initListHead (← listReplace h old new) old

def listMove (h : Heap α) (list head : ℕ) : Option (Heap α) := do
  listAdd (← listDelEntry h list) list head

def listMoveTail (h : Heap α) (list head : ℕ) : Option (Heap α) := do
  listAddTail (← listDelEntry h list) list head

def listIsLast (h : Heap α) (list head : ℕ) : Option Bool := do
  some ((← h.next? list) == head)

def listEmptyCareful (h : Heap α) (head : ℕ) : Option Bool := do
  let next ← h.next? head
  some (next == head && next == (← h.prev? head))

def listRotateLeft (h : Heap α) (head : ℕ) : Option (Heap α) := do
  if ← listEmpty h head then some h
  else listMoveTail h (← h.next? head) head

def listIsSingular (h : Heap α) (head : ℕ) : Option Bool := do
  if ← listEmpty h head then some false
  else some ((← h.next? head) == (← h.prev? head))

def listCutBetween (h : Heap α) (list head entry : ℕ) : Option (Heap α) := do
  let newFirst ← h.next? entry
  let h ← h.setNext list (← h.next? head)
  let h ← h.setPrev (← h.next? list) list
  let h ← h.setPrev list entry
  let h ← h.setNext entry list
  let h ← h.setNext head newFirst
  h.setPrev newFirst head

def listCutPosition (h : Heap α) (list head entry : ℕ) : Option (Heap α) := do
  if ← listEmpty h head then some h
  else if (← listIsSingular h head) ∧ (← h.next? head) ≠ entry ∧ head ≠ entry then some h
  else if entry = head then initListHead h list
  else listCutBetween h list head entry

def listSpliceBetween (h : Heap α) (list prev next : ℕ) : Option (Heap α) := do
  let first ← h.next? list
  let last ← h.prev? list
  let h ← h.setPrev first prev
  let h ← h.setNext prev first
  let h ← h.setNext last next
  h.setPrev next last

def listSplice (h : Heap α) (list head : ℕ) : Option (Heap α) := do
  if ← listEmpty h list then some h
  else listSpliceBetween h list head (← h.next? head)

def listSpliceTail (h : Heap α) (list head : ℕ) : Option (Heap α) := do
  if ← listEmpty h list then some h
  else listSpliceBetween h list (← h.prev? head) head

def listSpliceInit (h : Heap α) (list head : ℕ) : Option (Heap α) := do
  if ← listEmpty h list then some h
  else initListHead (← listSpliceBetween h list head (← h.next? head)) list

def listSpliceTailInit (h : Heap α) (list head : ℕ) : Option (Heap α) := do
  if ← listEmpty h list then some h
  else initListHead (← listSpliceBetween h list (← h.prev? head) head) list

section Tests

variable {h : Heap α} {head : ℕ} {xs : List ℕ}

theorem listEmptyCareful_ring (hr : IsRing h head xs) :
    listEmptyCareful h head = some (decide (xs = [])) := by
  simp only [listEmptyCareful, hr.next_head, hr.prev_head, Option.bind_eq_bind, Option.bind_some,
    Option.some.injEq]
  cases xs with
  | nil => simp
  | cons x xs =>
    have hne : x ≠ head := fun e => (List.nodup_cons.mp hr.nodup).1 (e ▸ List.mem_cons_self)
    simp [hne]

theorem listIsSingular_ring (hr : IsRing h head xs) :
    listIsSingular h head = some (decide (xs.length = 1)) := by
  simp only [listIsSingular, listEmpty_ring hr, hr.next_head, hr.prev_head, Option.bind_eq_bind,
    Option.bind_some]
  rcases xs with - | ⟨x, - | ⟨y, xs⟩⟩
  · simp
  · simp
  · -- the last node is another than the first
    have hne : x ≠ (y :: xs).getLast (List.cons_ne_nil y xs) := by
      intro e
      have hnd := (List.nodup_cons.mp hr.nodup).2
      exact (List.nodup_cons.mp hnd).1 (e ▸ List.getLast_mem _)
    simp [hne]

theorem listIsLast_ring (hr : IsRing h head xs) {x : ℕ} (hx : x ∈ xs) :
    listIsLast h x head = some (decide (xs.getLast? = some x)) := by
  obtain ⟨us, vs, rfl⟩ := List.append_of_mem hx
  have hnd := List.nodup_cons.mp hr.nodup
  have hnext := (links_append.mp hr.links).2.path.next_head
  rw [listIsLast, hnext]
  cases vs with
  | nil => simp
  | cons v vs =>
    have hv : v ≠ head := by
      rintro rfl
      exact hnd.1 (by simp)
    have hlast : (v :: vs).getLast? ≠ some x := by
      intro hl
      have hm : x ∈ v :: vs := List.mem_of_getLast? hl
      exact (List.nodup_cons.mp (List.nodup_append.mp hnd.2).2.1).1 hm
    have hlast' : (us ++ x :: v :: vs).getLast? = (v :: vs).getLast? := by
      rw [List.getLast?_append, List.getLast?_cons_cons, List.getLast?_eq_some_getLast (by simp)]
      rfl
    simp [hv, hlast', hlast]

end Tests

section Points

variable {h : Heap α} {s : Set ℕ} {σ : Perm ℕ}

theorem initListHead_points (hp : Points h s σ) {a : ℕ} (ha : h.Live a) (hfix : σ a = a) :
    ∃ h', initListHead h a = some h' ∧ SameBlocks h h' ∧ Points h' (insert a s) σ := by
  obtain ⟨h1, e1, r1⟩ := (Relinked.refl h).setNext ha a
  obtain ⟨h2, e2, r2⟩ := r1.setPrev ha a
  have hsymm : σ.symm a = a := σ.symm_apply_eq.mpr hfix.symm
  refine ⟨h2, by simp [initListHead, e1, e2], r2.same, ?_, ?_, ?_⟩
  · intro x hx
    rw [r2.next, Function.update_apply]
    split
    · next hxa => rw [hxa, hfix]
    · next hxa => exact hp.next x (hx.resolve_left hxa)
  · intro x hx
    rw [r2.prev, Function.update_apply]
    split
    · next hxa => rw [hxa, hsymm]
    · next hxa => exact hp.prev x (hx.resolve_left hxa)
  · intro x hx
    exact hp.fixed x fun hm => hx (Set.mem_insert_of_mem a hm)

theorem listAddBetween_points (hp : Points h s σ) {new p : ℕ} (hmem : p ∈ s) (hnew : h.Live new)
    (hfix : σ new = new) (hne : new ≠ p) :
    ∃ h', listAddBetween h new p (σ p) = some h' ∧ SameBlocks h h' ∧
      Points h' (insert new s) (putBehind σ p new) := by
  have hnext := hp.live (hp.apply_mem hmem)
  obtain ⟨h1, e1, r1⟩ := (Relinked.refl h).setPrev hnext new
  obtain ⟨h2, e2, r2⟩ := r1.setNext hnew (σ p)
  obtain ⟨h3, e3, r3⟩ := r2.setPrev hnew p
  obtain ⟨h4, e4, r4⟩ := r3.setNext (hp.live hmem) new
  have hsymm : σ.symm new = new := σ.symm_apply_eq.mpr hfix.symm
  have hsp : σ.symm (σ p) = p := σ.symm_apply_apply p
  refine ⟨h4, by simp [listAddBetween, e1, e2, e3, e4], r4.same, ?_, ?_, ?_⟩
  · intro x hx
    have := hp.next x
    simp only [r4.next, putBehind, Perm.mul_apply, swap_apply_def, Function.update_apply,
      Set.mem_insert_iff] at hx ⊢
    grind
  · intro x hx
    have hinv : (putBehind σ p new).symm x = swap p new (σ.symm x) := rfl
    have := hp.prev x
    simp only [r4.prev, hinv, swap_apply_def, Function.update_apply, Set.mem_insert_iff] at hx ⊢
    grind
  · intro x hx
    have := hp.fixed x
    simp only [putBehind, Perm.mul_apply, swap_apply_def, Set.mem_insert_iff, not_or] at hx ⊢
    grind

theorem listDelEntry_points (hp : Points h s σ) {entry : ℕ} (hmem : entry ∈ s) :
    ∃ h', listDelEntry h entry = some h' ∧ SameBlocks h h' ∧
      Points h' (s \ {entry}) (takeOut σ entry) := by
  obtain ⟨h1, e1, r1⟩ :=
    (Relinked.refl h).setPrev (hp.live (hp.apply_mem hmem)) (σ.symm entry)
  obtain ⟨h2, e2, r2⟩ := r1.setNext (hp.live (hp.symm_mem hmem)) (σ entry)
  have hcancel : σ.symm (σ entry) = entry := σ.symm_apply_apply entry
  have hcancel' : σ (σ.symm entry) = entry := σ.apply_symm_apply entry
  refine ⟨h2, ?_, r2.same, ?_, ?_, ?_⟩
  · simp [listDelEntry, listDelBetween, hp.prev entry hmem, hp.next entry hmem, e1, e2]
  · intro x hx
    have := hp.next x
    have hx' : σ.symm (σ x) = x := σ.symm_apply_apply x
    simp only [r2.next, takeOut_apply, Function.update_apply, Set.mem_sdiff,
      Set.mem_singleton_iff] at hx ⊢
    grind
  · intro x hx
    have := hp.prev x
    have hx' : σ (σ.symm x) = x := σ.apply_symm_apply x
    simp only [r2.prev, takeOut_symm_apply, Function.update_apply, Set.mem_sdiff,
      Set.mem_singleton_iff] at hx ⊢
    grind
  · intro x hx
    have := hp.fixed x
    simp only [takeOut_apply, Set.mem_sdiff, Set.mem_singleton_iff] at hx ⊢
    grind

theorem listReplace_points (hp : Points h s σ) {old new : ℕ} (hmem : old ∈ s)
    (hnew : h.Live new) (hfix : σ new = new) (hne : new ≠ old) :
    ∃ h', listReplace h old new = some h' ∧ SameBlocks h h' ∧
      Points h' (insert new (s \ {old})) (swap old new * σ * swap old new) := by
  have hsymm : σ.symm new = new := σ.symm_apply_eq.mpr hfix.symm
  have hcancel : σ.symm (σ old) = old := σ.symm_apply_apply old
  have hcancel' : σ (σ.symm old) = old := σ.apply_symm_apply old
  obtain ⟨h1, e1, r1⟩ := (Relinked.refl h).setNext hnew (σ old)
  obtain ⟨h2, e2, r2⟩ := r1.setPrev (hp.live (hp.apply_mem hmem)) new
  have hnext : h1.next? new = some (σ old) := by rw [r1.next, Function.update_self]
  -- the last link read is `new` itself when `old` was alone
  obtain ⟨q, hq, hprev, hlive⟩ : ∃ q, (q = if σ old = old then new else σ.symm old) ∧
      h2.prev? old = some q ∧ h.Live q := by
    by_cases hself : σ old = old
    · exact ⟨new, by rw [if_pos hself], by rw [r2.prev, hself, Function.update_self], hnew⟩
    · refine ⟨σ.symm old, by rw [if_neg hself], ?_, hp.live (hp.symm_mem hmem)⟩
      rw [r2.prev, Function.update_of_ne (Ne.symm hself), hp.prev old hmem]
  obtain ⟨h3, e3, r3⟩ := r2.setPrev hnew q
  have hprev' : h3.prev? new = some q := by rw [r3.prev, Function.update_self]
  obtain ⟨h4, e4, r4⟩ := r3.setNext hlive new
  refine ⟨h4, ?_, r4.same, ?_, ?_, ?_⟩
  · simp only [listReplace, hp.next old hmem, Option.bind_eq_bind, Option.bind_some, e1, hnext, e2,
      hprev, e3, hprev', e4]
  · intro x hx
    have := hp.next x
    have hx' : σ.symm (σ x) = x := σ.symm_apply_apply x
    simp only [r4.next, Perm.mul_apply, swap_apply_def, Function.update_apply, Set.mem_sdiff,
      Set.mem_singleton_iff, Set.mem_insert_iff] at hx ⊢
    grind
  · intro x hx
    have := hp.prev x
    have hx' : σ (σ.symm x) = x := σ.apply_symm_apply x
    have hinv : (swap old new * σ * swap old new).symm x =
        swap old new (σ.symm (swap old new x)) := rfl
    simp only [r4.prev, hinv, swap_apply_def, Function.update_apply, Set.mem_sdiff,
      Set.mem_singleton_iff, Set.mem_insert_iff] at hx ⊢
    grind
  · intro x hx
    have := hp.fixed x
    simp only [Perm.mul_apply, swap_apply_def, Set.mem_sdiff, Set.mem_singleton_iff,
      Set.mem_insert_iff] at hx ⊢
    grind

theorem listCutBetween_points (hp : Points h s σ) {list head entry : ℕ} (hhead : head ∈ s)
    (hentry : entry ∈ s) (hne : entry ≠ head) (hlist : h.Live list) (hfix : σ list = list)
    (hlh : list ≠ head) (hle : list ≠ entry) :
    ∃ h', listCutBetween h list head entry = some h' ∧ SameBlocks h h' ∧
      Points h' (insert list s) (putBehind (σ * swap head entry) entry list) := by
  have hsymm : σ.symm list = list := σ.symm_apply_eq.mpr hfix.symm
  have hch : σ.symm (σ head) = head := σ.symm_apply_apply head
  have hce : σ.symm (σ entry) = entry := σ.symm_apply_apply entry
  obtain ⟨h1, e1, r1⟩ := (Relinked.refl h).setNext hlist (σ head)
  have hnext : h1.next? list = some (σ head) := by rw [r1.next, Function.update_self]
  obtain ⟨h2, e2, r2⟩ := r1.setPrev (hp.live (hp.apply_mem hhead)) list
  obtain ⟨h3, e3, r3⟩ := r2.setPrev hlist entry
  obtain ⟨h4, e4, r4⟩ := r3.setNext (hp.live hentry) list
  obtain ⟨h5, e5, r5⟩ := r4.setNext (hp.live hhead) (σ entry)
  obtain ⟨h6, e6, r6⟩ := r5.setPrev (hp.live (hp.apply_mem hentry)) head
  refine ⟨h6, ?_, r6.same, ?_, ?_, ?_⟩
  · simp only [listCutBetween, hp.next entry hentry, hp.next head hhead, Option.bind_eq_bind,
      Option.bind_some, e1, hnext, e2, e3, e4, e5, e6]
  · intro x hx
    have := hp.next x
    simp only [r6.next, putBehind, Perm.mul_apply, swap_apply_def, Function.update_apply,
      Set.mem_insert_iff] at hx ⊢
    grind
  · intro x hx
    have := hp.prev x
    have hx' : σ (σ.symm x) = x := σ.apply_symm_apply x
    have hinv : (putBehind (σ * swap head entry) entry list).symm x =
        swap entry list (swap head entry (σ.symm x)) := rfl
    simp only [r6.prev, hinv, swap_apply_def, Function.update_apply, Set.mem_insert_iff] at hx ⊢
    grind
  · intro x hx
    have := hp.fixed x
    simp only [putBehind, Perm.mul_apply, swap_apply_def, Set.mem_insert_iff] at hx ⊢
    grind

theorem listSpliceBetween_points (hp : Points h s σ) {list p : ℕ} (hlist : list ∈ s)
    (hmem : p ∈ s) (hne : list ≠ p) (hfull : σ list ≠ list) (hout : σ p ≠ list) :
    ∃ h', listSpliceBetween h list p (σ p) = some h' ∧ SameBlocks h h' ∧
      Points h' (s \ {list}) (takeOut (σ * swap p list) list) := by
  have hcl : σ.symm (σ list) = list := σ.symm_apply_apply list
  have hcp : σ.symm (σ p) = p := σ.symm_apply_apply p
  have hcl' : σ (σ.symm list) = list := σ.apply_symm_apply list
  obtain ⟨h1, e1, r1⟩ := (Relinked.refl h).setPrev (hp.live (hp.apply_mem hlist)) p
  obtain ⟨h2, e2, r2⟩ := r1.setNext (hp.live hmem) (σ list)
  obtain ⟨h3, e3, r3⟩ := r2.setNext (hp.live (hp.symm_mem hlist)) (σ p)
  obtain ⟨h4, e4, r4⟩ := r3.setPrev (hp.live (hp.apply_mem hmem)) (σ.symm list)
  refine ⟨h4, ?_, r4.same, ?_, ?_, ?_⟩
  · simp only [listSpliceBetween, hp.next list hlist, hp.prev list hlist, Option.bind_eq_bind,
      Option.bind_some, e1, e2, e3, e4]
  · intro x hx
    have := hp.next x
    have hx' : σ.symm (σ x) = x := σ.symm_apply_apply x
    simp only [r4.next, takeOut_apply, Perm.mul_apply, swap_apply_def, Function.update_apply,
      Set.mem_sdiff, Set.mem_singleton_iff] at hx ⊢
    grind
  · intro x hx
    have := hp.prev x
    have hx' : σ (σ.symm x) = x := σ.apply_symm_apply x
    have hinv (y : ℕ) : (σ * swap p list).symm y = swap p list (σ.symm y) := rfl
    simp only [r4.prev, takeOut_symm_apply, hinv, swap_apply_def,
      Function.update_apply, Set.mem_sdiff, Set.mem_singleton_iff] at hx ⊢
    grind
  · intro x hx
    have := hp.fixed x
    simp only [takeOut_apply, Perm.mul_apply, swap_apply_def, Set.mem_sdiff,
      Set.mem_singleton_iff] at hx ⊢
    grind

end Points

end Zsr
