import Zsr.CLib.CycleLists
import Zsr.ListOps

namespace Zsr
open CLib Equiv

variable {α : Type}

inductive ListOp
  | init (list : ℕ)
  | add (new head : ℕ)
  | addTail (new head : ℕ)
  | del (entry : ℕ)
  | delInit (entry : ℕ)
  | replace (old new : ℕ)
  | replaceInit (old new : ℕ)
  | move (list head : ℕ)
  | moveTail (list head : ℕ)
  | rotateLeft (head : ℕ)
  | cutPosition (list head entry : ℕ)
  | splice (list head : ℕ)
  | spliceTail (list head : ℕ)
  | spliceInit (list head : ℕ)
  | spliceTailInit (list head : ℕ)

def noLists : NodeLists ℕ := fun _ => none

namespace ListOp

def exec : ListOp → Heap α → Option (Heap α)
  | init list => fun h => initListHead h list
  | add new head => fun h => listAdd h new head
  | addTail new head => fun h => listAddTail h new head
  | del entry => fun h => listDel h entry
  | delInit entry => fun h => listDelInit h entry
  | replace old new => fun h => listReplace h old new
  | replaceInit old new => fun h => listReplaceInit h old new
  | move list head => fun h => listMove h list head
  | moveTail list head => fun h => listMoveTail h list head
  | rotateLeft head => fun h => listRotateLeft h head
  | cutPosition list head entry => fun h => listCutPosition h list head entry
  | splice list head => fun h => listSplice h list head
  | spliceTail list head => fun h => listSpliceTail h list head
  | spliceInit list head => fun h => listSpliceInit h list head
  | spliceTailInit list head => fun h => listSpliceTailInit h list head

end ListOp

/-- `list` is joined to `head` and is no head afterwards; an empty one is left alone. -/
def spliced (c : NodeLists ℕ) (list head : ℕ) (f : List ℕ → List ℕ → List ℕ) : NodeLists ℕ :=
  match c list, c head with
  | some ys, some xs =>
    if ys = [] then c
    else Function.update (Function.update c list none) head (some (f ys xs))
  | _, _ => c

namespace ListOp

def apply : ListOp → NodeLists ℕ → NodeLists ℕ
  | init list => fun c => Function.update c list (some [])
  | add new head | move new head => fun c =>
    let c := c.without new
    Function.update c head ((c head).map fun xs => new :: xs)
  | addTail new head | moveTail new head => fun c =>
    let c := c.without new
    Function.update c head ((c head).map fun xs => xs ++ [new])
  | del entry => fun c => c.without entry
  | delInit entry => fun c => Function.update (c.without entry) entry (some [])
  | replace old new => fun c => c.renamed old new
  | replaceInit old new => fun c => Function.update (c.renamed old new) old (some [])
  | rotateLeft head => fun c => Function.update c head ((c head).map fun xs => xs.rotate 1)
  | cutPosition list head entry => fun c =>
    match c head with
    | none | some [] => c
    | some xs =>
      if entry = head then Function.update c list (some [])
      else Function.update (Function.update c head (some (xs.drop (xs.idxOf entry + 1)))) list
        (some (xs.take (xs.idxOf entry + 1)))
  | splice list head => fun c => spliced c list head fun ys xs => ys ++ xs
  | spliceTail list head => fun c => spliced c list head fun ys xs => xs ++ ys
  | spliceInit list head => fun c =>
    Function.update (spliced c list head fun ys xs => ys ++ xs) list (some [])
  | spliceTailInit list head => fun c =>
    Function.update (spliced c list head fun ys xs => xs ++ ys) list (some [])

end ListOp

/-- A block that may be linked: it is on no list, and if it is a head, its list is empty. -/
def Spare (live : ℕ → Prop) (c : NodeLists ℕ) (x : ℕ) : Prop :=
  live x ∧ ¬c.On x ∧ ∀ xs, c x = some xs → xs = []

namespace ListOp

def Ready (live : ℕ → Prop) (c : NodeLists ℕ) : ListOp → Prop
  | init list => live list ∧ ¬c.On list
  | add new head | addTail new head => Spare live c new ∧ c.IsHead head ∧ new ≠ head
  | del entry | delInit entry => c.IsHead entry ∨ c.On entry
  | replace old new | replaceInit old new =>
    (c.IsHead old ∨ c.On old) ∧ Spare live c new ∧ new ≠ old
  | move list head | moveTail list head =>
    (c.IsHead list ∨ c.On list) ∧ c.IsHead head ∧ list ≠ head
  | rotateLeft head => c.IsHead head
  | cutPosition list head entry =>
    -- `list` may be one whose nodes are lost
    live list ∧ ¬c.On list ∧ list ≠ head ∧ ∃ xs, c head = some xs ∧ entry ∈ head :: xs
  | splice list head | spliceTail list head | spliceInit list head | spliceTailInit list head =>
    c.IsHead list ∧ c.IsHead head ∧ list ≠ head

/-- Every operation of the sequence is ready when its turn comes. -/
def ReadyRun (live : ℕ → Prop) : NodeLists ℕ → List ListOp → Prop
  | _, [] => True
  | c, op :: ops => op.Ready live c ∧ ReadyRun live (op.apply c) ops

end ListOp

/-- The lists are there, and share no node. -/
structure Shows (h : Heap α) (c : NodeLists ℕ) : Prop where
  ring : ∀ a xs, c a = some xs → IsRing h a xs
  apart : ∀ a xs, c a = some xs → ∀ x ∈ xs, c x = none

theorem of_forget {c : NodeLists ℕ} {list a : ℕ} {xs : List ℕ}
    (ha : Function.update c list none a = some xs) : c a = some xs := by
  rw [Function.update_apply] at ha
  split at ha
  · cases ha
  · exact ha

theorem Shows.forget {h : Heap α} {c : NodeLists ℕ} (hs : Shows h c) (list : ℕ) :
    Shows h (Function.update c list none) where
  ring a xs ha := hs.ring a xs (of_forget ha)
  apart a xs ha x hx := by
    rw [Function.update_apply]
    split
    · rfl
    · exact hs.apart a xs (of_forget ha) x hx

/-- The links are those of a permutation, and the lists its cycles. -/
structure Tracks (h : Heap α) (s : Set ℕ) (σ : Perm ℕ) (c : NodeLists ℕ) : Prop where
  points : Points h s σ
  cycles : CycleLists σ c
  mem : ∀ a xs, c a = some xs → a ∈ s

theorem Shows.exists_tracks {h : Heap α} {c : NodeLists ℕ} (hs : Shows h c) :
    ∃ σ, Tracks h (ringNodes c) σ c := by
  obtain ⟨σ, hp, hc⟩ := exists_points hs.ring
  exact ⟨σ, hp, ⟨hc, hs.apart⟩, fun a xs ha => mem_ringNodes ha List.mem_cons_self⟩

namespace Tracks

variable {h : Heap α} {s : Set ℕ} {σ : Perm ℕ} {c : NodeLists ℕ} {head new entry list : ℕ}
  {xs ys : List ℕ}

theorem shows (ht : Tracks h s σ c) : Shows h c :=
  ⟨fun a xs ha => ht.points.isRing (ht.mem a xs ha) (ht.cycles.cyc a xs ha), ht.cycles.apart⟩

theorem node_mem (ht : Tracks h s σ c) (hh : c head = some xs) {x : ℕ} (hx : x ∈ head :: xs) :
    x ∈ s :=
  (ht.cycles.cyc head xs hh).runs.forall_mem (fun _ => ht.points.apply_mem)
    (ht.mem head xs hh) x hx

theorem held_mem (ht : Tracks h s σ c) (he : c.IsHead entry ∨ c.On entry) : entry ∈ s := by
  rcases he with ⟨xs, hxs⟩ | ⟨a, xs, ha, hm⟩
  · exact ht.mem entry xs hxs
  · exact ht.node_mem ha (List.mem_cons_of_mem a hm)

theorem spare_fixed (ht : Tracks h (ringNodes c) σ c) {live : ℕ → Prop} (hn : Spare live c new) :
    σ new = new := by
  obtain ⟨-, hon, hempty⟩ := hn
  cases hc : c new with
  | some xs =>
    have hcyc := ht.cycles.cyc new xs hc
    rw [hempty xs hc] at hcyc
    exact Cyc.fixed_iff.mp hcyc
  | none =>
    apply ht.points.fixed
    rintro ⟨a, xs, ha, hm⟩
    rcases List.mem_cons.mp hm with rfl | hm
    · rw [ha] at hc
      cases hc
    · exact hon ⟨a, xs, ha, hm⟩

theorem delEntry (ht : Tracks h s σ c) (he : entry ∈ s) :
    ∃ h', listDelEntry h entry = some h' ∧ SameBlocks h h' ∧
      Tracks h' (s \ {entry}) (takeOut σ entry) (c.without entry) := by
  obtain ⟨h', he', hsame, hp⟩ := listDelEntry_points ht.points he
  refine ⟨h', he', hsame, hp, ht.cycles.without entry, fun a xs ha => ?_⟩
  unfold NodeLists.without at ha
  split at ha
  · cases ha
  · next hne =>
    obtain ⟨ys, hys, -⟩ := Option.map_eq_some_iff.mp ha
    exact ⟨ht.mem a ys hys, hne⟩

theorem del (ht : Tracks h s σ c) (he : entry ∈ s) :
    ∃ h', listDel h entry = some h' ∧ SameBlocks h h' ∧
      Tracks h' (s \ {entry}) (takeOut σ entry) (c.without entry) := by
  obtain ⟨h1, e1, hsame, ht1⟩ := ht.delEntry he
  have hlive := (hsame.live entry).mpr (ht.points.live he)
  obtain ⟨h2, e2, r2⟩ := (Relinked.refl h1).setNext hlive NULL
  obtain ⟨h3, e3, r3⟩ := r2.setPrev hlive NULL
  refine ⟨h3, ?_, hsame.trans r3.same, ⟨?_, ?_, ht1.points.fixed⟩, ht1.cycles, ht1.mem⟩
  · rw [listDelEntry] at e1
    simp only [ht.points.prev entry he, ht.points.next entry he, Option.bind_eq_bind,
      Option.bind_some] at e1
    simp only [listDel, ht.points.prev entry he, ht.points.next entry he, Option.bind_eq_bind,
      Option.bind_some, e1, e2, e3]
  · intro x hx
    rw [r3.next, Function.update_of_ne hx.2, ht1.points.next x hx]
  · intro x hx
    rw [r3.prev, Function.update_of_ne hx.2, ht1.points.prev x hx]

theorem init (ht : Tracks h s σ c) (hlive : h.Live list) (hfix : σ list = list) :
    ∃ h', initListHead h list = some h' ∧ SameBlocks h h' ∧
      Tracks h' (insert list s) σ (Function.update c list (some [])) := by
  obtain ⟨h', he, hsame, hp⟩ := initListHead_points ht.points hlive hfix
  refine ⟨h', he, hsame, hp, ht.cycles.setEmpty hfix, fun a xs ha => ?_⟩
  by_cases hal : a = list
  · exact .inl hal
  · rw [Function.update_of_ne hal] at ha
    exact .inr (ht.mem a xs ha)

theorem add (ht : Tracks h s σ c) (hh : c head = some xs) (hlive : h.Live new)
    (hfix : σ new = new) (hnone : c new = none) :
    ∃ h', listAdd h new head = some h' ∧ SameBlocks h h' ∧
      Tracks h' (insert new s) (putBehind σ head new)
        (Function.update c head (some (new :: xs))) := by
  have hhead := ht.mem head xs hh
  have hne : new ≠ head := fun e =>
    ht.cycles.fixed_not_mem hfix hnone hh (e ▸ List.mem_cons_self)
  obtain ⟨h', he, hsame, hp⟩ := listAddBetween_points ht.points hhead hlive hfix hne
  refine ⟨h', ?_, hsame, hp, ht.cycles.putBehind hh hfix hnone, fun a ys ha => ?_⟩
  · rw [listAdd, ht.points.next head hhead]
    exact he
  · by_cases hah : a = head
    · exact .inr (hah ▸ hhead)
    · rw [Function.update_of_ne hah] at ha
      exact .inr (ht.mem a ys ha)

theorem addTail (ht : Tracks h s σ c) (hh : c head = some xs) (hlive : h.Live new)
    (hfix : σ new = new) (hnone : c new = none) :
    ∃ h', listAddTail h new head = some h' ∧ SameBlocks h h' ∧
      Tracks h' (insert new s) (putBefore σ head new)
        (Function.update c head (some (xs ++ [new]))) := by
  have hhead := ht.mem head xs hh
  have hne : new ≠ σ.symm head := by
    intro e
    have hback := congrArg σ e
    rw [hfix, σ.apply_symm_apply] at hback
    exact ht.cycles.fixed_not_mem hfix hnone hh (hback ▸ List.mem_cons_self)
  obtain ⟨h', he, hsame, hp⟩ :=
    listAddBetween_points ht.points (ht.points.symm_mem hhead) hlive hfix hne
  rw [σ.apply_symm_apply] at he
  refine ⟨h', ?_, hsame, hp, ht.cycles.putBefore hh hfix hnone, fun a ys ha => ?_⟩
  · rw [listAddTail, ht.points.prev head hhead]
    exact he
  · by_cases hah : a = head
    · exact .inr (hah ▸ hhead)
    · rw [Function.update_of_ne hah] at ha
      exact .inr (ht.mem a ys ha)

theorem replace {old : ℕ} (ht : Tracks h s σ c) (hold : old ∈ s) (hlive : h.Live new)
    (hfix : σ new = new) (hne : new ≠ old) :
    ∃ h', listReplace h old new = some h' ∧ SameBlocks h h' ∧
      Tracks h' (insert new (s \ {old})) (swap old new * σ * swap old new)
        (c.renamed old new) := by
  obtain ⟨h', he, hsame, hp⟩ := listReplace_points ht.points hold hlive hfix hne
  refine ⟨h', he, hsame, hp, ht.cycles.renamed hfix hne, fun a xs ha => ?_⟩
  unfold NodeLists.renamed at ha
  split at ha
  · cases ha
  · next hao =>
    obtain ⟨ys, hys, -⟩ := Option.map_eq_some_iff.mp ha
    by_cases han : a = new
    · exact .inl han
    · rw [if_neg han] at hys
      exact .inr ⟨ht.mem a ys hys, hao⟩

theorem cutBetween {us vs : List ℕ} (ht : Tracks h s σ c)
    (hh : c head = some (us ++ entry :: vs)) (hlive : h.Live list) (hfix : σ list = list)
    (hnone : c list = none) :
    ∃ h', listCutBetween h list head entry = some h' ∧ SameBlocks h h' ∧
      Tracks h' (insert list s) (putBehind (σ * swap head entry) entry list)
        (Function.update (Function.update c head (some vs)) list (some (us ++ [entry]))) := by
  have hcyc := ht.cycles.cyc head _ hh
  have hm : entry ∈ head :: (us ++ entry :: vs) := by simp
  have hout := ht.cycles.fixed_not_mem hfix hnone hh
  have hne : entry ≠ head := by
    rintro rfl
    exact (List.nodup_cons.mp hcyc.nodup).1 (by simp)
  obtain ⟨h', he, hsame, hp⟩ := listCutBetween_points ht.points (ht.mem head _ hh)
    (ht.node_mem hh hm) hne hlive hfix (fun e => hout (e ▸ List.mem_cons_self))
    (fun e => hout (e ▸ hm))
  refine ⟨h', he, hsame, hp, ht.cycles.cut hh hfix hnone, fun a xs ha => ?_⟩
  by_cases hal : a = list
  · exact .inl hal
  · rw [Function.update_of_ne hal] at ha
    by_cases hah : a = head
    · exact .inr (hah ▸ ht.mem head _ hh)
    · rw [Function.update_of_ne hah] at ha
      exact .inr (ht.mem a xs ha)

theorem apply_ne_of_full (ht : Tracks h s σ c) (hl : c list = some ys) (hfull : ys ≠ []) :
    σ list ≠ list := by
  intro hfix
  cases ys with
  | nil => exact hfull rfl
  | cons y ys =>
    have hcyc := ht.cycles.cyc list _ hl
    have hy : σ list = y := hcyc.runs.1
    exact (List.nodup_cons.mp hcyc.nodup).1 (by rw [← hfix, hy]; exact List.mem_cons_self)

theorem spliced_mem {c : NodeLists ℕ} (hmem : ∀ a xs, c a = some xs → a ∈ s) (hhead : head ∈ s)
    (hne : head ≠ list) {zs : List ℕ} (a : ℕ) (xs : List ℕ)
    (ha : Function.update (Function.update c list none) head (some zs) a = some xs) :
    a ∈ s \ {list} := by
  by_cases hah : a = head
  · exact hah ▸ ⟨hhead, hne⟩
  · rw [Function.update_of_ne hah] at ha
    by_cases hal : a = list
    · rw [hal, Function.update_self] at ha
      cases ha
    · rw [Function.update_of_ne hal] at ha
      exact ⟨hmem a xs ha, hal⟩

theorem splice (ht : Tracks h s σ c) (hl : c list = some ys) (hh : c head = some xs)
    (hne : list ≠ head) (hfull : ys ≠ []) :
    ∃ h', listSpliceBetween h list head (σ head) = some h' ∧ SameBlocks h h' ∧
      Tracks h' (s \ {list}) (takeOut (σ * swap head list) list)
        (Function.update (Function.update c list none) head (some (ys ++ xs))) := by
  have hout : σ head ≠ list := fun e =>
    ht.cycles.head_not_mem hl hh hne
      (e ▸ (ht.cycles.cyc head xs hh).apply_mem head List.mem_cons_self)
  have hhead := ht.mem head xs hh
  obtain ⟨h', he, hsame, hp⟩ := listSpliceBetween_points ht.points (ht.mem list ys hl) hhead hne
    (ht.apply_ne_of_full hl hfull) hout
  exact ⟨h', he, hsame, hp, ht.cycles.join hl hh hne, spliced_mem ht.mem hhead hne.symm⟩

theorem spliceTail (ht : Tracks h s σ c) (hl : c list = some ys) (hh : c head = some xs)
    (hne : list ≠ head) (hfull : ys ≠ []) :
    ∃ h', listSpliceBetween h list (σ.symm head) head = some h' ∧ SameBlocks h h' ∧
      Tracks h' (s \ {list}) (takeOut (σ * swap (σ.symm head) list) list)
        (Function.update (Function.update c list none) head (some (xs ++ ys))) := by
  have hback : σ (σ.symm head) = head := σ.apply_symm_apply head
  have hhead := ht.mem head xs hh
  have hp : list ≠ σ.symm head := by
    rintro rfl
    exact ht.cycles.symm_not_mem hh hl hne.symm List.mem_cons_self
  obtain ⟨h', he, hsame, hpts⟩ := listSpliceBetween_points ht.points (ht.mem list ys hl)
    (ht.points.symm_mem hhead) hp (ht.apply_ne_of_full hl hfull) (hback.symm ▸ hne.symm)
  rw [hback] at he
  exact ⟨h', he, hsame, hpts, ht.cycles.joinTail hl hh hne, spliced_mem ht.mem hhead hne.symm⟩

theorem empty_eq (ht : Tracks h s σ c) (hl : c list = some ys) :
    listEmpty h list = some (decide (ys = [])) := listEmpty_ring (ht.shows.ring list ys hl)

end Tracks

/-- The operation goes through, and the lists are as its comment says. -/
def Goes (op : ListOp) (h : Heap α) (c : NodeLists ℕ) : Prop :=
  ∃ h', op.exec h = some h' ∧ SameBlocks h h' ∧ Shows h' (op.apply c)

namespace ListOp

variable {h : Heap α} {c : NodeLists ℕ} {head new entry list old : ℕ} {xs ys : List ℕ}

theorem goes_init (hs : Shows h c) (hr : (init list).Ready h.Live c) : Goes (init list) h c := by
  obtain ⟨hlive, hout⟩ := hr
  obtain ⟨h', he, hring, hrelink⟩ := initListHead_ring hlive
  have hcases {a : ℕ} {xs : List ℕ} (ha : Function.update c list (some []) a = some xs) :
      (a = list ∧ xs = []) ∨ (a ≠ list ∧ c a = some xs) := by
    by_cases hal : a = list
    · rw [hal, Function.update_self] at ha
      exact .inl ⟨hal, (Option.some.inj ha).symm⟩
    · rw [Function.update_of_ne hal] at ha
      exact .inr ⟨hal, ha⟩
  suffices hshow : Shows h' (Function.update c list (some [])) from
    ⟨h', he, ⟨hrelink.fresh, hrelink.freed, hrelink.val⟩, hshow⟩
  refine ⟨fun a xs ha => ?_, fun a xs ha x hx => ?_⟩
  · rcases hcases ha with ⟨rfl, rfl⟩ | ⟨hal, hc⟩
    · exact hring
    · apply hrelink.ring (hs.ring a xs hc)
      intro x hx hm
      obtain rfl := List.mem_singleton.mp hm
      rcases List.mem_cons.mp hx with rfl | hx
      · exact hal rfl
      · exact hout ⟨a, xs, hc, hx⟩
  · rcases hcases ha with ⟨rfl, rfl⟩ | ⟨-, hc⟩
    · cases hx
    · have hxl : x ≠ list := fun e => hout ⟨a, xs, hc, e ▸ hx⟩
      rw [Function.update_of_ne hxl, hs.apart a xs hc x hx]

theorem without_head (hh : c head = some xs) (hne : new ≠ head) :
    c.without new head = some (xs.erase new) := by
  rw [NodeLists.without, if_neg hne.symm, hh, Option.map_some]

theorem without_self (c : NodeLists ℕ) (x : ℕ) : c.without x x = none := if_pos rfl

theorem tracks_without {σ : Perm ℕ} (ht : Tracks h (ringNodes c) σ c)
    (hn : Spare h.Live c new) : Tracks h (ringNodes c) σ (c.without new) := by
  have hc := ht.cycles.without new
  rw [takeOut_of_fixed (ht.spare_fixed hn)] at hc
  refine ⟨ht.points, hc, fun a xs ha => ?_⟩
  unfold NodeLists.without at ha
  split at ha
  · cases ha
  · obtain ⟨zs, hzs, -⟩ := Option.map_eq_some_iff.mp ha
    exact ht.mem a zs hzs

theorem goes_add (hs : Shows h c) (hr : (add new head).Ready h.Live c) :
    Goes (add new head) h c := by
  obtain ⟨hn, ⟨xs, hh⟩, hne⟩ := hr
  obtain ⟨σ, ht⟩ := hs.exists_tracks
  have hh' := without_head hh hne
  obtain ⟨h', he, hsame, ht'⟩ := (tracks_without ht hn).add hh' hn.1 (ht.spare_fixed hn)
    (without_self c new)
  refine ⟨h', he, hsame, ?_⟩
  simp only [apply, hh', Option.map_some]
  exact ht'.shows

theorem goes_addTail (hs : Shows h c) (hr : (addTail new head).Ready h.Live c) :
    Goes (addTail new head) h c := by
  obtain ⟨hn, ⟨xs, hh⟩, hne⟩ := hr
  obtain ⟨σ, ht⟩ := hs.exists_tracks
  have hh' := without_head hh hne
  obtain ⟨h', he, hsame, ht'⟩ := (tracks_without ht hn).addTail hh' hn.1 (ht.spare_fixed hn)
    (without_self c new)
  refine ⟨h', he, hsame, ?_⟩
  simp only [apply, hh', Option.map_some]
  exact ht'.shows

theorem goes_del (hs : Shows h c) (hr : (del entry).Ready h.Live c) : Goes (del entry) h c := by
  obtain ⟨σ, ht⟩ := hs.exists_tracks
  obtain ⟨h', he, hsame, ht'⟩ := ht.del (ht.held_mem hr)
  exact ⟨h', he, hsame, ht'.shows⟩

theorem goes_delInit (hs : Shows h c) (hr : (delInit entry).Ready h.Live c) :
    Goes (delInit entry) h c := by
  obtain ⟨σ, ht⟩ := hs.exists_tracks
  have hm := ht.held_mem hr
  obtain ⟨h1, e1, hsame1, ht1⟩ := ht.delEntry hm
  have hlive := (hsame1.live entry).mpr (ht.points.live hm)
  obtain ⟨h2, e2, hsame2, ht2⟩ := ht1.init hlive (takeOut_self σ entry)
  refine ⟨h2, ?_, hsame1.trans hsame2, ht2.shows⟩
  simp only [exec, listDelInit, e1, Option.bind_eq_bind, Option.bind_some, e2]

theorem goes_replace (hs : Shows h c) (hr : (replace old new).Ready h.Live c) :
    Goes (replace old new) h c := by
  obtain ⟨σ, ht⟩ := hs.exists_tracks
  obtain ⟨hold, hn, hne⟩ := hr
  obtain ⟨h', he, hsame, ht'⟩ :=
    ht.replace (ht.held_mem hold) hn.1 (ht.spare_fixed hn) hne
  exact ⟨h', he, hsame, ht'.shows⟩

theorem goes_replaceInit (hs : Shows h c) (hr : (replaceInit old new).Ready h.Live c) :
    Goes (replaceInit old new) h c := by
  obtain ⟨σ, ht⟩ := hs.exists_tracks
  obtain ⟨hold, hn, hne⟩ := hr
  have hm := ht.held_mem hold
  have hfix := ht.spare_fixed hn
  obtain ⟨h1, e1, hsame1, ht1⟩ := ht.replace hm hn.1 hfix hne
  have hlive := (hsame1.live old).mpr (ht.points.live hm)
  have hold' : (swap old new * σ * swap old new) old = old := by
    simp only [Perm.mul_apply, swap_apply_left, hfix, swap_apply_right]
  obtain ⟨h2, e2, hsame2, ht2⟩ := ht1.init hlive hold'
  refine ⟨h2, ?_, hsame1.trans hsame2, ht2.shows⟩
  simp only [exec, listReplaceInit, e1, Option.bind_eq_bind, Option.bind_some, e2]

theorem goes_move (hs : Shows h c) (hr : (move list head).Ready h.Live c) :
    Goes (move list head) h c := by
  obtain ⟨σ, ht⟩ := hs.exists_tracks
  obtain ⟨hl, ⟨xs, hh⟩, hne⟩ := hr
  have hm := ht.held_mem hl
  have hh' := without_head hh hne
  obtain ⟨h1, e1, hsame1, ht1⟩ := ht.delEntry hm
  have hlive := (hsame1.live list).mpr (ht.points.live hm)
  obtain ⟨h2, e2, hsame2, ht2⟩ :=
    ht1.add hh' hlive (takeOut_self σ list) (without_self c list)
  refine ⟨h2, ?_, hsame1.trans hsame2, ?_⟩
  · simp only [exec, listMove, e1, Option.bind_eq_bind, Option.bind_some, e2]
  · simp only [apply, hh', Option.map_some]
    exact ht2.shows

theorem goes_moveTail (hs : Shows h c) (hr : (moveTail list head).Ready h.Live c) :
    Goes (moveTail list head) h c := by
  obtain ⟨σ, ht⟩ := hs.exists_tracks
  obtain ⟨hl, ⟨xs, hh⟩, hne⟩ := hr
  have hm := ht.held_mem hl
  have hh' := without_head hh hne
  obtain ⟨h1, e1, hsame1, ht1⟩ := ht.delEntry hm
  have hlive := (hsame1.live list).mpr (ht.points.live hm)
  obtain ⟨h2, e2, hsame2, ht2⟩ :=
    ht1.addTail hh' hlive (takeOut_self σ list) (without_self c list)
  refine ⟨h2, ?_, hsame1.trans hsame2, ?_⟩
  · simp only [exec, listMoveTail, e1, Option.bind_eq_bind, Option.bind_some, e2]
  · simp only [apply, hh', Option.map_some]
    exact ht2.shows

theorem goes_rotateLeft (hs : Shows h c) (hr : (rotateLeft head).Ready h.Live c) :
    Goes (rotateLeft head) h c := by
  obtain ⟨σ, ht⟩ := hs.exists_tracks
  obtain ⟨xs, hh⟩ := hr
  have hempty := listEmpty_ring (hs.ring head xs hh)
  cases xs with
  | nil =>
    refine ⟨h, ?_, .refl h, ?_⟩
    · simp [exec, listRotateLeft, hempty]
    · have hsame : Function.update c head (some []) = c := by rw [← hh, Function.update_eq_self]
      simp only [apply, hh, Option.map_some, List.rotate_nil, hsame]
      exact hs
  | cons x xs =>
    have hx : x ∈ x :: xs := List.mem_cons_self
    have hne : x ≠ head := by
      rintro rfl
      exact ht.cycles.not_on hh ⟨x, _, hh, hx⟩
    have hready : (moveTail x head).Ready h.Live c := ⟨.inr ⟨head, _, hh, hx⟩, ⟨_, hh⟩, hne⟩
    obtain ⟨h', he, hsame, hshow⟩ := goes_moveTail hs hready
    refine ⟨h', ?_, hsame, ?_⟩
    · have hfirst := (hs.ring head _ hh).next_head
      simp only [exec] at he
      simp [exec, listRotateLeft, hempty, hfirst, he]
    · simp only [apply, ht.cycles.without_eq hh hx, Function.update_self, Option.map_some,
        List.erase_cons_head, Function.update_idem] at hshow
      simp only [apply, hh, Option.map_some, List.rotate_cons_succ, List.rotate_zero]
      exact hshow

theorem goes_cutPosition (hs : Shows h c) (hr : (cutPosition list head entry).Ready h.Live c) :
    Goes (cutPosition list head entry) h c := by
  obtain ⟨hlive, hon, hne, xs, hh, hentry⟩ := hr
  have hring := hs.ring head xs hh
  have hempty := listEmpty_ring hring
  cases xs with
  | nil =>
    refine ⟨h, ?_, .refl h, ?_⟩
    · simp [exec, listCutPosition, hempty]
    · simp only [apply, hh]
      exact hs
  | cons x xs =>
    have hsing := listIsSingular_ring hring
    have hnext := hring.next_head
    -- the test for one node never stops the cut, since `entry` is the head or a node
    have hgo : ¬((x :: xs).length = 1 ∧ x ≠ entry ∧ head ≠ entry) := by
      rintro ⟨hlen, hxe, hhe⟩
      obtain rfl := List.length_eq_zero_iff.mp (Nat.succ.inj hlen)
      simp only [List.mem_cons, List.not_mem_nil, or_false] at hentry
      tauto
    have heval : (cutPosition list head entry).exec h =
        if entry = head then initListHead h list else listCutBetween h list head entry := by
      simp only [exec, listCutPosition, hempty, hsing, hnext, Option.bind_eq_bind, Option.bind_some,
        List.headD_cons, decide_eq_true_eq, if_neg hgo, reduceCtorEq, if_false]
    by_cases hel : entry = head
    · obtain ⟨h', he, hsame, hshow⟩ := goes_init hs ⟨hlive, hon⟩
      refine ⟨h', ?_, hsame, ?_⟩
      · rw [heval, if_pos hel]
        exact he
      · simp only [apply, hh, if_pos hel] at hshow ⊢
        exact hshow
    · have hm : entry ∈ x :: xs := (List.mem_cons.mp hentry).resolve_left hel
      obtain ⟨us, vs, hsplit, hus⟩ := List.eq_append_cons_of_mem hm
      have hidx : (x :: xs).idxOf entry = us.length := by
        rw [hsplit, List.idxOf_append_of_notMem hus, List.idxOf_cons_self, Nat.add_zero]
      have htake : (x :: xs).take (us.length + 1) = us ++ [entry] := by
        rw [hsplit, List.take_length_add_append]
        rfl
      have hdrop : (x :: xs).drop (us.length + 1) = vs := by
        rw [hsplit, List.drop_length_add_append]
        rfl
      -- `list` may have been the head of a list, which it is no more
      let c' := Function.update c list none
      have hn : Spare h.Live c' list := by
        refine ⟨hlive, fun ⟨a, zs, ha, hz⟩ => ?_, fun zs hl => ?_⟩
        · exact hon ⟨a, zs, of_forget ha, hz⟩
        · have hnone : c' list = none := Function.update_self list none c
          rw [hnone] at hl
          cases hl
      obtain ⟨σ, ht⟩ := (hs.forget list).exists_tracks
      have hh' : Function.update c list none head = some (us ++ entry :: vs) := by
        rw [Function.update_of_ne hne.symm, hh, hsplit]
      obtain ⟨h', he, hsame, ht'⟩ := ht.cutBetween hh' hlive (ht.spare_fixed hn)
        (Function.update_self list none c)
      refine ⟨h', ?_, hsame, ?_⟩
      · rw [heval, if_neg hel]
        exact he
      · have hshow := ht'.shows
        rw [Function.update_comm hne, Function.update_idem] at hshow
        simp only [apply, hh, if_neg hel, hidx, htake, hdrop]
        exact hshow

theorem goes_splice (hs : Shows h c) (hr : (splice list head).Ready h.Live c) :
    Goes (splice list head) h c := by
  obtain ⟨σ, ht⟩ := hs.exists_tracks
  obtain ⟨⟨ys, hl⟩, ⟨xs, hh⟩, hne⟩ := hr
  have hempty := ht.empty_eq hl
  by_cases hys : ys = []
  · refine ⟨h, ?_, .refl h, ?_⟩
    · simp [exec, listSplice, hempty, hys]
    · simp only [apply, spliced, hl, hh, if_pos hys]
      exact hs
  · obtain ⟨h', he, hsame, ht'⟩ := ht.splice hl hh hne hys
    refine ⟨h', ?_, hsame, ?_⟩
    · simp [exec, listSplice, hempty, hys, ht.points.next head (ht.mem head xs hh), he]
    · simp only [apply, spliced, hl, hh, if_neg hys]
      exact ht'.shows

theorem goes_spliceTail (hs : Shows h c) (hr : (spliceTail list head).Ready h.Live c) :
    Goes (spliceTail list head) h c := by
  obtain ⟨σ, ht⟩ := hs.exists_tracks
  obtain ⟨⟨ys, hl⟩, ⟨xs, hh⟩, hne⟩ := hr
  have hempty := ht.empty_eq hl
  by_cases hys : ys = []
  · refine ⟨h, ?_, .refl h, ?_⟩
    · simp [exec, listSpliceTail, hempty, hys]
    · simp only [apply, spliced, hl, hh, if_pos hys]
      exact hs
  · obtain ⟨h', he, hsame, ht'⟩ := ht.spliceTail hl hh hne hys
    refine ⟨h', ?_, hsame, ?_⟩
    · simp [exec, listSpliceTail, hempty, hys, ht.points.prev head (ht.mem head xs hh), he]
    · simp only [apply, spliced, hl, hh, if_neg hys]
      exact ht'.shows

theorem spliced_init_nil (hl : c list = some []) (hh : c head = some xs)
    (f : List ℕ → List ℕ → List ℕ) :
    Function.update (spliced c list head f) list (some []) = c := by
  have hsame : spliced c list head f = c := by
    rw [spliced, hl, hh]
    exact if_pos rfl
  rw [hsame, ← hl, Function.update_eq_self]

theorem goes_spliceInit (hs : Shows h c) (hr : (spliceInit list head).Ready h.Live c) :
    Goes (spliceInit list head) h c := by
  obtain ⟨σ, ht⟩ := hs.exists_tracks
  obtain ⟨⟨ys, hl⟩, ⟨xs, hh⟩, hne⟩ := hr
  have hempty := ht.empty_eq hl
  by_cases hys : ys = []
  · subst hys
    refine ⟨h, by simp [exec, listSpliceInit, hempty], .refl h, ?_⟩
    simp only [apply, spliced_init_nil hl hh]
    exact hs
  · obtain ⟨h1, e1, hsame1, ht1⟩ := ht.splice hl hh hne hys
    have hlive := (hsame1.live list).mpr (ht.points.live (ht.mem list ys hl))
    obtain ⟨h2, e2, hsame2, ht2⟩ := ht1.init hlive (takeOut_self _ list)
    refine ⟨h2, ?_, hsame1.trans hsame2, ?_⟩
    · simp [exec, listSpliceInit, hempty, hys, ht.points.next head (ht.mem head xs hh), e1, e2]
    · simp only [apply, spliced, hl, hh, if_neg hys]
      exact ht2.shows

theorem goes_spliceTailInit (hs : Shows h c) (hr : (spliceTailInit list head).Ready h.Live c) :
    Goes (spliceTailInit list head) h c := by
  obtain ⟨σ, ht⟩ := hs.exists_tracks
  obtain ⟨⟨ys, hl⟩, ⟨xs, hh⟩, hne⟩ := hr
  have hempty := ht.empty_eq hl
  by_cases hys : ys = []
  · subst hys
    refine ⟨h, by simp [exec, listSpliceTailInit, hempty], .refl h, ?_⟩
    simp only [apply, spliced_init_nil hl hh]
    exact hs
  · obtain ⟨h1, e1, hsame1, ht1⟩ := ht.spliceTail hl hh hne hys
    have hlive := (hsame1.live list).mpr (ht.points.live (ht.mem list ys hl))
    obtain ⟨h2, e2, hsame2, ht2⟩ := ht1.init hlive (takeOut_self _ list)
    refine ⟨h2, ?_, hsame1.trans hsame2, ?_⟩
    · simp [exec, listSpliceTailInit, hempty, hys, ht.points.prev head (ht.mem head xs hh), e1,
        e2]
    · simp only [apply, spliced, hl, hh, if_neg hys]
      exact ht2.shows

theorem goes (op : ListOp) (hs : Shows h c) (hr : op.Ready h.Live c) : Goes op h c := by
  cases op with
  | init list => exact goes_init hs hr
  | add new head => exact goes_add hs hr
  | addTail new head => exact goes_addTail hs hr
  | del entry => exact goes_del hs hr
  | delInit entry => exact goes_delInit hs hr
  | replace old new => exact goes_replace hs hr
  | replaceInit old new => exact goes_replaceInit hs hr
  | move list head => exact goes_move hs hr
  | moveTail list head => exact goes_moveTail hs hr
  | rotateLeft head => exact goes_rotateLeft hs hr
  | cutPosition list head entry => exact goes_cutPosition hs hr
  | splice list head => exact goes_splice hs hr
  | spliceTail list head => exact goes_spliceTail hs hr
  | spliceInit list head => exact goes_spliceInit hs hr
  | spliceTailInit list head => exact goes_spliceTailInit hs hr

end ListOp

def listRun (ops : List ListOp) (h : Heap α) : Option (Heap α) :=
  ops.foldlM (fun h op => op.exec h) h

def listsRun (ops : List ListOp) (c : NodeLists ℕ) : NodeLists ℕ :=
  ops.foldl (fun c op => op.apply c) c

/-- The walks and the tests tell what the lists are. -/
structure Reads (h : Heap α) (head : ℕ) (xs : List ℕ) : Prop where
  forward : listForEachEntry h head = some xs
  backward : listForEachEntryReverse h head = some xs.reverse
  empty : listEmpty h head = some (decide (xs = []))
  emptyCareful : listEmptyCareful h head = some (decide (xs = []))
  singular : listIsSingular h head = some (decide (xs.length = 1))
  last : ∀ x ∈ xs, listIsLast h x head = some (decide (xs.getLast? = some x))

theorem Shows.reads {h : Heap α} {c : NodeLists ℕ} (hs : Shows h c) {head : ℕ} {xs : List ℕ}
    (hh : c head = some xs) : Reads h head xs where
  forward := listForEachEntry_ring (hs.ring head xs hh)
  backward := listForEachEntryReverse_ring (hs.ring head xs hh)
  empty := listEmpty_ring (hs.ring head xs hh)
  emptyCareful := listEmptyCareful_ring (hs.ring head xs hh)
  singular := listIsSingular_ring (hs.ring head xs hh)
  last _ hx := listIsLast_ring (hs.ring head xs hh) hx

theorem listRun_shows {ops : List ListOp} {h : Heap α} {c : NodeLists ℕ} (hs : Shows h c)
    (hr : ListOp.ReadyRun h.Live c ops) :
    ∃ h', listRun ops h = some h' ∧ SameBlocks h h' ∧ Shows h' (listsRun ops c) := by
  induction ops generalizing h c with
  | nil => exact ⟨h, rfl, .refl h, hs⟩
  | cons op ops ih =>
    obtain ⟨h1, e1, hsame1, hs1⟩ := op.goes hs hr.1
    have hlive : h1.Live = h.Live := funext fun x => propext (hsame1.live x)
    obtain ⟨h2, e2, hsame2, hs2⟩ := ih hs1 (hlive ▸ hr.2)
    refine ⟨h2, ?_, hsame1.trans hsame2, hs2⟩
    rw [listRun, List.foldlM_cons, e1]
    exact e2

/-- From any lists on, every sequence of ready operations goes through, and in the end each list
reads as the comments of the operations say. -/
theorem listRun_reads (ops : List ListOp) (h : Heap α) (c : NodeLists ℕ) (hs : Shows h c)
    (hr : ListOp.ReadyRun h.Live c ops) :
    ∃ h', listRun ops h = some h' ∧ SameBlocks h h' ∧ Shows h' (listsRun ops c) ∧
      ∀ head xs, listsRun ops c head = some xs → Reads h' head xs := by
  obtain ⟨h', he, hsame, hshow⟩ := listRun_shows hs hr
  exact ⟨h', he, hsame, hshow, fun _ _ hh => hshow.reads hh⟩

theorem shows_noLists (h : Heap α) : Shows h noLists where
  ring a xs ha := by cases ha
  apart a xs ha := by cases ha

def fourBlocks : Heap Unit :=
  ((((Heap.empty.malloc none).malloc none).malloc none).malloc none).malloc none

/-- Two nodes are listed, moved to another list and turned around there; one is deleted and
listed again, and is lost when the other one is moved to its list. -/
def someOps : List ListOp :=
  [.init 1, .addTail 2 1, .add 3 1, .init 4, .spliceInit 1 4, .rotateLeft 4, .del 2, .add 2 1,
    .cutPosition 1 4 3]

theorem someOps_ready : ListOp.ReadyRun fourBlocks.Live noLists someOps := by
  have hlive : ∀ x < 5, fourBlocks.Live x := by decide
  have hready : ListOp.ReadyRun (fun x => x < 5) noLists someOps := by
    simp [someOps, ListOp.ReadyRun, ListOp.Ready, Spare, NodeLists.On, NodeLists.IsHead,
      ListOp.apply, noLists, NodeLists.without, spliced, Function.update_apply]
    -- the nodes 3 and 4 are on no list before they are linked, and 2 is on one
    exact ⟨by grind, by grind, ⟨4, [2, 3], rfl, by decide⟩, by grind, by grind⟩
  have heq : fourBlocks.Live = fun x => x < 5 := by
    funext x
    refine propext ⟨fun hx => hx.lt, hlive x⟩
  exact heq ▸ hready

theorem listRun_reads_someOps :
    ∃ h', listRun someOps fourBlocks = some h' ∧ SameBlocks fourBlocks h' ∧
      Shows h' (listsRun someOps noLists) ∧
      ∀ head xs, listsRun someOps noLists head = some xs → Reads h' head xs :=
  listRun_reads someOps fourBlocks noLists (shows_noLists fourBlocks) someOps_ready

example : listsRun someOps noLists 4 = some [] ∧ listsRun someOps noLists 1 = some [3] := by
  decide

end Zsr
