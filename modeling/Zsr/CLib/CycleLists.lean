import Zsr.CLib.Cycles
import Mathlib.Data.List.Rotate

namespace CLib
open Equiv

variable {ι : Type} [DecidableEq ι]

abbrev NodeLists (ι : Type) := ι → Option (List ι)

namespace NodeLists

omit [DecidableEq ι] in
/-- A node of one of the lists, other than the head. -/
def On (c : NodeLists ι) (x : ι) : Prop := ∃ a xs, c a = some xs ∧ x ∈ xs

def IsHead (c : NodeLists ι) (a : ι) : Prop := ∃ xs, c a = some xs

/-- The lists without `e`; a list with this head is given up. -/
def without (c : NodeLists ι) (e : ι) : NodeLists ι :=
  fun a => if a = e then none else (c a).map fun xs => xs.erase e

def renamed (c : NodeLists ι) (old new : ι) : NodeLists ι := fun a =>
  if a = old then none
  else (c (if a = new then old else a)).map (List.map fun x => if x = old then new else x)

end NodeLists

structure CycleLists (σ : Perm ι) (c : NodeLists ι) : Prop where
  cyc : ∀ a xs, c a = some xs → Cyc σ a xs
  apart : ∀ a xs, c a = some xs → ∀ x ∈ xs, c x = none

theorem takeOut_of_fixed {σ : Perm ι} {e : ι} (h : σ e = e) : takeOut σ e = σ := by
  have hsymm : σ.symm e = e := σ.symm_apply_eq.mpr h.symm
  rw [takeOut, hsymm, swap_self]
  exact mul_one σ

namespace CycleLists

variable {σ : Perm ι} {c : NodeLists ι} {a b e new head : ι} {xs ys : List ι}

omit [DecidableEq ι] in
theorem not_on (h : CycleLists σ c) (ha : c a = some xs) : ¬c.On a := by
  rintro ⟨b, ys, hb, hm⟩
  rw [h.apart b ys hb a hm] at ha
  cases ha

omit [DecidableEq ι] in
theorem head_not_mem (h : CycleLists σ c) (ha : c a = some xs) (hb : c b = some ys)
    (hne : a ≠ b) : a ∉ b :: ys := by
  intro hm
  rcases List.mem_cons.mp hm with rfl | hm
  · exact hne rfl
  · exact h.not_on ha ⟨b, ys, hb, hm⟩

omit [DecidableEq ι] in
theorem disjoint (h : CycleLists σ c) (ha : c a = some xs) (hb : c b = some ys) (hne : a ≠ b) :
    ∀ x ∈ a :: xs, x ∉ b :: ys :=
  (h.cyc b ys hb).not_mem (h.cyc a xs ha) (h.head_not_mem ha hb hne)

theorem without (h : CycleLists σ c) (e : ι) : CycleLists (takeOut σ e) (c.without e) := by
  constructor
  · intro a xs ha
    unfold NodeLists.without at ha
    split at ha
    · cases ha
    · next hne =>
      obtain ⟨ys, hys, rfl⟩ := Option.map_eq_some_iff.mp ha
      exact (h.cyc a ys hys).takeOut (Ne.symm hne)
  · intro a xs ha x hx
    unfold NodeLists.without at ha ⊢
    split at ha
    · cases ha
    · obtain ⟨ys, hys, rfl⟩ := Option.map_eq_some_iff.mp ha
      rw [h.apart a ys hys x (List.mem_of_mem_erase hx)]
      simp

theorem without_eq (h : CycleLists σ c) (ha : c a = some xs) (hx : e ∈ xs) :
    c.without e = Function.update c a (some (xs.erase e)) := by
  funext b
  unfold NodeLists.without
  by_cases hba : b = a
  · subst hba
    have hne : b ≠ e := by
      rintro rfl
      exact h.not_on ha ⟨b, xs, ha, hx⟩
    rw [if_neg hne, ha, Function.update_self]
    rfl
  · rw [Function.update_of_ne hba]
    by_cases hbe : b = e
    · rw [if_pos hbe, hbe, h.apart a xs ha e hx]
    · rw [if_neg hbe]
      cases hb : c b with
      | none => rfl
      | some ys =>
        have hout := h.disjoint ha hb (Ne.symm hba) e (List.mem_cons_of_mem a hx)
        rw [Option.map_some, List.erase_of_not_mem fun hm => hout (List.mem_cons_of_mem b hm)]

omit [DecidableEq ι] in
theorem fixed_not_on (h : CycleLists σ c) (he : σ e = e) : ¬c.On e := by
  rintro ⟨a, xs, ha, hm⟩
  have hc := h.cyc a xs ha
  have hne : e ≠ a := fun hea => (List.nodup_cons.mp hc.nodup).1 (hea ▸ hm)
  exact hc.fixed_not_mem he hne (List.mem_cons_of_mem a hm)

theorem forget (h : CycleLists σ c) (a : ι) : CycleLists σ (Function.update c a none) := by
  have hsub : ∀ b ys, Function.update c a none b = some ys → c b = some ys := by
    intro b ys hb
    by_cases hba : b = a
    · rw [hba, Function.update_self] at hb
      cases hb
    · rwa [Function.update_of_ne hba] at hb
  refine ⟨fun b ys hb => h.cyc b ys (hsub b ys hb), fun b ys hb x hx => ?_⟩
  rw [Function.update_apply, h.apart b ys (hsub b ys hb) x hx, ite_self]

theorem extend {τ : Perm ι} (h : CycleLists σ c) (hhead : ¬c.On head) (hcyc : Cyc τ head xs)
    (hothers : ∀ b ys, b ≠ head → c b = some ys → Cyc τ b ys) (hnone : ∀ x ∈ xs, c x = none) :
    CycleLists τ (Function.update c head (some xs)) := by
  have hcases {a : ι} {ys : List ι} (ha : Function.update c head (some xs) a = some ys) :
      (a = head ∧ xs = ys) ∨ (a ≠ head ∧ c a = some ys) := by
    by_cases hah : a = head
    · rw [hah, Function.update_self] at ha
      exact .inl ⟨hah, Option.some.inj ha⟩
    · rw [Function.update_of_ne hah] at ha
      exact .inr ⟨hah, ha⟩
  constructor
  · intro a ys ha
    rcases hcases ha with ⟨rfl, rfl⟩ | ⟨hah, ha⟩
    · exact hcyc
    · exact hothers a ys hah ha
  · intro a ys ha x hx
    rcases hcases ha with ⟨rfl, rfl⟩ | ⟨hah, ha⟩
    · have hxa : x ≠ a := fun e => (List.nodup_cons.mp hcyc.nodup).1 (e ▸ hx)
      rw [Function.update_of_ne hxa, hnone x hx]
    · have hxh : x ≠ head := fun e => hhead ⟨a, ys, ha, e ▸ hx⟩
      rw [Function.update_of_ne hxh, h.apart a ys ha x hx]

theorem setEmpty (h : CycleLists σ c) (he : σ e = e) :
    CycleLists σ (Function.update c e (some [])) :=
  h.extend (h.fixed_not_on he) (Cyc.fixed_iff.mpr he) (fun b ys _ hb => h.cyc b ys hb)
    fun _ hx => (List.not_mem_nil hx).elim

omit [DecidableEq ι] in
theorem fixed_not_mem (h : CycleLists σ c) (hnew : σ new = new) (hnone : c new = none)
    (ha : c a = some xs) : new ∉ a :: xs := by
  apply (h.cyc a xs ha).fixed_not_mem hnew
  rintro rfl
  rw [ha] at hnone
  cases hnone

theorem putBehind (h : CycleLists σ c) (hh : c head = some xs) (hnew : σ new = new)
    (hnone : c new = none) :
    CycleLists (putBehind σ head new) (Function.update c head (some (new :: xs))) := by
  have hne : new ≠ head := fun e => h.fixed_not_mem hnew hnone hh (e ▸ List.mem_cons_self)
  apply h.extend (h.not_on hh) ((h.cyc head xs hh).putBehind hnew hne)
  · intro b ys hb hc
    exact (h.cyc b ys hc).frame (h.head_not_mem hh hc hb.symm) (h.fixed_not_mem hnew hnone hc)
  · exact List.forall_mem_cons.mpr ⟨hnone, h.apart head xs hh⟩

omit [DecidableEq ι] in
theorem symm_not_mem (h : CycleLists σ c) (ha : c a = some xs) (hb : c b = some ys)
    (hne : a ≠ b) : σ.symm a ∉ b :: ys := by
  intro hm
  have := (h.cyc b ys hb).apply_mem _ hm
  rw [σ.apply_symm_apply] at this
  exact h.head_not_mem ha hb hne this

theorem putBefore (h : CycleLists σ c) (hh : c head = some xs) (hnew : σ new = new)
    (hnone : c new = none) :
    CycleLists (putBefore σ head new) (Function.update c head (some (xs ++ [new]))) := by
  have hne : new ≠ head := fun e => h.fixed_not_mem hnew hnone hh (e ▸ List.mem_cons_self)
  apply h.extend (h.not_on hh) ((h.cyc head xs hh).putBefore hnew hne)
  · intro b ys hb hc
    exact (h.cyc b ys hc).frame (h.symm_not_mem hh hc hb.symm) (h.fixed_not_mem hnew hnone hc)
  · exact List.forall_mem_append.mpr
      ⟨h.apart head xs hh, List.forall_mem_singleton.mpr hnone⟩

section Two

variable {list entry : ι} {us vs : List ι}

theorem takeOut_others {p : ι} (h : CycleLists σ c) (hl : c list = some ys) (hb : c b = some xs)
    (hne : b ≠ list) (hp : p ∉ b :: xs) : Cyc (takeOut (σ * swap p list) list) b xs := by
  have hout := h.head_not_mem hl hb hne.symm
  have hframe := ((h.cyc b xs hb).frame hp hout).takeOut hne.symm
  rwa [List.erase_of_not_mem fun hm => hout (List.mem_cons_of_mem b hm)] at hframe

theorem joined_none (h : CycleLists σ c) (hl : c list = some ys) (hh : c head = some xs) :
    ∀ x ∈ ys ++ xs, Function.update c list none x = none := by
  intro x hx
  rw [Function.update_apply]
  split
  · rfl
  · rcases List.mem_append.mp hx with hx | hx
    · exact h.apart list ys hl x hx
    · exact h.apart head xs hh x hx

theorem join (h : CycleLists σ c) (hl : c list = some ys) (hh : c head = some xs)
    (hne : list ≠ head) : CycleLists (takeOut (σ * swap head list) list)
      (Function.update (Function.update c list none) head (some (ys ++ xs))) := by
  have hlist := h.cyc list ys hl
  have hjoin := ((h.cyc head xs hh).join hlist (h.head_not_mem hl hh hne)).takeOut hne
  rw [List.erase_append_right _ (List.nodup_cons.mp hlist.nodup).1, List.erase_cons_head] at hjoin
  have hhead : Function.update c list none head = some xs := by
    rw [Function.update_of_ne hne.symm, hh]
  apply (h.forget list).extend ((h.forget list).not_on hhead) hjoin
  · intro b zs hb hc
    have hbl : b ≠ list := by
      rintro rfl
      rw [Function.update_self] at hc
      cases hc
    rw [Function.update_of_ne hbl] at hc
    exact h.takeOut_others hl hc hbl (h.head_not_mem hh hc hb.symm)
  · exact h.joined_none hl hh

theorem joinTail (h : CycleLists σ c) (hl : c list = some ys) (hh : c head = some xs)
    (hne : list ≠ head) : CycleLists (takeOut (σ * swap (σ.symm head) list) list)
      (Function.update (Function.update c list none) head (some (xs ++ ys))) := by
  have hlist := h.cyc list ys hl
  have hout := h.head_not_mem hl hh hne
  have hjoin := ((h.cyc head xs hh).join_before hlist hout).takeOut hne
  rw [List.erase_append_right _ fun hm => hout (List.mem_cons_of_mem head hm),
    List.erase_append_right _ (List.nodup_cons.mp hlist.nodup).1, List.erase_cons_head,
    List.append_nil] at hjoin
  have hhead : Function.update c list none head = some xs := by
    rw [Function.update_of_ne hne.symm, hh]
  apply (h.forget list).extend ((h.forget list).not_on hhead) hjoin
  · intro b zs hb hc
    have hbl : b ≠ list := by
      rintro rfl
      rw [Function.update_self] at hc
      cases hc
    rw [Function.update_of_ne hbl] at hc
    exact h.takeOut_others hl hc hbl (h.symm_not_mem hh hc hb.symm)
  · intro x hx
    exact h.joined_none hl hh x (List.perm_append_comm.mem_iff.mp hx)

theorem cut (h : CycleLists σ c) (hh : c head = some (us ++ entry :: vs)) (hl : σ list = list)
    (hnone : c list = none) :
    CycleLists (CLib.putBehind (σ * swap head entry) entry list)
      (Function.update (Function.update c head (some vs)) list (some (us ++ [entry]))) := by
  have hout := h.fixed_not_mem hl hnone hh
  obtain ⟨hback, hfront⟩ := (h.cyc head _ hh).cut
  have hnd := (h.cyc head _ hh).nodup
  have hentry : entry ∈ us ++ entry :: vs := by simp
  simp only [List.nodup_cons, List.mem_cons, List.mem_append, List.nodup_append] at hnd
  simp only [List.mem_cons, List.mem_append, not_or] at hout
  have hfixed : (σ * swap head entry) list = list := by
    rw [Perm.mul_apply, swap_apply_of_ne_of_ne hout.1 hout.2.2.1, hl]
  have hlist : Cyc (CLib.putBehind (σ * swap head entry) entry list) list (us ++ [entry]) := by
    have hput : Cyc _ entry ([] ++ list :: us) := hfront.putBehind hfixed hout.2.2.1
    exact hput.rotate
  have hvs : Cyc (CLib.putBehind (σ * swap head entry) entry list) head vs := by
    apply hback.frame
    · simp only [List.mem_cons, not_or]
      tauto
    · simp only [List.mem_cons, not_or]
      exact ⟨hout.1, hout.2.2.2⟩
  have hothers : ∀ b ys, b ≠ head → c b = some ys →
      Cyc (CLib.putBehind (σ * swap head entry) entry list) b ys := by
    intro b ys hb hc
    have hn := h.disjoint hh hc hb.symm
    have he := hn entry (List.mem_cons_of_mem head hentry)
    exact (((h.cyc b ys hc).frame (hn head List.mem_cons_self) he).frame he
      (h.fixed_not_mem hl hnone hc))
  have hkept := h.extend (h.not_on hh) hvs hothers
    fun x hx => h.apart head _ hh x (by simp [hx])
  apply hkept.extend _ hlist fun b ys _ hb => hkept.cyc b ys hb
  · intro x hx
    have hxm : x ∈ us ++ entry :: vs := by
      simp only [List.mem_append, List.mem_cons] at hx ⊢
      tauto
    have hxh : x ≠ head := by
      rintro rfl
      exact (List.nodup_cons.mp (h.cyc x _ hh).nodup).1 hxm
    rw [Function.update_of_ne hxh, h.apart head _ hh x hxm]
  · -- the lists that are kept have only nodes that were on lists before
    rintro ⟨a, ys, ha, hm⟩
    by_cases hah : a = head
    · rw [hah, Function.update_self] at ha
      obtain rfl := Option.some.inj ha
      exact hout.2.2.2 hm
    · rw [Function.update_of_ne hah] at ha
      exact h.fixed_not_mem hl hnone ha (List.mem_cons_of_mem a hm)

end Two

theorem renamed {old : ι} (h : CycleLists σ c) (hnew : σ new = new) (hne : new ≠ old) :
    CycleLists (swap old new * σ * swap old new) (c.renamed old new) := by
  have hnot {a : ι} {xs : List ι} (ha : c a = some xs) : new ∉ xs := fun hm =>
    h.fixed_not_on hnew ⟨a, xs, ha, hm⟩
  have hcases {a : ι} {zs : List ι} (ha : c.renamed old new a = some zs) :
      ∃ b xs, c b = some xs ∧ a = swap old new b ∧
        zs = xs.map fun x => if x = old then new else x := by
    unfold NodeLists.renamed at ha
    split at ha
    · cases ha
    · next hao =>
      obtain ⟨xs, hxs, rfl⟩ := Option.map_eq_some_iff.mp ha
      refine ⟨_, xs, hxs, ?_, rfl⟩
      split
      · next han => rw [han, swap_apply_left]
      · next han => rw [swap_apply_of_ne_of_ne hao han]
  constructor
  · intro a zs ha
    obtain ⟨b, xs, hb, rfl, rfl⟩ := hcases ha
    have hmap : (xs.map fun x => if x = old then new else x) = xs.map (swap old new) := by
      apply List.map_congr_left
      intro x hx
      have hxn : x ≠ new := fun e => hnot hb (e ▸ hx)
      rw [swap_apply_def, if_neg hxn]
    rw [hmap]
    apply (h.cyc b xs hb).map (swap old new).injective
    intro x
    simp only [Perm.mul_apply, swap_apply_self]
  · intro a zs ha x hx
    obtain ⟨b, xs, hb, -, rfl⟩ := hcases ha
    obtain ⟨y, hy, rfl⟩ := List.mem_map.mp hx
    have hyn : y ≠ new := fun e => hnot hb (e ▸ hy)
    have hnone := h.apart b xs hb y hy
    unfold NodeLists.renamed
    by_cases hyo : y = old
    · subst hyo
      simp [hne, hnone]
    · simp [hyo, hyn, hnone]

end CycleLists
end CLib
