import Zsr.CLib.Loop
import Zsr.Framework

namespace Zsr
open CLib

/-- The contents of `mem_stat_t` and of `swap_stat_t`. -/
structure Usage where
  totalKb : UInt64 := 0
  usedKb : UInt64 := 0
  freeKb : UInt64 := 0
  deriving DecidableEq

/-- The two sizes that a text gives, where it gives them. -/
structure Sizes where
  total : Option UInt64
  free : Option UInt64

namespace Usage

def reread (v : Sizes) (u : Usage) : Usage where
  totalKb := v.total.getD u.totalKb
  usedKb := v.total.getD u.totalKb - v.free.getD u.freeKb
  freeKb := v.free.getD u.freeKb

/-- The used and the free part make up the total, over the natural numbers. -/
def Adds (u : Usage) : Prop := u.usedKb.toNat + u.freeKb.toNat = u.totalKb.toNat

instance (u : Usage) : Decidable u.Adds := inferInstanceAs (Decidable (_ = _))

def StemsFrom (v : Sizes) (u : Usage) : Prop :=
  v.total = some u.totalKb ∧ v.free = some u.freeKb ∧ u.usedKb = u.totalKb - u.freeKb

/-- What a read leaves adds up, and is all of the text or all of the record before. -/
def WholeRead (v : Option Sizes) (before after : Usage) : Prop :=
  after.Adds ∧ ((∃ w, v = some w ∧ after.StemsFrom w) ∨ after = before)

/-- The text gives both sizes in order, or none that the record does not already hold. -/
def WholeText (v : Option Sizes) (before : Usage) : Prop :=
  match v with
  | none => True
  | some ⟨some total, some free⟩ => free ≤ total
  | some ⟨some total, none⟩ => total = before.totalKb
  | some ⟨none, some free⟩ => free = before.freeKb
  | some ⟨none, none⟩ => True

theorem Adds.used_eq {u : Usage} (h : u.Adds) : u.usedKb = u.totalKb - u.freeKb := by
  have hle : u.freeKb ≤ u.totalKb := by
    rw [UInt64.le_iff_toNat_le]
    exact h ▸ Nat.le_add_left _ _
  rw [← UInt64.toNat_inj, UInt64.toNat_sub_of_le _ _ hle]
  exact (Nat.sub_eq_of_eq_add h.symm).symm

theorem adds_reread_iff (w : Sizes) (u : Usage) :
    (u.reread w).Adds ↔ w.free.getD u.freeKb ≤ w.total.getD u.totalKb :=
  toNat_sub_add_iff _ _

theorem reread_eq_self_iff {u : Usage} (h : u.Adds) (w : Sizes) :
    u.reread w = u ↔ w.total.getD u.totalKb = u.totalKb ∧ w.free.getD u.freeKb = u.freeKb := by
  constructor
  · intro he
    exact ⟨congrArg totalKb he, congrArg freeKb he⟩
  · rintro ⟨ht, hf⟩
    rw [reread, ht, hf, ← h.used_eq]

theorem wholeRead_iff {u : Usage} (h : u.Adds) (v : Option Sizes) :
    WholeRead v u (v.elim u u.reread) ↔ WholeText v u := by
  cases v with
  | none => exact iff_of_true ⟨h, .inr rfl⟩ trivial
  | some w =>
    have hself := reread_eq_self_iff h w
    obtain ⟨total, free⟩ := w
    rw [Option.elim_some]
    -- without both sizes the record has to be as it was
    have hpart (hmiss : total = none ∨ free = none) :
        WholeRead (some ⟨total, free⟩) u (u.reread ⟨total, free⟩) ↔
          total.getD u.totalKb = u.totalKb ∧ free.getD u.freeKb = u.freeKb := by
      rw [← hself]
      constructor
      · rintro ⟨-, ⟨w, hw, hstem⟩ | he⟩
        · obtain rfl := Option.some.inj hw
          rcases hmiss with rfl | rfl
          · exact absurd hstem.1 (by simp)
          · exact absurd hstem.2.1 (by simp)
        · exact he
      · intro he
        exact ⟨he.symm ▸ h, .inr he⟩
    cases total with
    | none => cases free <;> simp [hpart, WholeText]
    | some total =>
      cases free with
      | none => simp [hpart, WholeText]
      | some free =>
        constructor
        · exact fun hread => (adds_reread_iff _ u).mp hread.1
        · intro hle
          exact ⟨(adds_reread_iff _ u).mpr hle, .inl ⟨_, rfl, rfl, rfl, rfl⟩⟩

end Usage

def memTotal : Text := "MemTotal:".toList

def memFree : Text := "MemFree:".toList

def swapTotal : Text := "SwapTotal:".toList

def swapFree : Text := "SwapFree:".toList

/-- The number behind a name at the start of a line. -/
def lineSize (name line : Text) : Option UInt64 :=
  if name <+: line then (scanLu (line.drop name.length)).map Prod.fst else none

/-- `MemTotal` and `MemFree` in the lines before any other. -/
def memSizes (s : Text) : Sizes :=
  let lines := (fgetsLines LEN_128 s).takeWhile fun buf =>
    memTotal <+: buf || memFree <+: buf
  { total := (lines.filterMap (lineSize memTotal)).getLast?
    free := (lines.filterMap (lineSize memFree)).getLast? }

/-- The first line with `SwapFree` and the `SwapTotal` before it. -/
def swapSizes (s : Text) : Sizes :=
  let lines := fgetsLines LEN_128 s
  let before := lines.takeWhile fun line => !(swapFree <+: line)
  { total := (before.filterMap (lineSize swapTotal)).getLast?
    free := (lines.find? (swapFree <+: ·)).bind (lineSize swapFree) }

def MemStat.usage (mem : MemStat) : Usage := ⟨mem.totalKb, mem.usedKb, mem.freeKb⟩

def SwapStat.usage (swap : SwapStat) : Usage := ⟨swap.totalKb, swap.usedKb, swap.freeKb⟩

theorem storeLu_eq {name line : Text} (h : name <+: line) (x : UInt64) :
    storeLu x (line.drop name.length) = (lineSize name line).getD x := by
  rw [storeLu, lineSize, if_pos h]

theorem getD_getLast?_cons {ε : Type} (f : Text → Option ε) (line : Text) (lines : List Text)
    (x : ε) : ((line :: lines).filterMap f).getLast?.getD x =
      (lines.filterMap f).getLast?.getD ((f line).getD x) := by
  rw [List.filterMap_cons]
  cases f line with
  | none => rfl
  | some y =>
    dsimp only
    rw [List.getLast?_cons]
    cases (lines.filterMap f).getLast? <;> rfl

theorem lineSize_of_not {name line : Text} (h : ¬name <+: line) : lineSize name line = none :=
  if_neg h

theorem prefix_exclusive {name name' line : Text} (h : name <+: line)
    (hne : ¬name <+: name' ∧ ¬name' <+: name) : ¬name' <+: line := fun h' =>
  (List.prefix_or_prefix_of_prefix h h').elim hne.1 hne.2

theorem memLines_cons (mem : MemStat) (buf : Text) (bufs : List Text) :
    memLines mem (buf :: bufs) =
      if memTotal <+: buf then
        memLines { mem with totalKb := storeLu mem.totalKb (buf.drop memTotal.length) } bufs
      else if memFree <+: buf then
        memLines { mem with freeKb := storeLu mem.freeKb (buf.drop memFree.length) } bufs
      else mem := rfl

theorem memLines_eq (lines : List Text) (mem : MemStat) :
    memLines mem lines =
      let lines := lines.takeWhile fun buf => memTotal <+: buf || memFree <+: buf
      { mem with
        totalKb := (lines.filterMap (lineSize memTotal)).getLast?.getD mem.totalKb
        freeKb := (lines.filterMap (lineSize memFree)).getLast?.getD mem.freeKb } := by
  have hne : ¬memTotal <+: memFree ∧ ¬memFree <+: memTotal := by decide
  induction lines generalizing mem with
  | nil => rfl
  | cons buf bufs ih =>
    rw [memLines_cons]
    by_cases ht : memTotal <+: buf
    · have hf := lineSize_of_not (prefix_exclusive ht hne)
      rw [if_pos ht, ih, List.takeWhile_cons_of_pos (by simp [ht])]
      simp only [getD_getLast?_cons, hf, Option.getD_none, storeLu_eq ht]
    · rw [if_neg ht]
      by_cases hf : memFree <+: buf
      · rw [if_pos hf, ih, List.takeWhile_cons_of_pos (by simp [hf])]
        simp only [getD_getLast?_cons, lineSize_of_not ht, Option.getD_none, storeLu_eq hf]
      · -- any other line ends the loop
        rw [if_neg hf, List.takeWhile_cons_of_neg (by simp [ht, hf])]
        rfl

theorem swapLines_cons (swap : SwapStat) (line : Text) (lines : List Text) :
    swapLines swap (line :: lines) =
      if swapTotal <+: line then
        swapLines { swap with
          totalKb := storeLu swap.totalKb (line.drop swapTotal.length) } lines
      else if swapFree <+: line then
        { swap with freeKb := storeLu swap.freeKb (line.drop swapFree.length) }
      else swapLines swap lines := rfl

theorem swapLines_eq (lines : List Text) (swap : SwapStat) :
    swapLines swap lines =
      let before := lines.takeWhile fun line => !(swapFree <+: line)
      { swap with
        totalKb := (before.filterMap (lineSize swapTotal)).getLast?.getD swap.totalKb
        freeKb := ((lines.find? (swapFree <+: ·)).bind (lineSize swapFree)).getD swap.freeKb } := by
  have hne : ¬swapFree <+: swapTotal ∧ ¬swapTotal <+: swapFree := by decide
  induction lines generalizing swap with
  | nil => rfl
  | cons line lines ih =>
    rw [swapLines_cons]
    by_cases hf : swapFree <+: line
    · -- the first such line ends the loop
      rw [if_neg (prefix_exclusive hf hne), if_pos hf, List.takeWhile_cons_of_neg (by simp [hf]),
        List.find?_cons_of_pos (by simp [hf]), storeLu_eq hf]
      rfl
    · rw [List.takeWhile_cons_of_pos (by simp [hf]), List.find?_cons_of_neg (by simp [hf])]
      simp only [getD_getLast?_cons]
      by_cases ht : swapTotal <+: line
      · rw [if_pos ht, ih, storeLu_eq ht]
      · rw [if_neg ht, if_neg hf, ih, lineSize_of_not ht]
        rfl

theorem usage_readMemStat (meminfo : Option Text) (mem : MemStat) :
    (readMemStat meminfo mem).usage = (meminfo.map memSizes).elim mem.usage mem.usage.reread := by
  cases meminfo with
  | none => rfl
  | some s =>
    rw [readMemStat, memLines_eq]
    rfl

theorem usage_readSwapStat (meminfo : Option Text) (swap : SwapStat) :
    (readSwapStat meminfo swap).usage =
      (meminfo.map swapSizes).elim swap.usage swap.usage.reread := by
  cases meminfo with
  | none => rfl
  | some s =>
    rw [readSwapStat, swapLines_eq]
    rfl

section Run

variable {ε : Type} (collect : Option Text → List ε → Option (List ε)) (sizes : Text → Sizes)
  (usage : ε → Usage)

/-- What the one record holds; it is allocated as zeros. -/
def heldUsage (l : List ε) : Usage := (l.getLast?.map usage).getD {}

/-- Every read of a run leaves values that add up and are all of its text, or leaves the
record as it was. -/
def ReadsWhole (es : List (Option Text)) : Prop :=
  ∀ es' e, es' ++ [e] <+: es → ∃ l entry, cycles collect es' [] = some l ∧
    cycles collect (es' ++ [e]) [] = some [entry] ∧
    Usage.WholeRead (e.map sizes) (heldUsage usage l) (usage entry)

/-- Every text of a run is whole for the record that it is read into. -/
def TextsWhole (es : List (Option Text)) : Prop :=
  ∀ es' e, es' ++ [e] <+: es → ∀ l, cycles collect es' [] = some l →
    Usage.WholeText (e.map sizes) (heldUsage usage l)

variable {sizes usage}

section Single

variable {read : Option Text → ε → ε} {zeroed : ε} (hzero : usage zeroed = {})
  (hread : ∀ e x, usage (read e x) = (e.map sizes).elim (usage x) (usage x).reread)

include hzero hread

theorem heldUsage_cycles (es : List (Option Text)) :
    ∃ l, cycles (fun e => collectSingle (fun x => some (read e x)) zeroed) es [] = some l ∧
      heldUsage usage l = es.foldl (fun u e => (e.map sizes).elim u u.reread) {} := by
  have hfold : usage (es.foldl (fun x e => read e x) zeroed) =
      es.foldl (fun u e => (e.map sizes).elim u u.reread) {} := by
    rw [← hzero]
    symm
    apply List.foldl_hom
    exact fun x e => (hread e x).symm
  rcases List.eq_nil_or_concat es with rfl | ⟨es, e, rfl⟩
  · exact ⟨[], rfl, rfl⟩
  · rw [List.concat_eq_append] at hfold ⊢
    exact ⟨_, cycles_collectSingle read zeroed es e, hfold⟩

theorem heldUsage_of_cycles {es : List (Option Text)} {l : List ε}
    (hl : cycles (fun e => collectSingle (fun x => some (read e x)) zeroed) es [] = some l) :
    heldUsage usage l = es.foldl (fun u e => (e.map sizes).elim u u.reread) {} := by
  obtain ⟨l', hl', hu⟩ := heldUsage_cycles hzero hread es
  obtain rfl := Option.some.inj (hl.symm.trans hl')
  exact hu

theorem read_whole_iff (es : List (Option Text)) (e : Option Text) :
    (∃ l entry, cycles (fun e => collectSingle (fun x => some (read e x)) zeroed) es [] = some l ∧
      cycles (fun e => collectSingle (fun x => some (read e x)) zeroed) (es ++ [e]) [] =
        some [entry] ∧ Usage.WholeRead (e.map sizes) (heldUsage usage l) (usage entry)) ↔
    Usage.WholeRead (e.map sizes) (es.foldl (fun u e => (e.map sizes).elim u u.reread) {})
      ((es ++ [e]).foldl (fun u e => (e.map sizes).elim u u.reread) {}) := by
  constructor
  · rintro ⟨l, entry, hl, hl', h⟩
    rw [← heldUsage_of_cycles hzero hread hl, ← heldUsage_of_cycles hzero hread hl']
    exact h
  · intro h
    obtain ⟨l, hl, hu⟩ := heldUsage_cycles hzero hread es
    have hl' := cycles_collectSingle read zeroed es e
    refine ⟨l, _, hl, hl', ?_⟩
    rw [← hu, ← heldUsage_of_cycles hzero hread hl'] at h
    exact h

theorem text_whole_iff (es : List (Option Text)) (e : Option Text) :
    (∀ l, cycles (fun e => collectSingle (fun x => some (read e x)) zeroed) es [] = some l →
      Usage.WholeText (e.map sizes) (heldUsage usage l)) ↔
    Usage.WholeText (e.map sizes)
      (es.foldl (fun u e => (e.map sizes).elim u u.reread) {}) := by
  constructor
  · intro h
    obtain ⟨l, hl, hu⟩ := heldUsage_cycles hzero hread es
    rw [← hu]
    exact h l hl
  · intro h l hl
    rw [heldUsage_of_cycles hzero hread hl]
    exact h

theorem readsWhole_iff (es : List (Option Text)) :
    ReadsWhole (fun e => collectSingle (fun x => some (read e x)) zeroed) sizes usage es ↔
      TextsWhole (fun e => collectSingle (fun x => some (read e x)) zeroed) sizes usage es := by
  unfold ReadsWhole TextsWhole
  simp only [read_whole_iff hzero hread, text_whole_iff hzero hread]
  have hadds (e : Option Text) (u : Usage)
      (h : Usage.WholeRead (e.map sizes) u ((e.map sizes).elim u u.reread)) :
      Usage.Adds ((e.map sizes).elim u u.reread) := h.1
  exact forall_prefix_foldl_iff hadds (fun e u hu => Usage.wholeRead_iff hu (e.map sizes))
    (show Usage.Adds {} from rfl) es

end Single

end Run

/-- Both records are read whole in a run exactly when its texts are whole for them. -/
theorem meminfoRun_whole_iff (es : List (Option Text)) :
    (ReadsWhole ModMem.collectRecord memSizes MemStat.usage es ↔
      TextsWhole ModMem.collectRecord memSizes MemStat.usage es) ∧
    (ReadsWhole ModSwap.collectRecord swapSizes SwapStat.usage es ↔
      TextsWhole ModSwap.collectRecord swapSizes SwapStat.usage es) := by
  have hmem : MemStat.usage {} = {} := rfl
  have hswap : SwapStat.usage {} = {} := rfl
  exact ⟨readsWhole_iff hmem usage_readMemStat es, readsWhole_iff hswap usage_readSwapStat es⟩

def memBefore : Text := "MemTotal:       8 kB\nMemFree:        6 kB\n".toList

def memBroken : Text := "MemTotal:       4 kB\n".toList

/-- The total of one text and the free part of another give a used part that wraps. -/
theorem memRun_mixed :
    cycles ModMem.collectRecord [some memBefore, some memBroken] [] =
      some [{ totalKb := 4, usedKb := 18446744073709551614, freeKb := 6 }] ∧
    ¬∀ es, ReadsWhole ModMem.collectRecord memSizes MemStat.usage es := by
  have hrun : cycles ModMem.collectRecord [some memBefore, some memBroken] [] =
      some [{ totalKb := 4, usedKb := 18446744073709551614, freeKb := 6 }] := by decide +kernel
  refine ⟨hrun, fun hall => ?_⟩
  obtain ⟨l, entry, -, h, hwhole⟩ := hall _ [some memBefore] (some memBroken) List.prefix_rfl
  rw [List.singleton_append, hrun] at h
  obtain rfl := List.singleton_inj.mp (Option.some.inj h)
  exact absurd hwhole.1 (by decide)

end Zsr
