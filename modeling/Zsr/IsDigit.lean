import Zsr.Common
import Zsr.CLib.Scan

namespace Zsr
open CLib

/-- An optional `-`, digits, and behind them perhaps a point and digits. -/
def IsNumber (s : Text) : Prop :=
  ∃ sign ds frac, s = sign ++ ds ++ frac ∧ (sign = [] ∨ sign = ['-']) ∧ Digits ds ∧
    (frac = [] ∨ ∃ fs, frac = '.' :: fs ∧ Digits fs)

def pointed (groups : List Text) : Text := (groups.map ('.' :: ·)).flatten

/-- Digits with any number of points between them. -/
def Dotted (t : Text) : Prop :=
  ∃ ds groups, t = ds ++ pointed groups ∧ Digits ds ∧ ∀ g ∈ groups, Digits g

/-- An optional `-`, and digits with any number of points between them. -/
def SignedDotted (s : Text) : Prop :=
  ∃ sign t, s = sign ++ t ∧ (sign = [] ∨ sign = ['-']) ∧ Dotted t

/-- Three or more groups of digits, where a number has one or two. -/
def ManyPoints (s : Text) : Prop := SignedDotted s ∧ 2 ≤ s.count '.'

theorem count_point {ds : Text} (h : Digits ds) : ds.count '.' = 0 :=
  List.count_eq_zero.mpr fun hp => absurd (h.2 '.' hp) (by decide)

theorem count_pointed {groups : List Text} (h : ∀ g ∈ groups, Digits g) :
    (pointed groups).count '.' = groups.length := by
  induction groups with
  | nil => rfl
  | cons g groups ih =>
    obtain ⟨hg, hgroups⟩ := List.forall_mem_cons.mp h
    have hpointed : pointed (g :: groups) = '.' :: (g ++ pointed groups) := rfl
    rw [hpointed, List.count_cons_self, List.count_append, count_point hg, ih hgroups, Nat.zero_add,
      List.length_cons]

theorem count_signed {sign ds : Text} {groups : List Text} (hsign : sign = [] ∨ sign = ['-'])
    (hds : Digits ds) (hgroups : ∀ g ∈ groups, Digits g) :
    (sign ++ (ds ++ pointed groups)).count '.' = groups.length := by
  have hcount : sign.count '.' = 0 := by
    rcases hsign with rfl | rfl <;> rfl
  rw [List.count_append, List.count_append, hcount, count_point hds, count_pointed hgroups]
  omega

theorem isNumber_iff {s : Text} : IsNumber s ↔ SignedDotted s ∧ s.count '.' ≤ 1 := by
  constructor
  · rintro ⟨sign, ds, frac, rfl, hsign, hds, rfl | ⟨fs, rfl, hfs⟩⟩
    · have hnone := List.forall_mem_nil Digits
      have h := count_signed hsign hds hnone
      rw [pointed, List.map_nil, List.flatten_nil, ← List.append_assoc, List.length_nil] at h
      exact ⟨⟨sign, ds, by simp, hsign, ds, [], by simp [pointed], hds, hnone⟩, by omega⟩
    · have hone := List.forall_mem_singleton.mpr hfs
      have h := count_signed hsign hds hone
      have hpointed : pointed [fs] = '.' :: fs := by simp [pointed]
      rw [hpointed, ← List.append_assoc, List.length_singleton] at h
      exact ⟨⟨sign, ds ++ '.' :: fs, by simp, hsign, ds, [fs], by rw [hpointed], hds, hone⟩, h.le⟩
  · rintro ⟨⟨sign, t, rfl, hsign, ds, groups, rfl, hds, hgroups⟩, hcount⟩
    rw [count_signed hsign hds hgroups] at hcount
    match groups with
    | [] => exact ⟨sign, ds, [], by simp [pointed], hsign, hds, .inl rfl⟩
    | [fs] =>
      exact ⟨sign, ds, '.' :: fs, by simp [pointed], hsign, hds,
        .inr ⟨fs, rfl, hgroups fs List.mem_cons_self⟩⟩

theorem isDigitLoop_nul (len i : ℕ) (s : Text) : isDigitLoop len i ('\x00' :: s) = some true := by
  rw [isDigitLoop.eq_def]
  rfl

theorem isDigitLoop_point (len i : ℕ) (d : Char) (s : Text) :
    isDigitLoop len i ('.' :: d :: s) =
      if i + 1 = 1 ∨ i + 1 = len then some false
      else if d.isDigit then isDigitLoop len (i + 1) s else some false := by
  rw [isDigitLoop.eq_def]
  rfl

theorem isDigitLoop_other (len i : ℕ) {c : Char} (s : Text) (hnul : c ≠ '\x00') (hc : c ≠ '.') :
    isDigitLoop len i (c :: s) = if c.isDigit then isDigitLoop len (i + 1) s else some false := by
  rw [isDigitLoop.eq_def]
  dsimp only
  rw [if_neg hnul, if_neg hc]

/-- What the loop accepts behind a first digit. -/
inductive Rest : Text → Prop
  | nil : Rest []
  | digit {c : Char} {s : Text} : c.isDigit → Rest s → Rest (c :: s)
  | point {d : Char} {s : Text} : d.isDigit → Rest s → Rest ('.' :: d :: s)

theorem rest_cons_iff {c : Char} {s : Text} (hc : c ≠ '.') :
    Rest (c :: s) ↔ c.isDigit ∧ Rest s := by
  constructor
  · intro h
    cases h with
    | digit hd hs => exact ⟨hd, hs⟩
    | point => exact absurd rfl hc
  · exact fun h => .digit h.1 h.2

theorem not_rest_point : ¬Rest ['.'] := by
  intro h
  cases h with
  | digit hd => exact absurd hd (by decide)

theorem rest_point_iff {d : Char} {s : Text} : Rest ('.' :: d :: s) ↔ d.isDigit ∧ Rest s := by
  constructor
  · intro h
    cases h with
    | digit hd => exact absurd hd (by decide)
    | point hd hs => exact ⟨hd, hs⟩
  · exact fun h => .point h.1 h.2

/-- Behind the first turn the counter is behind the pointer, so it never equals the length at a
point that a digit follows. -/
theorem isDigitLoop_iff {len i : ℕ} (t : Text) (hnul : '\x00' ∉ t) (hi : 0 < i)
    (hlen : i + t.length ≤ len) : isDigitLoop len i (t ++ ['\x00']) = some true ↔ Rest t := by
  match t with
  | [] => exact iff_of_true (isDigitLoop_nul len i []) .nil
  | c :: t =>
    rw [List.length_cons] at hlen
    rw [List.mem_cons, not_or] at hnul
    by_cases hc : c = '.'
    · subst hc
      match t with
      | [] =>
        refine iff_of_false ?_ not_rest_point
        rw [List.cons_append, List.nil_append, isDigitLoop_point]
        split
        · simp
        · simp
      | d :: t =>
        rw [List.length_cons] at hlen
        have hend : ¬(i + 1 = 1 ∨ i + 1 = len) := by omega
        have hnul : '\x00' ∉ t := fun h => hnul.2 (List.mem_cons_of_mem d h)
        rw [List.cons_append, List.cons_append, isDigitLoop_point, if_neg hend, rest_point_iff]
        by_cases hd : d.isDigit
        · rw [if_pos hd, and_iff_right hd]
          exact isDigitLoop_iff t hnul i.succ_pos (by omega)
        · rw [if_neg hd]
          exact iff_of_false (by simp) fun h => hd h.1
    · rw [List.cons_append, isDigitLoop_other len i _ (Ne.symm hnul.1) hc, rest_cons_iff hc]
      by_cases hd : c.isDigit
      · rw [if_pos hd, and_iff_right hd]
        exact isDigitLoop_iff t hnul.2 i.succ_pos (by omega)
      · rw [if_neg hd]
        exact iff_of_false (by simp) fun h => hd h.1

theorem rest_iff {t : Text} :
    Rest t ↔ ∃ ds groups, t = ds ++ pointed groups ∧ (∀ c ∈ ds, c.isDigit) ∧
      ∀ g ∈ groups, Digits g := by
  constructor
  · intro h
    induction h with
    | nil => exact ⟨[], [], rfl, List.forall_mem_nil _, List.forall_mem_nil _⟩
    | digit hc _ ih =>
      obtain ⟨ds, groups, rfl, hds, hgroups⟩ := ih
      exact ⟨_ :: ds, groups, rfl, List.forall_mem_cons.mpr ⟨hc, hds⟩, hgroups⟩
    | @point d s hd _ ih =>
      -- the digits behind the point are the first group
      obtain ⟨ds, groups, rfl, hds, hgroups⟩ := ih
      have hg : Digits (d :: ds) := ⟨List.cons_ne_nil d ds, List.forall_mem_cons.mpr ⟨hd, hds⟩⟩
      exact ⟨[], (d :: ds) :: groups, rfl, List.forall_mem_nil _,
        List.forall_mem_cons.mpr ⟨hg, hgroups⟩⟩
  · rintro ⟨ds, groups, rfl, hds, hgroups⟩
    have happ {ds s : Text} (hds : ∀ c ∈ ds, c.isDigit) (hs : Rest s) : Rest (ds ++ s) := by
      induction ds with
      | nil => exact hs
      | cons c ds ih =>
        obtain ⟨hc, hds⟩ := List.forall_mem_cons.mp hds
        exact .digit hc (ih hds)
    apply happ hds
    induction groups with
    | nil => exact .nil
    | cons g groups ih =>
      obtain ⟨⟨hne, hg⟩, hrest⟩ := List.forall_mem_cons.mp hgroups
      obtain ⟨d, g, rfl⟩ := List.exists_cons_of_ne_nil hne
      obtain ⟨hd, hg⟩ := List.forall_mem_cons.mp hg
      exact .point hd (happ hg (ih hrest))

theorem dotted_cons_iff {c : Char} {t : Text} : Dotted (c :: t) ↔ c.isDigit ∧ Rest t := by
  rw [rest_iff]
  constructor
  · rintro ⟨ds, groups, ht, ⟨hne, hds⟩, hgroups⟩
    obtain ⟨d, ds, rfl⟩ := List.exists_cons_of_ne_nil hne
    obtain ⟨rfl, rfl⟩ := List.cons.inj ht
    obtain ⟨hd, hds⟩ := List.forall_mem_cons.mp hds
    exact ⟨hd, ds, groups, rfl, hds, hgroups⟩
  · rintro ⟨hd, ds, groups, rfl, hds, hgroups⟩
    have hdigits : Digits (c :: ds) :=
      ⟨List.cons_ne_nil c ds, List.forall_mem_cons.mpr ⟨hd, hds⟩⟩
    exact ⟨c :: ds, groups, rfl, hdigits, hgroups⟩

theorem not_dotted_nil : ¬Dotted [] := by
  rintro ⟨ds, groups, h, hds, -⟩
  exact hds.1 (List.append_eq_nil_iff.mp h.symm).1

theorem not_dotted_of_head {c : Char} {t : Text} (hc : c.isDigit = false) : ¬Dotted (c :: t) := by
  rintro ⟨ds, groups, h, ⟨hne, hds⟩, -⟩
  obtain ⟨d, ds, rfl⟩ := List.exists_cons_of_ne_nil hne
  obtain rfl := (List.cons.inj h).1
  rw [hds c List.mem_cons_self] at hc
  cases hc

theorem isDigitLoop_start_iff {len : ℕ} {t : Text} (hnul : '\x00' ∉ t) (hlen : t.length ≤ len) :
    isDigitLoop len 0 (t ++ ['\x00']) = some true ↔ t = [] ∨ Dotted t := by
  cases t with
  | nil => exact iff_of_true (isDigitLoop_nul len 0 []) (.inl rfl)
  | cons c t =>
    rw [List.mem_cons, not_or] at hnul
    rw [or_iff_right (List.cons_ne_nil c t), List.cons_append]
    by_cases hc : c = '.'
    · subst hc
      refine iff_of_false ?_ (not_dotted_of_head rfl)
      cases t with
      | nil =>
        rw [List.nil_append, isDigitLoop_point, if_pos (.inl rfl)]
        simp
      | cons d t =>
        rw [List.cons_append, isDigitLoop_point, if_pos (.inl rfl)]
        simp
    · rw [isDigitLoop_other len 0 _ (Ne.symm hnul.1) hc, dotted_cons_iff]
      by_cases hd : c.isDigit
      · rw [if_pos hd, and_iff_right hd]
        rw [List.length_cons] at hlen
        exact isDigitLoop_iff t hnul.2 Nat.one_pos (by omega)
      · rw [if_neg hd]
        exact iff_of_false (by simp) fun h => hd h.1

theorem isDigit_minus (s : Text) :
    isDigit ('-' :: s) = isDigitLoop (s.length + 1) 0 (s ++ ['\x00']) := rfl

theorem isDigit_other {c : Char} (hc : c ≠ '-') (s : Text) :
    isDigit (c :: s) = isDigitLoop (c :: s).length 0 (c :: s ++ ['\x00']) := by
  rw [isDigit, List.cons_append]
  split
  · next h => exact absurd (List.cons.inj h).1 hc
  · rfl

theorem isDigit_true_iff {s : Text} (hnul : '\x00' ∉ s) :
    isDigit s = some true ↔ s = [] ∨ s = ['-'] ∨ SignedDotted s := by
  cases s with
  | nil => exact iff_of_true rfl (.inl rfl)
  | cons c s =>
    rw [or_iff_right (List.cons_ne_nil c s)]
    by_cases hc : c = '-'
    · subst hc
      have hnul : '\x00' ∉ s := fun h => hnul (List.mem_cons_of_mem _ h)
      rw [isDigit_minus, isDigitLoop_start_iff hnul (Nat.le_succ s.length)]
      refine or_congr (by simp) ⟨fun h => ⟨['-'], s, rfl, .inr rfl, h⟩, ?_⟩
      rintro ⟨sign, t, hs, rfl | rfl, ht⟩
      · obtain rfl : '-' :: s = t := hs
        exact absurd ht (not_dotted_of_head rfl)
      · obtain rfl := (List.cons.inj hs).2
        exact ht
    · rw [isDigit_other hc, isDigitLoop_start_iff hnul le_rfl, or_iff_right (List.cons_ne_nil c s),
        or_iff_right fun h => hc (List.cons.inj h).1]
      constructor
      · exact fun h => ⟨[], c :: s, rfl, .inl rfl, h⟩
      · rintro ⟨sign, t, hs, rfl | rfl, ht⟩
        · obtain rfl : c :: s = t := hs
          exact ht
        · exact absurd (List.cons.inj hs).1 hc

theorem not_signedDotted_nil : ¬SignedDotted [] := by
  rintro ⟨sign, t, h, -, ht⟩
  obtain rfl := (List.append_eq_nil_iff.mp h.symm).2
  exact not_dotted_nil ht

theorem not_signedDotted_minus : ¬SignedDotted ['-'] := by
  rintro ⟨sign, t, h, rfl | rfl, ht⟩
  · obtain rfl : ['-'] = t := h
    exact not_dotted_of_head rfl ht
  · obtain rfl : [] = t := (List.cons.inj h).2
    exact not_dotted_nil ht

/-- `is_digit` accepts exactly the numbers, except on the empty string, a lone `-`, and digits
with more than one point. -/
theorem isDigit_number_iff {s : Text} (hnul : '\x00' ∉ s) :
    (isDigit s = some true ↔ IsNumber s) ↔ s ≠ [] ∧ s ≠ ['-'] ∧ ¬ManyPoints s := by
  rw [isDigit_true_iff hnul, isNumber_iff]
  constructor
  · intro h
    have hsigned (hs : s = [] ∨ s = ['-'] ∨ SignedDotted s) := h.mp hs
    refine ⟨?_, ?_, fun hmany => ?_⟩
    · rintro rfl
      exact not_signedDotted_nil (hsigned (.inl rfl)).1
    · rintro rfl
      exact not_signedDotted_minus (hsigned (.inr (.inl rfl))).1
    · have hone := (hsigned (.inr (.inr hmany.1))).2
      have hmany := hmany.2
      omega
  · rintro ⟨hne, hneg, hmany⟩
    rw [or_iff_right hne, or_iff_right hneg]
    refine ⟨fun hs => ⟨hs, ?_⟩, And.left⟩
    have hcount : ¬2 ≤ s.count '.' := fun h => hmany ⟨hs, h⟩
    omega

theorem isDigit_number_decimal : (isDigit "-1.23".toList = some true ↔ IsNumber "-1.23".toList) ↔
    "-1.23".toList ≠ [] ∧ "-1.23".toList ≠ ['-'] ∧ ¬ManyPoints "-1.23".toList :=
  isDigit_number_iff (by decide)

/-- No digit at all, and two points. -/
theorem isDigit_accepts :
    isDigit [] = some true ∧ ¬IsNumber [] ∧ isDigit ['-'] = some true ∧ ¬IsNumber ['-'] ∧
      isDigit "1.2.3".toList = some true ∧ ¬IsNumber "1.2.3".toList := by
  refine ⟨by decide, ?_, by decide, ?_, by decide, ?_⟩
  · exact fun h => not_signedDotted_nil (isNumber_iff.mp h).1
  · exact fun h => not_signedDotted_minus (isNumber_iff.mp h).1
  · exact fun h => absurd (isNumber_iff.mp h).2 (by decide)

/-- What the loop keeps: the counter, and where in the array the pointer stands. -/
structure DigitState where
  i : ℕ
  pos : ℕ

def terminated (s : Text) : Text := s ++ ['\x00']

/-- One turn of the loop over the array `a`, with the state behind it or the result. A read
outside the array is `none`. -/
def isDigitTurn (a : Text) (len : ℕ) (st : DigitState) : Option (DigitState ⊕ Bool) :=
  match a[st.pos]? with
  | none => none
  | some c =>
    if c = '\x00' then some (.inr true)
    else if c = '.' then
      if st.i + 1 = 1 ∨ st.i + 1 = len then some (.inr false)
      else
        match a[st.pos + 1]? with
        | none => none
        | some d => some (if d.isDigit then .inl ⟨st.i + 1, st.pos + 2⟩ else .inr false)
    else some (if c.isDigit then .inl ⟨st.i + 1, st.pos + 1⟩ else .inr false)

def DigitState.start (s : Text) : DigitState := ⟨0, if s.head? = some '-' then 1 else 0⟩

section
variable (s : Text)

/-- The states in which a turn begins. -/
inductive DigitState.Reached : DigitState → Prop
  | start : Reached (start s)
  | turn {st st' : DigitState} : Reached st →
    isDigitTurn (terminated s) s.length st = some (.inl st') → Reached st'

inductive DigitState.Ends : DigitState → Bool → Prop
  | done {st : DigitState} {b : Bool} :
    isDigitTurn (terminated s) s.length st = some (.inr b) → Ends st b
  | turn {st st' : DigitState} {b : Bool} :
    isDigitTurn (terminated s) s.length st = some (.inl st') → Ends st' b → Ends st b

end

section Turn

variable {a t : Text} {st : DigitState} (len : ℕ)

theorem getElem?_of_drop {p : ℕ} (h : a.drop p = t) (k : ℕ) : a[p + k]? = t[k]? := by
  rw [← h, List.getElem?_drop]

theorem isDigitTurn_nul (h : a.drop st.pos = '\x00' :: t) :
    isDigitTurn a len st = some (.inr true) := by
  have h0 : a[st.pos]? = some '\x00' := getElem?_of_drop h 0
  rw [isDigitTurn, h0]
  rfl

theorem isDigitTurn_point {d : Char} (h : a.drop st.pos = '.' :: d :: t) :
    isDigitTurn a len st = some (if st.i + 1 = 1 ∨ st.i + 1 = len then .inr false
      else if d.isDigit then .inl ⟨st.i + 1, st.pos + 2⟩ else .inr false) := by
  have h0 : a[st.pos]? = some '.' := getElem?_of_drop h 0
  have h1 : a[st.pos + 1]? = some d := getElem?_of_drop h 1
  rw [isDigitTurn, h0, h1]
  dsimp only
  rw [if_neg (by decide), if_pos rfl]
  exact (apply_ite some _ _ _).symm

theorem isDigitTurn_other {c : Char} (h : a.drop st.pos = c :: t) (hnul : c ≠ '\x00')
    (hc : c ≠ '.') :
    isDigitTurn a len st =
      some (if c.isDigit then .inl ⟨st.i + 1, st.pos + 1⟩ else .inr false) := by
  have h0 : a[st.pos]? = some c := getElem?_of_drop h 0
  rw [isDigitTurn, h0]
  dsimp only
  rw [if_neg hnul, if_neg hc]

end Turn

theorem drop_terminated {s : Text} {p : ℕ} (h : p ≤ s.length) :
    ∃ c t, (terminated s).drop p = c :: t := by
  apply List.exists_cons_of_ne_nil
  rw [terminated, List.drop_append_of_le_length h]
  exact List.concat_ne_nil _ _

theorem lt_length_of_drop {s t : Text} {p : ℕ} {c : Char} (h : (terminated s).drop p = c :: t)
    (hc : c ≠ '\x00') : p < s.length := by
  by_contra hp
  have hmem : c ∈ (terminated s).drop p := by
    rw [h]
    exact List.mem_cons_self
  rw [terminated, List.drop_append, List.drop_of_length_le (not_lt.mp hp), List.nil_append] at hmem
  exact hc (List.mem_singleton.mp (List.mem_of_mem_drop hmem))

/-- A turn that begins in the array reads in the array. It ends the loop, or it moves the pointer
on, but not behind the terminator. -/
theorem isDigitTurn_spec {s : Text} {st : DigitState} (len : ℕ) (hpos : st.pos ≤ s.length) :
    (∃ b, isDigitTurn (terminated s) len st = some (.inr b) ∧
      isDigitLoop len st.i ((terminated s).drop st.pos) = some b) ∨
    ∃ st', isDigitTurn (terminated s) len st = some (.inl st') ∧
      st.pos < st'.pos ∧ st'.pos ≤ s.length ∧
      isDigitLoop len st.i ((terminated s).drop st.pos) =
        isDigitLoop len st'.i ((terminated s).drop st'.pos) := by
  have hnext {c : Char} {t : Text} {p : ℕ} (h : (terminated s).drop p = c :: t) :
      (terminated s).drop (p + 1) = t := by
    rw [← List.drop_drop, h]
    rfl
  obtain ⟨c, t, ht⟩ := drop_terminated hpos
  by_cases hnul : c = '\x00'
  · subst hnul
    rw [isDigitTurn_nul len ht, ht, isDigitLoop_nul]
    exact .inl ⟨true, rfl, rfl⟩
  have hlt := lt_length_of_drop ht hnul
  by_cases hc : c = '.'
  · subst hc
    obtain ⟨d, u, hu⟩ := drop_terminated (Nat.succ_le_of_lt hlt)
    obtain rfl : t = d :: u := (hnext ht).symm.trans hu
    rw [isDigitTurn_point len ht, ht, isDigitLoop_point]
    by_cases hend : st.i + 1 = 1 ∨ st.i + 1 = len
    · rw [if_pos hend, if_pos hend]
      exact .inl ⟨false, rfl, rfl⟩
    rw [if_neg hend, if_neg hend]
    by_cases hd : d.isDigit
    · -- the terminator is no digit, so the pointer stays before it
      have hdnul : d ≠ '\x00' := by
        rintro rfl
        cases hd
      have hle := lt_length_of_drop hu hdnul
      rw [if_pos hd, if_pos hd]
      exact .inr ⟨_, rfl, Nat.lt_add_of_pos_right Nat.two_pos, hle, by rw [hnext hu]⟩
    · rw [if_neg hd, if_neg hd]
      exact .inl ⟨false, rfl, rfl⟩
  · rw [isDigitTurn_other len ht hnul hc, ht, isDigitLoop_other len st.i _ hnul hc]
    by_cases hd : c.isDigit
    · rw [if_pos hd, if_pos hd]
      exact .inr ⟨_, rfl, Nat.lt_succ_self _, hlt, by rw [hnext ht]⟩
    · rw [if_neg hd, if_neg hd]
      exact .inl ⟨false, rfl, rfl⟩

theorem start_pos_le (s : Text) : (DigitState.start s).pos ≤ s.length := by
  cases s with
  | nil => exact le_rfl
  | cons c s =>
    rw [DigitState.start, List.length_cons]
    dsimp only
    split
    · omega
    · omega

theorem isDigit_eq_start (s : Text) :
    isDigit s = isDigitLoop s.length 0 ((terminated s).drop (DigitState.start s).pos) := by
  cases s with
  | nil => rfl
  | cons c s =>
    by_cases hc : c = '-'
    · subst hc
      rfl
    · have hstart : (DigitState.start (c :: s)).pos = 0 := if_neg fun h => hc (Option.some.inj h)
      rw [isDigit_other hc, hstart]
      rfl

theorem DigitState.Reached.pos_le {s : Text} {st : DigitState} (h : Reached s st) :
    st.pos ≤ s.length := by
  induction h with
  | start => exact start_pos_le s
  | turn _ hturn ih =>
    rcases isDigitTurn_spec s.length ih with ⟨b, hb, -⟩ | ⟨st', hst', -, hle, -⟩
    · rw [hb] at hturn
      cases hturn
    · rw [hst'] at hturn
      obtain rfl := Sum.inl.inj (Option.some.inj hturn)
      exact hle

theorem exists_ends {s : Text} {st : DigitState} (hpos : st.pos ≤ s.length) :
    ∃ b, st.Ends s b ∧ isDigitLoop s.length st.i ((terminated s).drop st.pos) = some b := by
  rcases isDigitTurn_spec s.length hpos with ⟨b, hb, hloop⟩ | ⟨st', hst', hlt, hle, hloop⟩
  · exact ⟨b, .done hb, hloop⟩
  · obtain ⟨b, hends, hb⟩ := exists_ends hle
    exact ⟨b, .turn hst' hends, hloop.trans hb⟩
termination_by s.length - st.pos

/-- Every turn begins at a character or at the terminator and reads no further than that, and the
loop ends with the result of `is_digit`. -/
theorem isDigit_reads_inside (s : Text) :
    (∀ st : DigitState, st.Reached s →
      st.pos ≤ s.length ∧ (isDigitTurn (terminated s) s.length st).isSome) ∧
    ∃ b, (DigitState.start s).Ends s b ∧ isDigit s = some b := by
  constructor
  · intro st h
    refine ⟨h.pos_le, ?_⟩
    rcases isDigitTurn_spec s.length h.pos_le with ⟨b, hb, -⟩ | ⟨st', hst', -⟩
    · rw [hb]
      rfl
    · rw [hst']
      rfl
  · rw [isDigit_eq_start]
    exact exists_ends (start_pos_le s)

end Zsr
