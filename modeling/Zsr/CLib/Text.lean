import Mathlib.Data.List.TakeWhile
import Mathlib.Data.Nat.Basic

/-!
# C strings and the line and number conversions of stdio

A text is a list of characters; a buffer holding one may contain NULs, and the
string functions see only what stands before the first of them.
-/

namespace CLib

abbrev Text := List Char

def cstr (s : Text) : Text := s.takeWhile (· ≠ '\x00')

/-- Reading a `char` array as a string; without a NUL the reader leaves the array. -/
def cstrIn (s : Text) : Option Text := if '\x00' ∈ s then some (cstr s) else none

/-- The string of an array that is read on in what lies behind it. -/
def readOn (behind array : Text) : Text := cstr (array ++ behind)

def strncpy (n : ℕ) (s : Text) : Text :=
  (cstr s).take n ++ List.replicate (n - (cstr s).length) '\x00'

theorem strncpy_length (n : ℕ) (s : Text) : (strncpy n s).length = n := by
  rw [strncpy, List.length_append, List.length_take, List.length_replicate]
  omega

def strncpyTo (buf : Text) (n : ℕ) (s : Text) : Text := strncpy n s ++ buf.drop n

@[simp] theorem cstr_nil : cstr [] = [] := rfl

theorem nul_not_mem_cstr (s : Text) : '\x00' ∉ cstr s := by
  intro h
  simpa using List.mem_takeWhile_imp h

theorem cstr_append {s : Text} (hs : '\x00' ∉ s) (t : Text) : cstr (s ++ t) = s ++ cstr t := by
  apply List.takeWhile_append_of_pos
  intro c hc
  have hne : c ≠ '\x00' := fun h => hs (h ▸ hc)
  simpa using hne

theorem cstr_eq_self {s : Text} (hs : '\x00' ∉ s) : cstr s = s := by
  simpa using cstr_append hs []

@[simp] theorem cstr_nul_cons (t : Text) : cstr ('\x00' :: t) = [] := by simp [cstr]

theorem cstr_append_nul {s : Text} (hs : '\x00' ∉ s) (t : Text) :
    cstr (s ++ '\x00' :: t) = s := by
  rw [cstr_append hs, cstr_nul_cons, List.append_nil]

theorem readOn_of_cstrIn {s t : Text} (h : cstrIn s = some t) (behind : Text) :
    readOn behind s = t := by
  rw [cstrIn, Option.ite_none_right_eq_some] at h
  obtain ⟨hnul, ht⟩ := h
  have hlen : (cstr s).length ≠ s.length := by
    intro hlen
    have heq : cstr s = s := (List.takeWhile_prefix _).eq_of_length hlen
    exact nul_not_mem_cstr s (heq.symm ▸ hnul)
  rw [readOn, cstr, List.takeWhile_append]
  exact (if_neg hlen).trans (Option.some.inj ht)

theorem cstrIn_strncpyTo {n : ℕ} {s : Text} (hs : '\x00' ∉ s) (hn : s.length < n) (buf : Text) :
    cstrIn (strncpyTo buf n s) = some s := by
  obtain ⟨k, hk⟩ : ∃ k, n - s.length = k + 1 := ⟨n - s.length - 1, by omega⟩
  have he : strncpyTo buf n s = s ++ '\x00' :: (List.replicate k '\x00' ++ buf.drop n) := by
    rw [strncpyTo, strncpy, cstr_eq_self hs, List.take_of_length_le hn.le, hk, List.replicate_succ]
    simp
  rw [he, cstrIn, if_pos (by simp), cstr_append_nul hs]

theorem cstrIn_strncpy {n : ℕ} {s : Text} (hs : '\x00' ∉ s) (hn : s.length < n) :
    cstrIn (strncpy n s) = some s := by
  simpa [strncpyTo] using cstrIn_strncpyTo hs hn []

theorem cstr_cstr (s : Text) : cstr (cstr s) = cstr s := cstr_eq_self (nul_not_mem_cstr s)

theorem strncpy_cstr (n : ℕ) (s : Text) : strncpy n (cstr s) = strncpy n s := by
  rw [strncpy, strncpy, cstr_cstr]

theorem cstrIn_strncpy_eq (n : ℕ) (s : Text) :
    cstrIn (strncpy n s) = if (cstr s).length < n then some (cstr s) else none := by
  split
  · next h =>
    rw [← strncpy_cstr]
    exact cstrIn_strncpy (nul_not_mem_cstr s) h
  · next h =>
    have hfull : strncpy n s = (cstr s).take n := by
      rw [strncpy, Nat.sub_eq_zero_of_le (not_lt.mp h), List.replicate_zero, List.append_nil]
    rw [cstrIn, hfull, if_neg]
    intro hmem
    exact nul_not_mem_cstr s (List.mem_of_mem_take hmem)

/-- The characters one `fgets` call with room for `k` takes, and the rest of the stream. -/
def takeLine : ℕ → Text → Text × Text
  | 0, s => ([], s)
  | _ + 1, [] => ([], [])
  | k + 1, c :: s =>
    if c = '\n' then ([c], s) else (c :: (takeLine k s).1, (takeLine k s).2)

/-- `fgets(buf, n, fp)`: `none` at the end of the stream. -/
def fgets (n : ℕ) (s : Text) : Option (Text × Text) :=
  if s = [] then none else some (takeLine (n - 1) s)

/-- The strings that successive calls leave in the buffer, up to the end of the
stream; `fuel` bounds the number of calls. -/
def fgetsUpTo (n : ℕ) : ℕ → Text → List Text
  | 0, _ => []
  | fuel + 1, s =>
    match fgets n s with
    | none => []
    | some (l, r) => cstr l :: fgetsUpTo n fuel r

/-- Every call consumes a character, so the length of the text is enough fuel. -/
def fgetsLines (n : ℕ) (s : Text) : List Text := fgetsUpTo n s.length s

theorem takeLine_rest_length (k : ℕ) (s : Text) : (takeLine k s).2.length ≤ s.length := by
  induction k generalizing s with
  | zero => exact le_rfl
  | succ k ih =>
    cases s with
    | nil => exact le_rfl
    | cons c s =>
      rw [takeLine]
      split
      · simp
      · exact (ih s).trans (Nat.le_succ _)

theorem takeLine_rest_lt {k : ℕ} (hk : 0 < k) {s : Text} (hs : s ≠ []) :
    (takeLine k s).2.length < s.length := by
  obtain ⟨k, rfl⟩ := Nat.exists_eq_succ_of_ne_zero hk.ne'
  obtain ⟨c, s, rfl⟩ := List.exists_cons_of_ne_nil hs
  rw [takeLine]
  split
  · simp
  · exact Nat.lt_succ_of_le (takeLine_rest_length k s)

theorem fgetsUpTo_fuel {n : ℕ} (hn : 2 ≤ n) {f g : ℕ} {s : Text}
    (h : s.length ≤ f) (h' : s.length ≤ g) : fgetsUpTo n f s = fgetsUpTo n g s := by
  induction f generalizing g s with
  | zero =>
    obtain rfl : s = [] := List.length_eq_zero_iff.mp (Nat.le_zero.mp h)
    cases g <;> rfl
  | succ f ih =>
    by_cases hs : s = []
    · subst hs
      cases g <;> rfl
    have hpos := List.length_pos_iff.mpr hs
    obtain ⟨g, rfl⟩ : ∃ m, g = m + 1 := ⟨g - 1, by omega⟩
    -- both runs take the same line, and what is left needs less fuel than either has
    have hr := takeLine_rest_lt (k := n - 1) (by omega) hs
    simp only [fgetsUpTo, fgets, if_neg hs]
    rw [ih (g := g) (by omega) (by omega)]

theorem fgetsLines_cons {n : ℕ} (hn : 2 ≤ n) {s : Text} (hs : s ≠ []) :
    fgetsLines n s =
      cstr (takeLine (n - 1) s).1 :: fgetsLines n (takeLine (n - 1) s).2 := by
  have hpos := List.length_pos_iff.mpr hs
  have hr := takeLine_rest_lt (k := n - 1) (by omega) hs
  obtain ⟨m, hm⟩ : ∃ m, s.length = m + 1 := ⟨s.length - 1, by omega⟩
  rw [fgetsLines, hm]
  simp only [fgetsUpTo, fgets, if_neg hs]
  rw [fgetsLines, fgetsUpTo_fuel hn (by omega) le_rfl]

theorem takeLine_append {l : Text} (hl : '\n' ∉ l) {k : ℕ} (hk : l.length ≤ k) (r : Text) :
    (takeLine k (l ++ r)).1 = l ++ (takeLine (k - l.length) r).1 := by
  induction l generalizing k with
  | nil => rfl
  | cons c l ih =>
    obtain ⟨k, rfl⟩ : ∃ m, k = m + 1 := ⟨k - 1, by simp at hk; omega⟩
    simp only [List.mem_cons, not_or] at hl
    simp only [List.length_cons, Nat.add_le_add_iff_right] at hk
    rw [List.cons_append, takeLine, if_neg (Ne.symm hl.1), ih hl.2 hk]
    simp

theorem takeLine_cut {l : Text} (hl : '\n' ∉ l) {k : ℕ} (hk : k ≤ l.length) (r : Text) :
    takeLine k (l ++ r) = (l.take k, l.drop k ++ r) := by
  induction l generalizing k with
  | nil =>
    obtain rfl : k = 0 := Nat.le_zero.mp hk
    rfl
  | cons c l ih =>
    cases k with
    | zero => rfl
    | succ k =>
      rw [List.mem_cons, not_or] at hl
      rw [List.cons_append, takeLine, if_neg (Ne.symm hl.1), ih hl.2 (Nat.le_of_succ_le_succ hk)]
      rfl

theorem takeLine_append_rest (k : ℕ) (s : Text) : (takeLine k s).1 ++ (takeLine k s).2 = s := by
  induction k generalizing s with
  | zero => rfl
  | succ k ih =>
    cases s with
    | nil => rfl
    | cons c s =>
      rw [takeLine]
      split
      · rfl
      · exact congrArg (c :: ·) (ih s)

theorem takeLine_prefix_self (k : ℕ) (s : Text) : (takeLine k s).1 <+: s :=
  ⟨_, takeLine_append_rest k s⟩

/-- A beginning `l` of the stream that fits is there, in front of whatever else the call
has taken. -/
theorem cstr_takeLine_append {l : Text} (hnl : '\n' ∉ l) (hnul : '\x00' ∉ l) {k : ℕ}
    (hk : l.length ≤ k) (r : Text) :
    ∃ t, t <+: r ∧ cstr (takeLine k (l ++ r)).1 = l ++ t := by
  refine ⟨cstr (takeLine (k - l.length) r).1, ?_, ?_⟩
  · exact (List.takeWhile_prefix _).trans (takeLine_prefix_self _ r)
  · rw [takeLine_append hnl hk, cstr_append hnul]

theorem fgetsLines_first {n : ℕ} (hn : 2 ≤ n) {l : Text} (hl : l ≠ []) (hnl : '\n' ∉ l)
    (hnul : '\x00' ∉ l) (hlen : l.length ≤ n - 1) (r : Text) :
    ∃ t bufs, t <+: r ∧ fgetsLines n (l ++ r) = (l ++ t) :: bufs := by
  obtain ⟨t, ht, h⟩ := cstr_takeLine_append hnl hnul hlen r
  exact ⟨t, _, ht, by rw [fgetsLines_cons hn (by simp [hl]), h]⟩

theorem takeLine_line {l : Text} (hl : '\n' ∉ l) {k : ℕ} (hk : l.length < k) (r : Text) :
    takeLine k (l ++ '\n' :: r) = (l ++ ['\n'], r) := by
  induction l generalizing k with
  | nil =>
    obtain ⟨k, rfl⟩ := Nat.exists_eq_succ_of_ne_zero hk.ne'
    rfl
  | cons c l ih =>
    obtain ⟨k, rfl⟩ : ∃ m, k = m + 1 := ⟨k - 1, by omega⟩
    rw [List.mem_cons, not_or] at hl
    rw [List.length_cons] at hk
    rw [List.cons_append, takeLine, if_neg (Ne.symm hl.1), ih hl.2 (by omega)]
    rfl

theorem fgetsLines_line {n : ℕ} {l : Text} (hl : '\n' ∉ l) (hnul : '\x00' ∉ l)
    (hlen : l.length + 1 < n) (r : Text) :
    fgetsLines n (l ++ '\n' :: r) = (l ++ ['\n']) :: fgetsLines n r := by
  rw [fgetsLines_cons (by omega) (by simp), takeLine_line hl (by omega), cstr_eq_self]
  simpa using hnul

theorem fgetsLines_lines {n : ℕ} {ls : List Text}
    (h : ∀ l ∈ ls, '\n' ∉ l ∧ '\x00' ∉ l ∧ l.length + 1 < n) :
    fgetsLines n (ls.map (· ++ ['\n'])).flatten = ls.map (· ++ ['\n']) := by
  induction ls with
  | nil => rfl
  | cons l ls ih =>
    have ⟨hl, hnul, hlen⟩ := h l List.mem_cons_self
    rw [List.map_cons, List.flatten_cons, List.append_assoc, List.singleton_append,
      fgetsLines_line hl hnul hlen, ih fun l hl => h l (List.mem_cons_of_mem _ hl)]

/-- The tokens that repeated `strtok` calls cut out of a string. -/
def tokens (sep : Char) (s : Text) : List Text :=
  (s.splitOnP (· == sep)).filter (· ≠ [])

theorem tokens_append_sep (sep : Char) (s t : Text) :
    tokens sep (s ++ sep :: t) = tokens sep s ++ tokens sep t := by
  rw [tokens, List.splitOnP_append_cons _ _ (by simp), List.filter_append]
  rfl

theorem tokens_single {sep : Char} {s : Text} (hs : sep ∉ s) (hne : s ≠ []) :
    tokens sep s = [s] := by
  have h : s.splitOnP (· == sep) = [s] := by
    apply List.splitOnP_eq_singleton
    intro c hc
    have hc' : c ≠ sep := fun h => hs (h ▸ hc)
    simpa using hc'
  rw [tokens, h]
  simpa using hne

theorem tokens_cons {sep : Char} {s : Text} (hs : sep ∉ s) (hne : s ≠ []) (t : Text) :
    tokens sep (s ++ sep :: t) = s :: tokens sep t := by
  rw [tokens_append_sep, tokens_single hs hne, List.singleton_append]

theorem tokens_takeWhile {sep : Char} {s : Text} (hne : s.takeWhile (· ≠ sep) ≠ []) :
    ∃ rest, tokens sep s = s.takeWhile (· ≠ sep) :: rest := by
  have ht : sep ∉ s.takeWhile (· ≠ sep) := fun h => by simpa using List.mem_takeWhile_imp h
  have hs : s = s.takeWhile (· ≠ sep) ++ s.dropWhile (· ≠ sep) :=
    List.takeWhile_append_dropWhile.symm
  have hhead := List.head?_dropWhile_not (fun c => decide (c ≠ sep)) s
  -- behind the first token the text ends or a separator stands
  generalize s.takeWhile (· ≠ sep) = w at *
  generalize s.dropWhile (· ≠ sep) = u at *
  rw [hs]
  cases u with
  | nil => exact ⟨[], by rw [List.append_nil, tokens_single ht hne]⟩
  | cons c u =>
    obtain rfl : c = sep := by simpa using hhead
    exact ⟨tokens c u, tokens_cons ht hne u⟩

theorem tokens_first {sep : Char} {s : Text} (hs : sep ∉ s) (hne : s ≠ []) (u : Text) :
    ∃ t rest, t <+: u ∧ tokens sep (s ++ u) = (s ++ t) :: rest := by
  have hw : (s ++ u).takeWhile (· ≠ sep) = s ++ u.takeWhile (· ≠ sep) := by
    apply List.takeWhile_append_of_pos
    intro c hc
    have hne : c ≠ sep := fun h => hs (h ▸ hc)
    simpa using hne
  obtain ⟨rest, h⟩ := tokens_takeWhile
    (show (s ++ u).takeWhile (· ≠ sep) ≠ [] by rw [hw]; simp [hne])
  exact ⟨u.takeWhile (· ≠ sep), rest, List.takeWhile_prefix _, by rw [h, hw]⟩

theorem ne_nil_of_mem_tokens {sep : Char} {s w : Text} (hw : w ∈ tokens sep s) : w ≠ [] := by
  simpa using (List.mem_filter.mp hw).2

theorem mem_splitOn {sep : Char} {s w : Text} (hw : w ∈ s.splitOn sep) : w ⊆ s ∧ sep ∉ w := by
  induction s generalizing w with
  | nil =>
    obtain rfl : w = [] := by simpa using hw
    exact ⟨List.Subset.refl _, List.not_mem_nil⟩
  | cons c s ih =>
    obtain ⟨v, vs, hvs⟩ := List.exists_cons_of_ne_nil (List.splitOn_ne_nil sep s)
    -- a separator opens an empty word, any other character joins the first one
    rw [List.splitOn_cons_eq_if_modifyHead, hvs] at hw
    rw [hvs] at ih
    have htail (hw : w ∈ vs) : w ⊆ c :: s ∧ sep ∉ w := by
      obtain ⟨hsub, hsep⟩ := ih (List.mem_cons_of_mem _ hw)
      exact ⟨List.Subset.trans hsub (List.subset_cons_self c s), hsep⟩
    obtain ⟨hsub, hsep⟩ := ih List.mem_cons_self
    split at hw
    · obtain rfl | hw := List.mem_cons.mp hw
      · exact ⟨List.nil_subset _, List.not_mem_nil⟩
      · obtain rfl | hw := List.mem_cons.mp hw
        · exact ⟨List.Subset.trans hsub (List.subset_cons_self c s), hsep⟩
        · exact htail hw
    · next hc =>
      obtain rfl | hw := List.mem_cons.mp hw
      · refine ⟨List.cons_subset_cons c hsub, ?_⟩
        rw [List.mem_cons, not_or]
        exact ⟨fun h => hc (beq_iff_eq.mpr h.symm), hsep⟩
      · exact htail hw

theorem subset_of_mem_tokens {sep : Char} {s w : Text} (hw : w ∈ tokens sep s) : w ⊆ s := by
  have h : w ∈ s.splitOn sep := (List.mem_filter.mp hw).1
  exact (mem_splitOn h).1

/-- The pieces stand in the text one behind the other, with anything in between. -/
def ContainsInOrder : List Text → Text → Prop
  | [], _ => True
  | r :: rs, s => ∃ a b, s = a ++ r ++ b ∧ ContainsInOrder rs b

theorem ContainsInOrder.length_le {rs : List Text} {s : Text} (h : ContainsInOrder rs s) :
    rs.flatten.length ≤ s.length := by
  induction rs generalizing s with
  | nil => exact Nat.zero_le _
  | cons r rs ih =>
    obtain ⟨a, b, rfl, hb⟩ := h
    have := ih hb
    simp only [List.flatten_cons, List.length_append]
    omega

end CLib
