import Zsr.CLib.Text
import Mathlib.Data.List.TakeDrop

/-!
# Printing into a buffer that outlives the call

A buffer of `cap` bytes is the text of its written part, with NULs behind it. Printing
at an offset puts a terminator behind the printed text and keeps the rest.
-/

namespace CLib

/-- `sprintf(buf + off, ..)` of the text `t`; `none` is a write behind the buffer. -/
def sprintfAt (cap : ℕ) (buf : Text) (off : ℕ) (t : Text) : Option Text :=
  if off + t.length < cap then
    some (buf.takeD off '\x00' ++ t ++ '\x00' :: buf.drop (off + t.length + 1))
  else none

def snprintfAt (cap size : ℕ) (buf : Text) (off : ℕ) (t : Text) : Option Text :=
  sprintfAt cap buf off (t.take (size - 1))

/-- The loop `ret += print(buf + ret, ..)`: both functions return the length of the whole
text. -/
def printRows (print : Text → ℕ → Text → Option Text) :
    List Text → Text → ℕ → Option Text
  | [], buf, _ => some buf
  | t :: ts, buf, off => (print buf off t).bind fun buf => printRows print ts buf (off + t.length)

theorem takeD_append_self (s t : Text) (d : Char) : (s ++ t).takeD s.length d = s := by
  rw [List.takeD_eq_take _ (by simp), List.take_left]

theorem printRows_sprintf {cap : ℕ} {rows : List Text} {s : Text} (tail : Text)
    (h : (s ++ rows.flatten).length < cap) :
    ∃ rest, printRows (sprintfAt cap) rows (s ++ '\x00' :: tail) s.length =
      some (s ++ rows.flatten ++ '\x00' :: rest) := by
  induction rows generalizing s tail with
  | nil => exact ⟨tail, by simp [printRows]⟩
  | cons t rows ih =>
    rw [List.flatten_cons, ← List.append_assoc] at h
    have hlt : s.length + t.length < cap := by
      simp only [List.length_append] at h
      omega
    obtain ⟨rest, hrest⟩ :=
      ih (s := s ++ t) ((s ++ '\x00' :: tail).drop (s.length + t.length + 1)) h
    refine ⟨rest, ?_⟩
    rw [printRows, sprintfAt, if_pos hlt, takeD_append_self, Option.bind_some, List.flatten_cons,
      ← List.append_assoc s t, ← List.length_append]
    rw [← List.length_append] at hrest
    exact hrest

theorem printRows_sprintf_start {cap : ℕ} {rows : List Text} (hne : rows ≠ []) (buf : Text)
    (h : rows.flatten.length < cap) :
    ∃ rest, printRows (sprintfAt cap) rows buf 0 = some (rows.flatten ++ '\x00' :: rest) := by
  obtain ⟨t, rows, rfl⟩ := List.exists_cons_of_ne_nil hne
  have hlt : 0 + t.length < cap := by
    rw [List.flatten_cons, List.length_append] at h
    omega
  obtain ⟨rest, hrest⟩ := printRows_sprintf
    (buf.drop (0 + t.length + 1)) (show (t ++ rows.flatten).length < cap from h)
  refine ⟨rest, ?_⟩
  rw [printRows, sprintfAt, if_pos hlt, Option.bind_some, List.takeD_zero, List.nil_append,
    Nat.zero_add, List.flatten_cons]
  rw [Nat.zero_add] at hrest
  exact hrest

theorem printRows_snprintf {cap size : ℕ} {rows : List Text} (buf : Text) (off : ℕ)
    (h : ∀ t ∈ rows, t.length < size) :
    printRows (snprintfAt cap size) rows buf off = printRows (sprintfAt cap) rows buf off := by
  induction rows generalizing buf off with
  | nil => rfl
  | cons t rows ih =>
    have ht := h t List.mem_cons_self
    rw [printRows, printRows, snprintfAt, List.take_of_length_le (by omega)]
    congr 1
    funext buf
    apply ih
    exact fun u hu => h u (List.mem_cons_of_mem _ hu)

theorem printRows_sprintf_isSome_iff {cap : ℕ} {rows : List Text} (hne : rows ≠ []) (buf : Text)
    (off : ℕ) :
    (printRows (sprintfAt cap) rows buf off).isSome ↔ off + rows.flatten.length < cap := by
  induction rows generalizing buf off with
  | nil => exact absurd rfl hne
  | cons t rows ih =>
    rw [printRows, List.flatten_cons, List.length_append]
    by_cases ht : off + t.length < cap
    · rw [sprintfAt, if_pos ht, Option.bind_some]
      by_cases hrows : rows = []
      · subst hrows
        simpa [printRows] using ht
      · rw [ih hrows, Nat.add_assoc]
    · rw [sprintfAt, if_neg ht]
      simp only [Option.bind_none, Option.isSome_none, Bool.false_eq_true, false_iff]
      omega

theorem snprintfAt_of_pos {cap off : ℕ} (hoff : 0 < off) (buf t : Text) :
    snprintfAt cap cap buf off t = sprintfAt cap buf off t := by
  by_cases ht : t.length < cap
  · rw [snprintfAt, List.take_of_length_le (by omega)]
  · rw [snprintfAt, sprintfAt, sprintfAt, List.length_take, if_neg (by omega), if_neg (by omega)]

theorem printRows_snprintf_of_pos {cap off : ℕ} (hoff : 0 < off) (rows : List Text) (buf : Text) :
    printRows (snprintfAt cap cap) rows buf off = printRows (sprintfAt cap) rows buf off := by
  induction rows generalizing buf off with
  | nil => rfl
  | cons t rows ih =>
    rw [printRows, printRows, snprintfAt_of_pos hoff]
    congr 1
    funext buf
    exact ih (Nat.add_pos_left hoff _) buf

theorem snprintfAt_zero {cap : ℕ} (hcap : 0 < cap) (buf t : Text) :
    ∃ rest, snprintfAt cap cap buf 0 t = some (t.take (cap - 1) ++ '\x00' :: rest) := by
  refine ⟨buf.drop (0 + (t.take (cap - 1)).length + 1), ?_⟩
  rw [snprintfAt, sprintfAt, if_pos (by rw [List.length_take]; omega), List.takeD_zero,
    List.nil_append]

theorem printRows_snprintf_isSome_iff {cap : ℕ} (hcap : 0 < cap) {rows : List Text}
    (hrows : ∀ t ∈ rows, t ≠ []) (buf : Text) :
    (printRows (snprintfAt cap cap) rows buf 0).isSome ↔
      rows.length ≤ 1 ∨ rows.flatten.length < cap := by
  cases rows with
  | nil => simp [printRows]
  | cons t rows =>
    obtain ⟨rest, hfirst⟩ := snprintfAt_zero hcap buf t
    have hpos : 0 < 0 + t.length := by
      rw [Nat.zero_add]
      exact List.length_pos_iff.mpr (hrows t List.mem_cons_self)
    rw [printRows, hfirst, Option.bind_some, printRows_snprintf_of_pos hpos]
    by_cases hr : rows = []
    · subst hr
      simp [printRows]
    · have hlen := List.length_pos_iff.mpr hr
      rw [printRows_sprintf_isSome_iff hr, List.flatten_cons, List.length_append,
        List.length_cons]
      omega

theorem printRows_snprintf_start {cap : ℕ} (hcap : 0 < cap) {rows : List Text} (hne : rows ≠ [])
    (buf : Text) (h : rows.length ≤ 1 ∨ rows.flatten.length < cap) :
    ∃ rest, printRows (snprintfAt cap cap) rows buf 0 =
      some (rows.flatten.take (cap - 1) ++ '\x00' :: rest) := by
  rcases h with h | h
  · obtain ⟨t, rows, rfl⟩ := List.exists_cons_of_ne_nil hne
    obtain rfl : rows = [] := by
      apply List.length_eq_zero_iff.mp
      rw [List.length_cons] at h
      omega
    obtain ⟨rest, hfirst⟩ := snprintfAt_zero hcap buf t
    exact ⟨rest, by simp [printRows, hfirst]⟩
  · rw [printRows_snprintf buf 0 fun t ht => (List.sublist_flatten_of_mem ht).length_le.trans_lt h,
      List.take_of_length_le (by omega)]
    exact printRows_sprintf_start hne buf h

theorem ContainsInOrder.of_suffix {rs : List Text} {s t : Text} (h : ContainsInOrder rs s)
    (hst : s <:+ t) : ContainsInOrder rs t := by
  obtain ⟨u, rfl⟩ := hst
  cases rs with
  | nil => trivial
  | cons r rs =>
    obtain ⟨a, b, rfl, hb⟩ := h
    exact ⟨u ++ a, b, by simp, hb⟩

theorem containsInOrder_cons_append (r : Text) (rs : List Text) (s : Text) :
    ContainsInOrder (r :: rs) (r ++ s) ↔ ContainsInOrder rs s := by
  constructor
  · rintro ⟨a, b, hab, hb⟩
    apply hb.of_suffix
    have hlen := congrArg List.length hab
    simp only [List.length_append] at hlen
    apply List.suffix_of_suffix_length_le ⟨a ++ r, hab.symm⟩ ⟨r, rfl⟩
    omega
  · intro h
    exact ⟨[], s, rfl, h⟩

theorem containsInOrder_short_iff {s : Text} {rows : List (Bool × Text)}
    (hwhole : ∀ x ∈ rows, x.1 = false → s.length < x.2.length) :
    ContainsInOrder ((rows.filter (!·.1)).map (·.2)) s ↔ ∀ x ∈ rows, x.1 = true := by
  constructor
  · intro h x hx
    by_contra hx'
    have hmem : x.2 ∈ (rows.filter (!·.1)).map (·.2) :=
      List.mem_map_of_mem (List.mem_filter.mpr ⟨hx, by simpa using hx'⟩)
    have h1 := hwhole x hx (by simpa using hx')
    have h2 := h.length_le
    have h3 := (List.sublist_flatten_of_mem hmem).length_le
    omega
  · intro h
    have hnone : rows.filter (!·.1) = [] := by
      rw [List.filter_eq_nil_iff]
      intro x hx
      simpa using h x hx
    rw [hnone]
    trivial

/-- Some rows are broken off by a NUL behind a beginning that is shorter than any whole
row. The whole ones are all there, read as a string, exactly when none of them comes
behind a broken one. -/
theorem containsInOrder_cstr_iff (beginning : Text) (rows : List (Bool × Text))
    (hbroken : ∀ x ∈ rows, x.1 = true → ∃ u, x.2 = beginning ++ '\x00' :: u)
    (hwhole : ∀ x ∈ rows, x.1 = false → '\x00' ∉ x.2 ∧ beginning.length < x.2.length)
    (hnul : '\x00' ∉ beginning) (tail : Text) :
    ContainsInOrder ((rows.filter (!·.1)).map (·.2))
        (cstr ((rows.map (·.2)).flatten ++ '\x00' :: tail)) ↔
      rows.Pairwise fun x y => x.1 → y.1 := by
  induction rows with
  | nil => exact iff_of_true trivial .nil
  | cons x rows ih =>
    obtain ⟨broken, t⟩ := x
    rw [List.pairwise_cons, List.map_cons, List.flatten_cons, List.append_assoc]
    cases broken with
    | false =>
      -- a whole row is read to its end, and the search goes on behind it
      have ht := hwhole _ List.mem_cons_self rfl
      rw [List.filter_cons_of_pos (by rfl), List.map_cons, cstr_append ht.1,
        containsInOrder_cons_append, ih (fun y hy => hbroken y (List.mem_cons_of_mem _ hy))
          fun y hy => hwhole y (List.mem_cons_of_mem _ hy)]
      simp
    | true =>
      -- what is read of the broken row is too short for any whole one
      obtain ⟨u, hu⟩ := hbroken _ List.mem_cons_self rfl
      dsimp only at hu
      rw [List.filter_cons_of_neg (by simp), hu, List.append_assoc, List.cons_append,
        cstr_append_nul hnul, containsInOrder_short_iff fun y hy hy' =>
          (hwhole y (List.mem_cons_of_mem _ hy) hy').2]
      constructor
      · intro hall
        constructor
        · exact fun y hy _ => hall y hy
        · apply List.pairwise_of_forall_mem_list
          exact fun _ _ y hy _ => hall y hy
      · rintro ⟨hall, -⟩
        exact fun y hy => hall y hy rfl

end CLib
