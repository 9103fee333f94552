import Zsr.CLib.Text

namespace CLib

def IsLine (l : Text) : Prop := ∃ b, '\n' ∉ b ∧ l = b ++ ['\n']

theorem isLine_newline : IsLine ['\n'] := ⟨[], List.not_mem_nil, rfl⟩

theorem IsLine.cons {c : Char} {l : Text} (hl : IsLine l) (hc : c ≠ '\n') : IsLine (c :: l) := by
  obtain ⟨b, hb, rfl⟩ := hl
  refine ⟨c :: b, ?_, rfl⟩
  rw [List.mem_cons, not_or]
  exact ⟨hc.symm, hb⟩

/-- The lines of a text, with their ends; the last one may lack it. -/
def cutLines : Text → List Text
  | [] => []
  | c :: s =>
    if c = '\n' then ['\n'] :: cutLines s
    else
      match cutLines s with
      | [] => [[c]]
      | l :: ls => (c :: l) :: ls

theorem flatten_cutLines (s : Text) : (cutLines s).flatten = s := by
  induction s with
  | nil => rfl
  | cons c s ih =>
    rw [cutLines]
    split
    · next h => rw [List.flatten_cons, ih, h, List.singleton_append]
    · split
      · next h => rw [h] at ih; rw [← ih]; rfl
      · next h => rw [h] at ih; rw [← ih]; rfl

/-- Lines of which only the last may lack its end. -/
def EndedLines (ls : List Text) : Prop := ∀ l ∈ ls.dropLast, IsLine l

theorem endedLines_singleton (l : Text) : EndedLines [l] := fun _ h => absurd h List.not_mem_nil

theorem endedLines_cons {l : Text} {ls : List Text} (hne : ls ≠ []) :
    EndedLines (l :: ls) ↔ IsLine l ∧ EndedLines ls := by
  rw [EndedLines, List.dropLast_cons_of_ne_nil hne, List.forall_mem_cons]
  rfl

theorem endedLines_cutLines (s : Text) : EndedLines (cutLines s) := by
  induction s with
  | nil => exact fun _ h => absurd h List.not_mem_nil
  | cons c s ih =>
    rw [cutLines]
    split
    · by_cases hne : cutLines s = []
      · rw [hne]
        exact endedLines_singleton _
      · exact (endedLines_cons hne).mpr ⟨isLine_newline, ih⟩
    · next hc =>
      split
      · exact endedLines_singleton _
      · next l ls h =>
        rw [h] at ih
        by_cases hne : ls = []
        · rw [hne]
          exact endedLines_singleton _
        · rw [endedLines_cons hne] at ih ⊢
          exact ⟨ih.1.cons hc, ih.2⟩

theorem EndedLines.of_prefix {ls ms : List Text} (h : EndedLines ms) (hls : ls <+: ms) :
    EndedLines ls := by
  induction ls generalizing ms with
  | nil => exact fun _ h => absurd h List.not_mem_nil
  | cons l ls ih =>
    obtain ⟨t, rfl⟩ := hls
    by_cases hne : ls = []
    · rw [hne]
      exact endedLines_singleton l
    · rw [List.cons_append, endedLines_cons (by simp [hne])] at h
      exact (endedLines_cons hne).mpr ⟨h.1, ih h.2 (List.prefix_append ls t)⟩

theorem cutLines_append {b : Text} (hb : '\n' ∉ b) (r : Text) :
    cutLines (b ++ '\n' :: r) = (b ++ ['\n']) :: cutLines r := by
  induction b with
  | nil => exact if_pos rfl
  | cons c b ih =>
    rw [List.mem_cons, not_or] at hb
    rw [List.cons_append, cutLines, if_neg (Ne.symm hb.1), ih hb.2]
    rfl

theorem cutLines_lines {ls : List Text} (h : ∀ l ∈ ls, '\n' ∉ l) :
    cutLines (ls.map (· ++ ['\n'])).flatten = ls.map (· ++ ['\n']) := by
  induction ls with
  | nil => rfl
  | cons l ls ih =>
    obtain ⟨hl, hls⟩ := List.forall_mem_cons.mp h
    rw [List.map_cons, List.flatten_cons, List.append_assoc, List.singleton_append,
      cutLines_append hl, ih hls]

theorem mem_cutLines {s l : Text} (h : l ∈ cutLines s) : l ≠ [] ∧ '\n' ∉ l.dropLast := by
  induction s generalizing l with
  | nil => exact absurd h List.not_mem_nil
  | cons c s ih =>
    rw [cutLines] at h
    split at h
    · rcases List.mem_cons.mp h with rfl | h
      · exact ⟨List.cons_ne_nil _ _, List.not_mem_nil⟩
      · exact ih h
    · next hc =>
      split at h
      · obtain rfl := List.mem_singleton.mp h
        exact ⟨List.cons_ne_nil _ _, List.not_mem_nil⟩
      · next m ms hm =>
        rw [hm] at ih
        rcases List.mem_cons.mp h with rfl | h
        · obtain ⟨hne, hnl⟩ := ih List.mem_cons_self
          refine ⟨List.cons_ne_nil _ _, ?_⟩
          rw [List.dropLast_cons_of_ne_nil hne, List.mem_cons, not_or]
          exact ⟨Ne.symm hc, hnl⟩
        · exact ih (List.mem_cons_of_mem m h)

theorem takeLine_nil (k : ℕ) : takeLine k [] = ([], []) := by
  cases k <;> rfl

theorem fgetsLines_nil (n : ℕ) : fgetsLines n [] = [] := rfl

theorem fgetsLines_eq_nil_iff {n : ℕ} (hn : 2 ≤ n) {s : Text} : fgetsLines n s = [] ↔ s = [] := by
  constructor
  · intro h
    by_contra hs
    rw [fgetsLines_cons hn hs] at h
    cases h
  · rintro rfl
    rfl

theorem fgetsLines_append {n : ℕ} (hn : 2 ≤ n) {l : Text} (hl : IsLine l) (r : Text) :
    fgetsLines n (l ++ r) = fgetsLines n l ++ fgetsLines n r := by
  obtain ⟨b, hb, rfl⟩ := hl
  rw [List.append_assoc, List.singleton_append]
  induction hlen : b.length using Nat.strongRecOn generalizing b with
  | ind m ih =>
    have hne (t : Text) : b ++ '\n' :: t ≠ [] := by simp
    rw [fgetsLines_cons hn (hne r), fgetsLines_cons hn (hne [])]
    by_cases hfit : b.length < n - 1
    · rw [takeLine_line hb hfit, takeLine_line hb hfit]
      rfl
    · -- both calls stop within the line and leave its rest
      have hcut := ih (b.drop (n - 1)).length (by rw [List.length_drop]; omega) (b.drop (n - 1))
        (fun h => hb (List.mem_of_mem_drop h)) rfl
      rw [takeLine_cut hb (not_lt.mp hfit), takeLine_cut hb (not_lt.mp hfit)]
      dsimp only
      rw [hcut, List.cons_append]

theorem fgetsLines_flatten {n : ℕ} (hn : 2 ≤ n) {ls : List Text} (h : EndedLines ls) :
    fgetsLines n ls.flatten = (ls.map (fgetsLines n)).flatten := by
  induction ls with
  | nil => rfl
  | cons l ls ih =>
    by_cases hne : ls = []
    · rw [hne]
      simp
    · rw [endedLines_cons hne] at h
      rw [List.flatten_cons, fgetsLines_append hn h.1, ih h.2, List.map_cons, List.flatten_cons]

theorem subset_of_mem_fgetsLines {n : ℕ} (hn : 2 ≤ n) {s p : Text} (h : p ∈ fgetsLines n s) :
    p ⊆ s := by
  induction hlen : s.length using Nat.strongRecOn generalizing s with
  | ind m ih =>
    by_cases hs : s = []
    · rw [hs] at h
      exact absurd h List.not_mem_nil
    · have happ := takeLine_append_rest (n - 1) s
      rw [fgetsLines_cons hn hs, List.mem_cons] at h
      rcases h with rfl | h
      · intro c hc
        rw [← happ]
        exact List.mem_append_left _ ((List.takeWhile_prefix _).subset hc)
      · have hrest := ih _ (hlen ▸ takeLine_rest_lt (by omega) hs) h rfl
        intro c hc
        rw [← happ]
        exact List.mem_append_right _ (hrest hc)

theorem eq_cstr_of_fgetsLines {n : ℕ} (hn : 2 ≤ n) {s p : Text} (h : fgetsLines n s = [p]) :
    p = cstr s := by
  have hs : s ≠ [] := by
    rintro rfl
    cases h
  rw [fgetsLines_cons hn hs, List.cons.injEq, fgetsLines_eq_nil_iff hn] at h
  have hall := takeLine_append_rest (n - 1) s
  rw [h.2, List.append_nil] at hall
  rw [← h.1, hall]

theorem takeLine_whole {k : ℕ} {s : Text} (hnl : '\n' ∉ s.dropLast) (hlen : s.length ≤ k) :
    takeLine k s = (s, []) := by
  induction s generalizing k with
  | nil => cases k <;> rfl
  | cons c s ih =>
    obtain ⟨k, rfl⟩ := Nat.exists_eq_add_of_le' (Nat.one_le_of_lt hlen)
    rw [List.length_cons, Nat.add_le_add_iff_right] at hlen
    cases s with
    | nil =>
      rw [takeLine, takeLine_nil]
      split <;> rfl
    | cons d s =>
      rw [List.dropLast_cons_of_ne_nil (List.cons_ne_nil d s), List.mem_cons, not_or] at hnl
      rw [takeLine, if_neg (Ne.symm hnl.1), ih hnl.2 hlen]

theorem fgetsLines_short {n : ℕ} {s : Text} (hs : s ≠ []) (hnl : '\n' ∉ s.dropLast)
    (hlen : s.length < n) : fgetsLines n s = [cstr s] := by
  have hpos := List.length_pos_iff.mpr hs
  rw [fgetsLines_cons (by omega) hs, takeLine_whole hnl (by omega), fgetsLines_nil]

end CLib
