import Zsr.IoStat
import Zsr.CLib.Lines

namespace Zsr
open CLib

def keyword (l : Text) : Text := l.takeWhile (· ≠ ' ')

def cpuNumber (l : Text) : Option ℕ :=
  if "cpu".toList <+: keyword l ∧ keyword l ≠ "cpu".toList then
    some (Nat.ofDigitChars 10 ((keyword l).drop 3) 0)
  else none

/-- One more than the largest number of the `cpuN` lines, and 0 without such a line. -/
def countCpuLines (ls : List Text) : ℕ :=
  (ls.filterMap cpuNumber).foldr (fun n m => max (n + 1) m) 0

/-- A keyword that begins with `cpu` is `cpu` itself, or a number follows that leaves room for
one more. -/
def CpuKeyword (key : Text) : Prop :=
  "cpu".toList <+: key → key = "cpu".toList ∨
    ∃ ds, key = "cpu".toList ++ ds ∧ Digits ds ∧ Nat.ofDigitChars 10 ds 0 < 2 ^ 31 - 1

/-- A keyword of at most 13 characters, a space, and then only digits and spaces up to the end of
the line. -/
def KeyLine (l : Text) : Prop :=
  ∃ key tail, l = key ++ ' ' :: tail ∧ ' ' ∉ key ∧ '\n' ∉ key ∧ key.length ≤ 13 ∧
    CpuKeyword key ∧ ∀ c ∈ tail, c.isDigit ∨ c = ' ' ∨ c = '\n'

theorem keyword_append {key : Text} (h : ' ' ∉ key) (tail : Text) :
    keyword (key ++ ' ' :: tail) = key := by
  have hall : ∀ c ∈ key, decide (c ≠ ' ') = true := by
    intro c hc
    exact decide_eq_true fun he => h (he ▸ hc)
  rw [keyword, List.takeWhile_append_of_pos hall, List.takeWhile_cons_of_neg (by simp),
    List.append_nil]

theorem countCpuLines_cons (l : Text) (ls : List Text) :
    countCpuLines (l :: ls) =
      (cpuNumber l).elim (countCpuLines ls) fun n => max (n + 1) (countCpuLines ls) := by
  rw [countCpuLines, List.filterMap_cons]
  cases cpuNumber l <;> rfl

/-- The first piece of a line holds its keyword, and nothing of the line but digits and spaces is
left. -/
theorem fgetsLines_keyLine {key : Text} (tail : Text) (hnl : '\n' ∉ key) (hlen : key.length ≤ 13) :
    ∃ u r, fgetsLines 16 (key ++ ' ' :: tail) = cstr (key ++ ' ' :: u) :: fgetsLines 16 r ∧
      r ⊆ tail := by
  have hne : key ++ ' ' :: tail ≠ [] := by simp
  have hkey : '\n' ∉ key ++ [' '] := by simpa using hnl
  have hfit : (key ++ [' ']).length ≤ 15 := by
    rw [List.length_append, List.length_singleton]
    omega
  have hsplit : key ++ ' ' :: tail = (key ++ [' ']) ++ tail := by simp
  have htake := takeLine_append hkey hfit tail
  have happ := takeLine_append_rest 15 (key ++ [' '] ++ tail)
  rw [htake, List.append_assoc] at happ
  have hrest := List.append_cancel_left happ
  refine ⟨(takeLine (15 - (key ++ [' ']).length) tail).1, (takeLine 15 (key ++ [' '] ++ tail)).2,
    ?_, ?_⟩
  · rw [fgetsLines_cons (by decide) hne, hsplit, htake, List.append_assoc]
    rfl
  · intro c hc
    rw [← hrest]
    exact List.mem_append_right _ hc

def CpuPiece (p : Text) : Prop := ¬"cpu ".toList <+: p ∧ "cpu".toList <+: p

theorem not_cpuPiece {p : Text} (h : 'c' ∉ p) : ¬CpuPiece p := by
  rintro ⟨-, hp⟩
  exact h (hp.subset (by decide))

theorem countCpus_skip {ps : List Text} (h : ∀ p ∈ ps, ¬CpuPiece p) (cpuNum : Option Int32)
    (numOfCpu : Int32) (qs : List Text) :
    countCpus cpuNum numOfCpu (ps ++ qs) = countCpus cpuNum numOfCpu qs := by
  induction ps with
  | nil => rfl
  | cons p ps ih =>
    obtain ⟨hp, hps⟩ := List.forall_mem_cons.mp h
    rw [List.cons_append, countCpus]
    exact (if_neg hp).trans (ih hps)

theorem prefix_key {p key u : Text} (hp : ' ' ∉ p) (h : p <+: cstr (key ++ ' ' :: u)) :
    p <+: key := by
  have hpre : p <+: key ++ ' ' :: u := h.trans (List.takeWhile_prefix _)
  have hkey : key ++ [' '] <+: key ++ ' ' :: u := ⟨u, by simp⟩
  rcases List.prefix_or_prefix_of_prefix hpre hkey with h | h
  · rcases List.prefix_concat_iff.mp h with rfl | h
    · exact absurd (by simp) hp
    · exact h
  · exact absurd (h.subset (by simp)) hp

theorem cpuNumber_eq_none {l : Text} (h : ¬"cpu".toList <+: keyword l) : cpuNumber l = none :=
  if_neg fun hp => h hp.1

theorem cpuNumber_digits {l ds : Text} (hds : Digits ds) (h : keyword l = "cpu".toList ++ ds) :
    cpuNumber l = some (Nat.ofDigitChars 10 ds 0) := by
  have hne : "cpu".toList ++ ds ≠ "cpu".toList := by simpa using hds.1
  rw [cpuNumber, h, if_pos ⟨List.prefix_append _ _, hne⟩]
  rfl

theorem countCpus_number {ds u : Text} (hds : Digits ds)
    (hlt : Nat.ofDigitChars 10 ds 0 < 2 ^ 31 - 1) (cpuNum : Option Int32) (numOfCpu : Int32)
    (ps : List Text) :
    countCpus cpuNum numOfCpu (cstr ("cpu".toList ++ ds ++ ' ' :: u) :: ps) =
      countCpus (some (Int32.ofInt (Nat.ofDigitChars 10 ds 0)))
        (if numOfCpu < Int32.ofInt (Nat.ofDigitChars 10 ds 0) then
          Int32.ofInt (Nat.ofDigitChars 10 ds 0) else numOfCpu) ps := by
  have hnul : '\x00' ∉ "cpu".toList ++ ds := by
    rw [List.mem_append, not_or]
    exact ⟨by decide, fun h => absurd (hds.2 _ h) (by decide)⟩
  have hcstr : cstr ("cpu".toList ++ ds ++ ' ' :: u) = "cpu".toList ++ (ds ++ ' ' :: cstr u) := by
    rw [cstr_append hnul, List.append_assoc]
    rfl
  have hother : ¬"cpu ".toList <+: "cpu".toList ++ (ds ++ ' ' :: cstr u) := by
    obtain ⟨d, ds, rfl⟩ := List.exists_cons_of_ne_nil hds.1
    rintro ⟨t, ht⟩
    have ht : "cpu".toList ++ ' ' :: t = "cpu".toList ++ d :: (ds ++ ' ' :: cstr u) := ht
    have hd : ' ' = d := (List.cons.inj (List.append_cancel_left ht)).1
    exact absurd (hds.2 d List.mem_cons_self) (hd ▸ by decide)
  have hscan := scanD_digits hds (noDigit_cons (c := ' ') rfl (cstr u)) (by omega)
  have hdrop : ("cpu".toList ++ (ds ++ ' ' :: cstr u)).drop 3 = ds ++ ' ' :: cstr u := rfl
  rw [hcstr, countCpus, if_pos ⟨hother, List.prefix_append _ _⟩, hdrop, hscan]
  rfl

theorem countCpus_keyLine {l : Text} (h : KeyLine l) (cpuNum : Option Int32) (numOfCpu : Int32)
    (qs : List Text) :
    (cpuNumber l = none ∧
      countCpus cpuNum numOfCpu (fgetsLines 16 l ++ qs) = countCpus cpuNum numOfCpu qs) ∨
    ∃ n < 2 ^ 31 - 1, cpuNumber l = some n ∧
      countCpus cpuNum numOfCpu (fgetsLines 16 l ++ qs) =
        countCpus (some (Int32.ofInt n))
          (if numOfCpu < Int32.ofInt n then Int32.ofInt n else numOfCpu) qs := by
  obtain ⟨key, tail, rfl, hspace, hnl, hlen, hcpu, htail⟩ := h
  obtain ⟨u, r, hpieces, hr⟩ := fgetsLines_keyLine tail hnl hlen
  have hkey := keyword_append hspace tail
  have hrest : ∀ p ∈ fgetsLines 16 r, ¬CpuPiece p := by
    intro p hp
    refine not_cpuPiece fun hc => ?_
    have hmem := htail 'c' (hr (subset_of_mem_fgetsLines (by decide) hp hc))
    revert hmem
    decide
  rw [hpieces, List.cons_append]
  by_cases hpre : "cpu".toList <+: key
  · rcases hcpu hpre with rfl | ⟨ds, rfl, hds, hlt⟩
    · -- the line of all CPUs
      have hfirst : ¬CpuPiece (cstr ("cpu".toList ++ ' ' :: u)) := fun hp => hp.1 ⟨cstr u, rfl⟩
      refine .inl ⟨if_neg fun hp => hp.2 hkey, ?_⟩
      rw [← List.cons_append]
      exact countCpus_skip (List.forall_mem_cons.mpr ⟨hfirst, hrest⟩) _ _ _
    · refine .inr ⟨_, hlt, cpuNumber_digits hds hkey, ?_⟩
      rw [countCpus_number hds hlt, countCpus_skip hrest]
  · have hfirst : ¬CpuPiece (cstr (key ++ ' ' :: u)) := fun hp => hpre (prefix_key (by decide) hp.2)
    refine .inl ⟨cpuNumber_eq_none (hkey.symm ▸ hpre), ?_⟩
    rw [← List.cons_append]
    exact countCpus_skip (List.forall_mem_cons.mpr ⟨hfirst, hrest⟩) _ _ _

theorem toInt_ofInt_of_lt {n : ℕ} (hn : n < 2 ^ 31) : (Int32.ofInt n).toInt = n :=
  Int32.toInt_ofInt_of_le (by omega) (by omega)

theorem countCpus_lines {ls : List Text} (h : ∀ l ∈ ls, KeyLine l) (cpuNum : Option Int32)
    {numOfCpu : Int32} {k : ℕ} (hnum : numOfCpu.toInt + 1 = k) (hk : k ≤ 2 ^ 31 - 1) :
    ∃ m : Int32, countCpus cpuNum numOfCpu (ls.map (fgetsLines 16)).flatten = some m ∧
      m.toInt + 1 = (max k (countCpuLines ls) : ℕ) ∧ max k (countCpuLines ls) ≤ 2 ^ 31 - 1 := by
  induction ls generalizing cpuNum numOfCpu k with
  | nil =>
    refine ⟨numOfCpu, rfl, ?_, ?_⟩
    · rw [hnum, countCpuLines, List.filterMap_nil, List.foldr_nil, Nat.max_zero]
    · rw [countCpuLines, List.filterMap_nil, List.foldr_nil, Nat.max_zero]
      exact hk
  | cons l ls ih =>
    obtain ⟨hl, hls⟩ := List.forall_mem_cons.mp h
    rw [List.map_cons, List.flatten_cons, countCpuLines_cons]
    rcases countCpus_keyLine hl cpuNum numOfCpu (ls.map (fgetsLines 16)).flatten with
      ⟨hnone, hcount⟩ | ⟨n, hn, hsome, hcount⟩
    · rw [hnone, hcount]
      exact ih hls cpuNum hnum hk
    · rw [hsome, hcount, Option.elim_some, ← max_assoc]
      have hint := toInt_ofInt_of_lt (n := n) (by omega)
      apply ih hls _ _ (by omega)
      split
      · next hless =>
        rw [Int32.lt_iff_toInt_lt, hint] at hless
        omega
      · next hless =>
        rw [Int32.lt_iff_toInt_lt, hint] at hless
        omega

theorem toNat_succ_toUInt32 {n : Int32} {k : ℕ} (hn : n.toInt + 1 = k) (hk : k ≤ 2 ^ 31 - 1) :
    n ≠ Int32.maxValue ∧ (n + 1).toUInt32.toNat = k := by
  constructor
  · rintro rfl
    have hmax : Int32.maxValue.toInt = 2 ^ 31 - 1 := rfl
    omega
  · have hone : (1 : Int32).toInt = 1 := rfl
    have hsucc : (n + 1).toInt = k := by
      rw [Int32.toInt_add, hone, hn]
      exact Int.bmod_eq_of_le (by omega) (by omega)
    have hbits : (n + 1).toBitVec.toInt = k := hsucc
    rw [BitVec.toInt_eq_toNat_cond] at hbits
    have hnat : (n + 1).toUInt32.toNat = (n + 1).toBitVec.toNat := rfl
    have hlt := (n + 1).toBitVec.isLt
    rw [hnat]
    split at hbits
    · omega
    · omega

/-- The count of the pieces is that of the whole lines. -/
theorem getNumOfCpu_keyLines {s : Text} (h : ∀ l ∈ cutLines s, KeyLine l) :
    ∃ n, getNumOfCpu (some s) = some n ∧ n.toNat = countCpuLines (cutLines s) := by
  have hpieces : fgetsLines 16 s = ((cutLines s).map (fgetsLines 16)).flatten := by
    rw [← fgetsLines_flatten (by decide) (endedLines_cutLines s), flatten_cutLines]
  have hstart : (-1 : Int32).toInt + 1 = (0 : ℕ) := rfl
  obtain ⟨m, hm, hcount, hmax⟩ := countCpus_lines h none hstart (by decide)
  rw [Nat.zero_max] at hcount hmax
  obtain ⟨hne, hsucc⟩ := toNat_succ_toUInt32 hcount hmax
  refine ⟨(m + 1).toUInt32, ?_, hsucc⟩
  rw [getNumOfCpu, Option.bind_eq_bind, Option.bind_some, hpieces, hm, Option.bind_eq_bind,
    Option.bind_some, if_neg hne]

/-- Two CPUs of four are there, and the line of the first is longer than the buffer. -/
def statText : Text := "cpu  10 20\ncpu0 100 200 300 400\ncpu3 1\nintr 5 0\n".toList

theorem getNumOfCpu_keyLines_gap :
    (∃ n, getNumOfCpu (some statText) = some n ∧ n.toNat = countCpuLines (cutLines statText)) ∧
      countCpuLines (cutLines statText) = 4 := by
  have hlines : cutLines statText = ["cpu  10 20\n".toList, "cpu0 100 200 300 400\n".toList,
      "cpu3 1\n".toList, "intr 5 0\n".toList] := by
    decide +kernel
  have htail {tail : Text} (h : tail.all (fun c => c.isDigit || c == ' ' || c == '\n') = true) :
      ∀ c ∈ tail, c.isDigit ∨ c = ' ' ∨ c = '\n' := by
    simpa only [List.all_eq_true, Bool.or_eq_true, beq_iff_eq, or_assoc] using h
  have hkey : ∀ l ∈ cutLines statText, KeyLine l := by
    rw [hlines]
    simp only [List.forall_mem_cons]
    refine ⟨⟨"cpu".toList, " 10 20\n".toList, rfl, ?_⟩,
      ⟨"cpu0".toList, "100 200 300 400\n".toList, rfl, ?_⟩,
      ⟨"cpu3".toList, "1\n".toList, rfl, ?_⟩, ⟨"intr".toList, "5 0\n".toList, rfl, ?_⟩,
      List.forall_mem_nil _⟩
    · exact ⟨by decide, by decide, by decide, fun _ => .inl rfl, htail (by decide)⟩
    · exact ⟨by decide, by decide, by decide,
        fun _ => .inr ⟨"0".toList, rfl, ⟨by decide, List.all_eq_true.mp (by decide)⟩, by decide⟩,
        htail (by decide)⟩
    · exact ⟨by decide, by decide, by decide,
        fun _ => .inr ⟨"3".toList, rfl, ⟨by decide, List.all_eq_true.mp (by decide)⟩, by decide⟩,
        htail (by decide)⟩
    · exact ⟨by decide, by decide, by decide, fun h => absurd h (by decide), htail (by decide)⟩
  exact ⟨getNumOfCpu_keyLines hkey, by decide +kernel⟩

end Zsr
