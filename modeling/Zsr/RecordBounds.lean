import Zsr.PrintRun

namespace Zsr
open CLib

namespace ModName

def Sized : ModName → Prop
  | dns | gateway | ip | proc => False
  | cpu | fs | io | loadAvg | mem | network | swap | time | uptime | who => True

theorem print_of_sized {m : ModName} (h : m.Sized) : m.print = snprintfRecord := by
  cases m with
  | dns | gateway | ip | proc => exact h.elim
  | cpu | fs | io | loadAvg | mem | network | swap | time | uptime | who => rfl

theorem print_of_not_sized {m : ModName} (h : ¬m.Sized) : m.print = sprintfRecord := by
  cases m with
  | dns | gateway | ip | proc => rfl
  | cpu | fs | io | loadAvg | mem | network | swap | time | uptime | who => exact (h trivial).elim

/-- The arrays hold their NULs, and together the rows are shorter than the record; a single
row may be longer where it is printed with a size. -/
def Defined (m : ModName) (l : List m.Rec) : Prop :=
  (∀ e ∈ m.held l, (m.row e).isSome) ∧
    ((m.encoding l).length < LEN_1M ∨ m.Sized ∧ (m.held l).length ≤ 1)

theorem exists_rows {m : ModName} {l : List m.Rec} (h : ∀ e ∈ m.held l, (m.row e).isSome) :
    ∃ rows, (m.held l).mapM m.row = some rows ∧ rows.flatten = m.encoding l ∧
      rows.length = (m.held l).length ∧ ∀ t ∈ rows, t ≠ [] := by
  obtain ⟨rows, hrows⟩ := Option.isSome_iff_exists.mp (mapM_isSome_iff.mpr h)
  have hfilter := (mapM_row_eq hrows).1
  refine ⟨rows, hrows, (congrArg List.flatten hfilter).symm, ?_, ?_⟩
  · exact (forall₂_of_mapM hrows).length_eq.symm
  · intro t ht
    rw [← hfilter] at ht
    obtain ⟨e, -, he⟩ := List.mem_filterMap.mp ht
    exact row_ne_nil m he

theorem printRows_isSome_iff (m : ModName) {rows : List Text} (hne : rows ≠ [])
    (hrows : ∀ t ∈ rows, t ≠ []) (record : Text) :
    (printRows m.print rows record 0).isSome ↔
      rows.flatten.length < LEN_1M ∨ m.Sized ∧ rows.length ≤ 1 := by
  by_cases hm : m.Sized
  · rw [print_of_sized hm, printRows_snprintf_isSome_iff (by decide) hrows, or_comm]
    simp only [hm, true_and]
  · rw [print_of_not_sized hm, printRows_sprintf_isSome_iff hne, Nat.zero_add]
    simp only [hm, false_and, or_false]

theorem printRows_start (m : ModName) {rows : List Text} (hne : rows ≠ []) (record : Text)
    (h : rows.flatten.length < LEN_1M ∨ m.Sized ∧ rows.length ≤ 1) :
    ∃ rest, printRows m.print rows record 0 =
      some (rows.flatten.take (LEN_1M - 1) ++ '\x00' :: rest) := by
  by_cases hm : m.Sized
  · rw [print_of_sized hm]
    apply printRows_snprintf_start (by decide) hne record
    exact h.symm.imp_left And.right
  · have hlen := h.resolve_right fun h => hm h.1
    rw [print_of_not_sized hm, List.take_of_length_le (by omega)]
    exact printRows_sprintf_start hne record hlen

theorem recordToStr_isSome_iff (m : ModName) (l : List m.Rec) (record : Text) :
    (m.recordToStr l record).isSome ↔ m.Defined l := by
  rw [recordToStr_eq]
  by_cases hrow : ∀ e ∈ m.held l, (m.row e).isSome
  · obtain ⟨rows, hrows, hflat, hlen, hne⟩ := exists_rows hrow
    unfold Defined
    rw [hrows, Option.bind_some, ← hflat, ← hlen]
    by_cases hnil : rows = []
    · subst hnil
      refine iff_of_true rfl ⟨hrow, .inl ?_⟩
      decide
    · rw [printRows_isSome_iff m hnil hne]
      exact (and_iff_right hrow).symm
  · refine iff_of_false ?_ fun h => hrow h.1
    rw [Option.not_isSome_iff_eq_none.mp (mt mapM_isSome_iff.mp hrow)]
    exact Bool.false_ne_true

theorem recordToStr_eq_self {m : ModName} {l : List m.Rec} (h : m.held l = []) (record : Text) :
    m.recordToStr l record = some record := by
  rw [recordToStr_eq, h]
  rfl

theorem recordToStr_text {m : ModName} {l : List m.Rec} (hfits : m.Defined l) (h : m.held l ≠ [])
    (record : Text) : ∃ rest, m.recordToStr l record =
      some ((m.encoding l).take (LEN_1M - 1) ++ '\x00' :: rest) := by
  obtain ⟨rows, hrows, hflat, hlen, -⟩ := exists_rows hfits.1
  have hne : rows ≠ [] := by
    rw [← List.length_pos_iff, hlen, List.length_pos_iff]
    exact h
  rw [recordToStr_eq, hrows, Option.bind_some, ← hflat]
  apply printRows_start m hne record
  rw [hflat, hlen]
  exact hfits.2

section Behind

/-- The row of an entry, its arrays read on in what lies behind them. -/
def rowIn (behind : ℕ → Text) : (m : ModName) → m.Entry → Text
  | cpu => ModCpu.row
  | dns => fun entry => Id.run (ModDns.rowBy (fun k a => pure (readOn (behind k) a)) entry)
  | fs => fun entry => Id.run (ModFs.rowBy (fun k a => pure (readOn (behind k) a)) entry)
  | gateway =>
    fun entry => Id.run (ModGateway.rowBy (fun k a => pure (readOn (behind k) a)) entry)
  | io => ModIo.row
  | ip => fun entry => Id.run (ModIp.rowBy (fun k a => pure (readOn (behind k) a)) entry)
  | loadAvg => ModLoadAvg.row
  | mem => ModMem.row
  | network =>
    fun entry => Id.run (ModNetwork.rowBy (fun k a => pure (readOn (behind k) a)) entry)
  | proc => ModProc.row
  | swap => ModSwap.row
  | time => ModTime.row
  | uptime => ModUptime.row
  | who => fun entry => Id.run (ModWho.rowBy (fun k a => pure (readOn (behind k) a)) entry)

theorem rowIn_ne_nil (behind : ℕ → Text) (m : ModName) (e : m.Entry) : m.rowIn behind e ≠ [] := by
  cases m with
  | ip =>
    apply List.append_ne_nil_of_right_ne_nil
    cases e.ipVer <;> decide
  | _ => exact row_end_ne_nil _

theorem rowIn_of_row {m : ModName} {e : m.Entry} {t : Text} (h : m.row e = some t)
    (behind : ℕ → Text) : m.rowIn behind e = t := by
  cases m with
  | cpu | io | loadAvg | mem | proc | swap | time | uptime => exact Option.some.inj h
  | dns | gateway | network =>
    obtain ⟨w, hw, h⟩ := Option.bind_eq_some_iff.mp h
    obtain rfl := Option.some.inj h
    obtain rfl := readOn_of_cstrIn hw (behind 0)
    rfl
  | fs | who =>
    simp only [row, ModFs.row, ModFs.rowBy, ModWho.row, ModWho.rowBy, Option.bind_eq_bind,
      Option.bind_eq_some_iff, Option.pure_def, Option.some.injEq] at h
    obtain ⟨u, hu, v, hv, w, hw, rfl⟩ := h
    obtain rfl := readOn_of_cstrIn hu (behind 0)
    obtain rfl := readOn_of_cstrIn hv (behind 1)
    obtain rfl := readOn_of_cstrIn hw (behind 2)
    rfl
  | ip =>
    simp only [row, ModIp.row, ModIp.rowBy, Option.bind_eq_bind, Option.bind_eq_some_iff,
      Option.pure_def, Option.some.injEq] at h
    obtain ⟨u, hu, v, hv, w, hw, rfl⟩ := h
    obtain rfl := readOn_of_cstrIn hu (behind 0)
    obtain rfl := readOn_of_cstrIn hv (behind 1)
    obtain rfl := readOn_of_cstrIn hw (behind 2)
    rfl

variable (behind : ℕ → ℕ → Text) (m : ModName) (l : List m.Rec) (record : Text)

/-- The rows of what is held, with `behind i k` behind array `k` of entry `i`. -/
def rowsIn : List Text := (m.held l).zipIdx.map fun x => m.rowIn (behind x.2) x.1

/-- `record_to_str` where an array without its NUL is read on; `none` is a write behind the
record. -/
def recordToStrIn : Option Text := printRows m.print (m.rowsIn behind l) record 0

/-- The rows are together shorter than the record, or there is at most one and it is printed with
a size. -/
def Fits : Prop :=
  (m.rowsIn behind l).flatten.length < LEN_1M ∨ m.Sized ∧ (m.held l).length ≤ 1

/-- `record_to_str` writes inside of the record: the rows and a NUL, cut at its end. -/
def WritesInside : Prop :=
  ∃ record', m.recordToStrIn behind l record = some record' ∧ (m.held l = [] → record' = record) ∧
    (m.held l ≠ [] → ∃ rest,
      record' = (m.rowsIn behind l).flatten.take (LEN_1M - 1) ++ '\x00' :: rest)

theorem rowsIn_length : (m.rowsIn behind l).length = (m.held l).length := by
  rw [rowsIn, List.length_map, List.length_zipIdx]

theorem rowsIn_eq_nil_iff : m.rowsIn behind l = [] ↔ m.held l = [] := by
  rw [← List.length_eq_zero_iff, rowsIn_length, List.length_eq_zero_iff]

theorem recordToStrIn_eq (h : ∀ e ∈ m.held l, (m.row e).isSome) :
    m.recordToStrIn behind l record = m.recordToStr l record := by
  have hall (es : List m.Entry) (n : ℕ) (h : ∀ e ∈ es, (m.row e).isSome) :
      es.mapM m.row = some ((es.zipIdx n).map fun x => m.rowIn (behind x.2) x.1) := by
    induction es generalizing n with
    | nil => rfl
    | cons e es ih =>
      obtain ⟨t, ht⟩ := Option.isSome_iff_exists.mp (h e List.mem_cons_self)
      rw [List.mapM_cons, ht, ih (n + 1) fun e he => h e (List.mem_cons_of_mem _ he),
        List.zipIdx_cons, List.map_cons, rowIn_of_row ht]
      rfl
  have hrows : (m.held l).mapM m.row = some (m.rowsIn behind l) := hall _ 0 h
  rw [recordToStr_eq, hrows]
  rfl

theorem writesInside_iff : m.WritesInside behind l record ↔ m.Fits behind l := by
  have hne : ∀ t ∈ m.rowsIn behind l, t ≠ [] := by
    intro t ht
    obtain ⟨x, -, rfl⟩ := List.mem_map.mp ht
    exact rowIn_ne_nil _ m x.1
  by_cases hnil : m.held l = []
  · have hrows := (rowsIn_eq_nil_iff behind m l).mpr hnil
    refine iff_of_true ⟨record, ?_, fun _ => rfl, fun h => absurd hnil h⟩ (.inl ?_)
    · rw [recordToStrIn, hrows]
      rfl
    · rw [hrows]
      decide
  · have hrows := mt (rowsIn_eq_nil_iff behind m l).mp hnil
    have hiff := printRows_isSome_iff m hrows hne record
    rw [rowsIn_length] at hiff
    constructor
    · rintro ⟨record', h, -⟩
      exact hiff.mp (Option.isSome_of_eq_some h)
    · intro hfits
      rw [Fits, ← rowsIn_length behind m l] at hfits
      obtain ⟨rest, h⟩ := printRows_start m hrows record hfits
      exact ⟨_, h, fun h => absurd h hnil, fun _ => ⟨rest, rfl⟩⟩

/-- Whatever lies behind the arrays, all rows stay in the record exactly when they fit into it
together. -/
theorem recordToStr_inside_iff :
    (m.WritesInside behind l record ↔ m.Fits behind l) ∧
      ((∀ e ∈ m.held l, (m.row e).isSome) →
        m.recordToStrIn behind l record = m.recordToStr l record) :=
  ⟨writesInside_iff behind m l record, recordToStrIn_eq behind m l record⟩

end Behind

/-- A link without a name that has moved no bytes. -/
def idleLink : RtnlLink where
  dev := strncpy LEN_32 []
  txPacket := 0
  rxPacket := 0
  txByte := 0
  rxByte := 0

theorem length_encoding_idleLinks (n : ℕ) :
    (network.encoding (List.replicate n idleLink)).length = 18 * n := by
  have hrow : network.row idleLink = some "network=,0,0,0,0;\n".toList := by decide
  have henc : network.encoding (List.replicate n idleLink) =
      (List.replicate n "network=,0,0,0,0;\n".toList).flatten := by
    unfold encoding
    congr 1
    show (List.replicate n idleLink).filterMap network.row = _
    rw [List.filterMap_replicate_of_some hrow]
  rw [henc, List.length_flatten, List.map_replicate, List.sum_replicate_nat, mul_comm]
  rfl

/-- More links than the record has room for are written behind it. -/
theorem recordToStr_manyLinks :
    (∀ behind, network.recordToStrIn behind (List.replicate 70000 idleLink) [] = none) ∧
      ¬∀ behind m l record, WritesInside behind m l record := by
  have hrow : ∀ e ∈ network.held (List.replicate 70000 idleLink), (network.row e).isSome := by
    intro e he
    obtain rfl := List.eq_of_mem_replicate he
    decide
  have hnone (behind : ℕ → ℕ → Text) :
      network.recordToStrIn behind (List.replicate 70000 idleLink) [] = none := by
    rw [recordToStrIn_eq behind network _ _ hrow, ← Option.not_isSome_iff_eq_none,
      recordToStr_isSome_iff]
    rintro ⟨-, h⟩
    rw [length_encoding_idleLinks] at h
    have hheld : (network.held (List.replicate 70000 idleLink)).length = 70000 :=
      List.length_replicate
    rw [hheld] at h
    rcases h with h | ⟨-, h⟩
    · exact absurd h (by decide)
    · exact absurd h (by decide)
  refine ⟨hnone, fun hall => ?_⟩
  obtain ⟨record', h, -⟩ := hall (fun _ _ => []) network (List.replicate 70000 idleLink) []
  rw [hnone] at h
  cases h

end ModName

end Zsr
