import Zsr.ProcSample
import Mathlib.Data.List.Induction

namespace Zsr
open CLib

variable {fl : ℚ → ℚ}

theorem setUtil_getElem? (s : Slot) {l : List Proc} {c : ℕ} {e : Proc} (he : l[c]? = some e) :
    (setUtil fl s l)[c]? = some (if e.pid = s.pid ∧ (l.map Proc.pid).idxOf e.pid = c then
      { e with cpuUtil := s.util fl } else e) := by
  induction l generalizing c with
  | nil => simp at he
  | cons x l ih =>
    rw [setUtil, List.map_cons, List.idxOf_cons]
    cases c with
    | zero =>
      obtain rfl : x = e := by simpa using he
      by_cases hx : x.pid = s.pid
      · simp [hx]
      · simp [hx]
    | succ c =>
      rw [List.getElem?_cons_succ] at he
      by_cases hx : x.pid = s.pid
      · -- the process in front is the first with this pid
        have hnot : ¬(e.pid = s.pid ∧
            (bif x.pid == e.pid then 0 else (l.map Proc.pid).idxOf e.pid + 1) = c + 1) := by
          rintro ⟨hpid, hidx⟩
          rw [hpid, hx, beq_self_eq_true, cond_true] at hidx
          omega
        rw [if_pos hx, if_neg hnot, List.getElem?_cons_succ, he]
      · have hiff : (e.pid = s.pid ∧
            (bif x.pid == e.pid then 0 else (l.map Proc.pid).idxOf e.pid + 1) = c + 1) ↔
            e.pid = s.pid ∧ (l.map Proc.pid).idxOf e.pid = c := by
          apply and_congr_right
          intro hpid
          rw [beq_false_of_ne (hpid ▸ hx), cond_false, Nat.add_right_cancel_iff]
        rw [if_neg hx, List.getElem?_cons_succ, ih he]
        simp only [hiff]

/-- The percentage of the last slot with this pid. -/
def lastUtil (fl : ℚ → ℚ) (slots : List Slot) (pid : UInt64) : Option Double :=
  (slots.filter fun s => s.pid == pid).getLast?.map fun s => s.util fl

theorem lastUtil_concat (slots : List Slot) (s : Slot) (pid : UInt64) :
    lastUtil fl (slots ++ [s]) pid =
      if pid = s.pid then some (s.util fl) else lastUtil fl slots pid := by
  unfold lastUtil
  rw [List.filter_append]
  by_cases hpid : pid = s.pid
  · simp [hpid]
  · have hne : (s.pid == pid) = false := beq_false_of_ne (Ne.symm hpid)
    simp [hpid, hne]

theorem lastUtil_eq_none {slots : List Slot} {pid : UInt64} (h : ∀ s ∈ slots, s.pid ≠ pid) :
    lastUtil fl slots pid = none := by
  have hnil : slots.filter (fun s => s.pid == pid) = [] := by
    rw [List.filter_eq_nil_iff]
    exact fun s hs hpid => h s hs (eq_of_beq hpid)
  rw [lastUtil, hnil]
  rfl

theorem lastUtil_of_forall_eq {slots : List Slot} {s : Slot} (hs : s ∈ slots)
    (h : ∀ t ∈ slots, t.pid = s.pid → t = s) : lastUtil fl slots s.pid = some (s.util fl) := by
  have hmem : s ∈ slots.filter fun t => t.pid == s.pid :=
    List.mem_filter.mpr ⟨hs, beq_self_eq_true s.pid⟩
  have hlast := List.getLast_mem (List.ne_nil_of_mem hmem)
  obtain ⟨ht, hpid⟩ := List.mem_filter.mp hlast
  rw [lastUtil, List.getLast?_eq_some_getLast (List.ne_nil_of_mem hmem), Option.map_some,
    h _ ht (eq_of_beq hpid)]

theorem lastUtil_append_replicate_zero (slots : List Slot) (n : ℕ) {pid : UInt64} (h0 : pid ≠ 0) :
    lastUtil fl (slots ++ List.replicate n .zero) pid = lastUtil fl slots pid := by
  induction n with
  | zero => rw [List.replicate_zero, List.append_nil]
  | succ n ih =>
    have hpid : pid ≠ Slot.zero.pid := h0
    rw [List.replicate_succ', ← List.append_assoc, lastUtil_concat, if_neg hpid, ih]

theorem foldl_setUtil_getElem? (slots : List Slot) {l : List Proc} {c : ℕ} {e : Proc}
    (he : l[c]? = some e) :
    (slots.foldl (fun l s => setUtil fl s l) l)[c]? =
      some (if (l.map Proc.pid).idxOf e.pid = c then
        { e with cpuUtil := (lastUtil fl slots e.pid).getD e.cpuUtil } else e) := by
  induction slots using List.reverseRecOn with
  | nil => simpa [lastUtil] using he
  | append_singleton slots s ih =>
    rw [List.foldl_append, List.foldl_cons, List.foldl_nil, setUtil_getElem? s ih,
      foldl_setUtil_pid]
    by_cases hc : (l.map Proc.pid).idxOf e.pid = c
    · simp only [hc, if_true, and_true, lastUtil_concat]
      by_cases hpid : e.pid = s.pid
      · simp [hpid]
      · simp [hpid]
    · simp [hc]

theorem turns_zip {prevList l : List Proc} {c : ℕ} {s : List Slot}
    (h : turns prevList l c = some s) (hall : ∀ e ∈ l, e.pid ∈ prevList.map Proc.pid) :
    s = (l.zip (prevList.drop c)).map fun x => slotOf x.1 x.2 := by
  induction l generalizing c s with
  | nil => exact (Option.some.inj h).symm
  | cons x l ih =>
    obtain ⟨u, hu, h⟩ := Option.bind_eq_some_iff.mp h
    obtain ⟨v, hv, h⟩ := Option.bind_eq_some_iff.mp h
    obtain rfl := Option.some.inj h
    rw [turn, if_pos (hall x List.mem_cons_self)] at hu
    obtain ⟨r, hr, rfl⟩ := Option.map_eq_some_iff.mp hu
    obtain ⟨hlt, rfl⟩ := List.getElem?_eq_some_iff.mp hr
    rw [List.drop_eq_getElem_cons hlt, ih hv fun e he => hall e (List.mem_cons_of_mem _ he)]
    rfl

theorem lastUtil_turns_of_not_mem {curList prevList : List Proc} {t : List Slot} {pid : UInt64}
    (ht : turns prevList curList 0 = some t) (hm : pid ∉ prevList.map Proc.pid) :
    lastUtil fl t pid = none := by
  apply lastUtil_eq_none
  rintro s hs rfl
  have hpids := List.mem_map_of_mem (f := Slot.pid) hs
  rw [turns_pid ht, List.mem_filter] at hpids
  exact hm (by simpa using hpids.2)

/-- A list as `get_all_proc` delivers it: no percentage is there yet, and no process that
was read is there twice. -/
structure IsSample (l : List Proc) : Prop where
  fresh : ∀ e ∈ l, e.cpuUtil = 0
  distinct : l.Pairwise fun e e' => e.pid = e'.pid → e.pid = 0

/-- The stat files that can be read name different processes. -/
def ProcDir.Differ (d d' : ProcDir) : Prop :=
  ∀ (l l' : StatLine) (rest rest' : Text), d.stat = some (l.line ++ rest) →
    d'.stat = some (l'.line ++ rest') → l.pid ≠ l'.pid

theorem pairwise_of_forall₂ {α β : Type} {R : α → β → Prop} {S : α → α → Prop}
    {T : β → β → Prop} (hT : ∀ a a' b b', R a b → R a' b' → S a a' → T b b') {l : List α}
    {l' : List β} (h : List.Forall₂ R l l') (hl : l.Pairwise S) : l'.Pairwise T := by
  induction h with
  | nil => exact .nil
  | cons hab hrest ih =>
    rw [List.pairwise_cons] at hl ⊢
    refine ⟨fun b' hb' => ?_, ih hl.2⟩
    obtain ⟨a', ha', hab'⟩ := exists_of_forall₂ hrest hb'
    exact hT _ _ _ _ hab hab' (hl.1 a' ha')

theorem storeSinglePidInfo_pid {env : ProcEnv} {d : ProcDir} {e : Proc}
    (hd : d.vanished = true ∨ d.HasLine) (h : storeSinglePidInfo env d {} = some e) :
    e.pid = 0 ∨ ∃ (l : StatLine) (rest : Text), d.stat = some (l.line ++ rest) ∧ e.pid = l.pid := by
  obtain ⟨p, hp, he⟩ := storeSinglePidInfo_follows h
  rcases hd with hd | ⟨l, rest, hstat, hrest⟩
  · rw [readPidStat_vanished hd] at hp
    obtain rfl := Option.some.inj hp
    exact .inl he.pid
  · obtain ⟨q, hq, hpid, -⟩ := readPidStat_state l rest hrest
    rw [hstat, hq] at hp
    obtain rfl := Option.some.inj hp
    exact .inr ⟨l, rest, hstat, he.pid.trans hpid⟩

theorem getAllProc_isSample {env : ProcEnv} {dirs : List ProcDir} {l : List Proc}
    (hdirs : env.dirs = some dirs)
    (hstat : ∀ d ∈ dirs.filter ProcDir.isProc, d.vanished = true ∨ d.HasLine)
    (hdiffer : (dirs.filter ProcDir.isProc).Pairwise ProcDir.Differ)
    (h : getAllProc env = some l) : IsSample l := by
  refine ⟨getAllProc_fresh h, ?_⟩
  rw [getAllProc, hdirs] at h
  have hread := List.forall₂_iff_zip.mp (forall₂_of_mapM h)
  have hnodes : List.Forall₂ (fun d e => (d.vanished = true ∨ d.HasLine) ∧
      storeSinglePidInfo env d {} = some e) (dirs.filter ProcDir.isProc) l :=
    List.forall₂_iff_zip.mpr ⟨hread.1, fun {d e} hde =>
      ⟨hstat d (List.of_mem_zip hde).1, hread.2 hde⟩⟩
  refine pairwise_of_forall₂ (fun d d' e e' he he' hdd hpid => ?_) hnodes hdiffer
  rcases storeSinglePidInfo_pid he.1 he.2 with h0 | ⟨line, rest, hline, hl⟩
  · exact h0
  · rcases storeSinglePidInfo_pid he'.1 he'.2 with h0 | ⟨line', rest', hline', hl'⟩
    · exact hpid.trans h0
    · exact absurd (hl.symm.trans (hpid.trans hl')) (hdd line line' rest rest' hline hline')

namespace IsSample

variable {curList prevList out : List Proc} {c : ℕ} {e : Proc}

theorem eq_of_pid (h : IsSample curList) (he : curList[c]? = some e) (h0 : e.pid ≠ 0) {k : ℕ}
    {x : Proc} (hx : curList[k]? = some x) (hpid : x.pid = e.pid) : k = c := by
  obtain ⟨hc, rfl⟩ := List.getElem?_eq_some_iff.mp he
  obtain ⟨hk, rfl⟩ := List.getElem?_eq_some_iff.mp hx
  have hall := List.pairwise_iff_getElem.mp h.distinct
  rcases Nat.lt_trichotomy k c with hlt | heq | hlt
  · exact absurd (hpid ▸ hall k c hk hc hlt hpid) h0
  · exact heq
  · exact absurd (hall c k hc hk hlt hpid.symm) h0

theorem idxOf_pid (h : IsSample curList) (he : curList[c]? = some e) (h0 : e.pid ≠ 0) :
    (curList.map Proc.pid).idxOf e.pid = c := by
  have hmem : e.pid ∈ curList.map Proc.pid := List.mem_map_of_mem (List.mem_of_getElem? he)
  have hlt := List.idxOf_lt_length_of_mem hmem
  have hget := List.getElem_idxOf hlt
  rw [List.getElem_map] at hget
  rw [List.length_map] at hlt
  exact h.eq_of_pid he h0 (List.getElem?_eq_getElem hlt) hget

theorem lastUtil_turns (h : IsSample curList) {t : List Slot}
    (ht : turns prevList curList 0 = some t) (he : curList[c]? = some e) (h0 : e.pid ≠ 0)
    (hm : e.pid ∈ prevList.map Proc.pid) :
    ∃ r, prevList[c]? = some r ∧ lastUtil fl t e.pid = some ((slotOf e r).util fl) := by
  obtain ⟨r, hr, hslot⟩ := mem_turns ht he hm
  rw [Nat.zero_add] at hr
  refine ⟨r, hr, lastUtil_of_forall_eq hslot fun s hs hpid => ?_⟩
  obtain ⟨k, e', r', he', hr', rfl⟩ := turns_mem ht hs
  obtain rfl := h.eq_of_pid he h0 he' hpid
  rw [Nat.zero_add] at hr'
  rw [Option.some.inj (he'.symm.trans he), Option.some.inj (hr'.symm.trans hr)]

theorem getElem?_of_read (h : IsSample curList)
    (hout : computeProcCpuStatBy fl curList prevList = some out) (he : curList[c]? = some e)
    (h0 : e.pid ≠ 0) :
    (e.pid ∈ prevList.map Proc.pid → ∃ r, prevList[c]? = some r ∧
      out[c]? = some { e with cpuUtil := (slotOf e r).util fl }) ∧
    (e.pid ∉ prevList.map Proc.pid → out[c]? = some e) := by
  rw [computeProcCpuStatBy_eq] at hout
  obtain ⟨t, ht, rfl⟩ := Option.map_eq_some_iff.mp hout
  rw [foldl_setUtil_getElem? _ he, if_pos (h.idxOf_pid he h0),
    lastUtil_append_replicate_zero _ _ h0]
  constructor
  · intro hm
    obtain ⟨r, hr, hlast⟩ := h.lastUtil_turns ht he h0 hm
    exact ⟨r, hr, by rw [hlast]; rfl⟩
  · intro hm
    rw [lastUtil_turns_of_not_mem ht hm]
    rfl

end IsSample

theorem slotOf_util_binary64 {e r : Proc} (h : e.sysCpuTime ≠ r.sysCpuTime) :
    (slotOf e r).util binary64 = .fin (percent64 (e.cpuTime - r.cpuTime).toNat
      (e.sysCpuTime - r.sysCpuTime).toNat) :=
  Double.percentOf_binary64 _ (mt toNat_sub_eq_zero_iff.mp h)

theorem slotOf_util_of_still {e r : Proc} (h : e.sysCpuTime = r.sysCpuTime) (q : ℚ) :
    (slotOf e r).util binary64 ≠ .fin q := by
  rw [Slot.util, slotOf, h, UInt64.sub_self]
  exact Double.percentOf_binary64_zero _ q

theorem slotOf_util_eq_zero_iff (e r : Proc) :
    (slotOf e r).util binary64 = 0 ↔ e.sysCpuTime ≠ r.sysCpuTime ∧ e.cpuTime = r.cpuTime := by
  by_cases h : e.sysCpuTime = r.sysCpuTime
  · exact iff_of_false (slotOf_util_of_still h 0) fun h' => h'.1 h
  · rw [slotOf_util_binary64 h, show (0 : Double) = .fin 0 from rfl, Double.fin_inj,
      percent64_eq_zero_iff (mt toNat_sub_eq_zero_iff.mp h), toNat_sub_eq_zero_iff]
    exact (and_iff_right h).symm

theorem slotOf_util_percent_iff (e r : Proc) :
    Percent ((slotOf e r).util binary64) ↔ e.sysCpuTime ≠ r.sysCpuTime ∧
      AtMostWhole (e.cpuTime - r.cpuTime).toNat (e.sysCpuTime - r.sysCpuTime).toNat := by
  rw [Slot.util, slotOf, percentOf_percent_iff]
  exact and_congr_left' (not_congr toNat_sub_eq_zero_iff)

/-- In doubles the ticks of `e` since `r` have the same share as those since `q`. -/
def SameShare (e q r : Proc) : Prop :=
  percent64 (e.cpuTime - r.cpuTime).toNat (e.sysCpuTime - r.sysCpuTime).toNat =
    percent64 (e.cpuTime - q.cpuTime).toNat (e.sysCpuTime - q.sysCpuTime).toNat

theorem slotOf_util_same_iff {e q r : Proc} :
    (slotOf e r).util binary64 = .fin (percent64 (e.cpuTime - q.cpuTime).toNat
        (e.sysCpuTime - q.sysCpuTime).toNat) ↔
      e.sysCpuTime ≠ r.sysCpuTime ∧ SameShare e q r := by
  by_cases h : e.sysCpuTime = r.sysCpuTime
  · exact iff_of_false (slotOf_util_of_still h _) fun h' => h'.1 h
  · rw [slotOf_util_binary64 h, Double.fin_inj]
    exact (and_iff_right h).symm

/-- Where a process could not be read, all processes of the sample have their slots, and the
last slot of one that could not be read holds a zero. -/
def UnreadAgree (curList prevList : List Proc) : Prop :=
  0 ∈ curList.map Proc.pid → curList.length ≤ prevList.length ∧
    (∀ e ∈ curList, e.pid ∈ prevList.map Proc.pid) ∧
    ∃ x, ((curList.zip prevList).filter fun x => x.1.pid == 0).getLast? = some x ∧
      x.1.sysCpuTime ≠ x.2.sysCpuTime ∧ x.1.cpuTime = x.2.cpuTime

theorem length_le_of_turns {curList prevList : List Proc} {t : List Slot}
    (ht : turns prevList curList 0 = some t)
    (hall : ∀ e ∈ curList, e.pid ∈ prevList.map Proc.pid) : curList.length ≤ prevList.length := by
  have hinside := (turns_inside_iff curList prevList).mp (Option.isSome_of_eq_some ht)
  by_contra hlt
  have hc : prevList.length < curList.length := Nat.lt_of_not_le hlt
  have h := hinside prevList.length _ (List.getElem?_eq_getElem hc) (hall _ (List.getElem_mem hc))
  exact Nat.lt_irrefl _ h

theorem exists_last_unread {curList prevList : List Proc}
    (hle : curList.length ≤ prevList.length) (h0 : 0 ∈ curList.map Proc.pid) :
    ∃ x, ((curList.zip prevList).filter fun x => x.1.pid == 0).getLast? = some x := by
  obtain ⟨e, he, hpid⟩ := List.mem_map.mp h0
  obtain ⟨c, hc, rfl⟩ := List.getElem_of_mem he
  have hmem : (curList[c], prevList[c]) ∈ curList.zip prevList := by
    rw [← List.getElem_zip (h := by rw [List.length_zip]; omega)]
    exact List.getElem_mem _
  have hne := List.ne_nil_of_mem (List.mem_filter.mpr ⟨hmem, (by simpa using hpid)⟩ :
    _ ∈ (curList.zip prevList).filter fun x => x.1.pid == 0)
  exact ⟨_, List.getLast?_eq_some_getLast hne⟩

theorem lastUtil_of_zip {curList prevList : List Proc} {t : List Slot} {pid : UInt64}
    (ht : turns prevList curList 0 = some t) (hall : ∀ e ∈ curList, e.pid ∈ prevList.map Proc.pid) :
    lastUtil fl t pid = ((curList.zip prevList).filter fun x => x.1.pid == pid).getLast?.map
      fun x => (slotOf x.1 x.2).util fl := by
  rw [lastUtil, turns_zip ht hall, List.drop_zero, List.filter_map, List.getLast?_map,
    Option.map_map]
  rfl

theorem unreadUtil_iff {curList prevList : List Proc} {slots : List Slot}
    (hslots : slotsOf curList prevList = some slots) (h0 : 0 ∈ curList.map Proc.pid) :
    (lastUtil binary64 slots 0).getD 0 = 0 ↔ UnreadAgree curList prevList := by
  by_cases hall : ∀ e ∈ curList, e.pid ∈ prevList.map Proc.pid
  · obtain ⟨t, ht, -⟩ := Option.map_eq_some_iff.mp hslots
    obtain rfl := Option.some.inj ((slotsOf_full ht hall).symm.trans hslots)
    have hle := length_le_of_turns ht hall
    obtain ⟨x, hx⟩ := exists_last_unread hle h0
    rw [lastUtil_of_zip ht hall, hx, Option.map_some, Option.getD_some, slotOf_util_eq_zero_iff]
    constructor
    · exact fun h _ => ⟨hle, hall, x, hx, h⟩
    · intro h
      obtain ⟨-, -, y, hy, hzero⟩ := h h0
      obtain rfl := Option.some.inj (hx.symm.trans hy)
      exact hzero
  · simp only [not_forall] at hall
    obtain ⟨e, he, hm⟩ := hall
    obtain ⟨init, rfl⟩ := slotsOf_unused hslots he hm
    refine iff_of_false ?_ fun h => hm ((h h0).2.1 e he)
    rw [lastUtil_concat, if_pos (show (0 : UInt64) = Slot.zero.pid from rfl),
      Slot.zero_util binary64_zero]
    exact Double.noConfusion

theorem IsSample.unread_iff {curList prevList out : List Proc} (h : IsSample curList)
    (hout : computeProcCpuStatBy binary64 curList prevList = some out) :
    (∀ (c : ℕ) (e e' : Proc), curList[c]? = some e → out[c]? = some e' → e.pid = 0 →
      e'.cpuUtil = 0) ↔ UnreadAgree curList prevList := by
  by_cases h0 : 0 ∈ curList.map Proc.pid
  · rw [computeProcCpuStatBy_slots] at hout
    obtain ⟨slots, hslots, rfl⟩ := Option.map_eq_some_iff.mp hout
    rw [← unreadUtil_iff hslots h0]
    constructor
    · intro hall
      -- the first of them is the one that is written to
      have hlt := List.idxOf_lt_length_of_mem h0
      have hpid := List.getElem_idxOf hlt
      rw [List.getElem_map] at hpid
      rw [List.length_map] at hlt
      have he := List.getElem?_eq_getElem hlt
      have hget := @foldl_setUtil_getElem? binary64 slots _ _ _ he
      rw [hpid, if_pos rfl, h.fresh _ (List.getElem_mem hlt)] at hget
      exact hall _ _ _ he hget hpid
    · intro hzero c e e' he he' hpid
      have hfresh := h.fresh e (List.mem_of_getElem? he)
      rw [foldl_setUtil_getElem? slots he] at he'
      obtain rfl := Option.some.inj he'
      split
      · rw [hpid, hfresh]
        exact hzero
      · exact hfresh
  · refine iff_of_true ?_ fun h => absurd h h0
    intro c e e' he _ hpid
    exact absurd (List.mem_map.mpr ⟨e, List.mem_of_getElem? he, hpid⟩) h0

def SameProcess (e q : Proc) : Prop :=
  e.pid ≠ 0 ∧ q.pid = e.pid ∧ q.startTime = e.startTime

instance (e q : Proc) : Decidable (SameProcess e q) := inferInstanceAs (Decidable (_ ∧ _ ∧ _))

/-- No process that is in both samples has had more ticks than have passed. -/
def TicksWithin (curList prevList : List Proc) : Prop :=
  ∀ e ∈ curList, ∀ q ∈ prevList, SameProcess e q →
    (e.cpuTime - q.cpuTime).toNat ≤ (e.sysCpuTime - q.sysCpuTime).toNat

/-- The percentages in `out` come from two observations of one process each. -/
structure OwnObservations (curList prevList out : List Proc) : Prop where
  length : out.length = curList.length
  survived : ∀ (c : ℕ) (e e' q : Proc), curList[c]? = some e → out[c]? = some e' →
    q ∈ prevList → SameProcess e q → e.sysCpuTime ≠ q.sysCpuTime →
    e'.cpuUtil = .fin (percent64 (e.cpuTime - q.cpuTime).toNat
      (e.sysCpuTime - q.sysCpuTime).toNat)
  new : ∀ (c : ℕ) (e e' : Proc), curList[c]? = some e → out[c]? = some e' →
    (∀ q ∈ prevList, ¬SameProcess e q) → e'.cpuUtil = e.cpuUtil
  range : TicksWithin curList prevList → ∀ e' ∈ out, Percent e'.cpuUtil

/-- The entries at the positions of the current processes serve as their own ones would. -/
structure ObservationsAgree (curList prevList : List Proc) : Prop where
  /-- For a process of both samples it gives the same share, and one that is not more than the
  whole where the processes have had no more ticks than have passed. -/
  survived : ∀ (c : ℕ) (e q : Proc), curList[c]? = some e → q ∈ prevList → SameProcess e q →
    ∃ r, prevList[c]? = some r ∧
      (e.sysCpuTime ≠ q.sysCpuTime → e.sysCpuTime ≠ r.sysCpuTime ∧ SameShare e q r) ∧
      (TicksWithin curList prevList → e.sysCpuTime ≠ r.sysCpuTime ∧
        AtMostWhole (e.cpuTime - r.cpuTime).toNat (e.sysCpuTime - r.sysCpuTime).toNat)
  /-- For a process with the pid of another one it gives zero. -/
  recycled : ∀ (c : ℕ) (e : Proc), curList[c]? = some e → e.pid ≠ 0 →
    e.pid ∈ prevList.map Proc.pid → (∀ q ∈ prevList, ¬SameProcess e q) →
    ∃ r, prevList[c]? = some r ∧ e.sysCpuTime ≠ r.sysCpuTime ∧ e.cpuTime = r.cpuTime
  unread : UnreadAgree curList prevList

section Observations

variable {curList prevList out : List Proc}

theorem ObservationsAgree.inside (h : ObservationsAgree curList prevList) :
    InsidePrev curList prevList := by
  intro c e he hm
  have hlt {r : Proc} (hr : prevList[c]? = some r) : c < prevList.length :=
    (List.getElem?_eq_some_iff.mp hr).1
  by_cases h0 : e.pid = 0
  · have hmem : 0 ∈ curList.map Proc.pid := h0 ▸ List.mem_map_of_mem (List.mem_of_getElem? he)
    exact (List.getElem?_eq_some_iff.mp he).1.trans_le (h.unread hmem).1
  · by_cases hsame : ∃ q ∈ prevList, SameProcess e q
    · obtain ⟨q, hq, hsame⟩ := hsame
      obtain ⟨r, hr, -⟩ := h.survived c e q he hq hsame
      exact hlt hr
    · obtain ⟨r, hr, -⟩ := h.recycled c e he h0 hm fun q hq hs => hsame ⟨q, hq, hs⟩
      exact hlt hr

theorem computeProcCpuStatBy_length
    (hout : computeProcCpuStatBy fl curList prevList = some out) :
    out.length = curList.length := by
  rw [computeProcCpuStatBy_slots] at hout
  obtain ⟨slots, -, rfl⟩ := Option.map_eq_some_iff.mp hout
  have hpid := congrArg List.length (@foldl_setUtil_pid fl slots curList)
  rwa [List.length_map, List.length_map] at hpid

theorem SameProcess.pid_mem {e q : Proc} (h : SameProcess e q) (hq : q ∈ prevList) :
    e.pid ∈ prevList.map Proc.pid := h.2.1 ▸ List.mem_map_of_mem hq

theorem OwnObservations.agree (h : IsSample curList)
    (hout : computeProcCpuStatBy binary64 curList prevList = some out)
    (hobs : OwnObservations curList prevList out) : ObservationsAgree curList prevList := by
  constructor
  · intro c e q he hq hsame
    obtain ⟨r, hr, hget⟩ := (h.getElem?_of_read hout he hsame.1).1 (hsame.pid_mem hq)
    refine ⟨r, hr, fun hsys => ?_, fun hticks => ?_⟩
    · exact slotOf_util_same_iff.mp (hobs.survived c e _ q he hget hq hsame hsys)
    · exact (slotOf_util_percent_iff e r).mp (hobs.range hticks _ (List.mem_of_getElem? hget))
  · intro c e he h0 hm hno
    obtain ⟨r, hr, hget⟩ := (h.getElem?_of_read hout he h0).1 hm
    have hzero := hobs.new c e _ he hget hno
    rw [h.fresh e (List.mem_of_getElem? he)] at hzero
    exact ⟨r, hr, (slotOf_util_eq_zero_iff e r).mp hzero⟩
  · rw [← h.unread_iff hout]
    intro c e e' he he' hpid
    rw [hobs.new c e e' he he' fun q _ hsame => hsame.1 hpid]
    exact h.fresh e (List.mem_of_getElem? he)

theorem ObservationsAgree.new (h : IsSample curList)
    (hout : computeProcCpuStatBy binary64 curList prevList = some out)
    (hagree : ObservationsAgree curList prevList) {c : ℕ} {e e' : Proc} (he : curList[c]? = some e)
    (he' : out[c]? = some e') (hno : ∀ q ∈ prevList, ¬SameProcess e q) : e'.cpuUtil = 0 := by
  by_cases h0 : e.pid = 0
  · exact (h.unread_iff hout).mpr hagree.unread c e e' he he' h0
  · by_cases hm : e.pid ∈ prevList.map Proc.pid
    · obtain ⟨r, hr, hzero⟩ := hagree.recycled c e he h0 hm hno
      obtain ⟨r', hr', hget⟩ := (h.getElem?_of_read hout he h0).1 hm
      obtain rfl := Option.some.inj (hr.symm.trans hr')
      obtain rfl := Option.some.inj (he'.symm.trans hget)
      exact (slotOf_util_eq_zero_iff e r).mpr hzero
    · have hget := (h.getElem?_of_read hout he h0).2 hm
      obtain rfl := Option.some.inj (he'.symm.trans hget)
      exact h.fresh e' (List.mem_of_getElem? he)

theorem ObservationsAgree.pos (h : IsSample curList)
    (hout : computeProcCpuStatBy binary64 curList prevList = some out)
    (hagree : ObservationsAgree curList prevList) {c : ℕ} {e e' q : Proc}
    (he : curList[c]? = some e) (he' : out[c]? = some e') (hq : q ∈ prevList)
    (hsame : SameProcess e q) :
    (e.sysCpuTime ≠ q.sysCpuTime → e'.cpuUtil = .fin (percent64 (e.cpuTime - q.cpuTime).toNat
      (e.sysCpuTime - q.sysCpuTime).toNat)) ∧
    (TicksWithin curList prevList → Percent e'.cpuUtil) := by
  obtain ⟨r, hr, hget⟩ := (h.getElem?_of_read hout he hsame.1).1 (hsame.pid_mem hq)
  obtain rfl := Option.some.inj (he'.symm.trans hget)
  obtain ⟨r', hr', hshare, hrange⟩ := hagree.survived c e q he hq hsame
  obtain rfl := Option.some.inj (hr.symm.trans hr')
  exact ⟨fun hsys => slotOf_util_same_iff.mpr (hshare hsys),
    fun hticks => (slotOf_util_percent_iff e r).mpr (hrange hticks)⟩

theorem ObservationsAgree.own (h : IsSample curList)
    (hout : computeProcCpuStatBy binary64 curList prevList = some out)
    (hagree : ObservationsAgree curList prevList) : OwnObservations curList prevList out := by
  have hlen := computeProcCpuStatBy_length hout
  refine ⟨hlen, ?_, ?_, ?_⟩
  · intro c e e' q he he' hq hsame hsys
    exact (hagree.pos h hout he he' hq hsame).1 hsys
  · intro c e e' he he' hno
    rw [hagree.new h hout he he' hno, h.fresh e (List.mem_of_getElem? he)]
  · intro hticks e' hmem
    obtain ⟨c, hc, rfl⟩ := List.getElem_of_mem hmem
    have he' := List.getElem?_eq_getElem hc
    have he := List.getElem?_eq_getElem (hlen ▸ hc)
    by_cases hsame : ∃ q ∈ prevList, SameProcess curList[c] q
    · obtain ⟨q, hq, hsame⟩ := hsame
      exact (hagree.pos h hout he he' hq hsame).2 hticks
    · rw [hagree.new h hout he he' fun q hq hs => hsame ⟨q, hq, hs⟩]
      exact percent_zero

end Observations

/-- Between numbers that are not too large the same share is the same fraction, and not more than
the whole is not more. -/
theorem sameShare_iff {e q r : Proc} (hq : e.sysCpuTime ≠ q.sysCpuTime)
    (hr : e.sysCpuTime ≠ r.sysCpuTime)
    (hsmall : ∀ p ∈ [q, r], (e.cpuTime - p.cpuTime).toNat < 2 ^ 26 ∧
      (e.sysCpuTime - p.sysCpuTime).toNat < 2 ^ 26) :
    SameShare e q r ↔
      (e.cpuTime - r.cpuTime).toNat * (e.sysCpuTime - q.sysCpuTime).toNat =
        (e.cpuTime - q.cpuTime).toNat * (e.sysCpuTime - r.sysCpuTime).toNat := by
  simp only [List.forall_mem_cons, List.not_mem_nil, false_imp_iff, implies_true, and_true]
    at hsmall
  obtain ⟨⟨h1, h2⟩, h3, h4⟩ := hsmall
  exact percent64_eq_iff h3 h1 h2 h4 (mt toNat_sub_eq_zero_iff.mp hq)
    (mt toNat_sub_eq_zero_iff.mp hr)

/-- Every percentage comes from two observations of one process exactly when the entries at
the positions, which are the ones subtracted, give what the own ones would. Where the times are
not too far apart that is a condition on fractions. -/
theorem computeProcCpuStat_observations_iff (curList prevList : List Proc)
    (h : IsSample curList) :
    ((∃ out, computeProcCpuStatBy binary64 curList prevList = some out ∧
      OwnObservations curList prevList out) ↔ ObservationsAgree curList prevList) ∧
    (∀ e q r : Proc, e.sysCpuTime ≠ q.sysCpuTime → e.sysCpuTime ≠ r.sysCpuTime →
      (∀ p ∈ [q, r], (e.cpuTime - p.cpuTime).toNat < 2 ^ 26 ∧
        (e.sysCpuTime - p.sysCpuTime).toNat < 2 ^ 26) →
      (SameShare e q r ↔
        (e.cpuTime - r.cpuTime).toNat * (e.sysCpuTime - q.sysCpuTime).toNat =
          (e.cpuTime - q.cpuTime).toNat * (e.sysCpuTime - r.sysCpuTime).toNat)) ∧
    ∀ a n : ℕ, n < 2 ^ 46 → (AtMostWhole a n ↔ a ≤ n) := by
  refine ⟨⟨?_, fun hagree => ?_⟩, fun e q r => sameShare_iff, fun a n => atMostWhole_iff⟩
  · rintro ⟨out, hout, hobs⟩
    exact hobs.agree h hout
  · obtain ⟨out, hout⟩ := hagree.inside.exists_outBy binary64
    exact ⟨out, hout, hagree.own h hout⟩

/-- A process and a new one that was given its pid. -/
def recycledPrev : List Proc := [{ pid := 7, startTime := 10, cpuTime := 50, sysCpuTime := 100 }]

def recycledProc : Proc := { pid := 7, startTime := 90, cpuTime := 1, sysCpuTime := 200 }

def recycledCur : List Proc := [recycledProc]

theorem isSample_recycledCur : IsSample recycledCur :=
  ⟨by decide, List.pairwise_singleton _ _⟩

theorem computeProcCpuStat_observations_recycled :
    (∃ out, computeProcCpuStatBy binary64 recycledCur recycledPrev = some out ∧
      OwnObservations recycledCur recycledPrev out) ↔
    ObservationsAgree recycledCur recycledPrev :=
  (computeProcCpuStat_observations_iff recycledCur recycledPrev isSample_recycledCur).1

/-- The difference to the ticks of the process before wraps. -/
theorem computeProcCpuStat_recycled :
    IsSample recycledCur ∧ TicksWithin recycledCur recycledPrev ∧
    computeProcCpuStatBy binary64 recycledCur recycledPrev =
      some [{ recycledProc with cpuUtil := .fin 18446744073709551616 }] ∧
    ¬∃ out, computeProcCpuStatBy binary64 recycledCur recycledPrev = some out ∧
      OwnObservations recycledCur recycledPrev out := by
  have hcomp : computeProcCpuStatBy binary64 recycledCur recycledPrev =
      some [{ recycledProc with cpuUtil := .fin 18446744073709551616 }] := by decide +kernel
  refine ⟨isSample_recycledCur, by unfold TicksWithin; decide, hcomp, ?_⟩
  rintro ⟨out, hout, hobs⟩
  rw [hcomp] at hout
  obtain rfl := Option.some.inj hout
  have hnew := hobs.new 0 _ _ rfl rfl (by decide)
  revert hnew
  decide +kernel

end Zsr
