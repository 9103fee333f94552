import Zsr.ProcTable
import Mathlib.Data.List.Nodup
import Mathlib.Tactic.Linarith

namespace Zsr
open CLib

structure ProcCpuStatArray where
  pid : List UInt64
  sysCpuTime : List UInt64
  cpuTime : List UInt64

/-- The arrays that `calloc` allocates for `n` processes. -/
def ProcCpuStatArray.calloc (n : ℕ) : ProcCpuStatArray :=
  ⟨List.replicate n 0, List.replicate n 0, List.replicate n 0⟩

def ProcCpuStatArray.ofList (l : List Proc) : ProcCpuStatArray :=
  ⟨l.map Proc.pid, l.map Proc.sysCpuTime, l.map Proc.cpuTime⟩

/-- A write to an array; `none` is one outside it. -/
def storeAt (a : List UInt64) (i : ℕ) (v : UInt64) : Option (List UInt64) :=
  if i < a.length then some (a.set i v) else none

/-- The loop over the positions `p`, for the current process at position `c`; the state
is the compacted array with the number `i` of its entries. -/
def matchProc (cur prev : ProcCpuStatArray) (c : ℕ) :
    List ℕ → ProcCpuStatArray × ℕ → Option (ProcCpuStatArray × ℕ)
  | [], st => some st
  | p :: ps, (cs, i) => do
    let curPid ← cur.pid[c]?
    let prevPid ← prev.pid[p]?
    if curPid = prevPid then
      let pid ← storeAt cs.pid i curPid
      let cpuTime ← storeAt cs.cpuTime i ((← cur.cpuTime[c]?) - (← prev.cpuTime[c]?))
      let sysCpuTime ← storeAt cs.sysCpuTime i ((← cur.sysCpuTime[c]?) - (← prev.sysCpuTime[c]?))
      some (⟨pid, sysCpuTime, cpuTime⟩, i + 1)
    else matchProc cur prev c ps (cs, i)

/-- The write-back of entry `i` to the first process with its pid, each operation on doubles
rounded by `fl`. -/
def writeBack (fl : ℚ → ℚ) (cs : ProcCpuStatArray) (i : ℕ) : List Proc → Option (List Proc)
  | [] => some []
  | entry :: l => do
    let pid ← cs.pid[i]?
    if entry.pid = pid then
      let cpuTime ← cs.cpuTime[i]?
      let sysCpuTime ← cs.sysCpuTime[i]?
      some ({ entry with cpuUtil := Double.percentOf fl cpuTime sysCpuTime } :: l)
    else
      let l ← writeBack fl cs i l
      some (entry :: l)

/-- `compute_proc_cpu_stat`: the current list afterwards. -/
def computeProcCpuStatBy (fl : ℚ → ℚ) (curList prevList : List Proc) : Option (List Proc) := do
  let curNumProc := curList.length
  let prevNumProc := prevList.length
  let cur := ProcCpuStatArray.ofList curList
  let prev := ProcCpuStatArray.ofList prevList
  let (cs, _) ← (List.range curNumProc).foldlM
    (fun st c => matchProc cur prev c (List.range prevNumProc) st)
    (ProcCpuStatArray.calloc curNumProc, 0)
  (List.range curNumProc).foldlM (fun l i => writeBack fl cs i l) curList

def computeProcCpuStat (curList prevList : List Proc) : Option (List Proc) :=
  computeProcCpuStatBy id curList prevList

structure Slot where
  pid : UInt64
  sysCpuTime : UInt64
  cpuTime : UInt64

def Slot.zero : Slot := ⟨0, 0, 0⟩

def Slot.util (s : Slot) (fl : ℚ → ℚ) : Double := Double.percentOf fl s.cpuTime s.sysCpuTime

def ProcCpuStatArray.ofSlots (slots : List Slot) : ProcCpuStatArray :=
  ⟨slots.map Slot.pid, slots.map Slot.sysCpuTime, slots.map Slot.cpuTime⟩

/-- The differences as the code takes them: `e` against the previous entry at the same
position. -/
def slotOf (e r : Proc) : Slot := ⟨e.pid, e.sysCpuTime - r.sysCpuTime, e.cpuTime - r.cpuTime⟩

/-- What the turn for position `c` adds: nothing, one entry, or an access outside the
previous arrays. -/
def turn (prevList : List Proc) (e : Proc) (c : ℕ) : Option (List Slot) :=
  if e.pid ∈ prevList.map Proc.pid then (prevList[c]?).map fun r => [slotOf e r] else some []

theorem storeAt_length (f : Slot → UInt64) (done rest : List Slot) (s : Slot) (v : UInt64) :
    storeAt ((done ++ s :: rest).map f) done.length v = some (done.map f ++ v :: rest.map f) := by
  simp [storeAt]

theorem matchProc_cons {curList prevList : List Proc} {c p : ℕ} {e q : Proc}
    (he : curList[c]? = some e) (hq : prevList[p]? = some q) (ps : List ℕ) (done rest : List Slot)
    (s : Slot) :
    matchProc (.ofList curList) (.ofList prevList) c (p :: ps)
        (.ofSlots (done ++ s :: rest), done.length) =
      if e.pid = q.pid then
        (prevList[c]?).map fun r => (.ofSlots (done ++ slotOf e r :: rest), done.length + 1)
      else matchProc (.ofList curList) (.ofList prevList) c ps
        (.ofSlots (done ++ s :: rest), done.length) := by
  have hcur : (ProcCpuStatArray.ofList curList).pid[c]? = some e.pid ∧
      (ProcCpuStatArray.ofList curList).cpuTime[c]? = some e.cpuTime ∧
      (ProcCpuStatArray.ofList curList).sysCpuTime[c]? = some e.sysCpuTime := by
    simp [ProcCpuStatArray.ofList, he]
  have hprev : (ProcCpuStatArray.ofList prevList).pid[p]? = some q.pid := by
    simp [ProcCpuStatArray.ofList, hq]
  rw [matchProc, hcur.1, hprev]
  simp only [Option.bind_eq_bind, Option.bind_some]
  by_cases hpid : e.pid = q.pid
  · rw [if_pos hpid, if_pos hpid, hcur.2.1, hcur.2.2]
    cases hr : prevList[c]? with
    | none => simp [ProcCpuStatArray.ofList, ProcCpuStatArray.ofSlots, hr]
    | some r =>
      simp only [ProcCpuStatArray.ofList, ProcCpuStatArray.ofSlots, List.getElem?_map, hr,
        Option.map_some, Option.bind_some, storeAt_length]
      simp [slotOf]
  · rw [if_neg hpid, if_neg hpid]

theorem matchProc_eq (curList prevList : List Proc) {c : ℕ} {e : Proc} (he : curList[c]? = some e)
    (ps : List ℕ) (hps : ∀ p ∈ ps, p < prevList.length) (done rest : List Slot)
    (hrest : rest ≠ []) :
    matchProc (.ofList curList) (.ofList prevList) c ps (.ofSlots (done ++ rest), done.length) =
      if e.pid ∈ ps.map fun p => (prevList.getD p default).pid then
        (prevList[c]?).map fun r =>
          (.ofSlots (done ++ slotOf e r :: rest.tail), done.length + 1)
      else some (.ofSlots (done ++ rest), done.length) := by
  obtain ⟨s, rest, rfl⟩ := List.exists_cons_of_ne_nil hrest
  induction ps with
  | nil => simp [matchProc]
  | cons p ps ih =>
    obtain ⟨q, hq⟩ : ∃ q, prevList[p]? = some q :=
      ⟨_, List.getElem?_eq_getElem (hps p List.mem_cons_self)⟩
    have hqd : prevList.getD p default = q := by rw [List.getD_eq_getElem?_getD, hq]; rfl
    rw [matchProc_cons he hq, ih fun p hp => hps p (List.mem_cons_of_mem _ hp)]
    simp only [List.map_cons, List.mem_cons, hqd, List.tail_cons]
    by_cases hpid : e.pid = q.pid
    · rw [if_pos hpid, if_pos (Or.inl hpid)]
    · rw [if_neg hpid]
      simp only [hpid, false_or]

theorem mem_range_pid (prevList : List Proc) (x : UInt64) :
    x ∈ (List.range prevList.length).map (fun p => (prevList.getD p default).pid) ↔
      x ∈ prevList.map Proc.pid := by
  have h : (List.range prevList.length).map (fun p => (prevList.getD p default).pid) =
      prevList.map Proc.pid := by
    apply List.ext_getElem (by simp)
    intro i hi hi'
    simp at hi
    simp [hi]
  rw [h]

/-- The entries that the turns for the positions from `c` on add. -/
def turns (prevList : List Proc) : List Proc → ℕ → Option (List Slot)
  | [], _ => some []
  | e :: l, c => do
    let s ← turn prevList e c
    let r ← turns prevList l (c + 1)
    some (s ++ r)

theorem turn_length_le {prevList : List Proc} {e : Proc} {c : ℕ} {s : List Slot}
    (h : turn prevList e c = some s) : s.length ≤ 1 := by
  unfold turn at h
  split at h
  · obtain ⟨r, -, rfl⟩ := Option.map_eq_some_iff.mp h
    exact le_rfl
  · rw [← Option.some.inj h]
    exact Nat.zero_le 1

theorem turns_length_le {prevList l : List Proc} {c : ℕ} {s : List Slot}
    (h : turns prevList l c = some s) : s.length ≤ l.length := by
  induction l generalizing c s with
  | nil =>
    rw [← Option.some.inj h]
    exact le_rfl
  | cons e l ih =>
    obtain ⟨t, ht, h⟩ := Option.bind_eq_some_iff.mp h
    obtain ⟨r, hr, h⟩ := Option.bind_eq_some_iff.mp h
    have := turn_length_le ht
    have := ih hr
    rw [← Option.some.inj h, List.length_append, List.length_cons]
    omega

theorem matchProc_turn (curList prevList : List Proc) {c : ℕ} {e : Proc}
    (he : curList[c]? = some e) (done : List Slot) {n : ℕ} (hn : 0 < n) :
    matchProc (.ofList curList) (.ofList prevList) c (List.range prevList.length)
        (.ofSlots (done ++ List.replicate n .zero), done.length) =
      (turn prevList e c).map fun s =>
        (.ofSlots (done ++ s ++ List.replicate (n - s.length) .zero), (done ++ s).length) := by
  have hne : List.replicate n Slot.zero ≠ [] := by simp; omega
  rw [matchProc_eq curList prevList he _ (fun p hp => List.mem_range.mp hp) done _ hne]
  simp only [mem_range_pid, turn]
  split
  · cases prevList[c]? with
    | none => rfl
    | some r => simp
  · simp

theorem matchProc_turns (curList prevList : List Proc) (l : List Proc) (c : ℕ)
    (hl : curList.drop c = l) (done : List Slot) (n : ℕ) (hn : l.length ≤ n) :
    (List.range' c l.length).foldlM
        (fun st c => matchProc (.ofList curList) (.ofList prevList) c
          (List.range prevList.length) st)
        (ProcCpuStatArray.ofSlots (done ++ List.replicate n .zero), done.length) =
      (turns prevList l c).map fun s =>
        (.ofSlots (done ++ s ++ List.replicate (n - s.length) .zero), (done ++ s).length) := by
  induction l generalizing c done n with
  | nil => simp [turns]
  | cons e l ih =>
    have he : curList[c]? = some e := by
      rw [← List.head?_drop, hl]
      rfl
    have hdrop : curList.drop (c + 1) = l := by
      rw [← List.tail_drop, hl]
      rfl
    simp only [List.length_cons] at hn
    rw [List.length_cons, List.range'_succ, List.foldlM_cons,
      matchProc_turn curList prevList he done (by omega), turns]
    cases hs : turn prevList e c with
    | none => rfl
    | some s =>
      -- a turn fills one slot at most, so the zeros last for the turns behind it
      have hlen := turn_length_le hs
      simp only [Option.map_some, Option.bind_eq_bind, Option.bind_some]
      rw [ih (c + 1) hdrop (done ++ s) (n - s.length) (by omega)]
      cases turns prevList l (c + 1) with
      | none => rfl
      | some r => simp [Nat.sub_sub]

/-- The first process with the pid of the entry gets its percentage. -/
def setUtil (fl : ℚ → ℚ) (s : Slot) : List Proc → List Proc
  | [] => []
  | e :: l => if e.pid = s.pid then { e with cpuUtil := s.util fl } :: l else e :: setUtil fl s l

section WriteBack

variable {fl : ℚ → ℚ}

theorem foldl_setUtil_forall₂ {δ : Type} {R : δ → Proc → Prop} {slots : List Slot}
    (hR : ∀ s ∈ slots, ∀ d e, e.pid = s.pid → R d e → R d { e with cpuUtil := s.util fl })
    {ds : List δ} {l : List Proc} (h : List.Forall₂ R ds l) :
    List.Forall₂ R ds (slots.foldl (fun l s => setUtil fl s l) l) := by
  induction slots generalizing l with
  | nil => exact h
  | cons s slots ih =>
    have hset : List.Forall₂ R ds (setUtil fl s l) := by
      clear ih
      induction h with
      | nil => exact .nil
      | cons he hl ih =>
        unfold setUtil
        split
        · next hpid => exact .cons (hR s List.mem_cons_self _ _ hpid he) hl
        · exact .cons he ih
    exact ih (fun s hs => hR s (List.mem_cons_of_mem _ hs)) hset

theorem setUtil_pid (s : Slot) (l : List Proc) :
    (setUtil fl s l).map Proc.pid = l.map Proc.pid := by
  induction l with
  | nil => rfl
  | cons e l ih =>
    unfold setUtil
    split
    · rfl
    · rw [List.map_cons, List.map_cons, ih]

theorem foldl_setUtil_pid (slots : List Slot) (l : List Proc) :
    (slots.foldl (fun l s => setUtil fl s l) l).map Proc.pid = l.map Proc.pid := by
  induction slots generalizing l with
  | nil => rfl
  | cons s slots ih => rw [List.foldl_cons, ih, setUtil_pid]

theorem writeBack_eq (slots : List Slot) {i : ℕ} {s : Slot} (hs : slots[i]? = some s)
    (l : List Proc) : writeBack fl (.ofSlots slots) i l = some (setUtil fl s l) := by
  have hi : (ProcCpuStatArray.ofSlots slots).pid[i]? = some s.pid ∧
      (ProcCpuStatArray.ofSlots slots).cpuTime[i]? = some s.cpuTime ∧
      (ProcCpuStatArray.ofSlots slots).sysCpuTime[i]? = some s.sysCpuTime := by
    simp [ProcCpuStatArray.ofSlots, hs]
  induction l with
  | nil => rfl
  | cons e l ih =>
    simp only [writeBack, setUtil, hi, ih, Option.bind_eq_bind, Option.bind_some]
    split <;> rfl

theorem writeBack_range (slots : List Slot) (l : List Proc) :
    (List.range slots.length).foldlM (fun l i => writeBack fl (.ofSlots slots) i l) l =
      some (slots.foldl (fun l s => setUtil fl s l) l) := by
  -- the entries in `done` have been written back
  have h (done rest : List Slot) (hd : done ++ rest = slots) (l : List Proc) :
      (List.range' done.length rest.length).foldlM
          (fun l i => writeBack fl (.ofSlots slots) i l) l =
        some (rest.foldl (fun l s => setUtil fl s l) l) := by
    induction rest generalizing done l with
    | nil => rfl
    | cons s rest ih =>
      have hs : slots[done.length]? = some s := by rw [← hd]; simp
      rw [List.length_cons, List.range'_succ, List.foldlM_cons, writeBack_eq slots hs,
        List.foldl_cons]
      simpa using ih (done ++ [s]) (by simpa using hd) (setUtil fl s l)
  rw [List.range_eq_range']
  exact h [] slots rfl l

theorem computeProcCpuStatBy_eq (fl : ℚ → ℚ) (curList prevList : List Proc) :
    computeProcCpuStatBy fl curList prevList = (turns prevList curList 0).map fun s =>
      (s ++ List.replicate (curList.length - s.length) .zero).foldl (fun l s => setUtil fl s l)
        curList := by
  have hcalloc : ProcCpuStatArray.calloc curList.length =
      .ofSlots ([] ++ List.replicate curList.length .zero) := by
    simp [ProcCpuStatArray.calloc, ProcCpuStatArray.ofSlots, Slot.zero]
  have hturns := matchProc_turns curList prevList curList 0 rfl [] curList.length le_rfl
  rw [computeProcCpuStatBy]
  simp only [hcalloc, List.range_eq_range', Option.bind_eq_bind]
  simp only [List.range_eq_range', List.length_nil] at hturns
  rw [hturns]
  cases hs : turns prevList curList 0 with
  | none => rfl
  | some s =>
    have hlen : curList.length = (s ++ List.replicate (curList.length - s.length)
        Slot.zero).length := by
      have := turns_length_le hs
      simp
      omega
    have hback := @writeBack_range fl
      (s ++ List.replicate (curList.length - s.length) .zero) curList
    rw [← hlen, List.range_eq_range'] at hback
    simpa only [Option.map_some, Option.bind_some, List.nil_append] using hback

end WriteBack

theorem computeProcCpuStat_eq (curList prevList : List Proc) :
    computeProcCpuStat curList prevList = (turns prevList curList 0).map fun s =>
      (s ++ List.replicate (curList.length - s.length) .zero).foldl (fun l s => setUtil id s l)
        curList := computeProcCpuStatBy_eq id curList prevList

/-- A list after the write-back of entries with distinct pids. -/
def applySlots (slots : List Slot) (e : Proc) : Proc :=
  match slots.find? (fun s => s.pid == e.pid) with
  | some s => { e with cpuUtil := s.util id }
  | none => e

theorem applySlots_pid (slots : List Slot) (e : Proc) : (applySlots slots e).pid = e.pid := by
  unfold applySlots
  split <;> rfl

theorem applySlots_cons (s : Slot) (slots : List Slot) (e : Proc) :
    applySlots (s :: slots) e =
      if e.pid = s.pid then { e with cpuUtil := s.util id } else applySlots slots e := by
  by_cases he : e.pid = s.pid
  · simp [applySlots, he]
  · have hne : (s.pid == e.pid) = false := by simpa using Ne.symm he
    rw [if_neg he]
    simp only [applySlots, List.find?_cons, hne]

theorem applySlots_of_mem {slots : List Slot} (hs : (slots.map Slot.pid).Nodup) {s : Slot}
    (hm : s ∈ slots) {e : Proc} (he : s.pid = e.pid) :
    applySlots slots e = { e with cpuUtil := s.util id } := by
  have hfind : slots.find? (fun t => t.pid == e.pid) = some s := by
    cases hf : slots.find? (fun t => t.pid == e.pid) with
    | none => exact absurd (List.find?_eq_none.mp hf s hm) (by simp [he])
    | some t =>
      have ht : t.pid = e.pid := by simpa using List.find?_some hf
      rw [List.inj_on_of_nodup_map hs (List.mem_of_find?_eq_some hf) hm (ht.trans he.symm)]
  rw [applySlots, hfind]

theorem applySlots_of_not_mem {slots : List Slot} {e : Proc} (he : e.pid ∉ slots.map Slot.pid) :
    applySlots slots e = e := by
  have hfind : slots.find? (fun t => t.pid == e.pid) = none := by
    rw [List.find?_eq_none]
    intro t ht h
    apply he
    exact List.mem_map.mpr ⟨t, ht, by simpa using h⟩
  rw [applySlots, hfind]

theorem setUtil_of_not_mem {s : Slot} {l : List Proc} (h : s.pid ∉ l.map Proc.pid) :
    setUtil id s l = l := by
  induction l with
  | nil => rfl
  | cons e l ih =>
    simp only [List.map_cons, List.mem_cons, not_or] at h
    rw [setUtil, if_neg (Ne.symm h.1), ih h.2]

theorem setUtil_eq_map {s : Slot} {l : List Proc} (hl : (l.map Proc.pid).Nodup) :
    setUtil id s l = l.map fun e => if e.pid = s.pid then { e with cpuUtil := s.util id } else e := by
  induction l with
  | nil => rfl
  | cons e l ih =>
    rw [List.map_cons, List.nodup_cons] at hl
    rw [setUtil, List.map_cons]
    split
    · rename_i he
      have hrest : ∀ x ∈ l, x.pid ≠ s.pid := by
        intro x hx h
        exact hl.1 (List.mem_map.mpr ⟨x, hx, h.trans he.symm⟩)
      have hid : l.map (fun e => if e.pid = s.pid then { e with cpuUtil := s.util id } else e) = l :=
        (List.map_congr_left fun x hx => if_neg (hrest x hx)).trans (List.map_id' l)
      rw [hid]
    · rw [ih hl.2]

theorem foldl_setUtil {slots : List Slot} {l : List Proc} (hl : (l.map Proc.pid).Nodup)
    (hs : (slots.map Slot.pid).Nodup) :
    slots.foldl (fun l s => setUtil id s l) l = l.map (applySlots slots) := by
  induction slots generalizing l with
  | nil => exact (List.map_id' l).symm
  | cons s slots ih =>
    rw [List.map_cons, List.nodup_cons] at hs
    have hpid : (l.map fun e => if e.pid = s.pid then { e with cpuUtil := s.util id } else e).map
        Proc.pid = l.map Proc.pid := by
      rw [List.map_map]
      apply List.map_congr_left
      intro e _
      simp only [Function.comp_apply]
      split <;> rfl
    rw [List.foldl_cons, setUtil_eq_map hl, ih (by rwa [hpid]) hs.2, List.map_map]
    apply List.map_congr_left
    intro e _
    rw [Function.comp_apply, applySlots_cons]
    split
    · rename_i he
      -- no later entry has the same pid, so what was written stays
      apply applySlots_of_not_mem
      rw [he]
      exact hs.1
    · rfl

theorem foldl_setUtil_zero {l : List Proc} (h : 0 ∉ l.map Proc.pid) (n : ℕ) :
    (List.replicate n Slot.zero).foldl (fun l s => setUtil id s l) l = l := by
  induction n with
  | zero => rfl
  | succ n ih => rw [List.replicate_succ, List.foldl_cons, setUtil_of_not_mem h, ih]

theorem turns_pid {prevList l : List Proc} {c : ℕ} {s : List Slot}
    (h : turns prevList l c = some s) :
    s.map Slot.pid = (l.map Proc.pid).filter (· ∈ prevList.map Proc.pid) := by
  induction l generalizing c s with
  | nil =>
    rw [← Option.some.inj h]
    rfl
  | cons e l ih =>
    obtain ⟨t, ht, h⟩ := Option.bind_eq_some_iff.mp h
    obtain ⟨r, hr, h⟩ := Option.bind_eq_some_iff.mp h
    have ht' : t.map Slot.pid = if e.pid ∈ prevList.map Proc.pid then [e.pid] else [] := by
      unfold turn at ht
      split at ht
      · rename_i hm
        obtain ⟨q, -, rfl⟩ := Option.map_eq_some_iff.mp ht
        rw [if_pos hm]
        rfl
      · rename_i hm
        rw [if_neg hm, ← Option.some.inj ht]
        rfl
    rw [← Option.some.inj h, List.map_append, ih hr, ht', List.map_cons, List.filter_cons]
    split <;> simp_all

theorem mem_turns {prevList l : List Proc} {c : ℕ} {s : List Slot}
    (h : turns prevList l c = some s) {k : ℕ} {e : Proc} (he : l[k]? = some e)
    (hm : e.pid ∈ prevList.map Proc.pid) :
    ∃ r, prevList[c + k]? = some r ∧ slotOf e r ∈ s := by
  induction l generalizing c s k with
  | nil => simp at he
  | cons x l ih =>
    obtain ⟨t, ht, h⟩ := Option.bind_eq_some_iff.mp h
    obtain ⟨u, hu, h⟩ := Option.bind_eq_some_iff.mp h
    rw [← Option.some.inj h]
    cases k with
    | zero =>
      obtain rfl : x = e := by simpa using he
      rw [turn, if_pos hm] at ht
      obtain ⟨r, hr, rfl⟩ := Option.map_eq_some_iff.mp ht
      exact ⟨r, hr, by simp⟩
    | succ k =>
      obtain ⟨r, hr, hmem⟩ := ih hu (k := k) (by simpa using he)
      exact ⟨r, by rw [← hr]; congr 1; omega, List.mem_append_right _ hmem⟩

/-- The turns stay inside the previous arrays exactly when every process that is in both
lists has a position inside the previous one. -/
theorem turns_isSome_iff (prevList l : List Proc) (c : ℕ) :
    (turns prevList l c).isSome ↔
      ∀ k e, l[k]? = some e → e.pid ∈ prevList.map Proc.pid → c + k < prevList.length := by
  induction l generalizing c with
  | nil => simp [turns]
  | cons x l ih =>
    have hturn : (turn prevList x c).isSome ↔
        (x.pid ∈ prevList.map Proc.pid → c < prevList.length) := by
      unfold turn
      split
      · rename_i hm
        simp [hm]
      · rename_i hm
        simp [hm]
    have hsome : (turns prevList (x :: l) c).isSome ↔
        (turn prevList x c).isSome ∧ (turns prevList l (c + 1)).isSome := by
      rw [turns]
      cases turn prevList x c <;> cases turns prevList l (c + 1) <;> simp
    rw [hsome, hturn, ih]
    constructor
    · rintro ⟨h0, h1⟩ k e he hm
      cases k with
      | zero =>
        obtain rfl : x = e := by simpa using he
        exact h0 hm
      | succ k =>
        have := h1 k e (by simpa using he) hm
        omega
    · intro h
      refine ⟨fun hm => h 0 x rfl hm, fun k e he hm => ?_⟩
      have := h (k + 1) e (by simpa using he) hm
      omega

theorem computeProcCpuStat_getElem {curList prevList out : List Proc}
    (hcur : (curList.map Proc.pid).Nodup) (h0 : 0 ∉ curList.map Proc.pid)
    (hout : computeProcCpuStat curList prevList = some out) :
    out.length = curList.length ∧ ∀ (c : ℕ) (e : Proc), curList[c]? = some e →
      (∀ r, e.pid ∈ prevList.map Proc.pid → prevList[c]? = some r →
        out[c]? = some { e with cpuUtil := (slotOf e r).util id }) ∧
      (e.pid ∉ prevList.map Proc.pid → out[c]? = some e) := by
  rw [computeProcCpuStat_eq] at hout
  obtain ⟨s, hs, rfl⟩ := Option.map_eq_some_iff.mp hout
  have hpid := turns_pid hs
  have hnd : (s.map Slot.pid).Nodup := hpid ▸ hcur.filter _
  have hmap : (curList.map (applySlots s)).map Proc.pid = curList.map Proc.pid := by
    rw [List.map_map]
    apply List.map_congr_left
    exact fun e _ => applySlots_pid s e
  rw [List.foldl_append, foldl_setUtil hcur hnd, foldl_setUtil_zero (by rwa [hmap])]
  refine ⟨List.length_map _, fun c e he => ⟨fun r hm hr => ?_, fun hm => ?_⟩⟩
  · obtain ⟨r', hr', hmem⟩ := mem_turns hs he hm
    rw [Nat.zero_add] at hr'
    obtain rfl : r = r' := Option.some.inj (hr.symm.trans hr')
    rw [List.getElem?_map, he, Option.map_some, applySlots_of_mem hnd hmem rfl]
  · have hnone : e.pid ∉ s.map Slot.pid := by
      rw [hpid, List.mem_filter]
      intro h
      apply hm
      simpa using h.2
    rw [List.getElem?_map, he, Option.map_some, applySlots_of_not_mem hnone]

/-- The list `out` holds the percentages that the processes of `curList` have against
their own entries of `prevList`. -/
structure JoinedByPid (curList prevList out : List Proc) : Prop where
  length : out.length = curList.length
  matched : ∀ (c : ℕ) (e e' q : Proc), curList[c]? = some e → out[c]? = some e' →
    q ∈ prevList → q.pid = e.pid → e.sysCpuTime ≠ q.sysCpuTime →
    e'.cpuUtil = .fin (100 * ((e.cpuTime - q.cpuTime).toNat : ℚ) /
      ((e.sysCpuTime - q.sysCpuTime).toNat : ℚ))
  other : ∀ (c : ℕ) (e e' : Proc), curList[c]? = some e → out[c]? = some e' →
    (∀ q ∈ prevList, q.pid ≠ e.pid) → e'.cpuUtil = e.cpuUtil

/-- For each process of both lists there is a previous entry at its current position, and
since that entry the process and the system advanced in the same ratio as since the own
entry of the process. -/
def PositionsAgree (curList prevList : List Proc) : Prop :=
  ∀ (c : ℕ) (e q : Proc), curList[c]? = some e → q ∈ prevList → q.pid = e.pid →
    ∃ r, prevList[c]? = some r ∧ (e.sysCpuTime ≠ q.sysCpuTime →
      e.sysCpuTime ≠ r.sysCpuTime ∧
      (e.cpuTime - r.cpuTime).toNat * (e.sysCpuTime - q.sysCpuTime).toNat =
        (e.cpuTime - q.cpuTime).toNat * (e.sysCpuTime - r.sysCpuTime).toNat)

theorem slotOf_util_eq_iff {e q r : Proc} (hq : e.sysCpuTime ≠ q.sysCpuTime) :
    (slotOf e r).util id = .fin (100 * ((e.cpuTime - q.cpuTime).toNat : ℚ) /
        ((e.sysCpuTime - q.sysCpuTime).toNat : ℚ)) ↔
      e.sysCpuTime ≠ r.sysCpuTime ∧
        (e.cpuTime - r.cpuTime).toNat * (e.sysCpuTime - q.sysCpuTime).toNat =
          (e.cpuTime - q.cpuTime).toNat * (e.sysCpuTime - r.sysCpuTime).toNat := by
  have hd : ((e.sysCpuTime - q.sysCpuTime).toNat : ℚ) ≠ 0 := by
    rw [Nat.cast_ne_zero, ne_eq, toNat_sub_eq_zero_iff]
    exact hq
  rw [Slot.util, slotOf, Double.percentOf_id, Double.ofU64_eq, Double.ofU64_eq, Double.fin_mul,
    Double.fin_div_eq_fin_iff, Nat.cast_ne_zero, ne_eq, toNat_sub_eq_zero_iff]
  apply and_congr_right
  intro _
  rw [div_mul_eq_mul_div, eq_div_iff hd]
  constructor
  · intro h
    have h' : ((e.cpuTime - r.cpuTime).toNat : ℚ) * (e.sysCpuTime - q.sysCpuTime).toNat =
        (e.cpuTime - q.cpuTime).toNat * (e.sysCpuTime - r.sysCpuTime).toNat := by linarith
    exact_mod_cast h'
  · intro h
    have h' : ((e.cpuTime - r.cpuTime).toNat : ℚ) * (e.sysCpuTime - q.sysCpuTime).toNat =
        (e.cpuTime - q.cpuTime).toNat * (e.sysCpuTime - r.sysCpuTime).toNat := by
      exact_mod_cast h
    linarith

theorem computeProcCpuStat_isSome {curList prevList : List Proc}
    (h : PositionsAgree curList prevList) :
    ∃ out, computeProcCpuStat curList prevList = some out := by
  have hs : (turns prevList curList 0).isSome := by
    rw [turns_isSome_iff]
    intro k e he hm
    obtain ⟨q, hq, hpid⟩ := List.mem_map.mp hm
    obtain ⟨r, hr, -⟩ := h k e q he hq hpid
    rw [Nat.zero_add]
    exact (List.getElem?_eq_some_iff.mp hr).1
  obtain ⟨s, hs⟩ := Option.isSome_iff_exists.mp hs
  exact ⟨_, by rw [computeProcCpuStat_eq, hs, Option.map_some]⟩

/-- A process that is in both lists finds a previous entry at its current position unless
the run leaves the arrays. -/
theorem prev_getElem_of_isSome {curList prevList out : List Proc}
    (hout : computeProcCpuStat curList prevList = some out) {c : ℕ} {e q : Proc}
    (he : curList[c]? = some e) (hq : q ∈ prevList) (hpid : q.pid = e.pid) :
    ∃ r, prevList[c]? = some r := by
  rw [computeProcCpuStat_eq] at hout
  obtain ⟨s, hs, -⟩ := Option.map_eq_some_iff.mp hout
  obtain ⟨r, hr, -⟩ := mem_turns hs he (hpid ▸ List.mem_map_of_mem hq)
  exact ⟨r, by rwa [Nat.zero_add] at hr⟩

/-- The percentages are those against the entry with the same pid exactly when the
positions agree. -/
theorem computeProcCpuStat_joined_iff (curList prevList : List Proc)
    (hcur : (curList.map Proc.pid).Nodup) (hcur0 : 0 ∉ curList.map Proc.pid) :
    (∃ out, computeProcCpuStat curList prevList = some out ∧
      JoinedByPid curList prevList out) ↔ PositionsAgree curList prevList := by
  constructor
  · rintro ⟨out, hout, hj⟩ c e q he hq hpid
    have hspec := (computeProcCpuStat_getElem hcur hcur0 hout).2 c e he
    obtain ⟨r, hr⟩ := prev_getElem_of_isSome hout he hq hpid
    refine ⟨r, hr, fun hsys => ?_⟩
    have hval := hj.matched c e _ q he (hspec.1 r (hpid ▸ List.mem_map_of_mem hq) hr) hq hpid hsys
    exact (slotOf_util_eq_iff hsys).mp hval
  · intro h
    obtain ⟨out, hout⟩ := computeProcCpuStat_isSome h
    obtain ⟨hlen, hspec⟩ := computeProcCpuStat_getElem hcur hcur0 hout
    refine ⟨out, hout, hlen, fun c e e' q he he' hq hpid hsys => ?_, fun c e e' he he' hno => ?_⟩
    · obtain ⟨r, hr, hagree⟩ := h c e q he hq hpid
      have hget := (hspec c e he).1 r (hpid ▸ List.mem_map_of_mem hq) hr
      obtain rfl := Option.some.inj (he'.symm.trans hget)
      exact (slotOf_util_eq_iff hsys).mpr (hagree hsys)
    · have hm : e.pid ∉ prevList.map Proc.pid := by
        intro hm
        obtain ⟨q, hq, hpid⟩ := List.mem_map.mp hm
        exact hno q hq hpid
      obtain rfl := Option.some.inj (he'.symm.trans ((hspec c e he).2 hm))
      rfl

/-- Process 7 at the head of the current list, behind process 5 in the previous one. -/
def shiftedCur : List Proc := [{ pid := 7, cpuTime := 30, sysCpuTime := 200 }]

def shiftedPrev : List Proc :=
  [{ pid := 5, cpuTime := 0, sysCpuTime := 100 }, { pid := 7, cpuTime := 20, sysCpuTime := 100 }]

theorem computeProcCpuStat_joined_shifted :
    (∃ out, computeProcCpuStat shiftedCur shiftedPrev = some out ∧
      JoinedByPid shiftedCur shiftedPrev out) ↔ PositionsAgree shiftedCur shiftedPrev :=
  computeProcCpuStat_joined_iff shiftedCur shiftedPrev (by decide) (by decide)

/-- Process 7 used 10 of 100 ticks and is charged with 30, the ticks against process 5. -/
theorem computeProcCpuStat_shifted :
    ¬∃ out, computeProcCpuStat shiftedCur shiftedPrev = some out ∧
      JoinedByPid shiftedCur shiftedPrev out := by
  rintro ⟨out, hout, hj⟩
  have hcomp : computeProcCpuStat shiftedCur shiftedPrev =
      some [{ pid := 7, cpuTime := 30, sysCpuTime := 200, cpuUtil := .fin 30 }] := by
    decide +kernel
  rw [hcomp] at hout
  have hval := hj.matched 0 { pid := 7, cpuTime := 30, sysCpuTime := 200 } _
    { pid := 7, cpuTime := 20, sysCpuTime := 100 } rfl (by rw [← Option.some.inj hout]; rfl)
    (by decide) rfl (by decide)
  revert hval
  decide +kernel

end Zsr
