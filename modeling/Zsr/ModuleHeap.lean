import Zsr.ListList
import Zsr.PrintRun
import Zsr.SingleRecord

/-!
# The function pointers of the modules, on the heap

The nodes of a module's `record_list` lie in a heap of their own, with the head at address 0.
What the pointers do there is what they do to the contents of the list; besides that, blocks
are left behind that are on no list.
-/

namespace Zsr
open CLib

variable {ε : Type}

section Print

variable (print : Text → ℕ → Text → Option Text) (row : ε → Option Text)

def lastToStrOn (h : Heap ε) (head : ℕ) (record : Text) : Option Text := do
  if ← listEmpty h head then some record
  else
    let entry ← h.val? (← h.prev? head)
    print record 0 (← row entry)

/-- The rows of a list, in the order of `list_for_each_entry`. -/
def rowsOn (h : Heap ε) (head : ℕ) : Option (List Text) := do
  (← (← listForEachEntry h head).mapM h.val?).mapM row

/-- `record_to_str` of the modules with the latest query. -/
def allToStrOn (h : Heap ε) (head : ℕ) (record : Text) : Option Text := do
  if ← listEmpty h head then some record
  else printRows print (← rowsOn row h head) record 0

/-- `record_to_str` of the modules with a list of lists: the head of the last one lies behind
the links of its node. -/
def innerToStrOn (h : Heap ε) (head : ℕ) (record : Text) : Option Text := do
  if ← listEmpty h head then some record
  else
    let curList ← h.prev? head
    printRows print (← rowsOn row h (curList + 1)) record 0

variable {h : Heap ε}

theorem rowsOn_ring {head : ℕ} {nodes : List ℕ} {l : List ε} (hr : IsRing h head nodes)
    (hv : nodes.map h.val? = l.map some) : rowsOn row h head = l.mapM row := by
  simp only [rowsOn, listForEachEntry_ring hr, mapM_of_map_eq hv, Option.bind_eq_bind,
    Option.bind_some]

theorem lastToStrOn_keeps {nodes : List ℕ} {l : List ε} (hk : Keeps h nodes l) (record : Text) :
    lastToStrOn print row h 0 record = lastToStr print row l record := by
  have hempty := listEmpty_ring hk.ring
  rcases List.eq_nil_or_concat nodes with rfl | ⟨ns, a, rfl⟩
  · obtain rfl := hk.eq_nil_iff.mp rfl
    simp [lastToStrOn, lastToStr, hempty]
  · rw [List.concat_eq_append] at hk hempty
    obtain ⟨l', v, rfl, hprev, hval, -⟩ := hk.last
    simp [lastToStrOn, lastToStr, hempty, hprev, hval]

theorem allToStrOn_ring {nodes : List ℕ} {l : List ε} (hr : IsRing h 0 nodes)
    (hv : nodes.map h.val? = l.map some) (record : Text) :
    allToStrOn print row h 0 record = allToStr print row l record := by
  have hnil : nodes = [] ↔ l = [] := by
    have hlen : nodes.length = l.length := by simpa using congrArg List.length hv
    rw [← List.length_eq_zero_iff, hlen, List.length_eq_zero_iff]
  simp only [allToStrOn, allToStr, listEmpty_ring hr, rowsOn_ring row hr hv,
    Option.bind_eq_bind, Option.bind_some, decide_eq_true_eq, hnil]

theorem innerToStrOn_holds {lists : List (ℕ × List ℕ)} {l : List (List ε)}
    (hh : HoldsLists h lists l) (record : Text) :
    innerToStrOn print row h 0 record = innerToStr print row l record := by
  have hempty := listEmpty_ring hh.outer
  rcases hh.getLast? with ⟨rfl, rfl⟩ | ⟨p, vals, hlast, hp, hprev, hv⟩
  · simp [innerToStrOn, innerToStr, hempty]
  · have hne : lists.map Prod.fst ≠ [] := List.ne_nil_of_mem (List.mem_map_of_mem hp)
    simp [innerToStrOn, innerToStr, hempty, hne, hprev, hlast, rowsOn_ring row (hh.inner p hp) hv]

end Print

theorem listAddTail_fresh {h h' : Heap ε} {new head : ℕ}
    (he : listAddTail h new head = some h') : h'.fresh = h.fresh := by
  simp only [listAddTail, listAddBetween, Option.bind_eq_bind, Option.bind_eq_some_iff] at he
  obtain ⟨prev, -, h1, e1, h2, e2, h3, e3, e4⟩ := he
  rw [Heap.fresh_of_modify e4, Heap.fresh_of_modify e3, Heap.fresh_of_modify e2,
    Heap.fresh_of_modify e1]

theorem initListHead_fresh {h h' : Heap ε} {list : ℕ} (he : initListHead h list = some h') :
    h'.fresh = h.fresh := by
  simp only [initListHead, Option.bind_eq_bind, Option.bind_eq_some_iff] at he
  obtain ⟨h1, e1, e2⟩ := he
  rw [Heap.fresh_of_modify e2, Heap.fresh_of_modify e1]

theorem updateAll_fresh {nodes : List ℕ} {vals : List ε} {h h' : Heap ε}
    (he : updateAll nodes vals h = some h') : h'.fresh = h.fresh := by
  induction nodes generalizing vals h with
  | nil => rw [← Option.some.inj he]
  | cons node nodes ih =>
    cases vals with
    | nil => rw [← Option.some.inj he]
    | cons v vals =>
      simp only [updateAll, Option.bind_eq_bind, Option.bind_eq_some_iff] at he
      obtain ⟨h1, e1, e2⟩ := he
      rw [ih e2, Heap.fresh_of_modify e1]

theorem appendAll_fresh {vals : List ε} {h h' : Heap ε} {head : ℕ}
    (he : appendAll vals h head = some h') : h'.fresh = h.fresh + vals.length := by
  induction vals generalizing h with
  | nil => rw [← Option.some.inj he]; rfl
  | cons v vals ih =>
    rw [appendAll, List.foldlM_cons] at he
    obtain ⟨h1, e1, e2⟩ := Option.bind_eq_some_iff.mp he
    rw [ih e2, listAddTail_fresh e1, List.length_cons, Nat.add_comm vals.length, ← Nat.add_assoc]
    rfl

/-- A line of `/proc/diskstats` that is unknown: its node is never linked. -/
def BadLine (buf : Text) : Prop := scanDisk buf = some none

instance (buf : Text) : Decidable (BadLine buf) := inferInstanceAs (Decidable (_ = _))

theorem readIoLinesOn_fresh {env : IoEnv} {numOfCpu hz : UInt32} {head i : ℕ} {bufs : List Text}
    {h h' : Heap Io} {vals : List Io} (he : readIoLinesOn env numOfCpu hz head i bufs h = some h')
    (hv : readIoLines env numOfCpu hz i bufs = some vals) :
    h'.fresh = h.fresh + vals.length + if ∃ buf ∈ bufs, BadLine buf then 1 else 0 := by
  induction bufs generalizing i h vals with
  | nil =>
    rw [← Option.some.inj he, ← Option.some.inj hv]
    simp
  | cons buf bufs ih =>
    simp only [readIoLinesOn, readIoLines, Option.bind_eq_bind, Option.bind_eq_some_iff] at he hv
    obtain ⟨uptime0, hup, line, hline, he⟩ := he
    obtain ⟨uptime0', hup', line', hline', hv⟩ := hv
    obtain rfl := Option.some.inj (hup.symm.trans hup')
    obtain rfl := Option.some.inj (hline.symm.trans hline')
    cases line with
    | none =>
      have hbad : ∃ buf' ∈ buf :: bufs, BadLine buf' := ⟨buf, List.mem_cons_self, hline⟩
      rw [← Option.some.inj he, ← Option.some.inj hv, if_pos hbad]
      rfl
    | some line =>
      obtain ⟨dev, v⟩ := line
      simp only [Option.bind_eq_some_iff, Option.some.injEq] at he hv
      obtain ⟨h1, e1, he⟩ := he
      obtain ⟨vals', hv', rfl⟩ := hv
      have hgood : ¬BadLine buf := by
        rw [BadLine, hline]
        simp
      have hiff : (∃ buf' ∈ buf :: bufs, BadLine buf') ↔ ∃ buf' ∈ bufs, BadLine buf' := by
        simp [hgood]
      simp only [ih he hv', listAddTail_fresh e1, hiff, List.length_cons]
      simp only [Heap.malloc]
      omega

theorem collectList_fresh {query : Heap ε → ℕ → Option (Heap ε)}
    {compute : List ε → List ε → Option (List ε)} {k : ℕ}
    (hquery : ∀ {h h' : Heap ε} {head : ℕ}, query h head = some h' → h'.fresh = h.fresh + k)
    {h h' : Heap ε} {head : ℕ} (he : collectList query compute h head = some h') :
    h'.fresh = h.fresh + 2 + k := by
  simp only [collectList, Option.bind_eq_bind, Option.bind_eq_some_iff] at he
  obtain ⟨h1, e1, h2, e2, b, -, he⟩ := he
  obtain ⟨h3, hsame, e3⟩ : ∃ h3, h3.fresh = h2.fresh ∧ listAddTail h3 h.fresh head = some h' := by
    cases b with
    | true => exact ⟨h2, rfl, by simpa using he⟩
    | false =>
      simp only [Bool.false_eq_true, if_false, Option.bind_eq_some_iff, computeList,
        Option.bind_eq_bind] at he
      obtain ⟨prev, -, h3, ⟨nodes, -, curVals, -, prevNodes, -, prevVals, -, vals, -, e3⟩, e4⟩ := he
      exact ⟨h3, updateAll_fresh e3, e4⟩
  rw [listAddTail_fresh e3, hsame, hquery e2, initListHead_fresh e1]
  rfl

theorem free_fresh {h h' : Heap ε} {a : ℕ} (he : h.free a = some h') : h'.fresh = h.fresh := by
  unfold Heap.free at he
  split at he
  · rw [← Option.some.inj he]
    rfl
  · cases he

theorem forEachEntrySafe_fresh {body : ℕ → Heap ε → Option (Heap ε)}
    (hbody : ∀ {a : ℕ} {h h' : Heap ε}, body a h = some h' → h'.fresh = h.fresh)
    {head k pos n : ℕ} {h h' : Heap ε} (he : forEachEntrySafe body head k pos n h = some h') :
    h'.fresh = h.fresh := by
  induction k generalizing pos n h with
  | zero => cases he
  | succ k ih =>
    rw [forEachEntrySafe] at he
    split at he
    · rw [← Option.some.inj he]
    · simp only [Option.bind_eq_bind, Option.bind_eq_some_iff] at he
      obtain ⟨h1, e1, m, -, he⟩ := he
      rw [ih he, hbody e1]

theorem freeListHead_fresh {h h' : Heap ε} {head : ℕ} (he : freeListHead h head = some h') :
    h'.fresh = h.fresh := by
  simp only [freeListHead, freeEntries_eq, Option.bind_eq_bind, Option.bind_eq_some_iff] at he
  obtain ⟨pos, -, n, -, he⟩ := he
  exact forEachEntrySafe_fresh free_fresh he

theorem freeListLists_fresh {h h' : Heap ε} {head : ℕ} (he : freeListLists h head = some h') :
    h'.fresh = h.fresh := by
  simp only [freeListLists, Option.bind_eq_bind, Option.bind_eq_some_iff] at he
  obtain ⟨pos, -, n, -, he⟩ := he
  refine forEachEntrySafe_fresh (fun hb => ?_) he
  simp only [freeListList, Option.bind_eq_bind, Option.bind_eq_some_iff] at hb
  obtain ⟨h1, e1, h2, e2, e3⟩ := hb
  rw [free_fresh e3, free_fresh e2, freeListHead_fresh e1]

theorem HoldsLists.length_blocks {h : Heap ε} {lists : List (ℕ × List ℕ)} {l : List (List ε)}
    (hh : HoldsLists h lists l) :
    (lists.flatMap freeOrder).length = 2 * l.length + l.flatten.length := by
  have hv := congrArg (List.map List.length) hh.values
  simp only [List.map_map, Function.comp_def, List.length_map] at hv
  have hlen : lists.length = l.length := by simpa using congrArg List.length hv
  rw [List.length_flatMap, List.length_flatten, ← hv, ← hlen]
  simp only [freeOrder, List.length_append, List.length_cons, List.length_nil]
  rw [List.sum_map_add]
  simp
  omega

/-- The list holds `l`, and `lost` blocks of older queries are allocated still. -/
def LatestMod.Leaves (m : LatestMod) (h : Heap m.Rec) (l : List m.Rec) (lost : ℕ) : Prop :=
  ∃ nodes gone, Holds h nodes gone ∧ gone.Nodup ∧ gone.length = lost ∧
    nodes.map h.val? = l.map some

/-- The lists hold `l`. Of the blocks handed out each has a node, that is two, and its
records; `lost` more are on no list. -/
def ListMod.Leaves (m : ListMod) (h : Heap m.Rec) (l : List (List m.Rec)) (lost : ℕ) : Prop :=
  (∃ lists, HoldsLists h lists l) ∧ h.fresh = 1 + 2 * l.length + l.flatten.length + lost

namespace LatestMod

theorem leaves_nil (m : LatestMod) : m.Leaves ((Heap.empty : Heap m.Rec).malloc none) [] 0 :=
  ⟨[], [], empty_holds, .nil, rfl, rfl⟩

theorem collectRecord_leaves (m : LatestMod) (env : m.Env) {h : Heap m.Rec} {l : List m.Rec}
    {lost : ℕ} (hl : m.Leaves h l lost) :
    Option.Rel (fun h' l' => m.Leaves h' l' (lost + l.length)) (m.collectRecord env h)
      (collectQuery (m.entries env) l) := by
  obtain ⟨nodes, gone, hh, hnd, hlen, hv⟩ := hl
  rw [collectQuery_eq]
  cases hc : m.collectRecord env h with
  | none => rw [entries_eq_none hh hc]; exact .none
  | some h' =>
    obtain ⟨vals, nodes', hvals, hh', hv', -⟩ := collectRecord_holds hh hc
    rw [hvals]
    refine .some ⟨nodes', gone ++ nodes, hh', List.nodup_append.mpr ⟨hnd, ?_, ?_⟩, ?_, hv'⟩
    · exact (List.nodup_cons.mp hh.ring.nodup).2
    · exact fun a ha b hb hab => hh.out a ha (List.mem_cons_of_mem 0 (hab ▸ hb))
    · have hsame : nodes.length = l.length := by simpa using congrArg List.length hv
      rw [List.length_append, hlen, hsame]

theorem freeRecordList_leaves {m : LatestMod} {h : Heap m.Rec} {l : List m.Rec} {lost : ℕ}
    (hl : m.Leaves h l lost) :
    ∃ h', m.freeRecordList h = some h' ∧ h'.Live 0 ∧ h'.liveCount = 1 + lost := by
  obtain ⟨nodes, gone, hh, hnd, hlen, -⟩ := hl
  obtain ⟨h', he, hfresh, hfreed, hcell⟩ := freeListHead_ring hh.ring
  have h0 : 0 ∉ gone := fun hm => hh.out 0 hm List.mem_cons_self
  suffices hlive : ∀ x, h'.Live x ↔ x ∈ 0 :: gone by
    refine ⟨h', he, (hlive 0).mpr List.mem_cons_self, ?_⟩
    rw [Heap.liveCount_eq (List.nodup_cons.mpr ⟨h0, hnd⟩) hlive, List.length_cons, hlen,
      Nat.add_comm]
  intro x
  -- live is what was live and is not on the list
  have hx : h'.Live x ↔ h.Live x ∧ x ∉ nodes := by
    simp only [Heap.live_iff, hfresh, hfreed, List.mem_append, List.mem_reverse]
    tauto
  have hring := List.nodup_cons.mp hh.ring.nodup
  rw [hx, hh.live, List.mem_cons]
  constructor
  · rintro ⟨h0 | hn | hg, hout⟩
    · exact .inl h0
    · exact absurd hn hout
    · exact .inr hg
  · rintro (rfl | hg)
    · exact ⟨.inl rfl, hring.1⟩
    · exact ⟨.inr (.inr hg), fun hn => hh.out x hg (List.mem_cons_of_mem 0 hn)⟩

end LatestMod

namespace ListMod

def loses : (m : ListMod) → m.Env → ℕ
  | io => fun env => match env.diskstats with
    | none => 0
    | some s => if ∃ buf ∈ fgetsLines LEN_256 s, BadLine buf then 1 else 0
  | proc => fun _ => 0

theorem leaves_nil (m : ListMod) : m.Leaves ((Heap.empty : Heap m.Rec).malloc none) [] 0 :=
  ⟨⟨[], emptyList_ring, by simp, by simp, rfl, rfl⟩, rfl⟩

theorem query_fresh (m : ListMod) (env : m.Env) {vals : List m.Rec}
    (hvals : m.entries env = some vals) {h h' : Heap m.Rec} {head : ℕ}
    (he : m.query env h head = some h') : h'.fresh = h.fresh + (vals.length + m.loses env) := by
  cases m with
  | proc =>
    simp only [query, Option.bind_eq_bind, Option.bind_eq_some_iff] at he
    obtain ⟨vals', hvals', he⟩ := he
    obtain rfl := Option.some.inj (hvals.symm.trans hvals')
    exact appendAll_fresh he
  | io =>
    simp only [query, readIoStatOn, Option.bind_eq_bind, Option.bind_eq_some_iff] at he
    obtain ⟨numOfCpu, hcpu, hz, hticks, he⟩ := he
    simp only [entries, readIoStat, hcpu, hticks, Option.bind_eq_bind, Option.bind_some] at hvals
    simp only [loses]
    cases hs : env.diskstats with
    | none =>
      simp only [hs, Option.map_some, Option.some.injEq] at he hvals
      rw [← he, ← hvals]
      rfl
    | some s =>
      simp only [hs, Option.map_eq_some_iff, Option.bind_eq_some_iff, Option.some.injEq]
        at he hvals
      obtain ⟨r, ⟨vals', hv, rfl⟩, rfl⟩ := hvals
      rw [readIoLinesOn_fresh he hv, Nat.add_assoc]

theorem collectRecord_leaves (m : ListMod) (env : m.Env) {h : Heap m.Rec}
    {l : List (List m.Rec)} {lost : ℕ} (hl : m.Leaves h l lost) :
    Option.Rel (fun h' l' => m.Leaves h' l' (lost + m.loses env)) (m.collectRecord env h)
      (m.collectLists env l) := by
  obtain ⟨⟨lists, hh⟩, hfresh⟩ := hl
  rw [collectLists_eq, collectRecord]
  rcases collectList_spec (m.query_spec env) compute_length hh with
    ⟨hnone, hnone'⟩ | ⟨h', p, l', hsome, he, hh'⟩
  · rw [hnone, hnone']
    exact .none
  · rw [hsome, he]
    refine .some ⟨⟨_, hh'⟩, ?_⟩
    simp only [collectValues, Option.bind_eq_bind, Option.bind_eq_some_iff] at hsome
    obtain ⟨cur, hcur, hsome⟩ := hsome
    obtain ⟨cur', hlen, hl'⟩ : ∃ cur', cur'.length = cur.length ∧ l ++ [cur'] = l' := by
      cases hlast : l.getLast? with
      | none =>
        rw [hlast] at hsome
        exact ⟨cur, rfl, Option.some.inj hsome⟩
      | some prev =>
        rw [hlast] at hsome
        obtain ⟨cur', hcur', hl'⟩ := Option.bind_eq_some_iff.mp hsome
        exact ⟨cur', compute_length hcur', Option.some.inj hl'⟩
    rw [← hl', collectList_fresh (m.query_fresh env hcur) he, hfresh]
    simp only [List.length_append, List.flatten_append, List.length_singleton,
      List.flatten_singleton, hlen]
    omega

theorem freeRecordList_leaves (m : ListMod) {h : Heap m.Rec} {l : List (List m.Rec)} {lost : ℕ}
    (hl : m.Leaves h l lost) :
    ∃ h', m.freeRecordList h = some h' ∧ h'.Live 0 ∧ h'.liveCount = 1 + lost := by
  obtain ⟨⟨lists, hh⟩, hfresh⟩ := hl
  obtain ⟨h', he, horder⟩ := freeListLists_spec hh
  refine ⟨h', he, ?_, ?_⟩
  · -- the head is no block of any list
    rw [Heap.live_iff, freeListLists_fresh he, ← List.mem_reverse, horder]
    refine ⟨(hh.outer.live 0 List.mem_cons_self).lt, fun h0 => ?_⟩
    obtain ⟨p, hp, h0⟩ := List.mem_flatMap.mp h0
    exact (List.nodup_cons.mp hh.nodup).1
      (List.mem_flatMap.mpr ⟨p, hp, (freeOrder_perm p).mem_iff.mp h0⟩)
  have hcount := h'.liveCount_add_freed
  rw [freeListLists_fresh he, hfresh, ← List.length_reverse, horder, hh.length_blocks] at hcount
  omega

end ListMod

theorem KeepsSome.freeAll {h : Heap ε} {l : List ε} (hk : KeepsSome h l) :
    ∃ h', freeListHead h 0 = some h' ∧ h'.Live 0 ∧ h'.liveCount = 1 := by
  obtain ⟨nodes, hk⟩ := hk
  obtain ⟨h', he, hfresh, hfreed⟩ := hk.freeAll
  refine ⟨h', he, ?_, ?_⟩
  · rw [Heap.live_iff, hfresh, hfreed, List.mem_reverse]
    exact ⟨(hk.ring.live 0 List.mem_cons_self).lt, (List.nodup_cons.mp hk.ring.nodup).1⟩
  have hcount := h'.liveCount_add_freed
  rw [hfresh, hk.fresh, hfreed, List.length_reverse] at hcount
  omega

namespace ModName

def collectOn : (m : ModName) → m.Env → Heap m.Entry → Option (Heap m.Entry)
  | cpu => fun env h => ModCpu.collectRecordOn env h 0
  | dns => LatestMod.dns.collectRecord
  | fs => LatestMod.fs.collectRecord
  | gateway => fun env h => collectSingleOn (fun entry => some (getGateway env entry)) .zeroed h 0
  | io => ListMod.io.collectRecord
  | ip => LatestMod.ip.collectRecord
  | loadAvg => fun env h => collectSingleOn (readLoadStat env) {} h 0
  | mem => fun env h => collectSingleOn (fun entry => some (readMemStat env entry)) {} h 0
  | network => LatestMod.network.collectRecord
  | proc => ListMod.proc.collectRecord
  | swap => fun env h => collectSingleOn (fun entry => some (readSwapStat env entry)) {} h 0
  | time => fun env h => collectSingleOn (fun entry => some { entry with timeInSec := env }) {} h 0
  | uptime => fun env h => collectSingleOn (fun entry => some (readUptimeStat env entry)) {} h 0
  | who => LatestMod.who.collectRecord

def toStrOn : (m : ModName) → Heap m.Entry → Text → Option Text
  | cpu => fun h => lastToStrOn snprintfRecord (row cpu) h 0
  | dns => fun h => allToStrOn sprintfRecord ModDns.row h 0
  | fs => fun h => allToStrOn snprintfRecord ModFs.row h 0
  | gateway => fun h => lastToStrOn sprintfRecord ModGateway.row h 0
  | io => fun h => innerToStrOn snprintfRecord (row io) h 0
  | ip => fun h => allToStrOn sprintfRecord ModIp.row h 0
  | loadAvg => fun h => lastToStrOn snprintfRecord (row loadAvg) h 0
  | mem => fun h => lastToStrOn snprintfRecord (row mem) h 0
  | network => fun h => allToStrOn snprintfRecord ModNetwork.row h 0
  | proc => fun h => innerToStrOn sprintfRecord (row proc) h 0
  | swap => fun h => lastToStrOn snprintfRecord (row swap) h 0
  | time => fun h => lastToStrOn snprintfRecord (row time) h 0
  | uptime => fun h => lastToStrOn snprintfRecord (row uptime) h 0
  | who => fun h => allToStrOn snprintfRecord ModWho.row h 0

def freeOn : (m : ModName) → Heap m.Entry → Option (Heap m.Entry)
  | cpu | gateway | loadAvg | mem | swap | time | uptime => fun h => freeListHead h 0
  | dns | fs | ip | network | who => fun h => freeListHead h 0
  | io | proc => fun h => freeListLists h 0

/-- The head `record_list` of a module, after its registration. -/
def emptyOn (m : ModName) : Heap m.Entry := Heap.empty.malloc none

/-- The list of the module holds `l`, and `lost` blocks that it has handed out are on no list. -/
def Leaves : (m : ModName) → Heap m.Entry → List m.Rec → ℕ → Prop
  | cpu | gateway | loadAvg | mem | swap | time | uptime => fun h l lost => KeepsSome h l ∧ lost = 0
  | dns => LatestMod.dns.Leaves
  | fs => LatestMod.fs.Leaves
  | io => ListMod.io.Leaves
  | ip => LatestMod.ip.Leaves
  | network => LatestMod.network.Leaves
  | proc => ListMod.proc.Leaves
  | who => LatestMod.who.Leaves

/-- How many blocks a collection loses: the whole list before it, the node of the line that
`/proc/diskstats` was left at, or none. -/
def loses : (m : ModName) → m.Env → List m.Rec → ℕ
  | cpu | gateway | loadAvg | mem | swap | time | uptime => fun _ _ => 0
  | dns | fs | ip | network | who => fun _ l => l.length
  | io => fun env _ => ListMod.io.loses env
  | proc => fun _ _ => 0

theorem leaves_empty (m : ModName) : m.Leaves m.emptyOn [] 0 := by
  cases m with
  | cpu | gateway | loadAvg | mem | swap | time | uptime => exact ⟨⟨[], keeps_nil⟩, rfl⟩
  | dns | fs | ip | network | who => exact LatestMod.leaves_nil _
  | io => exact ListMod.leaves_nil .io
  | proc => exact ListMod.leaves_nil .proc

theorem collectOn_rel (m : ModName) (env : m.Env) {h : Heap m.Entry} {l : List m.Rec} {lost : ℕ}
    (hl : m.Leaves h l lost) :
    Option.Rel (fun h' l' => m.Leaves h' l' (lost + m.loses env l)) (m.collectOn env h)
      (m.collectRecord env l) := by
  cases m with
  | cpu =>
    exact rel_mono (ModCpu.collectRecordOn_rel env hl.1) fun h' l' hk => ⟨hk, hl.2⟩
  | gateway | loadAvg | mem | swap | time | uptime =>
    exact rel_mono (collectSingleOn_rel _ _ hl.1) fun h' l' hk => ⟨hk, hl.2⟩
  | dns | fs | ip | network | who => exact LatestMod.collectRecord_leaves _ env hl
  | io => exact ListMod.io.collectRecord_leaves env hl
  | proc => exact ListMod.proc.collectRecord_leaves env hl

theorem toStrOn_eq (m : ModName) {h : Heap m.Entry} {l : List m.Rec} {lost : ℕ}
    (hl : m.Leaves h l lost) (record : Text) : m.toStrOn h record = m.recordToStr l record := by
  cases m with
  | cpu | gateway | loadAvg | mem | swap | time | uptime =>
    obtain ⟨⟨nodes, hk⟩, -⟩ := hl
    exact lastToStrOn_keeps _ _ hk record
  | dns | fs | ip | network | who =>
    obtain ⟨nodes, gone, hh, -, -, hv⟩ := hl
    exact allToStrOn_ring _ _ hh.ring hv record
  | io =>
    obtain ⟨⟨lists, hh⟩, -⟩ := hl
    exact innerToStrOn_holds _ _ hh record
  | proc =>
    obtain ⟨⟨lists, hh⟩, -⟩ := hl
    refine (innerToStrOn_holds _ _ hh record).trans ?_
    exact (innerToStr_eq _ _ l record).trans (ModProc.recordToStr_eq l record).symm

theorem freeOn_leaves (m : ModName) {h : Heap m.Entry} {l : List m.Rec} {lost : ℕ}
    (hl : m.Leaves h l lost) :
    ∃ h', m.freeOn h = some h' ∧ h'.Live 0 ∧ h'.liveCount = 1 + lost := by
  cases m with
  | cpu | gateway | loadAvg | mem | swap | time | uptime =>
    obtain ⟨hk, rfl⟩ := hl
    exact hk.freeAll
  | dns | fs | ip | network | who => exact LatestMod.freeRecordList_leaves hl
  | io => exact ListMod.io.freeRecordList_leaves hl
  | proc => exact ListMod.proc.freeRecordList_leaves hl

end ModName

end Zsr
