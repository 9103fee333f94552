import Zsr.Latest
import Zsr.ReportLoop

/-!
# The modules with the latest query, on the heap

`collect_record` takes the list head out of its ring and queries again; `free_record_list`
sweeps the ring at the end of the run. The head is the block at address 0.
-/

namespace Zsr
open CLib

variable {α : Type}

/-- The loop of the queries that allocate a node for each record and link it. -/
def appendAll (vals : List α) (h : Heap α) (head : ℕ) : Option (Heap α) :=
  vals.foldlM (fun h v => listAddTail (h.malloc (some v)) h.fresh head) h

def collectLatest (query : Heap α → ℕ → Option (Heap α)) (h : Heap α) (head : ℕ) :
    Option (Heap α) := do
  let h ← if ← listEmpty h head then some h else listDelInit h head
  query h head

/-- What a query has done to the heap. -/
structure Queried (h : Heap α) (head : ℕ) (xs : List ℕ) (vals : List α) (h' : Heap α)
    (nodes : List ℕ) : Prop where
  ring : IsRing h' head (xs ++ nodes)
  new : ∀ x ∈ nodes, h.fresh ≤ x
  live : ∀ x, h'.Live x ↔ h.Live x ∨ x ∈ nodes
  values : nodes.map h'.val? = vals.map some

theorem appendAll_queried {h : Heap α} {head : ℕ} {xs : List ℕ} (hr : IsRing h head xs)
    (vals : List α) : ∃ h' nodes, appendAll vals h head = some h' ∧
      Queried h head xs vals h' nodes ∧ ∀ x, x < h.fresh → h'.val? x = h.val? x := by
  induction vals generalizing h xs with
  | nil =>
    exact ⟨h, [], rfl, ⟨by rwa [List.append_nil], fun x hx => (List.not_mem_nil hx).elim,
      fun x => by simp, rfl⟩, fun _ _ => rfl⟩
  | cons v vals ih =>
    obtain ⟨h1, e1, r1, hrelink⟩ := listAddTail_ring (hr.malloc (some v))
      ((h.malloc_live _ _).mpr (.inl rfl)) hr.fresh_not_mem
    obtain ⟨h', nodes, he, hq, hkept⟩ := ih r1
    have hfresh : h1.fresh = h.fresh + 1 := hrelink.fresh
    have hval : h1.val? h.fresh = some v := by
      rw [hrelink.val, Heap.val?_malloc, if_pos rfl]
    refine ⟨h', h.fresh :: nodes, ?_, ⟨?_, ?_, ?_, ?_⟩, ?_⟩
    · rw [appendAll, List.foldlM_cons, e1]
      exact he
    · have := hq.ring
      rwa [List.append_assoc] at this
    · intro x hx
      rcases List.mem_cons.mp hx with rfl | hx
      · exact le_rfl
      · have := hq.new x hx
        omega
    · intro x
      rw [hq.live, hrelink.live, Heap.malloc_live, List.mem_cons, or_assoc, or_left_comm]
    · rw [List.map_cons, List.map_cons, hq.values, hkept h.fresh (by omega), hval]
    · intro x hx
      rw [hkept x (by omega), hrelink.val, Heap.val?_malloc, if_neg hx.ne]

theorem collectLatest_eq (query : Heap α → ℕ → Option (Heap α)) {h : Heap α} {head : ℕ}
    {xs : List ℕ} (hr : IsRing h head xs) :
    ∃ h1, collectLatest query h head = query h1 head ∧ IsRing h1 head [] ∧
      (∀ x, h1.Live x ↔ h.Live x) ∧ h1.fresh = h.fresh := by
  by_cases hxs : xs = []
  · -- an empty list is left alone
    subst hxs
    refine ⟨h, ?_, hr, fun _ => Iff.rfl, rfl⟩
    simp [collectLatest, listEmpty_ring hr]
  · obtain ⟨h1, e1, r1, hrelink⟩ := listDelInit_ring hr
    refine ⟨h1, ?_, r1, hrelink.live, hrelink.fresh⟩
    simp [collectLatest, listEmpty_ring hr, hxs, e1]

inductive LatestMod
  | dns
  | fs
  | ip
  | network
  | who
  deriving DecidableEq

namespace LatestMod

abbrev Rec : LatestMod → Type
  | dns => Dns
  | fs => FsStat
  | ip => Interface
  | network => RtnlLink
  | who => LoginUser

abbrev Env : LatestMod → Type
  | dns => Option (List UInt32)
  | fs => Option (List Mntent)
  | ip => Option (List IfAddr)
  | network => Option (List IfAddr)
  | who => List Utmp

/-- The records a query finds; `none` is undefined behaviour. -/
def entries : (m : LatestMod) → m.Env → Option (List m.Rec)
  | dns => fun nsaddrs => some (getDns nsaddrs)
  | fs => fun mtab => some (readFsStat mtab)
  | ip => fun ifaddr => match ifaddr with
    | none => some []
    | some l => ipEntries false l
  | network => fun ifaddr => some (getNetwork ifaddr)
  | who => fun utmp => some (getLoginUser utmp)

def query : (m : LatestMod) → m.Env → Heap m.Rec → ℕ → Option (Heap m.Rec)
  | dns => fun nsaddrs => appendAll (getDns nsaddrs)
  | fs => fun mtab => appendAll (readFsStat mtab)
  | ip => getIpAddr
  | network => fun ifaddr => appendAll (getNetwork ifaddr)
  | who => fun utmp => appendAll (getLoginUser utmp)

theorem query_spec (m : LatestMod) (env : m.Env) {h : Heap m.Rec} {head : ℕ}
    (hr : IsRing h head []) :
    (m.entries env = none ∧ m.query env h head = none) ∨
      ∃ vals h' nodes, m.entries env = some vals ∧ m.query env h head = some h' ∧
        Queried h head [] vals h' nodes := by
  -- four of the five link a node for each record they find
  have hall (vals : List m.Rec) (he : m.entries env = some vals)
      (hq : m.query env h head = appendAll vals h head) :
      ∃ vals h' nodes, m.entries env = some vals ∧ m.query env h head = some h' ∧
        Queried h head [] vals h' nodes := by
    obtain ⟨h', nodes, happ, hspec, -⟩ := appendAll_queried hr vals
    exact ⟨vals, h', nodes, he, hq.trans happ, hspec⟩
  cases m with
  | dns => exact .inr (hall (getDns env) rfl rfl)
  | fs => exact .inr (hall (readFsStat env) rfl rfl)
  | network => exact .inr (hall (getNetwork env) rfl rfl)
  | who => exact .inr (hall (getLoginUser env) rfl rfl)
  | ip =>
    cases env with
    | none =>
      exact .inr ⟨[], h, [], rfl, rfl, hr, fun x hx => (List.not_mem_nil hx).elim,
        fun x => by simp, rfl⟩
    | some l =>
      rcases getIpAddr_entries hr l with ⟨hnone, hcrash⟩ | ⟨h', nodes, vals, hvals, he, hq⟩
      · exact .inl ⟨hnone, hcrash⟩
      · exact .inr ⟨vals, h', nodes, hvals, he, hq.1, hq.2.1, hq.2.2.1, hq.2.2.2⟩

def collectRecord (m : LatestMod) (env : m.Env) (h : Heap m.Rec) : Option (Heap m.Rec) :=
  collectLatest (m.query env) h 0

def run (m : LatestMod) (envs : List m.Env) : Option (Heap m.Rec) :=
  cycles m.collectRecord envs (Heap.empty.malloc none)

def freeRecordList (m : LatestMod) (h : Heap m.Rec) : Option (Heap m.Rec) := freeListHead h 0

/-- The list has the nodes `nodes`; the blocks in `lost` are allocated, but not on it. -/
structure Holds {m : LatestMod} (h : Heap m.Rec) (nodes lost : List ℕ) : Prop where
  ring : IsRing h 0 nodes
  live : ∀ x, h.Live x ↔ x = 0 ∨ x ∈ nodes ∨ x ∈ lost
  out : ∀ x ∈ lost, x ∉ 0 :: nodes

theorem collectRecord_holds {m : LatestMod} {env : m.Env} {h h' : Heap m.Rec}
    {nodes lost : List ℕ} (hh : Holds h nodes lost) (hc : m.collectRecord env h = some h') :
    ∃ vals nodes', m.entries env = some vals ∧ Holds h' nodes' (lost ++ nodes) ∧
      nodes'.map h'.val? = vals.map some ∧ ∀ x ∈ nodes', h.fresh ≤ x := by
  obtain ⟨h1, he, r1, hlive, hfresh⟩ := collectLatest_eq (m.query env) hh.ring
  rw [collectRecord, he] at hc
  rcases m.query_spec env r1 with ⟨-, hnone⟩ | ⟨vals, h2, nodes', hvals, he2, hq⟩
  · rw [hnone] at hc
    cases hc
  · obtain rfl : h2 = h' := Option.some.inj (he2.symm.trans hc)
    -- the nodes of this collection are not among the old ones, which are live still
    have hnew : ∀ x ∈ nodes', ¬h1.Live x := by
      intro x hx hl
      have := hq.new x hx
      have := hl.lt
      omega
    refine ⟨vals, nodes', hvals, ⟨hq.ring, ?_, ?_⟩, hq.values, hfresh ▸ hq.new⟩
    · intro x
      rw [hq.live, hlive, hh.live, List.mem_append]
      tauto
    · intro x hx hx'
      have hxl : h1.Live x := by
        rw [hlive, hh.live]
        rcases List.mem_append.mp hx with hx | hx
        · exact .inr (.inr hx)
        · exact .inr (.inl hx)
      rcases List.mem_cons.mp hx' with rfl | hx'
      · rcases List.mem_append.mp hx with hx | hx
        · exact hh.out 0 hx List.mem_cons_self
        · exact (List.nodup_cons.mp hh.ring.nodup).1 hx
      · exact hnew x hx' hxl

theorem entries_eq_none {m : LatestMod} {env : m.Env} {h : Heap m.Rec} {nodes lost : List ℕ}
    (hh : Holds h nodes lost) (hc : m.collectRecord env h = none) : m.entries env = none := by
  obtain ⟨h1, he, r1, -⟩ := collectLatest_eq (m.query env) hh.ring
  rw [collectRecord, he] at hc
  rcases m.query_spec env r1 with ⟨hnone, -⟩ | ⟨vals, h2, nodes', -, he2, -⟩
  · exact hnone
  · rw [hc] at he2
    cases he2

theorem empty_holds {m : LatestMod} :
    Holds ((Heap.empty : Heap m.Rec).malloc none) [] [] where
  ring := emptyList_ring
  live x := by
    rw [Heap.malloc_live, or_iff_left Heap.not_live_empty]
    simp [Heap.empty]
  out x hx := (List.not_mem_nil hx).elim

theorem run_holds {m : LatestMod} {envs : List m.Env} {h : Heap m.Rec}
    (hrun : m.run envs = some h) :
    ∃ nodes lost, Holds h nodes lost ∧
      (nodes = [] ↔ ∀ env ∈ envs.getLast?, m.entries env = some []) ∧
      (lost = [] ↔ ∀ env ∈ envs.dropLast, m.entries env = some []) := by
  induction envs using List.reverseRecOn generalizing h with
  | nil =>
    obtain rfl := Option.some.inj hrun
    exact ⟨[], [], empty_holds, by simp, by simp⟩
  | append_singleton envs env ih =>
    rw [run, cycles_concat] at hrun
    obtain ⟨h1, h1run, hc⟩ := Option.bind_eq_some_iff.mp hrun
    obtain ⟨nodes, lost, hh, hlast, hlost⟩ := ih h1run
    obtain ⟨vals, nodes', hvals, hh', hmap, -⟩ := collectRecord_holds hh hc
    refine ⟨nodes', lost ++ nodes, hh', ?_, ?_⟩
    · have hlen : nodes'.length = vals.length := by
        simpa using congrArg List.length hmap
      have hiff : nodes' = [] ↔ vals = [] := by
        rw [← List.length_eq_zero_iff, hlen, List.length_eq_zero_iff]
      simp [hvals, hiff]
    · rw [List.dropLast_concat, List.append_eq_nil_iff, hlast, hlost]
      rcases List.eq_nil_or_concat envs with rfl | ⟨envs, last, rfl⟩
      · simp
      · simp only [List.concat_eq_append, List.dropLast_concat, List.getLast?_concat,
          Option.mem_some_iff, forall_eq', List.forall_mem_append, List.forall_mem_singleton]

end LatestMod

/-- `collect_record`, on what the nodes hold: `list_del_init` on a list that is not empty,
then the query. -/
def collectQuery (query : Option (List α)) (recordList : List α) : Option (List α) := do
  let recordList := if recordList ≠ [] then [] else recordList
  some (recordList ++ (← query))

theorem collectQuery_eq (query : Option (List α)) (l : List α) :
    collectQuery query l = query := by
  have hempty : (if l ≠ [] then [] else l) = [] := by
    split
    · rfl
    · next h => exact not_not.mp h
  unfold collectQuery
  cases query with
  | none => rfl
  | some xs => simp [hempty]

namespace LatestMod

theorem run_refines (m : LatestMod) (envs : List m.Env) :
    (m.run envs = none ∧ cycles (fun env => collectQuery (m.entries env)) envs [] = none) ∨
      ∃ h nodes lost l, m.run envs = some h ∧ Holds h nodes lost ∧
        cycles (fun env => collectQuery (m.entries env)) envs [] = some l ∧
        nodes.map h.val? = l.map some := by
  induction envs using List.reverseRecOn with
  | nil => exact .inr ⟨_, [], [], [], rfl, empty_holds, rfl, rfl⟩
  | append_singleton envs env ih =>
    rw [run, cycles_concat, cycles_concat]
    rw [run] at ih
    rcases ih with ⟨h1, h2⟩ | ⟨h, nodes, lost, l, h1, hh, h2, -⟩
    · rw [h1, h2]
      exact .inl ⟨rfl, rfl⟩
    · rw [h1, h2, Option.bind_some, Option.bind_some, collectQuery_eq]
      cases hc : m.collectRecord env h with
      | none => exact .inl ⟨rfl, entries_eq_none hh hc⟩
      | some h' =>
        obtain ⟨vals, nodes', hvals, hh', hmap, -⟩ := collectRecord_holds hh hc
        exact .inr ⟨h', nodes', lost ++ nodes, vals, rfl, hh', hvals, hmap⟩

/-- The list of `h'` consists of the nodes that the query after `h` has allocated, in both
directions, and no block that was there before is reached from it. -/
structure LastQuery {m : LatestMod} (h h' : Heap m.Rec) (vals : List m.Rec) (nodes : List ℕ) :
    Prop where
  forward : listForEachEntry h' 0 = some nodes
  backward : listForEachEntryReverse h' 0 = some nodes.reverse
  inverse : ∀ x ∈ 0 :: nodes, ∀ y ∈ 0 :: nodes, h'.next? x = some y ↔ h'.prev? y = some x
  distinct : nodes.Nodup
  values : nodes.map h'.val? = vals.map some
  new : ∀ x ∈ nodes, h.fresh ≤ x
  old : ∀ x, x < h.fresh → x ≠ 0 → ¬Connected h' 0 x

theorem exists_entries {m : LatestMod} (hm : m ≠ .ip) (env : m.Env) :
    ∃ vals, m.entries env = some vals := by
  cases m with
  | ip => exact absurd rfl hm
  | dns | fs | network | who => exact ⟨_, rfl⟩

theorem exists_run {m : LatestMod} (hm : m ≠ .ip) (envs : List m.Env) :
    ∃ h nodes lost, m.run envs = some h ∧ Holds h nodes lost := by
  induction envs using List.reverseRecOn with
  | nil => exact ⟨_, [], [], rfl, empty_holds⟩
  | append_singleton envs env ih =>
    obtain ⟨h, nodes, lost, hrun, hh⟩ := ih
    rw [run] at hrun
    rw [run, cycles_concat, hrun, Option.bind_some]
    cases hc : m.collectRecord env h with
    | none =>
      obtain ⟨vals, hvals⟩ := exists_entries hm env
      rw [entries_eq_none hh hc] at hvals
      cases hvals
    | some h' =>
      obtain ⟨vals, nodes', -, hh', -⟩ := collectRecord_holds hh hc
      exact ⟨h', nodes', lost ++ nodes, rfl, hh'⟩

/-- After every collection of a run the list is that of its query. -/
theorem run_lastQuery (m : LatestMod) (hm : m ≠ .ip) (envs : List m.Env) (env : m.Env) :
    ∃ h h' vals nodes, m.run envs = some h ∧ m.run (envs ++ [env]) = some h' ∧
      m.entries env = some vals ∧ LastQuery h h' vals nodes := by
  obtain ⟨h, nodes, lost, hrun, hh⟩ := exists_run hm envs
  obtain ⟨h', -, -, hrun', -⟩ := exists_run hm (envs ++ [env])
  have hc : m.collectRecord env h = some h' := by
    rw [run, cycles_concat] at hrun'
    rw [run] at hrun
    rwa [hrun, Option.bind_some] at hrun'
  obtain ⟨vals, nodes', hvals, hh', hmap, hnew⟩ := collectRecord_holds hh hc
  have hring := hh'.ring
  refine ⟨h, h', vals, nodes', hrun, hrun', hvals, listForEachEntry_ring hring,
    listForEachEntryReverse_ring hring, fun x hx y hy => hring.next_iff_prev hx hy,
    (List.nodup_cons.mp hring.nodup).2, hmap, hnew, ?_⟩
  intro x hx h0 hreach
  rcases List.mem_cons.mp (hring.mem_of_connected hreach) with h0' | hx'
  · exact h0 h0'
  · have := hnew x hx'
    omega

def nsaddr : UInt32 := 0x08080808

theorem run_lastQuery_dns :
    ∃ h h' vals nodes, run .dns [some [nsaddr]] = some h ∧
      run .dns ([some [nsaddr]] ++ [some [nsaddr, nsaddr]]) = some h' ∧
      entries .dns (some [nsaddr, nsaddr]) = some vals ∧ LastQuery h h' vals nodes :=
  run_lastQuery .dns (by decide) [some [nsaddr]] (some [nsaddr, nsaddr])

/-- Between the collections, and behind the last one, every allocated block is reached from
the list. -/
def AllReached (m : LatestMod) (envs : List m.Env) : Prop :=
  ∀ (k : ℕ) (h : Heap m.Rec), m.run (envs.take k) = some h → ∀ x, h.Live x → Reaches h 0 x

/-- In the end every block but the head has been freed exactly once. -/
def AllFreedOnce (m : LatestMod) (envs : List m.Env) : Prop :=
  ∀ h, m.run envs = some h → ∃ h', m.freeRecordList h = some h' ∧
    ∀ x, x < h'.fresh → x ≠ 0 → h'.freed.count x = 1

theorem holds_reached_iff {m : LatestMod} {h : Heap m.Rec} {nodes lost : List ℕ}
    (hh : Holds h nodes lost) : (∀ x, h.Live x → Reaches h 0 x) ↔ lost = [] := by
  constructor
  · intro hall
    by_contra hne
    obtain ⟨x, hx⟩ := List.exists_mem_of_ne_nil lost hne
    have hreach := hall x ((hh.live x).mpr (.inr (.inr hx)))
    exact hh.out x hx ((hh.ring.reaches_iff x).mp hreach)
  · rintro rfl x hx
    rw [hh.ring.reaches_iff, List.mem_cons]
    simpa using (hh.live x).mp hx

theorem holds_freed {m : LatestMod} {h : Heap m.Rec} {nodes : List ℕ} (hh : Holds h nodes []) :
    ∃ h', m.freeRecordList h = some h' ∧ ∀ x, x < h'.fresh → x ≠ 0 → h'.freed.count x = 1 := by
  obtain ⟨h', he, hfresh, hfreed, -⟩ := freeListHead_ring hh.ring
  refine ⟨h', he, fun x hx h0 => ?_⟩
  apply List.count_eq_one_of_mem h'.freed_nodup
  rw [hfreed, List.mem_append, List.mem_reverse]
  -- what is live is on the list, and what is not has been freed before
  by_cases hl : h.Live x
  · have := (hh.live x).mp hl
    simp only [h0, List.not_mem_nil, or_false, false_or] at this
    exact .inl this
  · rw [Heap.live_iff, not_and, not_not] at hl
    exact .inr (hl (hfresh ▸ hx))

/-- Nothing is lost exactly when every collection but the last finds no record. -/
theorem run_freed_iff (m : LatestMod) (envs : List m.Env) {h : Heap m.Rec}
    (hrun : m.run envs = some h) :
    (m.AllReached envs ∧ m.AllFreedOnce envs) ↔
      ∀ env ∈ envs.dropLast, m.entries env = some [] := by
  constructor
  · rintro ⟨hreach, -⟩
    obtain ⟨nodes, lost, hh, -, hlost⟩ := run_holds hrun
    rw [← hlost, ← holds_reached_iff hh]
    apply hreach envs.length h
    rwa [List.take_length]
  · intro hempty
    constructor
    · intro k hk hkrun
      obtain ⟨nodes, lost, hh, -, hlost⟩ := run_holds hkrun
      rw [holds_reached_iff hh, hlost]
      intro env henv
      apply hempty
      rw [List.dropLast_take_eq_take_dropLast] at henv
      exact List.mem_of_mem_take henv
    · intro h1 h1run
      obtain ⟨nodes, lost, hh, -, hlost⟩ := run_holds h1run
      obtain rfl := hlost.mpr hempty
      exact holds_freed hh

theorem run_freed_dns_once :
    AllReached .dns [none, some [nsaddr]] ∧ AllFreedOnce .dns [none, some [nsaddr]] := by
  obtain ⟨h, hrun⟩ : ∃ h, run .dns [none, some [nsaddr]] = some h := ⟨_, rfl⟩
  rw [run_freed_iff .dns _ hrun]
  decide

/-- Of two name servers the first is neither reached nor freed. -/
theorem run_lost_dns :
    ¬AllReached .dns [some [nsaddr], some [nsaddr]] ∧
      ¬AllFreedOnce .dns [some [nsaddr], some [nsaddr]] := by
  obtain ⟨h, hrun⟩ : ∃ h, run .dns [some [nsaddr], some [nsaddr]] = some h := ⟨_, rfl⟩
  constructor
  · intro hall
    have hring : IsRing h 0 [2] := by
      obtain rfl := Option.some.inj hrun
      exact ⟨by decide, ⟨rfl, rfl⟩, rfl, rfl⟩
    have hlive : h.Live 1 := by
      obtain rfl := Option.some.inj hrun
      exact rfl
    have hreach := hall 2 h hrun 1 hlive
    rw [hring.reaches_iff] at hreach
    revert hreach
    decide
  · intro hall
    obtain ⟨h', hfree, hcount⟩ := hall h hrun
    obtain rfl := Option.some.inj hrun
    obtain rfl := Option.some.inj hfree
    have h1 := hcount 1 (by decide) (by decide)
    revert h1
    decide

end LatestMod

end Zsr
