import Zsr.IoClock
import Zsr.LatestQuery
import Zsr.ModProc

/-!
# The modules with a list of lists, on the heap

The io and the proc module keep one inner list for each collection. The head of an inner
list lies in the node of the outer one, a `list_list_t`: its own links at the address of the
node, the head behind them. The head of the outer list is the block at address 0.
-/

namespace Zsr
open CLib

variable {α : Type}

/-- `malloc` of a `list_list_t`, at the old `fresh`. -/
def mallocListList (h : Heap α) : Heap α := (h.malloc none).malloc none

/-- `free` of a `list_list_t`: its links and the head in it go together. -/
def freeListList (h : Heap α) (a : ℕ) : Option (Heap α) := do
  let h ← h.free a
  h.free (a + 1)

def updateAll : List ℕ → List α → Heap α → Option (Heap α)
  | node :: nodes, v :: vals, h => do
    let h ← h.update node fun _ => v
    updateAll nodes vals h
  | _, _, h => some h

/-- A comparison of two lists. What it stores in the records of the first it does not read
again, so that all records can be read before. -/
def computeList (compute : List α → List α → Option (List α)) (h : Heap α) (cur prev : ℕ) :
    Option (Heap α) := do
  let nodes ← listForEachEntry h cur
  let curVals ← nodes.mapM h.val?
  let prevVals ← (← listForEachEntry h prev).mapM h.val?
  updateAll nodes (← compute curVals prevVals) h

/-- `collect_record`, around the query and the comparison with the list before. -/
def collectList (query : Heap α → ℕ → Option (Heap α))
    (compute : List α → List α → Option (List α)) (h : Heap α) (head : ℕ) :
    Option (Heap α) := do
  let cur := h.fresh
  let h ← initListHead (mallocListList h) (cur + 1)
  let h ← query h (cur + 1)
  let h ←
    if ← listEmpty h head then some h
    else do
      let prev ← h.prev? head
      computeList compute h (cur + 1) (prev + 1)
  listAddTail h cur head

/-- `free_record_list`: the inner list is swept before the node that holds its head. -/
def freeListLists (h : Heap α) (head : ℕ) : Option (Heap α) := do
  let pos ← h.next? head
  forEachEntrySafe (fun entryList h => do
    let h ← freeListHead h (entryList + 1)
    freeListList h entryList) head (h.fresh + 1) pos (← h.next? pos) h

/-- Between the heaps `nodes` with the records `vals` were allocated and linked behind `xs`;
of the blocks that were there only the links of that ring have changed. -/
structure Extended (h : Heap α) (head : ℕ) (xs : List ℕ) (vals : List α) (h' : Heap α)
    (nodes : List ℕ) : Prop where
  ring : IsRing h' head (xs ++ nodes)
  new : ∀ x ∈ nodes, h.fresh ≤ x
  values : nodes.map h'.val? = vals.map some
  fresh : h.fresh ≤ h'.fresh
  freed : h'.freed = h.freed
  val : ∀ x, x < h.fresh → h'.val? x = h.val? x
  next : ∀ x, x < h.fresh → x ∉ head :: xs → h'.next? x = h.next? x
  prev : ∀ x, x < h.fresh → x ∉ head :: xs → h'.prev? x = h.prev? x

namespace Extended

variable {h h' h'' : Heap α} {head : ℕ} {xs nodes nodes' : List ℕ} {vals vals' : List α}

theorem refl (hr : IsRing h head xs) : Extended h head xs [] h [] where
  ring := by rwa [List.append_nil]
  new x hx := (List.not_mem_nil hx).elim
  values := rfl
  fresh := le_rfl
  freed := rfl
  val _ _ := rfl
  next _ _ _ := rfl
  prev _ _ _ := rfl

theorem trans (h1 : Extended h head xs vals h' nodes)
    (h2 : Extended h' head (xs ++ nodes) vals' h'' nodes') :
    Extended h head xs (vals ++ vals') h'' (nodes ++ nodes') := by
  have hout {x : ℕ} (hx : x < h.fresh) (hm : x ∉ head :: xs) : x ∉ head :: (xs ++ nodes) := by
    rw [← List.cons_append, List.mem_append, not_or]
    exact ⟨hm, fun hn => (h1.new x hn).not_gt hx⟩
  refine ⟨by rw [← List.append_assoc]; exact h2.ring, fun x hx => ?_, ?_,
    h1.fresh.trans h2.fresh, h2.freed.trans h1.freed, fun x hx => ?_, fun x hx hm => ?_,
    fun x hx hm => ?_⟩
  · rcases List.mem_append.mp hx with hx | hx
    · exact h1.new x hx
    · exact h1.fresh.trans (h2.new x hx)
  · rw [List.map_append, List.map_append, h2.values, ← h1.values]
    congr 1
    apply List.map_congr_left
    intro x hx
    apply h2.val
    exact (h1.ring.live x (List.mem_cons_of_mem _ (List.mem_append_right xs hx))).lt
  · rw [h2.val x (hx.trans_le h1.fresh), h1.val x hx]
  · rw [h2.next x (hx.trans_le h1.fresh) (hout hx hm), h1.next x hx hm]
  · rw [h2.prev x (hx.trans_le h1.fresh) (hout hx hm), h1.prev x hx hm]

theorem leak (hr : IsRing h head xs) (v : Option α) :
    Extended h head xs [] (h.malloc v) [] where
  ring := by
    rw [List.append_nil]
    exact hr.malloc v
  new x hx := (List.not_mem_nil hx).elim
  values := rfl
  fresh := Nat.le_succ _
  freed := rfl
  val x hx := by rw [Heap.val?_malloc, if_neg hx.ne]
  next x hx _ := h.next?_malloc_of_ne v hx.ne
  prev x hx _ := h.prev?_malloc_of_ne v hx.ne

theorem link (hr : IsRing h head xs) (v : α) :
    ∃ h', listAddTail (h.malloc (some v)) h.fresh head = some h' ∧
      Extended h head xs [v] h' [h.fresh] := by
  obtain ⟨h', he, hring, hrelink⟩ := listAddTail_ring (hr.malloc (some v))
    ((h.malloc_live _ _).mpr (.inl rfl)) hr.fresh_not_mem
  have hout {x : ℕ} (hx : x < h.fresh) (hm : x ∉ head :: xs) : x ∉ h.fresh :: head :: xs := by
    rw [List.mem_cons, not_or]
    exact ⟨hx.ne, hm⟩
  refine ⟨h', he, hring, fun x hx => ?_, ?_, ?_, hrelink.freed, fun x hx => ?_,
    fun x hx hm => ?_, fun x hx hm => ?_⟩
  · rw [List.mem_singleton.mp hx]
  · rw [List.map_singleton, List.map_singleton, hrelink.val, Heap.val?_malloc, if_pos rfl]
  · rw [hrelink.fresh]
    exact Nat.le_succ _
  · rw [hrelink.val, Heap.val?_malloc, if_neg hx.ne]
  · rw [hrelink.next x (hout hx hm), h.next?_malloc_of_ne _ hx.ne]
  · rw [hrelink.prev x (hout hx hm), h.prev?_malloc_of_ne _ hx.ne]

theorem other (he : Extended h head xs vals h' nodes) {b : ℕ} {ys : List ℕ}
    (hr : IsRing h b ys) (hout : ∀ c ∈ b :: ys, c ∉ head :: xs) : IsRing h' b ys :=
  hr.frame (fun c hc => he.next c (hr.live c hc).lt (hout c hc))
    fun c hc => he.prev c (hr.live c hc).lt (hout c hc)

end Extended

theorem appendAll_extended {h : Heap α} {head : ℕ} {xs : List ℕ} (hr : IsRing h head xs)
    (vals : List α) :
    ∃ h' nodes, appendAll vals h head = some h' ∧ Extended h head xs vals h' nodes := by
  induction vals generalizing h xs with
  | nil => exact ⟨h, [], rfl, .refl hr⟩
  | cons v vals ih =>
    obtain ⟨h1, e1, hlink⟩ := Extended.link hr v
    obtain ⟨h', nodes, he, hext⟩ := ih hlink.ring
    refine ⟨h', h.fresh :: nodes, ?_, hlink.trans hext⟩
    rw [appendAll, List.foldlM_cons, e1]
    exact he

/-- The loop from line `i` on: a node is allocated for every line, and the one of an unknown
line is not linked. -/
def readIoLinesOn (env : IoEnv) (numOfCpu hz : UInt32) (head i : ℕ) :
    List Text → Heap Io → Option (Heap Io)
  | [], h => some h
  | buf :: bufs, h => do
    let uptime := getCpuTimeInJiffies (env.stat i)
    let uptime0 ← smpUptime numOfCpu hz (env.uptime i)
    match ← scanDisk buf with
    | none => some (h.malloc (some (.ofLine uptime uptime0 [] [])))
    | some (dev, v) =>
      let h ← listAddTail (h.malloc (some (.ofLine uptime uptime0 dev v))) h.fresh head
      readIoLinesOn env numOfCpu hz head (i + 1) bufs h

def readIoStatOn (env : IoEnv) (h : Heap Io) (head : ℕ) : Option (Heap Io) := do
  let numOfCpu ← getNumOfCpu env.cpus
  let hz ← getHZ env.ticks
  match env.diskstats with
  | none => some h
  | some s => readIoLinesOn env numOfCpu hz head 0 (fgetsLines LEN_256 s) h

theorem readIoLinesOn_spec (env : IoEnv) (numOfCpu hz : UInt32) {head i : ℕ} (bufs : List Text)
    {h : Heap Io} {xs : List ℕ} (hr : IsRing h head xs) :
    (readIoLines env numOfCpu hz i bufs = none ∧
        readIoLinesOn env numOfCpu hz head i bufs h = none) ∨
      ∃ vals h' nodes, readIoLines env numOfCpu hz i bufs = some vals ∧
        readIoLinesOn env numOfCpu hz head i bufs h = some h' ∧
        Extended h head xs vals h' nodes := by
  induction bufs generalizing i h xs with
  | nil => exact .inr ⟨[], h, [], rfl, rfl, .refl hr⟩
  | cons buf bufs ih =>
    simp only [readIoLines, readIoLinesOn, Option.bind_eq_bind]
    cases smpUptime numOfCpu hz (env.uptime i) with
    | none => exact .inl ⟨rfl, rfl⟩
    | some uptime0 =>
      simp only [Option.bind_some]
      cases scanDisk buf with
      | none => exact .inl ⟨rfl, rfl⟩
      | some line =>
        cases line with
        | none => exact .inr ⟨[], _, [], rfl, rfl, .leak hr _⟩
        | some line =>
          obtain ⟨dev, v⟩ := line
          obtain ⟨h1, e1, hlink⟩ := Extended.link hr
            (Io.ofLine (getCpuTimeInJiffies (env.stat i)) uptime0 dev v)
          simp only [Option.bind_some, e1]
          rcases ih (i := i + 1) hlink.ring with ⟨hnone, hnone'⟩ | ⟨vals, h', nodes, hv, he, hext⟩
          · exact .inl ⟨by rw [hnone, Option.bind_none], hnone'⟩
          · exact .inr ⟨_, h', _, by rw [hv, Option.bind_some]; rfl, he, hlink.trans hext⟩

/-- Records at `s` were stored to, and nothing else has changed. -/
structure StoredAt (s : List ℕ) (h h' : Heap α) : Prop where
  fresh : h'.fresh = h.fresh
  freed : h'.freed = h.freed
  next : ∀ x, h'.next? x = h.next? x
  prev : ∀ x, h'.prev? x = h.prev? x
  val : ∀ x, x ∉ s → h'.val? x = h.val? x

namespace StoredAt

variable {s : List ℕ} {h h' h'' : Heap α}

theorem refl (s : List ℕ) (h : Heap α) : StoredAt s h h :=
  ⟨rfl, rfl, fun _ => rfl, fun _ => rfl, fun _ _ => rfl⟩

theorem cons {a : ℕ} (h1 : StoredAt [a] h h') (h2 : StoredAt s h' h'') :
    StoredAt (a :: s) h h'' where
  fresh := h2.fresh.trans h1.fresh
  freed := h2.freed.trans h1.freed
  next x := (h2.next x).trans (h1.next x)
  prev x := (h2.prev x).trans (h1.prev x)
  val x hx := by
    rw [List.mem_cons, not_or] at hx
    rw [h2.val x hx.2, h1.val x (by rw [List.mem_singleton]; exact hx.1)]

theorem live (hs : StoredAt s h h') (x : ℕ) : h'.Live x ↔ h.Live x := by
  rw [Heap.live_iff, Heap.live_iff, hs.fresh, hs.freed]

theorem ring {head : ℕ} {xs : List ℕ} (hs : StoredAt s h h') (hr : IsRing h head xs) :
    IsRing h' head xs :=
  hr.frame (fun c _ => hs.next c) fun c _ => hs.prev c

end StoredAt

theorem update_spec {h : Heap α} {a : ℕ} {v : α} (hv : h.val? a = some v) (v' : α) :
    ∃ h', h.update a (fun _ => v') = some h' ∧ StoredAt [a] h h' ∧ h'.val? a = some v' := by
  have hval := h.val?_write_val a (f := fun _ => v')
  refine ⟨_, Heap.modify_of_live (Heap.val?_eq_some_live hv) _, ?_, ?_⟩
  · refine ⟨rfl, rfl, fun x => h.next?_write_val a x _, fun x => h.prev?_write_val a x _, ?_⟩
    intro x hx
    rw [hval, if_neg (by rwa [List.mem_singleton] at hx)]
  · rw [hval, if_pos rfl, hv]
    rfl

theorem updateAll_spec {nodes : List ℕ} {vals vals' : List α} {h : Heap α} (hnd : nodes.Nodup)
    (hvals : nodes.map h.val? = vals.map some) (hlen : vals'.length = vals.length) :
    ∃ h', updateAll nodes vals' h = some h' ∧ StoredAt nodes h h' ∧
      nodes.map h'.val? = vals'.map some := by
  induction nodes generalizing vals vals' h with
  | nil =>
    obtain rfl : vals = [] := by simpa using hvals.symm
    obtain rfl := List.length_eq_zero_iff.mp hlen
    exact ⟨h, rfl, .refl [] h, rfl⟩
  | cons node nodes ih =>
    cases vals with
    | nil => cases hvals
    | cons v vals =>
      obtain ⟨v', vals', rfl⟩ := List.exists_cons_of_length_eq_add_one hlen
      simp only [List.map_cons, List.cons.injEq] at hvals
      rw [List.nodup_cons] at hnd
      obtain ⟨h1, e1, hs1, hv1⟩ := update_spec hvals.1 v'
      have hrest : nodes.map h1.val? = vals.map some := by
        rw [← hvals.2]
        apply List.map_congr_left
        intro x hx
        apply hs1.val
        rw [List.mem_singleton]
        rintro rfl
        exact hnd.1 hx
      obtain ⟨h', he, hs, hv⟩ := ih hnd.2 hrest (Nat.succ.inj hlen)
      refine ⟨h', ?_, hs1.cons hs, ?_⟩
      · simp only [updateAll, e1, Option.bind_eq_bind, Option.bind_some, he]
      · rw [List.map_cons, List.map_cons, hs.val node hnd.1, hv1, hv]

theorem mapM_of_map_eq {β : Type} {f : ℕ → Option β} {l : List ℕ} {l' : List β}
    (h : l.map f = l'.map some) : l.mapM f = some l' := by
  induction l generalizing l' with
  | nil =>
    obtain rfl : l' = [] := by simpa using h.symm
    rfl
  | cons a l ih =>
    cases l' with
    | nil => cases h
    | cons b l' =>
      simp only [List.map_cons, List.cons.injEq] at h
      rw [List.mapM_cons, h.1, ih h.2]
      rfl

theorem computeList_eq {compute : List α → List α → Option (List α)} {h : Heap α}
    {cur prev : ℕ} {xs ys : List ℕ} {curVals prevVals : List α} (hcur : IsRing h cur xs)
    (hprev : IsRing h prev ys) (hx : xs.map h.val? = curVals.map some)
    (hy : ys.map h.val? = prevVals.map some) :
    computeList compute h cur prev =
      (compute curVals prevVals).bind fun vals => updateAll xs vals h := by
  simp only [computeList, listForEachEntry_ring hcur, listForEachEntry_ring hprev,
    mapM_of_map_eq hx, mapM_of_map_eq hy, Option.bind_eq_bind, Option.bind_some]

/-- The blocks of one inner list: its node with the head in it, and the nodes. -/
def blocks (p : ℕ × List ℕ) : List ℕ := p.1 :: (p.1 + 1) :: p.2

theorem blocks_perm (lists : List (ℕ × List ℕ)) : (lists.flatMap blocks).Perm
    (lists.map Prod.fst ++ lists.flatMap fun p => (p.1 + 1) :: p.2) := by
  induction lists with
  | nil => exact .nil
  | cons p lists ih =>
    rw [List.flatMap_cons, List.map_cons, List.flatMap_cons]
    exact (ih.append_left _).trans ((List.perm_append_comm_assoc _ _ _).cons p.1)

/-- The module holds the lists `recordList`, on the nodes `lists`. -/
structure HoldsLists (h : Heap α) (lists : List (ℕ × List ℕ)) (recordList : List (List α)) :
    Prop where
  outer : IsRing h 0 (lists.map Prod.fst)
  inner : ∀ p ∈ lists, IsRing h (p.1 + 1) p.2
  nodup : (0 :: lists.flatMap blocks).Nodup
  values : lists.map (fun p => p.2.map h.val?) = recordList.map (List.map some)
  freed : h.freed = []

/-- The blocks below `n` are as they were. -/
structure Kept (n : ℕ) (h h' : Heap α) : Prop where
  next : ∀ x, x < n → h'.next? x = h.next? x
  prev : ∀ x, x < n → h'.prev? x = h.prev? x
  val : ∀ x, x < n → h'.val? x = h.val? x

theorem Kept.trans {n : ℕ} {h h' h'' : Heap α} (h1 : Kept n h h') (h2 : Kept n h' h'') :
    Kept n h h'' where
  next x hx := (h2.next x hx).trans (h1.next x hx)
  prev x hx := (h2.prev x hx).trans (h1.prev x hx)
  val x hx := (h2.val x hx).trans (h1.val x hx)

theorem mallocListList_kept (h : Heap α) : Kept h.fresh h (mallocListList h) where
  next x hx := by
    rw [mallocListList, Heap.next?_malloc_of_ne _ _ (hx.trans (Nat.lt_succ_self _)).ne,
      Heap.next?_malloc_of_ne _ _ hx.ne]
  prev x hx := by
    rw [mallocListList, Heap.prev?_malloc_of_ne _ _ (hx.trans (Nat.lt_succ_self _)).ne,
      Heap.prev?_malloc_of_ne _ _ hx.ne]
  val x hx := by
    have hx' : x ≠ (h.malloc none).fresh := (hx.trans (Nat.lt_succ_self _)).ne
    rw [mallocListList, Heap.val?_malloc, if_neg hx', Heap.val?_malloc, if_neg hx.ne]

theorem mallocListList_live (h : Heap α) (x : ℕ) :
    (mallocListList h).Live x ↔ x = h.fresh + 1 ∨ x = h.fresh ∨ h.Live x := by
  rw [mallocListList, Heap.malloc_live, Heap.malloc_live]
  exact Iff.rfl

namespace HoldsLists

variable {h h' : Heap α} {lists : List (ℕ × List ℕ)} {recordList : List (List α)}

theorem live (hh : HoldsLists h lists recordList) : ∀ c ∈ 0 :: lists.flatMap blocks, h.Live c := by
  intro c hc
  rcases List.mem_cons.mp hc with rfl | hc
  · exact hh.outer.head_live
  · obtain ⟨p, hp, hcp⟩ := List.mem_flatMap.mp hc
    rcases List.mem_cons.mp hcp with rfl | hcp
    · exact hh.outer.live _ (List.mem_cons_of_mem _ (List.mem_map_of_mem hp))
    · exact (hh.inner p hp).live c hcp

theorem inner_mem {p : ℕ × List ℕ} (hp : p ∈ lists) {c : ℕ} (hc : c ∈ (p.1 + 1) :: p.2) :
    c ∈ lists.flatMap blocks :=
  List.mem_flatMap.mpr ⟨p, hp, List.mem_cons_of_mem _ hc⟩

theorem outer_mem {c : ℕ} (hc : c ∈ lists.map Prod.fst) : c ∈ lists.flatMap blocks := by
  obtain ⟨p, hp, rfl⟩ := List.mem_map.mp hc
  exact List.mem_flatMap.mpr ⟨p, hp, List.mem_cons_self⟩

theorem blocks_nodup (hh : HoldsLists h lists recordList) {p : ℕ × List ℕ} (hp : p ∈ lists) :
    (blocks p).Nodup :=
  (List.nodup_flatMap.mp (List.nodup_cons.mp hh.nodup).2).1 p hp

theorem ring_mem {c : ℕ} (hc : c ∈ 0 :: lists.map Prod.fst) : c ∈ 0 :: lists.flatMap blocks := by
  rcases List.mem_cons.mp hc with rfl | hc
  · exact List.mem_cons_self
  · exact List.mem_cons_of_mem _ (outer_mem hc)

theorem inner_not_ring (hh : HoldsLists h lists recordList) {p : ℕ × List ℕ} (hp : p ∈ lists)
    {c : ℕ} (hc : c ∈ (p.1 + 1) :: p.2) : c ∉ 0 :: lists.map Prod.fst := by
  have hnd := List.nodup_cons.mp hh.nodup
  intro hm
  rcases List.mem_cons.mp hm with rfl | hm
  · exact hnd.1 (inner_mem hp hc)
  · have hdis := (List.nodup_append.mp ((blocks_perm lists).nodup_iff.mp hnd.2)).2.2
    exact hdis c hm c (List.mem_flatMap.mpr ⟨p, hp, hc⟩) rfl

theorem kept (hh : HoldsLists h lists recordList) {n : ℕ}
    (hold : ∀ c ∈ 0 :: lists.flatMap blocks, c < n) (hk : Kept n h h')
    (hfreed : h'.freed = h.freed) : HoldsLists h' lists recordList := by
  have hb {c : ℕ} (hc : c ∈ 0 :: lists.map Prod.fst) : c < n := hold c (ring_mem hc)
  have hi {p : ℕ × List ℕ} (hp : p ∈ lists) {c : ℕ} (hc : c ∈ (p.1 + 1) :: p.2) : c < n :=
    hold c (List.mem_cons_of_mem _ (inner_mem hp hc))
  refine ⟨?_, fun p hp => ?_, hh.nodup, ?_, hfreed.trans hh.freed⟩
  · exact hh.outer.frame (fun c hc => hk.next c (hb hc)) fun c hc => hk.prev c (hb hc)
  · exact (hh.inner p hp).frame (fun c hc => hk.next c (hi hp hc)) fun c hc => hk.prev c (hi hp hc)
  · rw [← hh.values]
    apply List.map_congr_left
    intro p hp
    apply List.map_congr_left
    exact fun c hc => hk.val c (hi hp (List.mem_cons_of_mem _ hc))

theorem push (hh : HoldsLists h lists recordList) {cur : ℕ} {nodes : List ℕ} {vals : List α}
    (hring : IsRing h (cur + 1) nodes) (hvals : nodes.map h.val? = vals.map some)
    (hlive : h.Live cur) (hnew : (blocks (cur, nodes)).Nodup)
    (hout : ∀ c ∈ blocks (cur, nodes), c ∉ 0 :: lists.flatMap blocks) :
    ∃ h', listAddTail h cur 0 = some h' ∧
      HoldsLists h' (lists ++ [(cur, nodes)]) (recordList ++ [vals]) := by
  have hcur : cur ∉ 0 :: lists.map Prod.fst := fun hm =>
    hout cur List.mem_cons_self (ring_mem hm)
  obtain ⟨h', he, hr, hrelink⟩ := listAddTail_ring hh.outer hlive hcur
  have hold : ∀ p ∈ lists, ∀ c ∈ (p.1 + 1) :: p.2, c ∉ cur :: 0 :: lists.map Prod.fst := by
    intro p hp c hc
    rw [List.mem_cons, not_or]
    refine ⟨?_, hh.inner_not_ring hp hc⟩
    rintro rfl
    exact hout c List.mem_cons_self (List.mem_cons_of_mem _ (inner_mem hp hc))
  have hnew' : ∀ c ∈ (cur + 1) :: nodes, c ∉ cur :: 0 :: lists.map Prod.fst := by
    intro c hc
    rw [List.mem_cons, not_or]
    refine ⟨?_, fun hm => hout c (List.mem_cons_of_mem _ hc) (ring_mem hm)⟩
    rintro rfl
    exact (List.nodup_cons.mp hnew).1 hc
  refine ⟨h', he, ?_, fun p hp => ?_, ?_, ?_, hrelink.freed.trans hh.freed⟩
  · rwa [List.map_append, List.map_singleton]
  · rcases List.mem_append.mp hp with hp | hp
    · exact hrelink.ring (hh.inner p hp) (hold p hp)
    · obtain rfl := List.mem_singleton.mp hp
      exact hrelink.ring hring hnew'
  · rw [List.flatMap_append, List.flatMap_singleton, ← List.cons_append]
    exact List.nodup_append.mpr ⟨hh.nodup, hnew, fun a ha b hb hab => hout b hb (hab ▸ ha)⟩
  · have hval : h'.val? = h.val? := funext hrelink.val
    rw [List.map_append, List.map_append, List.map_singleton, List.map_singleton, hval,
      hh.values, hvals]

end HoldsLists

/-- `collect_record`, on the contents of the lists. -/
def collectValues (query : Option (List α)) (compute : List α → List α → Option (List α))
    (recordList : List (List α)) : Option (List (List α)) := do
  let cur ← query
  let cur ←
    match recordList.getLast? with
    | none => some cur
    | some prev => compute cur prev
  some (recordList ++ [cur])

/-- The list of the node `cur` has been filled, and is not on the outer ring yet. -/
structure Collecting (h : Heap α) (cur : ℕ) (nodes : List ℕ) (vals : List α)
    (lists : List (ℕ × List ℕ)) (recordList : List (List α)) : Prop where
  holds : HoldsLists h lists recordList
  ring : IsRing h (cur + 1) nodes
  values : nodes.map h.val? = vals.map some
  live : h.Live cur
  new : ∀ x ∈ nodes, cur + 1 < x
  old : ∀ c ∈ 0 :: lists.flatMap blocks, c < cur

section Collect

variable {h h' : Heap α} {lists : List (ℕ × List ℕ)} {recordList : List (List α)} {cur : ℕ}
  {nodes : List ℕ} {vals vals' : List α}

theorem initListHead_collecting (hh : HoldsLists h lists recordList) :
    ∃ h', initListHead (mallocListList h) (h.fresh + 1) = some h' ∧
      h'.fresh = h.fresh + 2 ∧ Collecting h' h.fresh [] [] lists recordList := by
  obtain ⟨h', he, hring, hrelink⟩ :=
    initListHead_ring ((mallocListList_live h (h.fresh + 1)).mpr (.inl rfl))
  have hout {x : ℕ} (hx : x < h.fresh) : x ∉ [h.fresh + 1] := by
    rw [List.mem_singleton]
    omega
  have hkept : Kept h.fresh h h' :=
    (mallocListList_kept h).trans ⟨fun x hx => hrelink.next x (hout hx),
      fun x hx => hrelink.prev x (hout hx), fun x _ => hrelink.val x⟩
  have hold : ∀ c ∈ 0 :: lists.flatMap blocks, c < h.fresh := fun c hc => (hh.live c hc).lt
  refine ⟨h', he, hrelink.fresh, hh.kept hold hkept hrelink.freed, hring, rfl, ?_,
    fun x hx => (List.not_mem_nil hx).elim, hold⟩
  rw [hrelink.live, mallocListList_live]
  exact .inr (.inl rfl)

theorem Collecting.extend (hc : Collecting h cur [] [] lists recordList)
    (hfresh : h.fresh = cur + 2) (he : Extended h (cur + 1) [] vals h' nodes) :
    Collecting h' cur nodes vals lists recordList := by
  have hkept : Kept cur h h' := by
    have hlt {x : ℕ} (hx : x < cur) : x < h.fresh := by omega
    have hne {x : ℕ} (hx : x < cur) : x ∉ [cur + 1] := by
      rw [List.mem_singleton]
      omega
    exact ⟨fun x hx => he.next x (hlt hx) (hne hx), fun x hx => he.prev x (hlt hx) (hne hx),
      fun x hx => he.val x (hlt hx)⟩
  have hnext : h'.next? cur = h.next? cur := by
    apply he.next cur (by omega)
    simp
  refine ⟨hc.holds.kept hc.old hkept he.freed, he.ring, he.values, ?_, fun x hx => ?_, hc.old⟩
  · obtain ⟨d, hd⟩ := Heap.exists_next hc.live
    exact Heap.next?_eq_some_live (hnext.trans hd)
  · have := he.new x hx
    omega

theorem Collecting.update (hc : Collecting h cur nodes vals lists recordList)
    (hlen : vals'.length = vals.length) :
    ∃ h', updateAll nodes vals' h = some h' ∧
      Collecting h' cur nodes vals' lists recordList := by
  obtain ⟨h', he, hs, hvals⟩ :=
    updateAll_spec (List.nodup_cons.mp hc.ring.nodup).2 hc.values hlen
  have hk : Kept cur h h' := by
    refine ⟨fun x _ => hs.next x, fun x _ => hs.prev x, fun x hx => hs.val x fun hm => ?_⟩
    have := hc.new x hm
    omega
  exact ⟨h', he, hc.holds.kept hc.old hk hs.freed, hs.ring hc.ring, hvals,
    (hs.live cur).mpr hc.live, hc.new, hc.old⟩

theorem Collecting.link (hc : Collecting h cur nodes vals lists recordList) :
    ∃ h', listAddTail h cur 0 = some h' ∧
      HoldsLists h' (lists ++ [(cur, nodes)]) (recordList ++ [vals]) := by
  apply hc.holds.push hc.ring hc.values hc.live
  · refine List.nodup_cons.mpr ⟨fun hm => ?_, hc.ring.nodup⟩
    rcases List.mem_cons.mp hm with h | hm
    · omega
    · have := hc.new cur hm
      omega
  · intro c hm hm'
    have hlt := hc.old c hm'
    simp only [blocks, List.mem_cons] at hm
    rcases hm with rfl | rfl | hm
    · omega
    · omega
    · have := hc.new c hm
      omega

theorem HoldsLists.getLast? (hh : HoldsLists h lists recordList) :
    (lists = [] ∧ recordList = []) ∨ ∃ (p : ℕ × List ℕ) (prevVals : List α),
      recordList.getLast? = some prevVals ∧ p ∈ lists ∧ h.prev? 0 = some p.1 ∧
        p.2.map h.val? = prevVals.map some := by
  rcases List.eq_nil_or_concat lists with rfl | ⟨lists, p, rfl⟩
  · left
    exact ⟨rfl, by simpa using hh.values.symm⟩
  · right
    rw [List.concat_eq_append] at hh
    have hv := hh.values
    rw [List.map_append, List.map_singleton] at hv
    obtain ⟨as, bs, rfl, -, hbs⟩ := List.map_eq_append_iff.mp hv.symm
    obtain ⟨prevVals, rfl, hp⟩ := List.map_eq_singleton_iff.mp hbs
    refine ⟨p, prevVals, List.getLast?_concat, by simp, ?_, hp.symm⟩
    rw [hh.outer.prev_head]
    simp

end Collect

/-- A collection on the heap and on the contents of the lists goes the same way, and adds one
list. -/
theorem collectList_spec {query : Heap α → ℕ → Option (Heap α)} {found : Option (List α)}
    {compute : List α → List α → Option (List α)}
    (hquery : ∀ {h : Heap α} {head : ℕ}, IsRing h head [] →
      (found = none ∧ query h head = none) ∨ ∃ vals h' nodes, found = some vals ∧
        query h head = some h' ∧ Extended h head [] vals h' nodes)
    (hcompute : ∀ {cur prev out}, compute cur prev = some out → out.length = cur.length)
    {h : Heap α} {lists : List (ℕ × List ℕ)} {recordList : List (List α)}
    (hh : HoldsLists h lists recordList) :
    (collectValues found compute recordList = none ∧ collectList query compute h 0 = none) ∨
      ∃ h' p recordList', collectValues found compute recordList = some recordList' ∧
        collectList query compute h 0 = some h' ∧ HoldsLists h' (lists ++ [p]) recordList' := by
  obtain ⟨h1, e1, hfresh, hc1⟩ := initListHead_collecting hh
  simp only [collectValues, collectList, e1, Option.bind_eq_bind, Option.bind_some]
  rcases hquery hc1.ring with ⟨hnone, hnone'⟩ | ⟨vals, h2, nodes, hfound, e2, hext⟩
  · left
    rw [hnone, hnone']
    exact ⟨rfl, rfl⟩
  · have hc2 := hc1.extend hfresh hext
    rw [hfound, e2]
    simp only [Option.bind_some, listEmpty_ring hc2.holds.outer]
    rcases hc2.holds.getLast? with ⟨rfl, rfl⟩ | ⟨p, prevVals, hlast, hp, hprev, hvals⟩
    · obtain ⟨h', he, hdone⟩ := hc2.link
      exact .inr ⟨h', _, _, rfl, by simpa using he, hdone⟩
    · have hne : lists.map Prod.fst ≠ [] := List.ne_nil_of_mem (List.mem_map_of_mem hp)
      rw [hlast, decide_eq_false hne]
      simp only [Bool.false_eq_true, if_false, hprev, Option.bind_some,
        computeList_eq hc2.ring (hc2.holds.inner p hp) hc2.values hvals]
      cases hout : compute vals prevVals with
      | none => exact .inl ⟨rfl, rfl⟩
      | some out =>
        obtain ⟨h3, e3, hc3⟩ := hc2.update (hcompute hout)
        obtain ⟨h', he, hdone⟩ := hc3.link
        refine .inr ⟨h', _, _, rfl, ?_, hdone⟩
        simp only [Option.bind_some, e3, he]

/-- The blocks of one inner list, in the order in which they are freed. -/
def freeOrder (p : ℕ × List ℕ) : List ℕ := p.2 ++ [p.1, p.1 + 1]

theorem freeOrder_perm (p : ℕ × List ℕ) : (freeOrder p).Perm (blocks p) :=
  List.perm_append_comm

theorem freeListList_spec {h : Heap α} {a : ℕ} (ha : h.Live a) (ha1 : h.Live (a + 1)) :
    ∃ h', freeListList h a = some h' ∧ h'.fresh = h.fresh ∧ h'.freed = (a + 1) :: a :: h.freed ∧
      ∀ c, c ≠ a → c ≠ a + 1 → h'.cell c = h.cell c := by
  have hlive : (h.release a ha).Live (a + 1) := by
    rw [Heap.release_live]
    exact ⟨Nat.succ_ne_self a, ha1⟩
  refine ⟨(h.release a ha).release (a + 1) hlive, ?_, rfl, rfl, fun c hc hc1 => ?_⟩
  · rw [freeListList, Heap.free_of_live ha]
    exact Heap.free_of_live hlive
  · rw [Heap.release_cell_of_ne _ _ _ hc1, Heap.release_cell_of_ne _ _ _ hc]

/-- The lists in front of those whose nodes are `ys` have been freed, and nothing else has
changed. -/
structure SweptLists (h : Heap α) (lists : List (ℕ × List ℕ)) (ys : List ℕ) (h' : Heap α) :
    Prop where
  fresh : h'.fresh = h.fresh
  done : ∃ ps rest, ps ++ rest = lists ∧ rest.map Prod.fst = ys ∧
    h'.freed = (ps.flatMap freeOrder).reverse ++ h.freed ∧
    ∀ c, c ∉ ps.flatMap blocks → h'.cell c = h.cell c

namespace SweptLists

variable {h h' : Heap α} {lists : List (ℕ × List ℕ)} {recordList : List (List α)} {y : ℕ}
  {ys : List ℕ}

theorem head_live (hh : HoldsLists h lists recordList) (hs : SweptLists h lists ys h') :
    h'.Live 0 := by
  obtain ⟨ps, rest, rfl, -, -, hcell⟩ := hs.done
  have hout : 0 ∉ ps.flatMap blocks := by
    intro hm
    apply (List.nodup_cons.mp hh.nodup).1
    rw [List.flatMap_append]
    exact List.mem_append_left _ hm
  rw [Heap.Live, hcell 0 hout]
  exact hh.outer.head_live

theorem path (hh : HoldsLists h lists recordList) (hs : SweptLists h lists (y :: ys) h') :
    Path h' y ys 0 := by
  obtain ⟨ps, rest, rfl, hrest, -, hcell⟩ := hs.done
  have hr := hh.outer
  rw [List.map_append, hrest] at hr
  have hnd := (List.nodup_cons.mp hh.nodup).2
  rw [List.flatMap_append] at hnd
  have hdis := (List.nodup_append.mp hnd).2.2
  apply (links_append.mp hr.links).2.path.frame
  intro c hc
  rw [← hrest] at hc
  rw [Heap.next?, hcell c fun hm => hdis c hm c (HoldsLists.outer_mem hc) rfl, Heap.next?]

theorem first (hh : HoldsLists h lists recordList) (hs : SweptLists h lists (y :: ys) h') :
    ∃ ns, (y, ns) ∈ lists ∧ (∀ c ∈ blocks (y, ns), h'.cell c = h.cell c) ∧
      ∀ h2 : Heap α, h2.fresh = h'.fresh → h2.freed = (freeOrder (y, ns)).reverse ++ h'.freed →
        (∀ c, c ∉ blocks (y, ns) → h2.cell c = h'.cell c) → SweptLists h lists ys h2 := by
  obtain ⟨ps, rest, rfl, hrest, hfreed, hcell⟩ := hs.done
  obtain ⟨⟨y', ns⟩, rest, rfl, rfl, rfl⟩ := List.map_eq_cons_iff.mp hrest
  have hnd := (List.nodup_cons.mp hh.nodup).2
  rw [List.flatMap_append, List.flatMap_cons] at hnd
  have hdis := (List.nodup_append.mp hnd).2.2
  refine ⟨ns, by simp, fun c hc => ?_, fun h2 hfresh2 hfreed2 hcell2 => ?_⟩
  · exact hcell c fun hm => hdis c hm c (List.mem_append_left _ hc) rfl
  · refine ⟨hfresh2.trans hs.fresh, ps ++ [(y', ns)], rest, by simp, rfl, ?_, fun c hc => ?_⟩
    · rw [hfreed2, hfreed, List.flatMap_append, List.flatMap_singleton, List.reverse_append,
        List.append_assoc]
    · rw [List.flatMap_append, List.flatMap_singleton, List.mem_append, not_or] at hc
      rw [hcell2 c hc.2, hcell c hc.1]

theorem step (hh : HoldsLists h lists recordList) (hs : SweptLists h lists (y :: ys) h') :
    y ≠ 0 ∧ ∃ h2, (do
      let h ← freeListHead h' (y + 1)
      freeListList h y) = some h2 ∧ SweptLists h lists ys h2 := by
  obtain ⟨ns, hmem, hkeep, hnext⟩ := hs.first hh
  have hb := hh.blocks_nodup hmem
  have hring : IsRing h' (y + 1) ns := by
    apply (hh.inner (y, ns) hmem).frame
    · intro c hc
      rw [Heap.next?, hkeep c (List.mem_cons_of_mem _ hc), Heap.next?]
    · intro c hc
      rw [Heap.prev?, hkeep c (List.mem_cons_of_mem _ hc), Heap.prev?]
  simp only [blocks, List.nodup_cons, List.mem_cons, not_or] at hb
  obtain ⟨h1, e1, hfresh1, hfreed1, hcell1⟩ := freeListHead_ring hring
  -- the node and the head in it outlive the sweep of the inner list
  have hy : h1.Live y := by
    rw [Heap.Live, hcell1 _ hb.1.2, hkeep _ List.mem_cons_self]
    exact hh.outer.live _ (List.mem_cons_of_mem _ (List.mem_map_of_mem hmem))
  have hy1 : h1.Live (y + 1) := by
    rw [Heap.Live, hcell1 _ hb.2.1]
    exact hring.head_live
  obtain ⟨h2, e2, hfresh2, hfreed2, hcell2⟩ := freeListList_spec hy hy1
  refine ⟨?_, h2, ?_, hnext h2 (hfresh2.trans hfresh1) ?_ fun c hc => ?_⟩
  · rintro rfl
    exact (List.nodup_cons.mp hh.nodup).1 (HoldsLists.outer_mem (List.mem_map_of_mem hmem))
  · simp only [e1, Option.bind_eq_bind, Option.bind_some, e2]
  · simp [hfreed2, hfreed1, freeOrder]
  · simp only [blocks, List.mem_cons, not_or] at hc
    rw [hcell2 c hc.1 hc.2.1, hcell1 c hc.2.2]

end SweptLists

theorem freeListLists_spec {h : Heap α} {lists : List (ℕ × List ℕ)}
    {recordList : List (List α)} (hh : HoldsLists h lists recordList) :
    ∃ h', freeListLists h 0 = some h' ∧ h'.freed.reverse = lists.flatMap freeOrder := by
  have hfirst := headD_mem 0 (lists.map Prod.fst)
  obtain ⟨n, hn⟩ := Heap.exists_next (hh.outer.live _ hfirst)
  have hnext : ∀ x ys, lists.map Prod.fst = x :: ys → n = ys.headD 0 := by
    intro x ys he
    have hp := hh.outer.links.path
    rw [he] at hp hn
    exact Option.some.inj (hn.symm.trans hp.2.next_head)
  obtain ⟨h', he, hs⟩ := forEachEntrySafe_rule (SweptLists h lists)
    (fun x ys h1 hs => hs.path hh) (fun h1 hs => hs.head_live hh) (fun x ys h1 hs => hs.step hh)
    ⟨rfl, [], lists, rfl, rfl, rfl, fun _ _ => rfl⟩
    (hh.outer.length_lt.trans (Nat.lt_succ_self _)) hnext
  refine ⟨h', ?_, ?_⟩
  · simp only [freeListLists, hh.outer.next_head, hn, Option.bind_eq_bind, Option.bind_some]
    exact he
  · obtain ⟨ps, rest, rfl, hrest, hfreed, -⟩ := hs.done
    obtain rfl := List.map_eq_nil_iff.mp hrest
    rw [hfreed, hh.freed, List.append_nil, List.append_nil, List.reverse_reverse]

inductive ListMod
  | io
  | proc
  deriving DecidableEq

namespace ListMod

abbrev Rec : ListMod → Type
  | io => Io
  | proc => Proc

abbrev Env : ListMod → Type
  | io => IoEnv
  | proc => ProcEnv

/-- The records that a collection finds; `none` is undefined behaviour or `exit`. -/
def entries : (m : ListMod) → m.Env → Option (List m.Rec)
  | io => fun env => (readIoStat env).map Prod.snd
  | proc => getAllProc

def query : (m : ListMod) → m.Env → Heap m.Rec → ℕ → Option (Heap m.Rec)
  | io => readIoStatOn
  | proc => fun env h head => do appendAll (← getAllProc env) h head

def compute : (m : ListMod) → m.Env → List m.Rec → List m.Rec → Option (List m.Rec)
  | io => fun env cur prev => env.statics.map fun st => (computeIoStat st cur prev).1
  | proc => fun _ => computeProcCpuStat

def collectRecord (m : ListMod) (env : m.Env) (h : Heap m.Rec) : Option (Heap m.Rec) :=
  collectList (m.query env) (m.compute env) h 0

def run (m : ListMod) (envs : List m.Env) : Option (Heap m.Rec) :=
  cycles m.collectRecord envs (Heap.empty.malloc none)

def freeRecordList (m : ListMod) (h : Heap m.Rec) : Option (Heap m.Rec) := freeListLists h 0

/-- `collect_record` on the contents of the lists. -/
def collectLists : (m : ListMod) → m.Env → List (List m.Rec) → Option (List (List m.Rec))
  | io => ModIo.collectRecord
  | proc => ModProc.collectRecord

theorem collectLists_eq (m : ListMod) (env : m.Env) (recordList : List (List m.Rec)) :
    m.collectLists env recordList =
      collectValues (m.entries env) (m.compute env) recordList := by
  cases m with
  | proc =>
    simp only [collectLists, ModProc.collectRecord, collectValues, entries, compute,
      Option.bind_eq_bind]
    congr 1
    funext cur
    cases recordList.getLast? <;> rfl
  | io =>
    simp only [collectLists, ModIo.collectRecord, collectValues, entries, compute,
      Option.bind_eq_bind]
    cases hread : readIoStat env with
    | none => rfl
    | some r =>
      obtain ⟨st, nodes⟩ := r
      simp only [Option.map_some, Option.bind_some, (readIoStat_recorded hread).1]
      cases hlast : recordList.getLast? with
      | none => rw [List.getLast?_eq_none_iff.mp hlast]; rfl
      | some prev =>
        have hsplit := List.dropLast_append_getLast? prev hlast
        simp only [computeIoStat]
        conv_rhs => rw [← hsplit]
        simp

theorem query_spec (m : ListMod) (env : m.Env) {h : Heap m.Rec} {head : ℕ}
    (hr : IsRing h head []) :
    (m.entries env = none ∧ m.query env h head = none) ∨
      ∃ vals h' nodes, m.entries env = some vals ∧ m.query env h head = some h' ∧
        Extended h head [] vals h' nodes := by
  cases m with
  | io =>
    simp only [entries, query, readIoStat, readIoStatOn, Option.bind_eq_bind]
    cases getNumOfCpu env.cpus with
    | none => exact .inl ⟨rfl, rfl⟩
    | some numOfCpu =>
      cases getHZ env.ticks with
      | none => exact .inl ⟨rfl, rfl⟩
      | some hz =>
        simp only [Option.bind_some]
        cases env.diskstats with
        | none => exact .inr ⟨[], h, [], rfl, rfl, .refl hr⟩
        | some s =>
          rcases readIoLinesOn_spec env numOfCpu hz (i := 0) (fgetsLines LEN_256 s) hr with
            ⟨hnone, hnone'⟩ | ⟨vals, h', nodes, hvals, he, hext⟩
          · exact .inl ⟨by simp [hnone], hnone'⟩
          · exact .inr ⟨vals, h', nodes, by simp [hvals], he, hext⟩
  | proc =>
    simp only [entries, query, Option.bind_eq_bind]
    cases hall : getAllProc env with
    | none => exact .inl ⟨rfl, rfl⟩
    | some vals =>
      obtain ⟨h', nodes, he, hext⟩ := appendAll_extended hr vals
      exact .inr ⟨vals, h', nodes, rfl, he, hext⟩

theorem compute_length {m : ListMod} {env : m.Env} {cur prev out : List m.Rec}
    (h : m.compute env cur prev = some out) : out.length = cur.length := by
  cases m with
  | io =>
    obtain ⟨st, -, rfl⟩ := Option.map_eq_some_iff.mp h
    exact List.length_map _
  | proc =>
    have hsame := computeProcCpuStat_forall₂ (R := fun _ _ : Proc => True)
      (fun _ _ _ _ => trivial) h (List.forall₂_same.mpr fun _ _ => trivial)
    exact hsame.length_eq.symm

theorem run_refines (m : ListMod) (envs : List m.Env) :
    (m.run envs = none ∧ cycles m.collectLists envs [] = none) ∨
      ∃ h lists recordList, m.run envs = some h ∧
        cycles m.collectLists envs [] = some recordList ∧ HoldsLists h lists recordList ∧
        lists.length = envs.length := by
  induction envs using List.reverseRecOn with
  | nil => exact .inr ⟨_, [], [], rfl, rfl, ⟨emptyList_ring, by simp, by simp, rfl, rfl⟩, rfl⟩
  | append_singleton envs env ih =>
    rw [run, cycles_concat, cycles_concat]
    rw [run] at ih
    rcases ih with ⟨h1, h2⟩ | ⟨h, lists, recordList, h1, h2, hh, hlen⟩
    · rw [h1, h2]
      exact .inl ⟨rfl, rfl⟩
    · rw [h1, h2, Option.bind_some, Option.bind_some, collectLists_eq]
      rcases collectList_spec (m.query_spec env) compute_length hh with
        ⟨hnone, hnone'⟩ | ⟨h', p, recordList', hsome, he, hh'⟩
      · exact .inl ⟨hnone', hnone⟩
      · exact .inr ⟨h', _, recordList', he, hsome, hh', by simp [hlen]⟩

/-- What `free_record_list` has done to the lists: every node was freed once, those of an
inner list before the node that holds its head. -/
structure FreedLists {m : ListMod} (h h' : Heap m.Rec) (lists : List (ℕ × List ℕ)) : Prop where
  outer : listForEachEntry h 0 = some (lists.map Prod.fst)
  inner : ∀ p ∈ lists, listForEachEntry h (p.1 + 1) = some p.2
  order : h'.freed.reverse = lists.flatMap fun p => p.2 ++ [p.1, p.1 + 1]
  once : ∀ p ∈ lists, ∀ x ∈ p.1 :: p.2, h'.freed.count x = 1
  before : ∀ p ∈ lists, ∀ x ∈ p.2, [x, p.1].Sublist h'.freed.reverse

/-- At the end of every run the sweep frees all its lists, and uses nothing that it has
freed. -/
theorem run_freedLists (m : ListMod) (envs : List m.Env) {h : Heap m.Rec}
    (hrun : m.run envs = some h) :
    ∃ lists h', lists.length = envs.length ∧ m.freeRecordList h = some h' ∧
      FreedLists h h' lists := by
  rcases m.run_refines envs with ⟨hnone, -⟩ | ⟨h1, lists, recordList, h1run, -, hh, hlen⟩
  · rw [hrun] at hnone
    cases hnone
  · obtain rfl := Option.some.inj (hrun.symm.trans h1run)
    obtain ⟨h', he, horder⟩ := freeListLists_spec hh
    refine ⟨lists, h', hlen, he, listForEachEntry_ring hh.outer,
      fun p hp => listForEachEntry_ring (hh.inner p hp), horder, fun p hp x hx => ?_,
      fun p hp x hx => ?_⟩
    · apply List.count_eq_one_of_mem h'.freed_nodup
      rw [← List.mem_reverse, horder]
      apply List.mem_flatMap.mpr ⟨p, hp, (freeOrder_perm p).mem_iff.mpr _⟩
      rcases List.mem_cons.mp hx with rfl | hx
      · exact List.mem_cons_self
      · exact List.mem_cons_of_mem _ (List.mem_cons_of_mem _ hx)
    · rw [horder]
      have hp' : (freeOrder p).Sublist (lists.flatMap freeOrder) :=
        List.sublist_flatten_of_mem (List.mem_map_of_mem hp)
      refine List.Sublist.trans ?_ hp'
      exact (List.singleton_sublist.mpr hx).append (List.singleton_sublist.mpr List.mem_cons_self)

theorem run_freedLists_disks :
    let envs := [ioEnv singleStat "49.00 1.00\n".toList, ioEnv smpStat "50.00 1.00\n".toList]
    ∃ h lists h', run .io envs = some h ∧ lists.length = 2 ∧
      freeRecordList .io h = some h' ∧ FreedLists h h' lists := by
  intro envs
  obtain ⟨h, hrun⟩ : ∃ h, run .io envs = some h :=
    Option.isSome_iff_exists.mp (by decide +kernel)
  obtain ⟨lists, h', hlen, he, hfreed⟩ := run_freedLists .io envs hrun
  exact ⟨h, lists, h', hrun, hlen, he, hfreed⟩

end ListMod

end Zsr
