import Zsr.CLib.Simulate
import Zsr.Framework
import Zsr.ListList

/-!
# The modules that keep their records, on the heap

Six modules read again and again into one record; the cpu module adds a record with each
collection and compares it with the one before. The head is the block at address 0.
-/

namespace Zsr
open CLib

variable {ε : Type}

/-- `collect_record` of the modules with one record. -/
def collectSingleOn (read : ε → Option ε) (zeroed : ε) (h : Heap ε) (head : ℕ) :
    Option (Heap ε) := do
  let (h, entry) ←
    if ← listEmpty h head then do
      let entry := h.fresh
      let h ← listAddTail (h.malloc (some zeroed)) entry head
      some (h, entry)
    else do some (h, ← h.prev? head)
  let v ← read (← h.val? entry)
  h.update entry fun _ => v

def ModCpu.collectRecordOn (procStat : Option Text) (h : Heap Cpu) (head : ℕ) :
    Option (Heap Cpu) := do
  let entry := h.fresh
  let h := h.malloc (some { stat := readCpuStat procStat {} })
  let h ←
    if ← listEmpty h head then some h
    else do
      let prev ← h.val? (← h.prev? head)
      let cur ← h.val? entry
      h.update entry fun _ => computeCpuStat cur prev
  listAddTail h entry head

/-- The records `l` are on the list, on the nodes `nodes`, and nothing else is allocated. -/
structure Keeps (h : Heap ε) (nodes : List ℕ) (l : List ε) : Prop where
  ring : IsRing h 0 nodes
  values : nodes.map h.val? = l.map some
  fresh : h.fresh = nodes.length + 1
  freed : h.freed = []

theorem keeps_nil : Keeps ((Heap.empty : Heap ε).malloc none) [] [] :=
  ⟨emptyList_ring, rfl, rfl, rfl⟩

namespace Keeps

variable {h : Heap ε} {nodes : List ℕ} {l : List ε}

theorem eq_nil_iff (hk : Keeps h nodes l) : nodes = [] ↔ l = [] := by
  have hlen : nodes.length = l.length := by simpa using congrArg List.length hk.values
  rw [← List.length_eq_zero_iff, hlen, List.length_eq_zero_iff]

theorem last {nodes : List ℕ} {a : ℕ} {l : List ε} (hk : Keeps h (nodes ++ [a]) l) :
    ∃ l' v, l = l' ++ [v] ∧ h.prev? 0 = some a ∧ h.val? a = some v ∧
      nodes.map h.val? = l'.map some := by
  have hv := hk.values
  rw [List.map_append, List.map_singleton] at hv
  obtain ⟨l', vs, rfl, hl', hvs⟩ := List.map_eq_append_iff.mp hv.symm
  obtain ⟨v, rfl, hva⟩ := List.map_eq_singleton_iff.mp hvs
  refine ⟨l', v, rfl, ?_, hva.symm, hl'.symm⟩
  rw [hk.ring.prev_head]
  simp

theorem link (hk : Keeps h nodes l) {h' : Heap ε} {v : ε}
    (hs : StoredAt [h.fresh] (h.malloc none) h') (hv : h'.val? h.fresh = some v) :
    ∃ h2, listAddTail h' h.fresh 0 = some h2 ∧ Keeps h2 (nodes ++ [h.fresh]) (l ++ [v]) := by
  have hlive : h'.Live h.fresh := Heap.val?_eq_some_live hv
  obtain ⟨h2, e2, hring, hrelink⟩ :=
    listAddTail_ring (hs.ring (hk.ring.malloc none)) hlive hk.ring.fresh_not_mem
  refine ⟨h2, e2, hring, ?_, ?_, hrelink.freed.trans (hs.freed.trans hk.freed)⟩
  · rw [List.map_append, List.map_append, List.map_singleton, List.map_singleton,
      hrelink.val, hv, ← hk.values]
    congr 1
    apply List.map_congr_left
    intro x hx
    have hne : x ≠ h.fresh := fun e =>
      hk.ring.fresh_not_mem (e ▸ List.mem_cons_of_mem 0 hx)
    rw [hrelink.val, hs.val x (by simpa using hne), Heap.val?_malloc, if_neg hne]
  · rw [hrelink.fresh, hs.fresh, List.length_append, List.length_singleton, ← hk.fresh]
    rfl

theorem update {nodes : List ℕ} {a : ℕ} {l : List ε} {v : ε}
    (hk : Keeps h (nodes ++ [a]) (l ++ [v])) (v' : ε) :
    ∃ h', h.update a (fun _ => v') = some h' ∧ Keeps h' (nodes ++ [a]) (l ++ [v']) := by
  obtain ⟨l', w, hl, -, hva, hvals⟩ := hk.last
  obtain ⟨rfl, hw⟩ := List.append_inj' hl rfl
  obtain ⟨h', he, hs, hv⟩ := update_spec hva v'
  refine ⟨h', he, hs.ring hk.ring, ?_, hs.fresh.trans hk.fresh, hs.freed.trans hk.freed⟩
  rw [List.map_append, List.map_append, List.map_singleton, List.map_singleton, hv, ← hvals]
  congr 1
  apply List.map_congr_left
  intro x hx
  apply hs.val
  have hnd := (List.nodup_append.mp (List.nodup_cons.mp hk.ring.nodup).2).2.2
  exact fun hm => hnd x hx a List.mem_cons_self (List.mem_singleton.mp hm)

theorem freeAll (hk : Keeps h nodes l) :
    ∃ h', freeListHead h 0 = some h' ∧ h'.fresh = h.fresh ∧ h'.freed = nodes.reverse := by
  obtain ⟨h', he, hfresh, hfreed, -⟩ := freeListHead_ring hk.ring
  exact ⟨h', he, hfresh, by rw [hfreed, hk.freed, List.append_nil]⟩

end Keeps

theorem malloc_storedAt (h : Heap ε) (v : ε) :
    StoredAt [h.fresh] (h.malloc none) (h.malloc (some v)) where
  fresh := rfl
  freed := rfl
  next x := by
    unfold Heap.next?
    rw [Heap.malloc_cell, Heap.malloc_cell]
    split <;> rfl
  prev x := by
    unfold Heap.prev?
    rw [Heap.malloc_cell, Heap.malloc_cell]
    split <;> rfl
  val x hx := by
    have hne : x ≠ h.fresh := by simpa using hx
    rw [Heap.val?_malloc, Heap.val?_malloc, if_neg hne, if_neg hne]

theorem StoredAt.comp {s : List ℕ} {h h' h'' : Heap ε} (h1 : StoredAt s h h')
    (h2 : StoredAt s h' h'') : StoredAt s h h'' where
  fresh := h2.fresh.trans h1.fresh
  freed := h2.freed.trans h1.freed
  next x := (h2.next x).trans (h1.next x)
  prev x := (h2.prev x).trans (h1.prev x)
  val x hx := (h2.val x hx).trans (h1.val x hx)

def KeepsSome (h : Heap ε) (l : List ε) : Prop := ∃ nodes, Keeps h nodes l

theorem exists_entry (read : ε → Option ε) (zeroed : ε) {h : Heap ε} {nodes : List ℕ} {l : List ε}
    (hk : Keeps h nodes l) :
    ∃ h1 a ns l' v, Keeps h1 (ns ++ [a]) (l' ++ [v]) ∧ h1.val? a = some v ∧
      collectSingleOn read zeroed h 0 = (read v).bind (fun v => h1.update a fun _ => v) ∧
      collectSingle read zeroed l = (read v).map fun v => l' ++ [v] := by
  have hempty := listEmpty_ring hk.ring
  rcases List.eq_nil_or_concat nodes with rfl | ⟨ns, a, rfl⟩
  · obtain rfl := hk.eq_nil_iff.mp rfl
    obtain ⟨h1, e1, hk1⟩ := hk.link (malloc_storedAt h zeroed)
      (by rw [Heap.val?_malloc, if_pos rfl])
    have hval : h1.val? h.fresh = some zeroed := by simpa using hk1.values
    refine ⟨h1, h.fresh, [], [], zeroed, hk1, hval, ?_, rfl⟩
    simp [collectSingleOn, hempty, e1, hval]
  · rw [List.concat_eq_append] at hk hempty
    obtain ⟨l', v, rfl, hprev, hval, -⟩ := hk.last
    refine ⟨h, a, ns, l', v, hk, hval, ?_, ?_⟩
    · simp [collectSingleOn, hempty, hprev, hval]
    · simp [collectSingle]

theorem collectSingleOn_rel (read : ε → Option ε) (zeroed : ε) {h : Heap ε} {l : List ε}
    (hk : KeepsSome h l) :
    Option.Rel KeepsSome (collectSingleOn read zeroed h 0) (collectSingle read zeroed l) := by
  obtain ⟨nodes, hk⟩ := hk
  obtain ⟨h1, a, ns, l', v, hk1, -, hon, hlist⟩ := exists_entry read zeroed hk
  rw [hon, hlist]
  cases read v with
  | none => exact .none
  | some v' =>
    obtain ⟨h2, e2, hk2⟩ := hk1.update v'
    rw [Option.bind_some, Option.map_some, e2]
    exact .some ⟨_, hk2⟩

theorem ModCpu.collectRecordOn_rel (procStat : Option Text) {h : Heap Cpu} {l : List Cpu}
    (hk : KeepsSome h l) :
    Option.Rel KeepsSome (ModCpu.collectRecordOn procStat h 0)
      (some (ModCpu.collectRecord procStat l)) := by
  obtain ⟨nodes, hk⟩ := hk
  let entry : Cpu := { stat := readCpuStat procStat {} }
  have hs := malloc_storedAt h entry
  have hval : (h.malloc (some entry)).val? h.fresh = some entry := by
    rw [Heap.val?_malloc, if_pos rfl]
  have hring : IsRing (h.malloc (some entry)) 0 nodes := hk.ring.malloc _
  have hempty := listEmpty_ring hring
  rcases List.eq_nil_or_concat nodes with rfl | ⟨ns, a, rfl⟩
  · obtain rfl := hk.eq_nil_iff.mp rfl
    obtain ⟨h1, e1, hk1⟩ := hk.link hs hval
    have hon : ModCpu.collectRecordOn procStat h 0 = some h1 := by
      simp [ModCpu.collectRecordOn, entry, hempty, e1]
    rw [hon]
    exact .some ⟨_, hk1⟩
  · rw [List.concat_eq_append] at hk hempty hring
    obtain ⟨l', v, rfl, hprev, hva, -⟩ := hk.last
    have ha : a ≠ h.fresh := fun e => hk.ring.fresh_not_mem (e ▸ by simp)
    have hprev' : (h.malloc (some entry)).prev? 0 = some a := by
      rw [Heap.prev?_malloc_of_ne _ _ hk.ring.head_live.lt.ne, hprev]
    have hva' : (h.malloc (some entry)).val? a = some v := by
      rw [Heap.val?_malloc, if_neg ha, hva]
    obtain ⟨h1, e1, hs1, hval1⟩ := update_spec hval (computeCpuStat entry v)
    obtain ⟨h2, e2, hk2⟩ := hk.link (hs.comp hs1) hval1
    have hon : ModCpu.collectRecordOn procStat h 0 = some h2 := by
      simp [ModCpu.collectRecordOn, entry, hempty, hprev', hva', hval, e1, e2]
    have hlist : ModCpu.collectRecord procStat (l' ++ [v]) =
        (l' ++ [v]) ++ [computeCpuStat entry v] := by
      simp [ModCpu.collectRecord, ModCpu.collectSnapshot, entry]
    rw [hon, hlist]
    exact .some ⟨_, hk2⟩

end Zsr
