import Zsr.CLib.Text
import Zsr.Define
import Zsr.ListHead
import Mathlib.Data.List.Forall2

/-!
# `get_ip_addr`

The loop over the addresses of `getifaddrs`, on a heap that gives `none` when a freed
node is written, linked or freed again. The node is carried from one address to the next.
-/

namespace Zsr
open CLib

inductive IpVersion
  | IPv4
  | IPv6
  deriving DecidableEq

/-- `interface_t`, with its arrays of 64 bytes. -/
structure Interface where
  dev : Text
  ipAddr : Text
  ipVer : IpVersion
  netmask : Text
  deriving DecidableEq

def Interface.zeroed : Interface where
  dev := List.replicate LEN_64 '\x00'
  ipAddr := List.replicate LEN_64 '\x00'
  ipVer := .IPv4
  netmask := List.replicate LEN_64 '\x00'

inductive Family
  | inet
  | inet6
  | packet
  | other
  deriving DecidableEq

def Family.ipVersion : Family → Option IpVersion
  | .inet => some .IPv4
  | .inet6 => some .IPv6
  | _ => none

def addrLen : IpVersion → ℕ
  | .IPv4 => 16
  | .IPv6 => 46

/-- `struct rtnl_link_stats`, as far as it is read. -/
structure LinkStats where
  txPackets : UInt32
  rxPackets : UInt32
  txBytes : UInt32
  rxBytes : UInt32

/-- One entry of `getifaddrs`, with what `getnameinfo` stores for its two addresses;
`none` where it fails. -/
structure IfAddr where
  name : Text
  /-- `none` when `ifa_addr` is `NULL`. -/
  family : Option Family
  host : Option Text
  netmask : Option Text
  /-- `ifa_data`. -/
  data : Option LinkStats := none
  name_nul : '\x00' ∉ name
  name_lt : name.length < LEN_64
  host_nul : ∀ t ∈ host, '\x00' ∉ t
  /-- A numeric address has characters in front of the scope. -/
  host_begin : ∀ t ∈ host, t.takeWhile (· ≠ '%') ≠ []
  netmask_nul : ∀ t ∈ netmask, '\x00' ∉ t
  host_lt : ∀ v ∈ family.bind Family.ipVersion, ∀ t ∈ host, t.length < addrLen v
  netmask_lt : ∀ v ∈ family.bind Family.ipVersion, ∀ t ∈ netmask, t.length < addrLen v

/-- The text that is stored: for IPv6 the first token in front of the scope. -/
def addrText (ver : IpVersion) (host : Text) : Option Text :=
  match ver with
  | .IPv4 => some host
  | .IPv6 => (tokens '%' host).head?

/-- `dev` and `ip_ver`, which are stored before the lookups. -/
def Interface.setDev (v : Interface) (name : Text) (ver : IpVersion) : Interface :=
  { v with dev := strncpy LEN_64 name, ipVer := ver }

/-- `ip_addr` and `netmask`, which are stored behind them. -/
def Interface.setAddrs (v : Interface) (ver : IpVersion) (addr netmask : Text) : Interface :=
  { v with
    ipAddr := strncpyTo v.ipAddr (addrLen ver) addr
    netmask := strncpyTo v.netmask (addrLen ver) netmask }

/-- One turn of the loop, on the heap and the variable `node`. -/
def getIpAddrStep (head : ℕ) (st : Heap Interface × Option ℕ) (ifap : IfAddr) :
    Option (Heap Interface × Option ℕ) :=
  match ifap.family.bind Family.ipVersion with
  | none => some st
  | some ver => do
    let (h, node) := match st.2 with
      | none => (st.1.malloc (some .zeroed), st.1.fresh)
      | some a => (st.1, a)
    let h ← h.update node fun v => v.setDev ifap.name ver
    match ifap.host, ifap.netmask with
    | some host, some netmask => do
      let addr ← addrText ver host
      let h ← h.update node fun v => v.setAddrs ver addr netmask
      let h ← listAddTail h node head
      some (h, none)
    | _, _ =>
      -- the variable keeps the address of the freed node
      let h ← h.free node
      some (h, some node)

/-- `get_ip_addr`; `none` when `getifaddrs` fails. -/
def getIpAddr (ifaddr : Option (List IfAddr)) (h : Heap Interface) (head : ℕ) :
    Option (Heap Interface) :=
  match ifaddr with
  | none => some h
  | some l => (l.foldlM (getIpAddrStep head) (h, none)).map Prod.fst

namespace IfAddr

def isIp (a : IfAddr) : Bool := (a.family.bind Family.ipVersion).isSome

/-- One of the two lookups for such an address fails. -/
def failed (a : IfAddr) : Bool := a.isIp && !(a.host.isSome && a.netmask.isSome)

def resolved (a : IfAddr) : Bool := a.isIp && a.host.isSome && a.netmask.isSome

/-- What the node for `a` holds when it is put on the list. -/
def entry (a : IfAddr) : Option Interface := do
  let ver ← a.family.bind Family.ipVersion
  let host ← a.host
  let netmask ← a.netmask
  let addr ← addrText ver host
  some ((Interface.zeroed.setDev a.name ver).setAddrs ver addr netmask)

/-- The node holds the device, version, address and netmask of `a`. -/
def IsNode (a : IfAddr) (v : Interface) : Prop :=
  ∃ ver host netmask, a.family.bind Family.ipVersion = some ver ∧ a.host = some host ∧
    a.netmask = some netmask ∧ v.ipVer = ver ∧ cstrIn v.dev = some a.name ∧
    cstrIn v.ipAddr = some (if ver = .IPv4 then host else host.takeWhile (· ≠ '%')) ∧
    cstrIn v.netmask = some netmask

end IfAddr

theorem addrText_eq {a : IfAddr} {host : Text} (hhost : a.host = some host) (ver : IpVersion) :
    addrText ver host = some (if ver = .IPv4 then host else host.takeWhile (· ≠ '%')) := by
  cases ver with
  | IPv4 => rfl
  | IPv6 =>
    obtain ⟨rest, h⟩ := tokens_takeWhile (a.host_begin host hhost)
    rw [addrText, h]
    rfl

theorem getIpAddrStep_other {a : IfAddr} (ha : a.isIp = false) (head : ℕ)
    (st : Heap Interface × Option ℕ) : getIpAddrStep head st a = some st := by
  rw [IfAddr.isIp, Option.isSome_eq_false_iff, Option.isNone_iff_eq_none] at ha
  rw [getIpAddrStep, ha]

theorem getIpAddrStep_dead {a : IfAddr} (ha : a.isIp = true) (head : ℕ) {h : Heap Interface}
    {node : ℕ} (hnode : ¬h.Live node) : getIpAddrStep head (h, some node) a = none := by
  obtain ⟨ver, hver⟩ := Option.isSome_iff_exists.mp ha
  rw [getIpAddrStep, hver]
  have hupdate (f : Interface → Interface) : h.update node f = none := if_neg hnode
  simp only [hupdate]
  rfl

theorem malloc_update {h : Heap Interface} {head : ℕ} {xs : List ℕ} (hr : IsRing h head xs)
    (f : Interface → Interface) :
    ∃ h', (h.malloc (some .zeroed)).update h.fresh f = some h' ∧ IsRing h' head xs ∧
      h'.fresh = h.fresh + 1 ∧ (∀ x, h'.Live x ↔ x = h.fresh ∨ h.Live x) ∧
      h'.val? h.fresh = some (f .zeroed) ∧ ∀ x, x ≠ h.fresh → h'.val? x = h.val? x := by
  have hlive : (h.malloc (some .zeroed)).Live h.fresh := (h.malloc_live _ _).mpr (.inl rfl)
  refine ⟨_, Heap.modify_of_live hlive _, (hr.malloc _).write_val h.fresh f, rfl, ?_, ?_, ?_⟩
  · intro x
    rw [Heap.write_live, Heap.malloc_live]
  · rw [Heap.val?_write_val, if_pos rfl, Heap.val?_malloc, if_pos rfl]
    rfl
  · intro x hx
    rw [Heap.val?_write_val, if_neg hx, Heap.val?_malloc, if_neg hx]

theorem entry_isNode {a : IfAddr} (ha : a.resolved = true) :
    ∃ v, a.entry = some v ∧ a.IsNode v := by
  simp only [IfAddr.resolved, Bool.and_eq_true, Option.isSome_iff_exists] at ha
  obtain ⟨⟨hip, host, hhost⟩, netmask, hmask⟩ := ha
  obtain ⟨ver, hver⟩ := Option.isSome_iff_exists.mp hip
  have haddr := addrText_eq hhost ver
  generalize haddr' : (if ver = .IPv4 then host else host.takeWhile (· ≠ '%')) = addr at haddr
  have hlt : addr.length < addrLen ver := by
    have hle : addr.length ≤ host.length := by
      rw [← haddr']
      split
      · exact le_rfl
      · exact (List.takeWhile_prefix _).length_le
    exact hle.trans_lt (a.host_lt ver hver host hhost)
  have hnul : '\x00' ∉ addr := by
    intro hm
    apply a.host_nul host hhost
    rw [← haddr'] at hm
    split at hm
    · exact hm
    · exact (List.takeWhile_prefix _).subset hm
  refine ⟨(Interface.zeroed.setDev a.name ver).setAddrs ver addr netmask, ?_, ver, host, netmask,
    hver, hhost, hmask, rfl, cstrIn_strncpy a.name_nul a.name_lt, ?_,
    cstrIn_strncpyTo (a.netmask_nul netmask hmask) (a.netmask_lt ver hver netmask hmask) _⟩
  · simp only [IfAddr.entry, hver, hhost, hmask, haddr, Option.bind_eq_bind, Option.bind_some]
  · rw [haddr']
    exact cstrIn_strncpyTo hnul hlt _

theorem getIpAddrStep_resolved {a : IfAddr} (ha : a.resolved = true) {h : Heap Interface}
    {head : ℕ} {xs : List ℕ} (hr : IsRing h head xs) :
    ∃ h', getIpAddrStep head (h, none) a = some (h', none) ∧
      IsRing h' head (xs ++ [h.fresh]) ∧ h'.fresh = h.fresh + 1 ∧
      (∀ x, h'.Live x ↔ h.Live x ∨ x = h.fresh) ∧ h'.val? h.fresh = a.entry ∧
      ∀ x, x ≠ h.fresh → h'.val? x = h.val? x := by
  simp only [IfAddr.resolved, Bool.and_eq_true, Option.isSome_iff_exists] at ha
  obtain ⟨⟨hip, host, hhost⟩, netmask, hmask⟩ := ha
  obtain ⟨ver, hver⟩ := Option.isSome_iff_exists.mp hip
  have haddr := addrText_eq hhost ver
  generalize (if ver = .IPv4 then host else host.takeWhile (· ≠ '%')) = addr at haddr
  obtain ⟨h1, e1, r1, fresh1, live1, val1, keep1⟩ := malloc_update hr
    fun v => v.setDev a.name ver
  have hlive := (live1 h.fresh).mpr (.inl rfl)
  have e2 : h1.update h.fresh (fun v => v.setAddrs ver addr netmask) =
      some (h1.write h.fresh _) := Heap.modify_of_live hlive _
  have r2 := r1.write_val h.fresh fun v => v.setAddrs ver addr netmask
  obtain ⟨h3, e3, r3, hrelink⟩ := listAddTail_ring r2
    ((Heap.write_live _ _ _ _).mpr hlive) hr.fresh_not_mem
  have hval (x : ℕ) := (hrelink.val x).trans (Heap.val?_write_val h1 h.fresh x _)
  refine ⟨h3, ?_, r3, hrelink.fresh.trans fresh1, ?_, ?_, ?_⟩
  · rw [getIpAddrStep, hver]
    simp only [e1, hhost, hmask, haddr, e2, e3, Option.bind_eq_bind, Option.bind_some]
  · intro x
    rw [hrelink.live, Heap.write_live, live1, or_comm]
  · rw [hval, if_pos rfl, val1]
    simp only [IfAddr.entry, hver, hhost, hmask, haddr, Option.bind_eq_bind, Option.bind_some]
    rfl
  · intro x hx
    rw [hval, if_neg hx, keep1 x hx]

theorem getIpAddrStep_failed {a : IfAddr} (ha : a.failed = true) {h : Heap Interface}
    {head : ℕ} {xs : List ℕ} (hr : IsRing h head xs) :
    ∃ h', getIpAddrStep head (h, none) a = some (h', some h.fresh) ∧ IsRing h' head xs ∧
      (∀ x, h'.Live x ↔ h.Live x) ∧ h'.fresh = h.fresh + 1 ∧
      ∀ x, x ≠ h.fresh → h'.val? x = h.val? x := by
  simp only [IfAddr.failed, Bool.and_eq_true, Bool.not_eq_true'] at ha
  obtain ⟨hip, hfail⟩ := ha
  obtain ⟨ver, hver⟩ := Option.isSome_iff_exists.mp hip
  obtain ⟨h1, e1, r1, fresh1, live1, val1, keep1⟩ := malloc_update hr
    fun v => v.setDev a.name ver
  have hlive := (live1 h.fresh).mpr (.inl rfl)
  refine ⟨h1.release h.fresh hlive, ?_, r1.release hlive hr.fresh_not_mem, ?_, fresh1, ?_⟩
  · rw [getIpAddrStep, hver]
    simp only [e1, Option.bind_eq_bind, Option.bind_some, Heap.free_of_live hlive]
    cases hhost : a.host with
    | none => rfl
    | some host =>
      cases hmask : a.netmask with
      | none => rfl
      | some netmask => simp [hhost, hmask] at hfail
  · intro x
    rw [Heap.release_live, live1]
    constructor
    · rintro ⟨hx, rfl | hl⟩
      · exact absurd rfl hx
      · exact hl
    · intro hl
      exact ⟨hl.lt.ne, .inr hl⟩
  · intro x hx
    rw [Heap.val?, Heap.release_cell_of_ne _ _ _ hx]
    exact keep1 x hx

theorem getIpAddr_dead (head : ℕ) {h : Heap Interface} {node : ℕ} (hnode : ¬h.Live node)
    (l : List IfAddr) :
    l.foldlM (getIpAddrStep head) (h, some node) =
      if l.any IfAddr.isIp then none else some (h, some node) := by
  induction l with
  | nil => rfl
  | cons a l ih =>
    rw [List.foldlM_cons, List.any_cons]
    cases ha : a.isIp with
    | false =>
      rw [getIpAddrStep_other ha, Option.bind_eq_bind, Option.bind_some, ih, Bool.false_or]
    | true =>
      rw [getIpAddrStep_dead ha head hnode]
      rfl

/-- No address of the two families comes behind one whose lookup failed. -/
def NoneBehindFailed (l : List IfAddr) : Prop :=
  l.Pairwise fun a b => a.failed = true → b.isIp = false

theorem noneBehindFailed_cons {a : IfAddr} (ha : a.failed = false) (l : List IfAddr) :
    NoneBehindFailed (a :: l) ↔ NoneBehindFailed l := by
  rw [NoneBehindFailed, List.pairwise_cons]
  simp [ha, NoneBehindFailed]

theorem noneBehindFailed_cons_failed {a : IfAddr} (ha : a.failed = true) (l : List IfAddr) :
    NoneBehindFailed (a :: l) ↔ l.any IfAddr.isIp = false := by
  rw [NoneBehindFailed, List.pairwise_cons, List.any_eq_false]
  constructor
  · rintro ⟨h, -⟩ b hb
    simpa using h b hb ha
  · intro h
    have hb : ∀ b ∈ l, b.isIp = false := fun b hb => by simpa using h b hb
    exact ⟨fun b hm _ => hb b hm,
      List.pairwise_of_forall_mem_list fun _ _ b hm _ => hb b hm⟩

theorem isIp_cases (a : IfAddr) :
    (a.isIp = false ∧ a.failed = false ∧ a.resolved = false) ∨
      (a.resolved = true ∧ a.failed = false) ∨ (a.failed = true ∧ a.resolved = false) := by
  unfold IfAddr.failed IfAddr.resolved
  cases a.isIp <;> cases a.host.isSome <;> cases a.netmask.isSome <;> decide

/-- The nodes that a call has put behind those already on the list. -/
structure Appended (h : Heap Interface) (head : ℕ) (xs : List ℕ) (l : List IfAddr)
    (h' : Heap Interface) (nodes : List ℕ) : Prop where
  ring : IsRing h' head (xs ++ nodes)
  new : ∀ x ∈ nodes, h.fresh ≤ x
  /-- They are all that is left of the allocations. -/
  live : ∀ x, h'.Live x ↔ h.Live x ∨ x ∈ nodes
  values : List.Forall₂ (fun a node => ∃ v, h'.val? node = some v ∧ a.entry = some v ∧ a.IsNode v)
    (l.filter IfAddr.resolved) nodes
  kept : ∀ x, x < h.fresh → h'.val? x = h.val? x

namespace Appended

variable {h h1 h' : Heap Interface} {head : ℕ} {xs nodes : List ℕ} {a : IfAddr} {l : List IfAddr}

theorem of_unresolved (hr : IsRing h1 head xs) (hlive : ∀ x, h1.Live x ↔ h.Live x)
    (hkeep : ∀ x, x ≠ h.fresh → h1.val? x = h.val? x)
    (hl : ∀ a ∈ l, a.resolved = false) : Appended h head xs l h1 [] where
  ring := by rwa [List.append_nil]
  new := List.forall_mem_nil _
  live x := by
    rw [hlive]
    simp
  values := by
    rw [List.filter_eq_nil_iff.mpr fun a ha => by simp [hl a ha]]
    exact .nil
  kept x hx := hkeep x hx.ne

theorem cons_other (ha : a.resolved = false) (happ : Appended h head xs l h' nodes) :
    Appended h head xs (a :: l) h' nodes where
  ring := happ.ring
  new := happ.new
  live := happ.live
  values := by
    rw [List.filter_cons_of_neg (by simp [ha])]
    exact happ.values
  kept := happ.kept

theorem cons_resolved (ha : a.resolved = true) (hfresh : h1.fresh = h.fresh + 1)
    (hlive : ∀ x, h1.Live x ↔ h.Live x ∨ x = h.fresh) (hval : h1.val? h.fresh = a.entry)
    (hkeep : ∀ x, x ≠ h.fresh → h1.val? x = h.val? x)
    (happ : Appended h1 head (xs ++ [h.fresh]) l h' nodes) :
    Appended h head xs (a :: l) h' (h.fresh :: nodes) where
  ring := by
    have := happ.ring
    rwa [List.append_assoc] at this
  new := by
    intro x hx
    rcases List.mem_cons.mp hx with rfl | hx
    · exact le_rfl
    · have := happ.new x hx
      omega
  live x := by rw [happ.live, hlive, List.mem_cons, or_assoc]
  values := by
    obtain ⟨v, hentry, hnode⟩ := entry_isNode ha
    have hv : h'.val? h.fresh = some v := by
      rw [happ.kept h.fresh (by omega), hval, hentry]
    rw [List.filter_cons_of_pos ha]
    exact .cons ⟨v, hv, hentry, hnode⟩ happ.values
  kept x hx := by rw [happ.kept x (by omega), hkeep x hx.ne]

end Appended

theorem getIpAddr_loop {head : ℕ} {xs : List ℕ} {h : Heap Interface} (hr : IsRing h head xs)
    {l : List IfAddr} (hl : NoneBehindFailed l) :
    ∃ st nodes, l.foldlM (getIpAddrStep head) (h, none) = some st ∧
      Appended h head xs l st.1 nodes := by
  induction l generalizing h xs with
  | nil =>
    exact ⟨(h, none), [], rfl,
      .of_unresolved hr (fun _ => Iff.rfl) (fun _ _ => rfl) (List.forall_mem_nil _)⟩
  | cons a l ih =>
    rw [List.foldlM_cons, Option.bind_eq_bind]
    rcases isIp_cases a with ⟨hip, hfail, hres⟩ | ⟨hres, hfail⟩ | ⟨hfail, hres⟩
    · rw [noneBehindFailed_cons hfail] at hl
      rw [getIpAddrStep_other hip, Option.bind_some]
      obtain ⟨st, nodes, he, happ⟩ := ih hr hl
      exact ⟨st, nodes, he, happ.cons_other hres⟩
    · rw [noneBehindFailed_cons hfail] at hl
      obtain ⟨h1, e1, r1, fresh1, live1, val1, keep1⟩ := getIpAddrStep_resolved hres hr
      rw [e1, Option.bind_some]
      obtain ⟨st, nodes, he, happ⟩ := ih r1 hl
      exact ⟨st, h.fresh :: nodes, he, .cons_resolved hres fresh1 live1 val1 keep1 happ⟩
    · -- the node in the variable is dead, so no address of the two families may follow
      rw [noneBehindFailed_cons_failed hfail] at hl
      obtain ⟨h1, e1, r1, live1, fresh1, keep1⟩ := getIpAddrStep_failed hfail hr
      have hdead : ¬h1.Live h.fresh := fun hx => ((live1 _).mp hx).lt.ne rfl
      rw [e1, Option.bind_some, getIpAddr_dead head hdead, hl]
      refine ⟨(h1, some h.fresh), [], rfl, .of_unresolved r1 live1 keep1 ?_⟩
      rw [List.forall_mem_cons]
      refine ⟨hres, fun b hb => ?_⟩
      have hip : b.isIp = false := by simpa using List.any_eq_false.mp hl b hb
      rw [IfAddr.resolved, hip]
      rfl

theorem getIpAddr_loop_none {head : ℕ} {xs : List ℕ} {h : Heap Interface} (hr : IsRing h head xs)
    {l : List IfAddr} (hl : ¬NoneBehindFailed l) :
    l.foldlM (getIpAddrStep head) (h, none) = none := by
  induction l generalizing h xs with
  | nil => exact absurd List.Pairwise.nil hl
  | cons a l ih =>
    rw [List.foldlM_cons, Option.bind_eq_bind]
    rcases isIp_cases a with ⟨hip, hfail, -⟩ | ⟨hres, hfail⟩ | ⟨hfail, -⟩
    · rw [noneBehindFailed_cons hfail] at hl
      rw [getIpAddrStep_other hip, Option.bind_some, ih hr hl]
    · rw [noneBehindFailed_cons hfail] at hl
      obtain ⟨h1, e1, r1, -⟩ := getIpAddrStep_resolved hres hr
      rw [e1, Option.bind_some, ih r1 hl]
    · rw [noneBehindFailed_cons_failed hfail, Bool.not_eq_false] at hl
      obtain ⟨h1, e1, -, live1, -⟩ := getIpAddrStep_failed hfail hr
      have hdead : ¬h1.Live h.fresh := fun hx => ((live1 _).mp hx).lt.ne rfl
      rw [e1, Option.bind_some, getIpAddr_dead head hdead, hl]
      rfl

/-- One live node for each resolved address, in order, exactly when no address of the two
families comes behind a failed one; otherwise the freed node is used again. -/
theorem getIpAddr_appended_iff {h : Heap Interface} {head : ℕ} {xs : List ℕ}
    (hr : IsRing h head xs) (l : List IfAddr) :
    (∃ h' nodes, getIpAddr (some l) h head = some h' ∧ Appended h head xs l h' nodes) ↔
      NoneBehindFailed l := by
  constructor
  · rintro ⟨h', nodes, he, -⟩
    by_contra hl
    rw [getIpAddr, getIpAddr_loop_none hr hl] at he
    cases he
  · intro hl
    obtain ⟨st, nodes, he, happ⟩ := getIpAddr_loop hr hl
    exact ⟨st.1, nodes, by rw [getIpAddr, he, Option.map_some], happ⟩

/-- The loop on the entries of the list; `dangling` tells that the variable holds a freed
node. -/
def ipEntries (dangling : Bool) : List IfAddr → Option (List Interface)
  | [] => some []
  | a :: l =>
    if a.isIp then
      if dangling then none
      else if a.host.isSome && a.netmask.isSome then do
        let v ← a.entry
        let vs ← ipEntries false l
        some (v :: vs)
      else ipEntries true l
    else ipEntries dangling l

theorem ipEntries_dangling (l : List IfAddr) :
    ipEntries true l = if l.any IfAddr.isIp then none else some [] := by
  induction l with
  | nil => rfl
  | cons a l ih =>
    rw [ipEntries, List.any_cons]
    cases a.isIp with
    | false => simpa using ih
    | true => rfl

theorem ipEntries_cons_resolved {a : IfAddr} (ha : a.resolved = true) (l : List IfAddr) :
    ipEntries false (a :: l) =
      a.entry.bind fun v => (ipEntries false l).bind fun vs => some (v :: vs) := by
  simp only [IfAddr.resolved, Bool.and_eq_true] at ha
  rw [ipEntries, if_pos ha.1.1, if_neg Bool.false_ne_true, if_pos (by simp [ha.1.2, ha.2])]
  rfl

theorem ipEntries_cons_failed {a : IfAddr} (ha : a.failed = true) (l : List IfAddr) :
    ipEntries false (a :: l) = ipEntries true l := by
  simp only [IfAddr.failed, Bool.and_eq_true, Bool.not_eq_true'] at ha
  rw [ipEntries, if_pos ha.1, if_neg Bool.false_ne_true, if_neg (by simp [ha.2])]

theorem ipEntries_cons_other {a : IfAddr} (ha : a.isIp = false) (l : List IfAddr) :
    ipEntries false (a :: l) = ipEntries false l := by
  rw [ipEntries, if_neg (by simp [ha])]

theorem ipEntries_eq_none {l : List IfAddr} (hl : ¬NoneBehindFailed l) :
    ipEntries false l = none := by
  induction l with
  | nil => exact absurd List.Pairwise.nil hl
  | cons a l ih =>
    rcases isIp_cases a with ⟨hip, hfail, -⟩ | ⟨hres, hfail⟩ | ⟨hfail, -⟩
    · rw [noneBehindFailed_cons hfail] at hl
      rw [ipEntries_cons_other hip, ih hl]
    · rw [noneBehindFailed_cons hfail] at hl
      rw [ipEntries_cons_resolved hres, ih hl]
      cases a.entry <;> rfl
    · rw [noneBehindFailed_cons_failed hfail, Bool.not_eq_false] at hl
      rw [ipEntries_cons_failed hfail, ipEntries_dangling, if_pos hl]

theorem ipEntries_eq_some {l : List IfAddr} (hl : NoneBehindFailed l) :
    ∃ vs, ipEntries false l = some vs ∧
      List.Forall₂ (fun a v => a.entry = some v) (l.filter IfAddr.resolved) vs := by
  induction l with
  | nil => exact ⟨[], rfl, .nil⟩
  | cons a l ih =>
    rcases isIp_cases a with ⟨hip, hfail, hres⟩ | ⟨hres, hfail⟩ | ⟨hfail, hres⟩
    · rw [noneBehindFailed_cons hfail] at hl
      rw [ipEntries_cons_other hip, List.filter_cons_of_neg (by simp [hres])]
      exact ih hl
    · rw [noneBehindFailed_cons hfail] at hl
      obtain ⟨vs, hvs, hall⟩ := ih hl
      obtain ⟨v, hv, -⟩ := entry_isNode hres
      rw [ipEntries_cons_resolved hres, hv, hvs, List.filter_cons_of_pos hres]
      exact ⟨v :: vs, rfl, .cons hv hall⟩
    · rw [noneBehindFailed_cons_failed hfail] at hl
      rw [ipEntries_cons_failed hfail, ipEntries_dangling, hl,
        List.filter_cons_of_neg (by simp [hres])]
      have hnone : l.filter IfAddr.resolved = [] := by
        rw [List.filter_eq_nil_iff]
        intro b hb hb'
        simp only [IfAddr.resolved, Bool.and_eq_true] at hb'
        exact List.any_eq_false.mp hl b hb hb'.1.1
      rw [hnone]
      exact ⟨[], rfl, .nil⟩

theorem getIpAddr_entries {h : Heap Interface} {head : ℕ} {xs : List ℕ} (hr : IsRing h head xs)
    (l : List IfAddr) :
    (ipEntries false l = none ∧ getIpAddr (some l) h head = none) ∨
      ∃ h' nodes vs, ipEntries false l = some vs ∧ getIpAddr (some l) h head = some h' ∧
        IsRing h' head (xs ++ nodes) ∧ (∀ x ∈ nodes, h.fresh ≤ x) ∧
        (∀ x, h'.Live x ↔ h.Live x ∨ x ∈ nodes) ∧ nodes.map h'.val? = vs.map some := by
  by_cases hl : NoneBehindFailed l
  · right
    obtain ⟨vs, hvs, hall⟩ := ipEntries_eq_some hl
    obtain ⟨st, nodes, he, happ⟩ := getIpAddr_loop hr hl
    refine ⟨st.1, nodes, vs, hvs, by rw [getIpAddr, he, Option.map_some], happ.ring, happ.new,
      happ.live, ?_⟩
    have hvals := happ.values
    generalize l.filter IfAddr.resolved = as at hall hvals
    clear happ he hl hvs
    induction hall generalizing nodes with
    | nil =>
      cases hvals
      rfl
    | cons hav _ ih =>
      cases hvals with
      | cons hnode hrest =>
        obtain ⟨v, hv, hentry, -⟩ := hnode
        rw [List.map_cons, List.map_cons, hv, ← hentry, hav, ih _ hrest]
  · left
    exact ⟨ipEntries_eq_none hl, by rw [getIpAddr, getIpAddr_loop_none hr hl]; rfl⟩

def loAddr : IfAddr where
  name := "lo".toList
  family := some .inet
  host := some "127.0.0.1".toList
  netmask := some "255.0.0.0".toList
  name_nul := by decide
  name_lt := by decide
  host_nul := by decide
  host_begin := by decide
  netmask_nul := by decide
  host_lt := by decide
  netmask_lt := by decide

def eth0Addr : IfAddr where
  name := "eth0".toList
  family := some .inet6
  host := some "fe80::1%eth0".toList
  netmask := some "ffff:ffff:ffff:ffff::".toList
  name_nul := by decide
  name_lt := by decide
  host_nul := by decide
  host_begin := by decide
  netmask_nul := by decide
  host_lt := by decide
  netmask_lt := by decide

def tun0Addr : IfAddr where
  name := "tun0".toList
  family := some .inet
  host := some "10.0.0.1".toList
  netmask := none
  name_nul := by decide
  name_lt := by decide
  host_nul := by decide
  host_begin := by decide
  netmask_nul := by decide
  host_lt := by decide
  netmask_lt := by decide

theorem getIpAddr_appended_tun_last :
    (∃ h' nodes, getIpAddr (some [loAddr, eth0Addr, tun0Addr]) (Heap.empty.malloc none) 0 =
        some h' ∧ Appended (Heap.empty.malloc none) 0 [] [loAddr, eth0Addr, tun0Addr] h' nodes) ↔
      NoneBehindFailed [loAddr, eth0Addr, tun0Addr] :=
  getIpAddr_appended_iff emptyList_ring [loAddr, eth0Addr, tun0Addr]

/-- The interface behind one without a netmask is written into the freed node. -/
theorem getIpAddr_tun_first :
    getIpAddr (some [tun0Addr, loAddr]) (Heap.empty.malloc none) 0 = none ∧
      ¬∃ h' nodes, getIpAddr (some [tun0Addr, loAddr]) (Heap.empty.malloc none) 0 = some h' ∧
        Appended (Heap.empty.malloc none) 0 [] [tun0Addr, loAddr] h' nodes := by
  have hnone : getIpAddr (some [tun0Addr, loAddr]) (Heap.empty.malloc none) 0 = none := rfl
  refine ⟨hnone, ?_⟩
  rintro ⟨h', nodes, he, -⟩
  rw [hnone] at he
  cases he

end Zsr
