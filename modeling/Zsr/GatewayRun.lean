import Zsr.CLib.Loop
import Zsr.Framework

namespace Zsr
open CLib

/-- `struct in_addr`: the four bytes in the order in which they are sent. -/
structure InAddr where
  a : UInt8
  b : UInt8
  c : UInt8
  d : UInt8
  deriving DecidableEq

namespace InAddr

def any : InAddr := ⟨0, 0, 0, 0⟩

/-- The number that a little-endian machine sees in the four bytes. -/
def image (x : InAddr) : ℕ :=
  x.a.toNat + 256 * x.b.toNat + 65536 * x.c.toNat + 16777216 * x.d.toNat

def dotted (x : InAddr) : Text :=
  dec x.a.toNat ++ '.' :: dec x.b.toNat ++ '.' :: dec x.c.toNat ++ '.' :: dec x.d.toNat

theorem image_lt (x : InAddr) : x.image < 2 ^ 32 := by
  have ha := x.a.toNat_lt
  have hb := x.b.toNat_lt
  have hc := x.c.toNat_lt
  have hd := x.d.toNat_lt
  unfold image
  omega

theorem image_eq_zero_iff (x : InAddr) : x.image = 0 ↔ x = any := by
  obtain ⟨a, b, c, d⟩ := x
  simp only [image, any, mk.injEq, ← UInt8.toNat_inj, UInt8.toNat_zero]
  omega

theorem inetNtoa_image (x : InAddr) : inetNtoa (UInt32.ofNat x.image) = x.dotted := by
  have ha := x.a.toNat_lt
  have hb := x.b.toNat_lt
  have hc := x.c.toNat_lt
  have hd := x.d.toNat_lt
  have hval : (UInt32.ofNat x.image).toNat = x.image := UInt32.toNat_ofNat_of_lt' x.image_lt
  have h0 : x.image % 256 = x.a.toNat := by unfold image; omega
  have h1 : x.image / 256 % 256 = x.b.toNat := by unfold image; omega
  have h2 : x.image / 65536 % 256 = x.c.toNat := by unfold image; omega
  have h3 : x.image / 16777216 = x.d.toNat := by unfold image; omega
  rw [inetNtoa, hval, h0, h1, h2, h3, dotted]

theorem ofNat_image_eq_zero_iff (x : InAddr) : UInt64.ofNat x.image = 0 ↔ x = any := by
  have h := x.image_lt
  have hsize : UInt64.size = 2 ^ 64 := rfl
  rw [← image_eq_zero_iff, ← UInt64.toNat_inj, UInt64.toNat_ofNat_of_lt' (by omega)]
  rfl

theorem inetNtoa_ofNat (x : InAddr) : inetNtoa (UInt64.ofNat x.image).toUInt32 = x.dotted := by
  rw [← inetNtoa_image]
  congr 1
  rw [← UInt32.toNat_inj]
  simp

theorem length_dec_byte (v : UInt8) : (dec v.toNat).length ≤ 3 :=
  dec_length_le (by decide) (v.toNat_lt.trans (by decide))

theorem cstrIn_dotted (x : InAddr) : cstrIn (strncpy LEN_64 x.dotted) = some x.dotted := by
  have ha := length_dec_byte x.a
  have hb := length_dec_byte x.b
  have hc := length_dec_byte x.c
  have hd := length_dec_byte x.d
  apply cstrIn_strncpy
  · simp [dotted, not_mem_dec (c := '\x00') (by decide)]
  · simp only [dotted, List.length_append, List.length_cons]
    show _ < 64
    omega

end InAddr

/-- A route and the line it is printed in: interface, destination, gateway, flags, and the
other columns padded with blanks. -/
structure Route where
  iface : Text
  destination : InAddr
  gateway : InAddr
  flags : UInt16
  rest : Text
  iface_ne : iface ≠ []
  iface_plain : ∀ c ∈ iface, isSpace c = false ∧ c ≠ '\x00'
  iface_length : iface.length < 16
  rest_plain : '\n' ∉ rest ∧ '\x00' ∉ rest
  rest_length : rest.length ≤ 200

def Route.line (r : Route) : Text :=
  r.iface ++ '\t' :: (hexDigits 8 r.destination.image ++ '\t' :: (hexDigits 8 r.gateway.image ++
    '\t' :: (hexDigits 4 r.flags.toNat ++ '\t' :: r.rest)))

/-- The routes of a table; without a main table the file has no header and is empty. -/
structure RouteTable where
  header : Bool
  routes : List Route

def routeHeader : Text :=
  "Iface\tDestination\tGateway \tFlags\tRefCnt\tUse\tMetric\tMask\t\tMTU\tWindow\tIRTT".toList ++
    List.replicate 55 ' '

def RouteTable.lines (t : RouteTable) : List Text :=
  (if t.header then [routeHeader] else []) ++ t.routes.map Route.line

def RouteTable.text (t : RouteTable) : Text := (t.lines.map (· ++ ['\n'])).flatten

/-- A gateway by which everything else is reached. -/
def Route.IsDefault (r : Route) : Prop :=
  r.destination = .any ∧ r.flags = 3 ∧ r.gateway ≠ .any

instance (r : Route) : Decidable r.IsDefault := inferInstanceAs (Decidable (_ ∧ _ ∧ _))

def defaultGateway (t : RouteTable) : Option InAddr :=
  (t.routes.find? fun r => r.IsDefault).map Route.gateway

theorem endsHex_tab : EndsHex '\t' := ⟨by decide, by decide, by decide⟩

theorem scanRoute_line (r : Route) : scanRoute (r.line ++ ['\n']) =
    (UInt64.ofNat r.destination.image, UInt64.ofNat r.gateway.image, r.flags.toUInt64) := by
  have hdest := r.destination.image_lt
  have hgateway := r.gateway.image_lt
  have hflags := r.flags.toNat_lt
  have hwiden : UInt64.ofNat r.flags.toNat = r.flags.toUInt64 := by
    rw [← UInt64.toNat_inj]
    simp
  have htab (s : Text) : scanLx ('\t' :: s) = scanLx s := rfl
  have hword := scanS_word r.iface_ne (fun c hc => (r.iface_plain c hc).1) (c := '\t') (by decide)
  simp only [Route.line, List.append_assoc, List.cons_append, scanRoute, hword, htab]
  rw [scanLx_hexDigits (by decide) (by omega) (by omega) endsHex_tab]
  dsimp only
  rw [htab, scanLx_hexDigits (by decide) (by omega) (by omega) endsHex_tab]
  dsimp only
  rw [htab, scanLx_hexDigits (by decide) (by omega) (by omega) endsHex_tab, hwiden]
  rfl

theorem scanRoute_header : scanRoute (routeHeader ++ ['\n']) = (0xDE, 0, 0) := by decide

theorem routeLines_cons (gateway : Gateway) (r : Route) (bufs : List Text) :
    routeLines gateway ((r.line ++ ['\n']) :: bufs) =
      if r.IsDefault then { addr := strncpy LEN_64 r.gateway.dotted }
      else routeLines gateway bufs := by
  have hflags : r.flags.toUInt64 = 3 ↔ r.flags = 3 := by
    rw [← UInt64.toNat_inj, ← UInt16.toNat_inj]
    rfl
  rw [routeLines, scanRoute_line]
  apply if_congr
  · rw [hflags, InAddr.ofNat_image_eq_zero_iff, ne_eq, InAddr.ofNat_image_eq_zero_iff]
    exact and_left_comm
  · rw [InAddr.inetNtoa_ofNat]
  · rfl

theorem Route.line_plain (r : Route) :
    '\n' ∉ r.line ∧ '\x00' ∉ r.line ∧ r.line.length + 1 < LEN_256 := by
  have hnl : '\n' ∉ r.iface := by
    intro h
    have := (r.iface_plain _ h).1
    revert this
    decide
  have hnul : '\x00' ∉ r.iface := fun h => (r.iface_plain _ h).2 rfl
  have hiface := r.iface_length
  have hrest := r.rest_length
  refine ⟨?_, ?_, ?_⟩
  · simp [Route.line, hnl, r.rest_plain, not_mem_hexDigits (c := '\n') (by decide)]
  · simp [Route.line, hnul, r.rest_plain, not_mem_hexDigits (c := '\x00') (by decide)]
  · simp only [Route.line, List.length_append, List.length_cons, hexDigits_length]
    show _ < 256
    omega

theorem routeLines_map (routes : List Route) (gateway : Gateway) :
    routeLines gateway ((routes.map Route.line).map (· ++ ['\n'])) =
      ((routes.find? fun r => r.IsDefault).map Route.gateway).elim gateway fun x =>
        { addr := strncpy LEN_64 x.dotted } := by
  induction routes with
  | nil => rfl
  | cons r routes ih =>
    rw [List.map_cons, List.map_cons, routeLines_cons]
    by_cases hr : r.IsDefault
    · rw [if_pos hr, List.find?_cons_of_pos (by simpa using hr)]
      rfl
    · rw [if_neg hr, List.find?_cons_of_neg (by simpa using hr), ih]

theorem getGateway_table (t : RouteTable) (gateway : Gateway) :
    getGateway (some t.text) gateway =
      (defaultGateway t).elim gateway fun x => { addr := strncpy LEN_64 x.dotted } := by
  have hlines : fgetsLines LEN_256 t.text = t.lines.map (· ++ ['\n']) := by
    apply fgetsLines_lines
    intro l hl
    rcases List.mem_append.mp hl with hl | hl
    · obtain ⟨-, rfl⟩ : t.header = true ∧ l = routeHeader := by
        split at hl <;> simp_all
      decide +kernel
    · obtain ⟨r, -, rfl⟩ := List.mem_map.mp hl
      exact r.line_plain
  rw [getGateway, hlines, RouteTable.lines, List.map_append]
  cases t.header with
  | false => exact routeLines_map t.routes gateway
  | true =>
    -- the header is passed over
    rw [if_pos rfl, List.map_singleton, List.singleton_append, routeLines, scanRoute_header]
    exact routeLines_map t.routes gateway

/-- The collections of the module, each with the table it meets; `none` is a file that
cannot be opened. -/
def gatewayRun (es : List (Option RouteTable)) : Option (List Gateway) :=
  cycles ModGateway.collectRecord (es.map (Option.map RouteTable.text)) []

def found (e : Option RouteTable) : Option InAddr := e.bind defaultGateway

/-- The record after a gateway was found, or before. -/
def heldGateway (o : Option InAddr) : Gateway :=
  o.elim .zeroed fun x => { addr := strncpy LEN_64 x.dotted }

theorem getGateway_held (e : Option RouteTable) (o : Option InAddr) :
    getGateway (e.map RouteTable.text) (heldGateway o) = heldGateway ((found e).or o) := by
  cases e with
  | none => rfl
  | some t =>
    rw [Option.map_some, getGateway_table, found, Option.bind_some]
    cases defaultGateway t <;> rfl

theorem foldl_getGateway (es : List (Option RouteTable)) :
    (es.map (Option.map RouteTable.text)).foldl (fun gateway e => getGateway e gateway) .zeroed =
      heldGateway (es.filterMap found).getLast? := by
  induction es using List.reverseRecOn with
  | nil => rfl
  | append_singleton es e ih =>
    rw [List.map_append, List.foldl_append, ih, List.map_singleton, List.foldl_cons,
      List.foldl_nil, getGateway_held, List.filterMap_append, List.getLast?_append]
    cases h : found e <;> simp [h]

theorem gatewayRun_concat (es : List (Option RouteTable)) (e : Option RouteTable) :
    gatewayRun (es ++ [e]) = some [heldGateway ((es ++ [e]).filterMap found).getLast?] := by
  rw [← foldl_getGateway, gatewayRun, List.map_append, List.map_singleton]
  exact cycles_collectSingle getGateway .zeroed _ _

theorem InAddr.dotted_ne_nil (x : InAddr) : x.dotted ≠ [] := by simp [dotted]

theorem cstrIn_heldGateway (o : Option InAddr) :
    cstrIn (heldGateway o).addr = some (o.elim [] InAddr.dotted) := by
  cases o with
  | none => decide
  | some x => exact x.cstrIn_dotted

/-- After every collection of a table the record shows the gateway of that table, and
nothing when the table has none. -/
def ShowsGateway (es : List (Option RouteTable)) : Prop :=
  ∀ es' t, es' ++ [some t] <+: es → ∃ gateway, gatewayRun (es' ++ [some t]) = some [gateway] ∧
    cstrIn gateway.addr = some ((defaultGateway t).elim [] InAddr.dotted)

theorem shows_concat_iff (es : List (Option RouteTable)) (t : RouteTable) :
    (∃ gateway, gatewayRun (es ++ [some t]) = some [gateway] ∧
      cstrIn gateway.addr = some ((defaultGateway t).elim [] InAddr.dotted)) ↔
    ∀ e ∈ es, defaultGateway t = none → found e = none := by
  have hnone : (es.filterMap found).getLast? = none ↔ ∀ e ∈ es, found e = none := by
    rw [List.getLast?_eq_none_iff, List.filterMap_eq_nil_iff]
  rw [gatewayRun_concat, List.filterMap_append, List.getLast?_append]
  simp only [Option.some.injEq, List.cons.injEq, and_true, exists_eq_left', cstrIn_heldGateway]
  cases ht : defaultGateway t with
  | some x => simp [found, ht]
  | none =>
    have hfound : [some t].filterMap found = [] := by simp [found, ht]
    rw [hfound, List.getLast?_nil, Option.none_or, Option.elim_none]
    simp only [forall_true_left, ← hnone]
    cases (es.filterMap found).getLast? with
    | none => simp
    | some x => simp [x.dotted_ne_nil]

/-- The record always shows the last table exactly when no table without a default gateway
comes after one that has it. -/
theorem gatewayRun_shows_iff (es : List (Option RouteTable)) : ShowsGateway es ↔
    es.Pairwise fun e e' => ∀ t, e' = some t → defaultGateway t = none → found e = none := by
  rw [pairwise_iff_forall_concat]
  constructor
  · rintro h es' _ hes e he t rfl
    exact (shows_concat_iff es' t).mp (h es' t hes) e he
  · intro h es' t hes
    rw [shows_concat_iff]
    exact fun e he => h es' (some t) hes e he t rfl

def subnetRoute : Route where
  iface := "eth0".toList
  destination := ⟨192, 168, 1, 0⟩
  gateway := .any
  flags := 1
  rest := "0\t0\t0\t00FFFFFF\t0\t0\t0".toList
  iface_ne := by decide
  iface_plain := by
    intro c hc
    obtain rfl | rfl | rfl | rfl : c = 'e' ∨ c = 't' ∨ c = 'h' ∨ c = '0' := by simpa using hc
    all_goals decide
  iface_length := by decide
  rest_plain := by decide
  rest_length := by decide

def defaultRoute : Route :=
  { subnetRoute with destination := .any, gateway := ⟨192, 168, 1, 1⟩, flags := 3 }

/-- The address of a default route that has been deleted is still shown. -/
theorem gatewayRun_stale :
    gatewayRun [some ⟨true, [defaultRoute, subnetRoute]⟩, some ⟨true, [subnetRoute]⟩] =
      some [{ addr := strncpy LEN_64 "192.168.1.1".toList }] ∧
    ¬∀ es, ShowsGateway es := by
  have hrun : gatewayRun
      [some ⟨true, [defaultRoute, subnetRoute]⟩, some ⟨true, [subnetRoute]⟩] =
      some [{ addr := strncpy LEN_64 "192.168.1.1".toList }] := by decide +kernel
  refine ⟨hrun, fun hall => ?_⟩
  obtain ⟨gateway, h, haddr⟩ := hall _ [some ⟨true, [defaultRoute, subnetRoute]⟩]
    ⟨true, [subnetRoute]⟩ List.prefix_rfl
  rw [List.singleton_append, hrun] at h
  obtain rfl := List.singleton_inj.mp (Option.some.inj h)
  revert haddr
  decide

end Zsr
