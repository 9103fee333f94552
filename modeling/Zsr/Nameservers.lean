import Zsr.GatewayRun
import Zsr.OutputTables

namespace Zsr
open CLib

/-- A decimal number of one byte and nothing else. -/
def readByte (s : Text) : Option UInt8 :=
  (scanDigits s).bind fun r => if r.2 = [] ∧ r.1 < 256 then some (UInt8.ofNat r.1) else none

theorem readByte_dec (v : UInt8) : readByte (dec v.toNat) = some v := by
  have h := scanDigits_dec noDigit_nil v.toNat
  rw [List.append_nil] at h
  rw [readByte, h, Option.bind_some, if_pos ⟨rfl, v.toNat_lt⟩, UInt8.ofNat_toNat]

namespace InAddr

def loopback : InAddr := ⟨127, 0, 0, 1⟩

/-- The four bytes of a word, as they lie in memory. -/
def ofWord (v : UInt32) : InAddr where
  a := UInt8.ofNat (v.toNat % 256)
  b := UInt8.ofNat (v.toNat / 256 % 256)
  c := UInt8.ofNat (v.toNat / 65536 % 256)
  d := UInt8.ofNat (v.toNat / 16777216)

theorem ofNat_image_ofWord (v : UInt32) : UInt32.ofNat (ofWord v).image = v := by
  have hv := v.toNat_lt
  have himage : (ofWord v).image = v.toNat := by
    simp only [image, ofWord, UInt8.toNat_ofNat']
    omega
  rw [himage, UInt32.ofNat_toNat]

theorem inetNtoa_eq (v : UInt32) : inetNtoa v = (ofWord v).dotted := by
  rw [← inetNtoa_image, ofNat_image_ofWord]

def readDotted (s : Text) : Option InAddr :=
  match (s.splitOn '.').mapM readByte with
  | some [a, b, c, d] => some ⟨a, b, c, d⟩
  | _ => none

theorem splitOn_dotted (x : InAddr) : x.dotted.splitOn '.' =
    [dec x.a.toNat, dec x.b.toNat, dec x.c.toNat, dec x.d.toNat] := by
  have hjoin : x.dotted =
      ['.'].intercalate [dec x.a.toNat, dec x.b.toNat, dec x.c.toNat, dec x.d.toNat] := by
    simp [dotted, List.intercalate_cons_cons]
  rw [hjoin]
  apply List.splitOn_intercalate '.' _ (List.cons_ne_nil _ _)
  simp [not_mem_dec (c := '.') rfl]

theorem readDotted_dotted (x : InAddr) : readDotted x.dotted = some x := by
  simp [readDotted, splitOn_dotted, readByte_dec]

theorem dotted_injective : Function.Injective dotted := by
  intro x y h
  have hx := readDotted_dotted x
  rw [h, readDotted_dotted] at hx
  exact (Option.some.inj hx).symm

/-- The comparisons of the texts are ones of the addresses, as no dotted one is an address of
the new kind. -/
theorem isLocalHost_dotted (x : InAddr) :
    isLocalHost x.dotted = true ↔ x = any ∨ x = loopback := by
  have hany : "0.0.0.0".toList = any.dotted := by decide
  have hloop : "127.0.0.1".toList = loopback.dotted := by decide
  have hpoint : '.' ∈ x.dotted := by simp [dotted]
  have hnew (s : Text) (hs : '.' ∉ s) : x.dotted ≠ s := fun h => hs (h ▸ hpoint)
  simp only [isLocalHost, Bool.or_eq_true, beq_iff_eq, hany, hloop, dotted_injective.eq_iff,
    hnew "::".toList (by decide), hnew "::1".toList (by decide), or_false]

end InAddr

def isExternal (nsaddr : UInt32) : Bool := nsaddr != 0 && nsaddr != 0x0100007f

/-- The servers that are not local, none when `res_init` fails. -/
def externalServers (nsaddrs : Option (List UInt32)) : List UInt32 :=
  (nsaddrs.getD []).filter isExternal

theorem isLocalHost_inetNtoa (v : UInt32) : isLocalHost (inetNtoa v) = !isExternal v := by
  have hword {w : UInt32} : InAddr.ofWord v = InAddr.ofWord w ↔ v = w := by
    constructor
    · intro h
      rw [← InAddr.ofNat_image_ofWord v, h, InAddr.ofNat_image_ofWord]
    · rintro rfl
      rfl
  have hany : InAddr.any = InAddr.ofWord 0 := by decide
  have hloop : InAddr.loopback = InAddr.ofWord 0x0100007f := by decide
  rw [Bool.eq_iff_iff, InAddr.inetNtoa_eq, InAddr.isLocalHost_dotted, hany, hloop, hword, hword]
  simp [isExternal]

theorem getDns_eq (nsaddrs : Option (List UInt32)) : getDns nsaddrs =
    (externalServers nsaddrs).map fun v => { addr := strncpy LEN_64 (inetNtoa v) } := by
  cases nsaddrs with
  | none => rfl
  | some l =>
    rw [getDns, externalServers, Option.getD_some, List.filterMap_map, ← List.filterMap_eq_map,
      List.filterMap_filter]
    apply List.filterMap_congr
    intro v _
    rw [Function.comp_apply, isLocalHost_inetNtoa, Bool.not_not]
    rfl

theorem cstr_addr (v : UInt32) : cstr (strncpy LEN_64 (inetNtoa v)) = inetNtoa v := by
  rw [InAddr.inetNtoa_eq]
  exact ModNetwork.cstr_of_cstrIn (InAddr.cstrIn_dotted _)

theorem cycles_dns (envs : List ModName.dns.Env) (env : ModName.dns.Env) :
    cycles ModName.dns.collectRecord (envs ++ [env]) [] = some (getDns env) := by
  induction envs using List.reverseRecOn generalizing env with
  | nil =>
    rw [cycles_concat]
    exact collectQuery_eq _ _
  | append_singleton envs env' ih =>
    rw [cycles_concat, ih env']
    exact collectQuery_eq _ _

theorem shown_dns (envs : List ModName.dns.Env) : ModName.dns.shown envs =
    (lastFound (envs.map externalServers)).map fun v =>
      { addr := strncpy LEN_64 (inetNtoa v) } := by
  rw [← lastFound_map, List.map_map]
  have hall : (List.map fun v : UInt32 => ({ addr := strncpy LEN_64 (inetNtoa v) } : Dns)) ∘
      externalServers = getDns := funext fun env => (getDns_eq env).symm
  rw [hall]
  induction envs using List.reverseRecOn with
  | nil => exact ModName.shown_nil
  | append_singleton envs env ih =>
    have hheld : ModName.dns.heldAfter (envs ++ [env]) = getDns env := by
      rw [ModName.heldAfter, cycles_dns]
      rfl
    rw [ModName.shown_concat, hheld, List.map_append, List.map_singleton, lastFound_concat, ih]

def readServer : List Text → Option UInt32
  | [addr] => (InAddr.readDotted addr).map fun x => UInt32.ofNat x.image
  | _ => none

theorem readServer_inetNtoa (v : UInt32) : readServer [inetNtoa v] = some v := by
  rw [readServer, InAddr.inetNtoa_eq, InAddr.readDotted_dotted, Option.map_some,
    InAddr.ofNat_image_ofWord]

/-- In every cycle that prints the name servers a reader gets the addresses of the last query
that has found any, without the local ones, in number and in order. -/
theorem toolRun_nameservers (enable : ModName → Bool) (es : List System) {s : Tool}
    (hrun : toolRun enable es = some s) (hplain : PlainTexts enable es)
    (hdns : enable .dns = true) {es' : List System} {e : System} (hes : es' ++ [e] <+: es) :
    ∃ text, s.out[es'.length]? = some text ∧
      (readTable ModName.dns.name text).mapM readServer =
        some (lastFound ((es' ++ [e]).map fun e => externalServers (e .dns))) := by
  obtain ⟨hout, s', hrun'⟩ := toolRun_out hrun hes
  refine ⟨_, hout, ?_⟩
  have hread := readTable_cycleText hrun' (hplain.of_prefix hes) .dns
  rw [if_pos hdns, shown_dns, List.map_map, ReadsBack, List.forall₂_map_left_iff] at hread
  generalize readTable ModName.dns.name (cycleText enable (es' ++ [e])) = rows at hread ⊢
  have hrows : rows = (lastFound ((es' ++ [e]).map fun e => externalServers (e .dns))).map
      fun v => [inetNtoa v] := by
    refine ((List.forall₂_eq_eq_eq ▸ List.forall₂_map_left_iff.mpr (hread.imp ?_)) :
      _ = rows).symm
    intro v cols h
    obtain ⟨c, cols, hc, hnil, rfl⟩ := List.forall₂_cons_left_iff.mp h
    obtain rfl := List.forall₂_nil_left_iff.mp hnil
    rw [← cstr_addr v]
    exact congrArg (fun c => [c]) hc.symm
  have hback (l : List UInt32) : (l.map fun v => [inetNtoa v]).mapM readServer = some l := by
    induction l with
    | nil => rfl
    | cons v l ih => simp [readServer_inetNtoa, ih]
  rw [hrows, hback]

def withServers (nsaddrs : List UInt32) : System :=
  Function.update (loggedIn []) .dns (some nsaddrs)

theorem toolRun_nameservers_gone :
    ∃ s, toolRun (· == .dns) [withServers [0x0100007f, 0x08080808], withServers [0x0100007f]] =
        some s ∧
      ∃ text, s.out[1]? = some text ∧
        (readTable ModName.dns.name text).mapM readServer = some [0x08080808] := by
  have hruns : (toolRun (· == .dns)
      [withServers [0x0100007f, 0x08080808], withServers [0x0100007f]]).isSome := by
    decide +kernel
  obtain ⟨s, hs⟩ := Option.isSome_iff_exists.mp hruns
  have hlast : [withServers [0x0100007f, 0x08080808]] ++ [withServers [0x0100007f]] <+:
      [withServers [0x0100007f, 0x08080808], withServers [0x0100007f]] := List.prefix_rfl
  exact ⟨s, hs, toolRun_nameservers (· == .dns) _ hs (by decide +kernel) rfl hlast⟩

end Zsr
