import Zsr.CLib.Rescale
import Zsr.CLib.Word
import Zsr.IoClock

namespace Zsr
open CLib

/-- An uptime in seconds and hundredths. -/
structure ProcUptime where
  sec : ℕ
  cent : ℕ
  cent_lt : cent < 100

namespace ProcUptime

def cents (u : ProcUptime) : ℕ := 100 * u.sec + u.cent

def value (u : ProcUptime) : ℚ := u.sec + u.cent / 100

/-- The ticks in it, with the fraction of the last one. -/
def ticks (hz : UInt32) (u : ProcUptime) : ℚ := hz.toNat * u.value

def text (u : ProcUptime) : Text := dec u.sec ++ '.' :: decPad 2 u.cent

/-- The file begins with the uptime; a blank follows, or in any case no digit. -/
def PrintedIn (u : ProcUptime) (s : Text) : Prop := ∃ rest, NoDigit rest ∧ s = u.text ++ rest

theorem value_eq (u : ProcUptime) : u.value = u.cents / 100 := by
  rw [value, cents]
  push_cast
  ring

theorem cents_le_iff {u v : ProcUptime} : u.cents ≤ v.cents ↔ u.value ≤ v.value := by
  rw [value_eq, value_eq, div_le_div_iff_of_pos_right (by norm_num), Nat.cast_le]

theorem ticks_eq (hz : UInt32) (u : ProcUptime) :
    u.ticks hz = hz.toNat * (u.cents / (100 : ℕ)) := by
  rw [ticks, value_eq, Nat.cast_ofNat]

theorem not_mem_text {c : Char} (hdigit : c.isDigit = false) (hdot : c ≠ '.') (u : ProcUptime) :
    c ∉ u.text := by
  have hpad : c ∉ decPad 2 u.cent := by
    intro h
    rw [(digits_decPad Nat.two_pos u.cent).2 c h] at hdigit
    cases hdigit
  simp [text, not_mem_dec hdigit, hdot, hpad]

theorem scanUptime_text {u : ProcUptime} (hsec : u.sec < 2 ^ 64) {r : Text} (hr : NoDigit r) :
    scanUptime (u.text ++ r) = some (UInt64.ofNat u.sec, UInt64.ofNat u.cent) := by
  have hnat : (UInt64.ofNat u.sec).toNat = u.sec := UInt64.toNat_ofNat_of_lt' hsec
  have hcent : Nat.ofDigitChars 10 (decPad 2 u.cent) 0 = u.cent := by
    rw [ofDigitChars_decPad]
    exact Nat.mod_eq_of_lt u.cent_lt
  have hscan := scanLu_digits (digits_decPad Nat.two_pos u.cent) hr (by
    rw [hcent]
    exact u.cent_lt.trans (by norm_num))
  have hscanSec := scanLu_dec (noDigit_cons (c := '.') rfl (decPad 2 u.cent ++ r))
    (UInt64.ofNat u.sec)
  rw [hnat] at hscanSec
  rw [text, List.append_assoc, List.cons_append, scanUptime, hscanSec]
  simp only [Option.bind_eq_bind, Option.bind_some, scanLit, if_true, hscan, hcent]

/-- The ticks that are stored, without what is cut off. -/
def wholeTicks (hz : UInt32) (u : ProcUptime) : ℕ := rescale hz.toNat 100 u.cents

theorem wholeTicks_le (hz : UInt32) (u : ProcUptime) : (u.wholeTicks hz : ℚ) ≤ u.ticks hz := by
  rw [ticks_eq]
  exact rescale_le _ _ _

theorem ticks_lt (hz : UInt32) (u : ProcUptime) : u.ticks hz < u.wholeTicks hz + 1 := by
  rw [ticks_eq]
  exact lt_rescale_add_one (by decide) _ _

theorem wholeTicks_eq (hz : UInt32) (u : ProcUptime) :
    u.wholeTicks hz = u.sec * hz.toNat + u.cent * hz.toNat / 100 :=
  rescale_parts (by decide) _ _ _

theorem wholeTicks_lt {hz : UInt32} {u : ProcUptime} (hfit : u.ticks hz < 2 ^ 64) :
    u.wholeTicks hz < 2 ^ 64 := by
  have h := (u.wholeTicks_le hz).trans_lt hfit
  exact_mod_cast h

theorem toNat_uptime {hz : UInt32} {u : ProcUptime} (hsec : u.sec < 2 ^ 64)
    (hfit : u.wholeTicks hz < 2 ^ 64) :
    (UInt64.ofNat u.sec * hz.toUInt64 + UInt64.ofNat u.cent * hz.toUInt64 / 100).toNat =
      u.wholeTicks hz := by
  have hrate : hz.toUInt64.toNat = hz.toNat := UInt32.toNat_toUInt64 hz
  have hrateLt := hz.toNat_lt
  have hcentLt := u.cent_lt
  have hs : (UInt64.ofNat u.sec).toNat = u.sec := UInt64.toNat_ofNat_of_lt' hsec
  have hc : (UInt64.ofNat u.cent).toNat = u.cent :=
    UInt64.toNat_ofNat_of_lt' (hcentLt.trans (by decide))
  rw [wholeTicks_eq] at hfit ⊢
  have hprodCent : u.cent * hz.toNat < 2 ^ 64 := by nlinarith
  have hprodSec : u.sec * hz.toNat < 2 ^ 64 := (Nat.le_add_right _ _).trans_lt hfit
  rw [UInt64.toNat_add, UInt64.toNat_div, toNat_mul_of_lt (by rwa [hs, hrate]),
    toNat_mul_of_lt (by rwa [hc, hrate]), hs, hc, hrate]
  exact Nat.mod_eq_of_lt hfit

theorem sec_lt {hz : UInt32} (hhz : 0 < hz) {u : ProcUptime} (hfit : u.wholeTicks hz < 2 ^ 64) :
    u.sec < 2 ^ 64 := by
  have hpos : 0 < hz.toNat := UInt32.lt_iff_toNat_lt.mp hhz
  have hle : u.sec ≤ u.sec * hz.toNat := Nat.le_mul_of_pos_right _ hpos
  rw [wholeTicks_eq] at hfit
  omega

theorem readUptimeInJiffies_printed {hz : UInt32} (hhz : 0 < hz) {u : ProcUptime}
    (hfit : u.ticks hz < 2 ^ 64) {s : Text} (hs : u.PrintedIn s) :
    ∃ a, readUptimeInJiffies hz (some s) = some a ∧ a.toNat = u.wholeTicks hz := by
  have hwhole := wholeTicks_lt hfit
  have hsec := sec_lt hhz hwhole
  obtain ⟨rest, hrest, rfl⟩ := hs
  have hlen : u.text.length ≤ 127 := by
    have hdec : (dec u.sec).length ≤ 20 := dec_length_le (by decide) (hsec.trans (by decide))
    rw [text, List.length_append, List.length_cons, decPad_length]
    omega
  obtain ⟨t, ht, hline⟩ :=
    cstr_takeLine_append (not_mem_text rfl (by decide) u) (not_mem_text rfl (by decide) u) hlen rest
  have hne : u.text ++ rest ≠ [] := by simp [text]
  refine ⟨_, ?_, toNat_uptime hsec hwhole⟩
  rw [readUptimeInJiffies, Option.bind_some, fgets, if_neg hne]
  dsimp only
  rw [LEN_128, hline, scanUptime_text hsec (hrest.of_prefix ht)]
  rfl

/-- The value is less than one tick below the exact one. -/
def CutFrom (hz : UInt32) (u : ProcUptime) (a : UInt64) : Prop :=
  (a.toNat : ℚ) ≤ u.ticks hz ∧ u.ticks hz < a.toNat + 1

theorem cutFrom_of_whole {hz : UInt32} {u : ProcUptime} {a : UInt64}
    (ha : a.toNat = u.wholeTicks hz) : u.CutFrom hz a := by
  rw [CutFrom, ha]
  exact ⟨u.wholeTicks_le hz, u.ticks_lt hz⟩

theorem ticks_mono (hz : UInt32) {u v : ProcUptime} (huv : u.value ≤ v.value) :
    u.ticks hz ≤ v.ticks hz :=
  mul_le_mul_of_nonneg_left huv (Nat.cast_nonneg _)

section Interval

variable {hz : UInt32} {u v : ProcUptime} {a b : UInt64}

theorem le_of_whole (huv : u.value ≤ v.value) (ha : a.toNat = u.wholeTicks hz)
    (hb : b.toNat = v.wholeTicks hz) : a ≤ b := by
  rw [UInt64.le_iff_toNat_le, ha, hb]
  exact rescale_mono _ _ (cents_le_iff.mpr huv)

theorem abs_interval_lt (huv : u.value ≤ v.value) (ha : a.toNat = u.wholeTicks hz)
    (hb : b.toNat = v.wholeTicks hz) :
    |((b - a).toNat : ℚ) - (v.ticks hz - u.ticks hz)| < 1 := by
  rw [cast_toNat_sub (le_of_whole huv ha hb), ha, hb, ticks_eq, ticks_eq]
  exact abs_rescale_sub_lt (by decide) _ _ _

end Interval

end ProcUptime

/-- A later uptime is never read as an earlier one, each read is less than a tick below the
exact value, and the interval of an SMP machine is less than a tick off the exact one. -/
theorem readUptimeInJiffies_interval {hz : UInt32} (hhz : 0 < hz) {u v : ProcUptime}
    (hfit : v.ticks hz < 2 ^ 64) (huv : u.value ≤ v.value) {s t : Text} (hs : u.PrintedIn s)
    (ht : v.PrintedIn t) :
    ∃ a b, readUptimeInJiffies hz (some s) = some a ∧ readUptimeInJiffies hz (some t) = some b ∧
      u.CutFrom hz a ∧ v.CutFrom hz b ∧ a ≤ b ∧
      ∀ (st : IoStatics) (cs ps : IoStat), 1 < st.numOfCpu → cs.uptime0 = b → ps.uptime0 = a →
        (ioInterval st cs ps).toNat = b.toNat - a.toNat ∧
        |((ioInterval st cs ps).toNat : ℚ) - (v.ticks hz - u.ticks hz)| < 1 := by
  have hfit' := (ProcUptime.ticks_mono hz huv).trans_lt hfit
  obtain ⟨a, hread, ha⟩ := ProcUptime.readUptimeInJiffies_printed hhz hfit' hs
  obtain ⟨b, hread', hb⟩ := ProcUptime.readUptimeInJiffies_printed hhz hfit ht
  have hle := ProcUptime.le_of_whole huv ha hb
  refine ⟨a, b, hread, hread', ProcUptime.cutFrom_of_whole ha, ProcUptime.cutFrom_of_whole hb,
    hle, ?_⟩
  rintro st cs ps hsmp rfl rfl
  have hitv : ioInterval st cs ps = cs.uptime0 - ps.uptime0 := if_pos hsmp
  rw [hitv]
  exact ⟨toNat_sub_of_le (UInt64.le_iff_toNat_le.mp hle), ProcUptime.abs_interval_lt huv ha hb⟩

theorem readUptimeInJiffies_interval_carry :
    ∃ a b, readUptimeInJiffies 1024 (some "9.99 4.20\n".toList) = some a ∧
      readUptimeInJiffies 1024 (some "10.00 4.21\n".toList) = some b ∧
      (ProcUptime.mk 9 99 (by decide)).CutFrom 1024 a ∧
      (ProcUptime.mk 10 0 (by decide)).CutFrom 1024 b ∧ a ≤ b ∧
      ∀ (st : IoStatics) (cs ps : IoStat), 1 < st.numOfCpu → cs.uptime0 = b → ps.uptime0 = a →
        (ioInterval st cs ps).toNat = b.toNat - a.toNat ∧
        |((ioInterval st cs ps).toNat : ℚ) - ((ProcUptime.mk 10 0 (by decide)).ticks 1024 -
          (ProcUptime.mk 9 99 (by decide)).ticks 1024)| < 1 := by
  have hrate : (1024 : UInt32).toNat = 1024 := rfl
  apply readUptimeInJiffies_interval (by decide)
  · norm_num [ProcUptime.ticks, ProcUptime.value, hrate]
  · norm_num [ProcUptime.value]
  · exact ⟨" 4.20\n".toList, noDigit_cons rfl _, by decide⟩
  · exact ⟨" 4.21\n".toList, noDigit_cons rfl _, by decide⟩

example : readUptimeInJiffies 1024 (some "9.99 4.20\n".toList) = some 10229 := by decide +kernel

/-- A collection on more than one CPU that finds the uptime `up i` at line `i`. -/
structure SeesUptime (hz : UInt32) (env : IoEnv) (up : ℕ → ProcUptime) : Prop where
  smp : env.Smp
  rate : getHZ env.ticks = some hz
  printed : ∀ i, ∃ s, env.uptime i = some s ∧ (up i).PrintedIn s
  fits : ∀ i, (up i).ticks hz < 2 ^ 64

section Run

variable {hz : UInt32} (hhz : 0 < hz)

include hhz

theorem Recorded.toNat_uptime0 {env : IoEnv} {st : IoStatics} {up : ℕ → ProcUptime} {i : ℕ}
    {c : Io} (hc : Recorded env st i c) (hst : env.statics = some st)
    (h : SeesUptime hz env up) : c.stat.uptime0.toNat = (up i).wholeTicks hz := by
  obtain ⟨s, hs, hprinted⟩ := h.printed i
  obtain ⟨a, hread, ha⟩ := ProcUptime.readUptimeInJiffies_printed hhz (h.fits i) hprinted
  have hrate : st.hz = hz := Option.some.inj ((statics_hz hst).symm.trans h.rate)
  have h0 := hc.uptime0
  rw [smpUptime, if_pos ((statics_smp hst).mp h.smp), hrate, hs, hread, Option.some.injEq] at h0
  rw [← h0, ha]

/-- In a run on more than one CPU, whatever entry of the list before a device is compared with,
its interval is less than a tick off what has passed between the two lines. -/
theorem ioRun_interval {envs : List IoEnv} {lists : List (List Io)}
    (hrun : cycles ModIo.collectRecord envs [] = some lists) {up : ℕ → ℕ → ProcUptime}
    (hsees : ∀ (k : ℕ) (env : IoEnv), envs[k]? = some env → SeesUptime hz env (up k))
    (hle : ∀ k i j, (up k j).value ≤ (up (k + 1) i).value) {k : ℕ} {prev cur : List Io}
    (hprev : lists[k]? = some prev) (hcur : lists[k + 1]? = some cur) :
    ∃ (env : IoEnv) (st : IoStatics), envs[k + 1]? = some env ∧ env.statics = some st ∧
      ∀ (i j : ℕ) (c p : Io), cur[i]? = some c → prev[j]? = some p →
        |((ioInterval st c.stat p.stat).toNat : ℚ) -
          ((up (k + 1) i).ticks hz - (up k j).ticks hz)| < 1 := by
  have hheld := ioRun_held hrun
  have henv {k : ℕ} {l : List Io} (hl : lists[k]? = some l) : ∃ env, envs[k]? = some env := by
    obtain ⟨hk, -⟩ := List.getElem?_eq_some_iff.mp hl
    exact ⟨_, List.getElem?_eq_getElem (hheld.length_eq.symm ▸ hk)⟩
  obtain ⟨env, he⟩ := henv hprev
  obtain ⟨env', he'⟩ := henv hcur
  obtain ⟨-, st, hst, hrec⟩ := held_getElem hheld he hprev
  obtain ⟨-, st', hst', hrec'⟩ := held_getElem hheld he' hcur
  refine ⟨env', st', he', hst', fun i j c p hc hp => ?_⟩
  have hsees' := hsees (k + 1) env' he'
  have hnew := (hrec' i c hc).toNat_uptime0 hhz hst' hsees'
  have hold := (hrec j p hp).toNat_uptime0 hhz hst (hsees k env he)
  have hitv : ioInterval st' c.stat p.stat = c.stat.uptime0 - p.stat.uptime0 :=
    if_pos ((statics_smp hst').mp hsees'.smp)
  rw [hitv]
  exact ProcUptime.abs_interval_lt (hle k i j) hold hnew

end Run

end Zsr
