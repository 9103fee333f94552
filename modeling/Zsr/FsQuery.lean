import Zsr.Latest
import Zsr.Rounding
import Zsr.CLib.Lists
import Zsr.CLib.Word

namespace Zsr
open CLib

/-- What the kernel reports: parts that fit into the whole, and a size that fits in 64 bits. -/
structure Statfs.Reported (fs : Statfs) : Prop where
  bavail : fs.bavail.toNat ≤ fs.bfree.toNat
  bfree : fs.bfree.toNat ≤ fs.blocks.toNat
  ffree : fs.ffree.toNat ≤ fs.files.toNat
  bytes : fs.blocks.toNat * fs.bsize.toUInt64.toNat < 2 ^ 64

/-- A number from 0 to 1 that is off by half a hundredth at most. -/
def RoundedShare (d : Double) (x : ℚ) : Prop :=
  ∃ y, d = .fin y ∧ 0 ≤ y ∧ y ≤ 1 ∧ |y - x| ≤ 1 / 200

/-- The figures fit together and are close to what they round. -/
structure FsSane (fs : Statfs) (node : FsStat) : Prop where
  space : node.used.toNat + node.available.toNat ≤ node.total.toNat
  util : RoundedShare node.util (1 - ((fs.bavail.toNat * fs.bsize.toUInt64.toNat : ℕ) : ℚ) /
    ((fs.blocks.toNat * fs.bsize.toUInt64.toNat : ℕ) : ℚ))
  iutil : RoundedShare node.iutil (((fs.files.toNat - fs.ffree.toNat : ℕ) : ℚ) / fs.files.toNat)

theorem not_roundedShare_nan (s : Bool) (x : ℚ) :
    ¬RoundedShare (roundWithPrec (.nan s) 2) x := by
  have hnan : roundWithPrec (.nan s) 2 = .fin ((-2 ^ 63 : ℤ) * 10 ^ (-(2 : ℕ) : ℤ)) := rfl
  rintro ⟨y, hy, h0, -⟩
  rw [hnan, Double.fin_inj] at hy
  rw [← hy] at h0
  norm_num at h0

section
variable {a b : UInt64}

theorem roundedShare_iff (h : a.toNat ≤ b.toNat) :
    RoundedShare (roundWithPrec (Double.ofU64 a / Double.ofU64 b) 2)
      ((a.toNat : ℚ) / b.toNat) ↔ b ≠ 0 := by
  constructor
  · rintro hshare rfl
    obtain rfl : a = 0 := UInt64.toNat_inj.mp (Nat.le_zero.mp h)
    exact not_roundedShare_nan _ _ hshare
  · intro hb
    have hpos := toNat_pos hb
    rw [Double.ofU64_eq, Double.ofU64_eq, Double.fin_div hpos.ne']
    exact roundWithPrec_two (by positivity) (div_le_one_of_le₀ (by exact_mod_cast h) hpos.le)

theorem roundedShare_compl_iff (h : a.toNat ≤ b.toNat) :
    RoundedShare (roundWithPrec (.fin 1 - Double.ofU64 a / Double.ofU64 b) 2)
      (1 - (a.toNat : ℚ) / b.toNat) ↔ b ≠ 0 := by
  constructor
  · rintro hshare rfl
    obtain rfl : a = 0 := UInt64.toNat_inj.mp (Nat.le_zero.mp h)
    exact not_roundedShare_nan _ _ hshare
  · intro hb
    have hpos := toNat_pos hb
    have hle : (a.toNat : ℚ) / b.toNat ≤ 1 := div_le_one_of_le₀ (by exact_mod_cast h) hpos.le
    have hnonneg : (0 : ℚ) ≤ a.toNat / b.toNat := by positivity
    rw [Double.ofU64_eq, Double.ofU64_eq, Double.fin_div hpos.ne', Double.fin_sub]
    exact roundWithPrec_two (by linarith) (by linarith)

end

section
variable {fs : Statfs} (h : fs.Reported)
include h

theorem Statfs.Reported.toNat_bytes {n : UInt64} (hn : n.toNat ≤ fs.blocks.toNat) :
    (n * fs.bsize.toUInt64).toNat = n.toNat * fs.bsize.toUInt64.toNat :=
  toNat_mul_of_lt ((Nat.mul_le_mul_right _ hn).trans_lt h.bytes)

theorem Statfs.Reported.bavail_le : fs.bavail.toNat ≤ fs.blocks.toNat := h.bavail.trans h.bfree

theorem Statfs.Reported.bytes_ne_zero_iff :
    fs.blocks * fs.bsize.toUInt64 ≠ 0 ↔ fs.blocks ≠ 0 ∧ fs.bsize ≠ 0 := by
  have hsize : fs.bsize.toUInt64 = 0 ↔ fs.bsize = 0 :=
    ⟨fun h0 => congrArg Int64.ofUInt64 h0, fun h0 => congrArg Int64.toUInt64 h0⟩
  have hzero (n : UInt64) : n = 0 ↔ n.toNat = 0 := UInt64.toNat_inj.symm
  rw [← not_or, not_iff_not, ← hsize, hzero, hzero, hzero, h.toNat_bytes le_rfl, Nat.mul_eq_zero]

theorem used_add_available_le (node : FsStat) :
    (setFsStat (some fs) node).used.toNat + (setFsStat (some fs) node).available.toNat ≤
      (setFsStat (some fs) node).total.toNat := by
  have hused : (fs.blocks - fs.bfree).toNat = fs.blocks.toNat - fs.bfree.toNat :=
    UInt64.toNat_sub_of_le _ _ h.bfree
  have hparts : fs.blocks.toNat - fs.bfree.toNat + fs.bavail.toNat ≤ fs.blocks.toNat := by
    have := h.bavail
    have := h.bfree
    omega
  simp only [setFsStat]
  rw [h.toNat_bytes (by omega), h.toNat_bytes h.bavail_le, h.toNat_bytes le_rfl, hused,
    ← Nat.add_mul]
  exact Nat.mul_le_mul_right _ hparts

theorem setFsStat_util_iff (node : FsStat) :
    RoundedShare (setFsStat (some fs) node).util
      (1 - ((fs.bavail.toNat * fs.bsize.toUInt64.toNat : ℕ) : ℚ) /
        ((fs.blocks.toNat * fs.bsize.toUInt64.toNat : ℕ) : ℚ)) ↔
      fs.blocks ≠ 0 ∧ fs.bsize ≠ 0 := by
  have hle : (fs.bavail * fs.bsize.toUInt64).toNat ≤ (fs.blocks * fs.bsize.toUInt64).toNat := by
    rw [h.toNat_bytes h.bavail_le, h.toNat_bytes le_rfl]
    exact Nat.mul_le_mul_right _ h.bavail_le
  have hiff := roundedShare_compl_iff hle
  rw [h.bytes_ne_zero_iff, h.toNat_bytes h.bavail_le, h.toNat_bytes le_rfl] at hiff
  exact hiff

theorem setFsStat_iutil_iff (node : FsStat) :
    RoundedShare (setFsStat (some fs) node).iutil
      (((fs.files.toNat - fs.ffree.toNat : ℕ) : ℚ) / fs.files.toNat) ↔ fs.files ≠ 0 := by
  have hsub : (fs.files - fs.ffree).toNat = fs.files.toNat - fs.ffree.toNat :=
    UInt64.toNat_sub_of_le _ _ h.ffree
  have hle : (fs.files - fs.ffree).toNat ≤ fs.files.toNat := by
    rw [hsub]
    exact Nat.sub_le _ _
  have hiff := roundedShare_iff hle
  rw [hsub] at hiff
  exact hiff

end

/-- The figures are sane exactly when neither of the two quotients divides by zero. -/
theorem setFsStat_sane_iff (fs : Statfs) (h : fs.Reported) (node : FsStat) :
    FsSane fs (setFsStat (some fs) node) ↔ fs.blocks ≠ 0 ∧ fs.bsize ≠ 0 ∧ fs.files ≠ 0 := by
  rw [← and_assoc, ← setFsStat_util_iff h node, ← setFsStat_iutil_iff h node]
  constructor
  · intro hs
    exact ⟨hs.util, hs.iutil⟩
  · rintro ⟨hutil, hiutil⟩
    exact ⟨used_add_available_le h node, hutil, hiutil⟩

/-- A disk of 1000 blocks, and one that counts no inodes. -/
def diskStatfs : Statfs where
  blocks := 1000
  bsize := 4096
  bfree := 400
  bavail := 300
  files := 50
  ffree := 20

def vfatStatfs : Statfs := { diskStatfs with files := 0, ffree := 0 }

def emptyNode : FsStat where
  mntFsname := strncpy LEN_1024 []
  mntDir := strncpy LEN_1024 []
  mntType := strncpy LEN_32 []
  total := 0
  used := 0
  available := 0
  util := 0
  inodes := 0
  iused := 0
  ifree := 0
  iutil := 0

theorem setFsStat_sane_disk : FsSane diskStatfs (setFsStat (some diskStatfs) emptyNode) :=
  (setFsStat_sane_iff diskStatfs (by constructor <;> decide) emptyNode).mpr (by decide)

/-- No inodes at all are in use, at -92233720368547758.08. -/
theorem setFsStat_vfat :
    vfatStatfs.Reported ∧
    (setFsStat (some vfatStatfs) emptyNode).iutil = .fin (-9223372036854775808 / 100) ∧
    ¬FsSane vfatStatfs (setFsStat (some vfatStatfs) emptyNode) := by
  have hiutil : (setFsStat (some vfatStatfs) emptyNode).iutil =
      .fin (-9223372036854775808 / 100) := by
    decide +kernel
  refine ⟨by constructor <;> decide, hiutil, fun h => ?_⟩
  obtain ⟨y, hy, h0, -⟩ := h.iutil
  rw [hiutil, Double.fin_inj] at hy
  rw [← hy] at h0
  norm_num at h0

/-- The same mount, in a node that `malloc` took from elsewhere. -/
def SameMount (mn mn' : Mntent) : Prop := ∃ g, mn' = { mn with garbage := g }

/-- Nothing of what the nodes held before is left in them. -/
def AllWritten (mtab : List Mntent) : Prop :=
  ∀ mtab', List.Forall₂ SameMount mtab mtab' → readFsStat (some mtab') = readFsStat (some mtab)

/-- The node for a mount, and whether the mount gets one. -/
def Mntent.node (mn : Mntent) : FsStat :=
  setFsStat mn.statfs { mn.garbage with
    mntFsname := strncpy LEN_1024 mn.fsname
    mntDir := strncpy LEN_1024 mn.dir
    mntType := strncpy LEN_32 mn.type }

def fsNode (mn : Mntent) : Option FsStat :=
  if "/".toList <+: mn.fsname then some mn.node else none

theorem readFsStat_eq (mtab : List Mntent) : readFsStat (some mtab) = mtab.filterMap fsNode := rfl

theorem fsNode_of_some {mn mn' : Mntent} (hsame : SameMount mn mn')
    (h : "/".toList <+: mn.fsname → mn.statfs.isSome) : fsNode mn' = fsNode mn := by
  obtain ⟨g, rfl⟩ := hsame
  unfold fsNode
  by_cases hdev : "/".toList <+: mn.fsname
  · obtain ⟨fs, hfs⟩ := Option.isSome_iff_exists.mp (h hdev)
    rw [if_pos hdev, if_pos hdev, Mntent.node, Mntent.node, hfs]
    rfl
  · rw [if_neg hdev, if_neg hdev]

/-- The node as `malloc` might also have handed it out. -/
def Mntent.other (mn : Mntent) : Mntent :=
  { mn with garbage := { mn.garbage with total := mn.garbage.total + 1 } }

theorem isSome_fsNode (mn : Mntent) : (fsNode mn).isSome = decide ("/".toList <+: mn.fsname) := by
  unfold fsNode
  split
  · next hdev => exact (decide_eq_true hdev).symm
  · next hdev => exact (decide_eq_false hdev).symm

theorem total_fsNode_of_none {mn : Mntent} (hdev : "/".toList <+: mn.fsname)
    (hfail : mn.statfs = none) : (fsNode mn).map FsStat.total = some mn.garbage.total := by
  rw [fsNode, if_pos hdev, Mntent.node, hfail]
  rfl

/-- Every field of every node is written exactly when `statfs` succeeds on every mount that
gets a node. -/
theorem readFsStat_written_iff (mtab : List Mntent) :
    AllWritten mtab ↔ ∀ mn ∈ mtab, "/".toList <+: mn.fsname → mn.statfs.isSome := by
  constructor
  · intro h mn hmn hdev
    by_contra hfail
    have hother : List.Forall₂ SameMount mtab (mtab.map Mntent.other) := by
      rw [List.forall₂_map_right_iff]
      exact List.forall₂_same.mpr fun mn _ => ⟨_, rfl⟩
    have heq := h _ hother
    rw [readFsStat_eq, readFsStat_eq, List.filterMap_map] at heq
    have hsome (mn : Mntent) : ((fsNode ∘ Mntent.other) mn).isSome = (fsNode mn).isSome := by
      rw [Function.comp_apply, isSome_fsNode, isSome_fsNode]
      rfl
    have hnone : mn.statfs = none := by simpa using hfail
    have hold : (fsNode mn).map FsStat.total = some mn.garbage.total :=
      total_fsNode_of_none hdev hnone
    have hnew : (fsNode mn.other).map FsStat.total = some (mn.garbage.total + 1) :=
      total_fsNode_of_none hdev hnone
    have hnode : fsNode mn.other = fsNode mn :=
      filterMap_inj (fun mn _ => hsome mn) heq mn hmn
    rw [hnode, hold] at hnew
    exact ne_add_one (Option.some.inj hnew)
  · intro h mtab' hsame
    rw [readFsStat_eq, readFsStat_eq]
    induction hsame with
    | nil => rfl
    | cons hmn _ ih =>
      obtain ⟨h1, h2⟩ := List.forall_mem_cons.mp h
      rw [List.filterMap_cons, List.filterMap_cons, fsNode_of_some hmn h1, ih h2]

/-- A mount that `statfs` is not permitted to look at. -/
def deniedMount : Mntent where
  fsname := "/dev/sda1".toList
  dir := "/mnt".toList
  type := "ext4".toList
  statfs := none
  garbage := emptyNode

theorem readFsStat_denied :
    (readFsStat (some [deniedMount.other])).map FsStat.total = [1] ∧
    (readFsStat (some [deniedMount])).map FsStat.total = [0] ∧
    ¬AllWritten [deniedMount] := by
  refine ⟨by decide, by decide, fun h => ?_⟩
  have heq := h [deniedMount.other] (.cons ⟨_, rfl⟩ .nil)
  have htotal := congrArg (List.map FsStat.total) heq
  revert htotal
  decide

end Zsr
