import Zsr.FsQuery

namespace Zsr
open CLib

/-- The array holds a terminator, and up to it a beginning of the value. -/
def ShowsOwn (array value : Text) (shown : Text) : Prop :=
  cstrIn array = some shown ∧ shown <+: cstr value

theorem exists_showsOwn_iff (n : ℕ) (value : Text) :
    (∃ shown, ShowsOwn (strncpy n value) value shown) ↔ (cstr value).length < n := by
  constructor
  · rintro ⟨shown, h, -⟩
    rw [cstrIn_strncpy_eq] at h
    by_contra hlen
    rw [if_neg hlen] at h
    cases h
  · intro hlen
    refine ⟨cstr value, ?_, List.prefix_rfl⟩
    rw [cstrIn_strncpy_eq, if_pos hlen]

/-- The row of an entry, with a beginning of its own value in each column. -/
def LoginUser.Shows (up : Utmp) (node : LoginUser) : Prop :=
  ∃ user tty from_, ShowsOwn node.user up.user user ∧ ShowsOwn node.tty up.line tty ∧
    ShowsOwn node.from_ up.host from_ ∧
    ModWho.row node = some ("who=".toList ++ user ++ ',' :: tty ++ ',' :: from_ ++
      ',' :: decInt node.loginTime.toInt ++ ";\n".toList)

/-- The three strings of an entry leave room for a terminator. -/
def Utmp.Fits (up : Utmp) : Prop :=
  (cstr up.user).length < LEN_32 ∧ (cstr up.line).length < LEN_32 ∧
    (cstr up.host).length < LEN_256

def loginNode (up : Utmp) : LoginUser where
  user := strncpy LEN_32 up.user
  tty := strncpy LEN_32 up.line
  from_ := strncpy LEN_256 up.host
  loginTime := up.time.toInt64

theorem loginNode_shows_iff (up : Utmp) : (loginNode up).Shows up ↔ up.Fits := by
  rw [Utmp.Fits, ← exists_showsOwn_iff, ← exists_showsOwn_iff, ← exists_showsOwn_iff]
  constructor
  · rintro ⟨user, tty, from_, huser, htty, hfrom, -⟩
    exact ⟨⟨user, huser⟩, ⟨tty, htty⟩, from_, hfrom⟩
  · rintro ⟨⟨user, huser⟩, ⟨tty, htty⟩, from_, hfrom⟩
    refine ⟨user, tty, from_, huser, htty, hfrom, ?_⟩
    have h1 : cstrIn (loginNode up).user = some user := huser.1
    have h2 : cstrIn (loginNode up).tty = some tty := htty.1
    have h3 : cstrIn (loginNode up).from_ = some from_ := hfrom.1
    rw [ModWho.row, ModWho.rowBy, h1, h2, h3]
    rfl

/-- The row of a mount, with a beginning of its own value in each string column. -/
def FsStat.Shows (mn : Mntent) (node : FsStat) : Prop :=
  ∃ fsname dir type, ShowsOwn node.mntFsname mn.fsname fsname ∧ ShowsOwn node.mntDir mn.dir dir ∧
    ShowsOwn node.mntType mn.type type ∧
    ModFs.row node = some ("fs=".toList ++ fsname ++ ',' :: dir ++ ',' :: type ++
      ',' :: dec node.total.toNat ++ ',' :: dec node.used.toNat ++
      ',' :: dec node.available.toNat ++ ',' :: node.util.format2 ++
      ',' :: dec node.inodes.toNat ++ ',' :: dec node.iused.toNat ++
      ',' :: dec node.ifree.toNat ++ ',' :: node.iutil.format2 ++ ";\n".toList)

/-- The three strings of a mount leave room for a terminator. -/
def Mntent.Fits (mn : Mntent) : Prop :=
  (cstr mn.fsname).length < LEN_1024 ∧ (cstr mn.dir).length < LEN_1024 ∧
    (cstr mn.type).length < LEN_32

theorem node_strings (mn : Mntent) :
    mn.node.mntFsname = strncpy LEN_1024 mn.fsname ∧ mn.node.mntDir = strncpy LEN_1024 mn.dir ∧
      mn.node.mntType = strncpy LEN_32 mn.type := by
  rw [Mntent.node]
  cases mn.statfs with
  | none => exact ⟨rfl, rfl, rfl⟩
  | some fs => exact ⟨rfl, rfl, rfl⟩

theorem node_shows_iff (mn : Mntent) : mn.node.Shows mn ↔ mn.Fits := by
  obtain ⟨hfsname, hdir, htype⟩ := node_strings mn
  rw [Mntent.Fits, ← exists_showsOwn_iff, ← exists_showsOwn_iff, ← exists_showsOwn_iff,
    ← hfsname, ← hdir, ← htype]
  constructor
  · rintro ⟨fsname, dir, type, h1, h2, h3, -⟩
    exact ⟨⟨fsname, h1⟩, ⟨dir, h2⟩, type, h3⟩
  · rintro ⟨⟨fsname, h1⟩, ⟨dir, h2⟩, type, h3⟩
    refine ⟨fsname, dir, type, h1, h2, h3, ?_⟩
    rw [ModFs.row, ModFs.rowBy, h1.1, h2.1, h3.1]
    rfl

/-- Every row shows its own strings exactly when all strings leave room for a terminator. -/
theorem stringFields_own_iff (utmp : List Utmp) (mtab : List Mntent) :
    (List.Forall₂ LoginUser.Shows (utmp.filter Utmp.isUserProcess)
        (getLoginUser utmp) ↔
      ∀ up ∈ utmp, up.isUserProcess → up.Fits) ∧
    (List.Forall₂ FsStat.Shows
        (mtab.filter fun mn => "/".toList <+: mn.fsname) (readFsStat (some mtab)) ↔
      ∀ mn ∈ mtab, "/".toList <+: mn.fsname → mn.Fits) := by
  constructor
  · have h := forall₂_filterMap_iff (p := fun up : Utmp => up.isUserProcess) (f := loginNode)
      (r := LoginUser.Shows) (l := utmp)
    simp only [loginNode_shows_iff, Bool.decide_eq_true] at h
    exact h
  · have h := forall₂_filterMap_iff (p := fun mn : Mntent => "/".toList <+: mn.fsname)
      (f := Mntent.node) (r := FsStat.Shows) (l := mtab)
    simp only [node_shows_iff] at h
    exact h

/-- A user whose name has 32 characters, and a mount whose type has as many. -/
def longUser : Utmp where
  isUserProcess := true
  user := List.replicate 32 'u'
  line := strncpy LEN_32 "pts/0".toList
  host := strncpy LEN_256 "10.0.0.1".toList
  time := 0
  user_length := rfl
  line_length := strncpy_length _ _
  host_length := strncpy_length _ _

def longType : Mntent := { deniedMount with type := List.replicate 32 't' }

theorem stringFields_long :
    (getLoginUser [longUser]).map (fun node => cstrIn node.user) = [none] ∧
    (getLoginUser [longUser]).map ModWho.row = [none] ∧
    (readFsStat (some [longType])).map (fun node => cstrIn node.mntType) = [none] ∧
    ¬List.Forall₂ LoginUser.Shows [longUser] (getLoginUser [longUser]) := by
  refine ⟨by decide, by decide, by decide +kernel, fun h => ?_⟩
  have hlist : getLoginUser [longUser] = [loginNode longUser] := rfl
  rw [hlist, List.forall₂_cons] at h
  obtain ⟨user, tty, from_, huser, -⟩ := h.1
  have hnone : cstrIn (loginNode longUser).user = none := by decide
  rw [huser.1] at hnone
  cases hnone

end Zsr
