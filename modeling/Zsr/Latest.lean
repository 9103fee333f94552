import Zsr.Gauges
import Zsr.Ip

namespace Zsr
open CLib

structure Dns where
  addr : Text
  deriving DecidableEq

def isLocalHost (s : Text) : Bool :=
  s == "0.0.0.0".toList || s == "127.0.0.1".toList || s == "::".toList || s == "::1".toList

/-- `get_dns`, on the name servers that `res_init` finds; `none` when it fails. -/
def getDns (nsaddrs : Option (List UInt32)) : List Dns :=
  match nsaddrs with
  | none => []
  | some l => (l.map inetNtoa).filterMap fun ret =>
    if !isLocalHost ret then some { addr := strncpy LEN_64 ret } else none

/-- `struct statfs`, as far as it is read. -/
structure Statfs where
  blocks : UInt64
  bsize : Int64
  bfree : UInt64
  bavail : UInt64
  files : UInt64
  ffree : UInt64

structure FsStat where
  mntFsname : Text
  mntDir : Text
  mntType : Text
  total : UInt64
  used : UInt64
  available : UInt64
  util : Double
  inodes : UInt64
  iused : UInt64
  ifree : UInt64
  iutil : Double
  deriving DecidableEq

def setFsStat (statfs : Option Statfs) (node : FsStat) : FsStat :=
  match statfs with
  | none => node
  | some fs =>
    let bsize := fs.bsize.toUInt64
    let total := fs.blocks * bsize
    let available := fs.bavail * bsize
    let iused := fs.files - fs.ffree
    { node with
      total := total
      used := (fs.blocks - fs.bfree) * bsize
      available := available
      util := roundWithPrec (.fin 1 - Double.ofU64 available / Double.ofU64 total) 2
      inodes := fs.files
      iused := iused
      ifree := fs.ffree
      iutil := roundWithPrec (Double.ofU64 iused / Double.ofU64 fs.files) 2 }

/-- One entry of `/etc/mtab`, with what `statfs` says on its directory. -/
structure Mntent where
  fsname : Text
  dir : Text
  type : Text
  statfs : Option Statfs
  /-- What `malloc` hands out for the node. -/
  garbage : FsStat

/-- `read_fs_stat`; `none` when `/etc/mtab` cannot be opened. -/
def readFsStat (mtab : Option (List Mntent)) : List FsStat :=
  match mtab with
  | none => []
  | some l => l.filterMap fun mn =>
    if "/".toList <+: mn.fsname then
      some (setFsStat mn.statfs { mn.garbage with
        mntFsname := strncpy LEN_1024 mn.fsname
        mntDir := strncpy LEN_1024 mn.dir
        mntType := strncpy LEN_32 mn.type })
    else none

structure RtnlLink where
  dev : Text
  txPacket : UInt64
  rxPacket : UInt64
  txByte : UInt64
  rxByte : UInt64
  deriving DecidableEq

/-- `get_network`; `none` when `getifaddrs` fails. -/
def getNetwork (ifaddr : Option (List IfAddr)) : List RtnlLink :=
  match ifaddr with
  | none => []
  | some l => l.filterMap fun ifap =>
    match ifap.family, ifap.data with
    | some .packet, some stats => some {
        dev := strncpy LEN_64 ifap.name
        txPacket := stats.txPackets.toUInt64
        rxPacket := stats.rxPackets.toUInt64
        txByte := stats.txBytes.toUInt64
        rxByte := stats.rxBytes.toUInt64 }
    | _, _ => none

/-- `struct utmp`, as far as it is read; its arrays need not hold a NUL. -/
structure Utmp where
  isUserProcess : Bool
  user : Text
  line : Text
  host : Text
  time : Int32
  user_length : user.length = LEN_32
  line_length : line.length = LEN_32
  host_length : host.length = LEN_256

structure LoginUser where
  user : Text
  tty : Text
  from_ : Text
  loginTime : Int64
  deriving DecidableEq

/-- `get_login_user`, on the entries of `getutent`. -/
def getLoginUser (utmp : List Utmp) : List LoginUser :=
  utmp.filterMap fun up =>
    if up.isUserProcess then some {
      user := strncpy LEN_32 up.user
      tty := strncpy LEN_32 up.line
      from_ := strncpy LEN_256 up.host
      loginTime := up.time.toInt64 }
    else none

section Rows

-- each row is given what reads its arrays, with the number of the array
variable {M : Type → Type} [Monad M] (str : ℕ → Text → M Text)

def ModDns.rowBy (entry : Dns) : M Text := do
  let addr ← str 0 entry.addr
  pure ("dns=".toList ++ addr ++ ";\n".toList)

def ModFs.rowBy (entry : FsStat) : M Text := do
  let mntFsname ← str 0 entry.mntFsname
  let mntDir ← str 1 entry.mntDir
  let mntType ← str 2 entry.mntType
  pure ("fs=".toList ++ mntFsname ++ ',' :: mntDir ++ ',' :: mntType ++
    ',' :: dec entry.total.toNat ++ ',' :: dec entry.used.toNat ++
    ',' :: dec entry.available.toNat ++ ',' :: entry.util.format2 ++
    ',' :: dec entry.inodes.toNat ++ ',' :: dec entry.iused.toNat ++
    ',' :: dec entry.ifree.toNat ++ ',' :: entry.iutil.format2 ++ ";\n".toList)

def ModIp.rowBy (entry : Interface) : M Text := do
  let dev ← str 0 entry.dev
  let ipAddr ← str 1 entry.ipAddr
  let netmask ← str 2 entry.netmask
  pure ("ip=".toList ++ dev ++ ',' :: ipAddr ++ ',' :: netmask ++
    (match entry.ipVer with | .IPv4 => ",0;\n".toList | .IPv6 => ",1;\n".toList))

def ModNetwork.rowBy (entry : RtnlLink) : M Text := do
  let dev ← str 0 entry.dev
  pure ("network=".toList ++ dev ++ ',' :: dec entry.txPacket.toNat ++
    ',' :: dec entry.rxPacket.toNat ++ ',' :: dec entry.txByte.toNat ++
    ',' :: dec entry.rxByte.toNat ++ ";\n".toList)

def ModWho.rowBy (entry : LoginUser) : M Text := do
  let user ← str 0 entry.user
  let tty ← str 1 entry.tty
  let from_ ← str 2 entry.from_
  pure ("who=".toList ++ user ++ ',' :: tty ++ ',' :: from_ ++
    ',' :: decInt entry.loginTime.toInt ++ ";\n".toList)

end Rows

def ModDns.row : Dns → Option Text := ModDns.rowBy fun _ => cstrIn

def ModFs.row : FsStat → Option Text := ModFs.rowBy fun _ => cstrIn

def ModIp.row : Interface → Option Text := ModIp.rowBy fun _ => cstrIn

def ModNetwork.row : RtnlLink → Option Text := ModNetwork.rowBy fun _ => cstrIn

def ModWho.row : LoginUser → Option Text := ModWho.rowBy fun _ => cstrIn

end Zsr
