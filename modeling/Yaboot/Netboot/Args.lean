import Yaboot.Fs.DevicePath
import Yaboot.Netboot.Address

/-! The arguments in a network path, in `second/file.c`: `scopy`,
`extract_ipv4_args` and `extract_ipv6_args`. One allocation holds the copies of a
call. -/
namespace Yaboot.Netboot
open CString Fs

/-- `strstr(s, token)` as the suffix it points at. -/
def strstrAt (token : CStr) : CStr → Option CStr
  | [] => if token = [] then some [] else none
  | c :: s => if token <+: c :: s then some (c :: s) else strstrAt token s

/-- The string `strrchr(s, c)` points at. -/
def strrchr (s : CStr) (c : UInt8) : Option CStr :=
  if c ∈ s then some (c :: afterLast s c) else none

/-- `*dest`, as an offset in the allocation, and `*source`. -/
structure Copying where
  dest : Nat
  source : CStr
  deriving DecidableEq, Repr

/-- `scopy`: up to the next comma, which is passed over. -/
def scopy (c : Copying) : Option CStr × Copying :=
  if c.source = [] then (none, c)
  else
    let field := c.source.takeWhile (· != 44)
    (some field, ⟨c.dest + field.length + 1, (c.source.dropWhile (· != 44)).drop 1⟩)

/-- `is_valid_ipv4_str(scopy(..))`. -/
def scopyAddress (c : Copying) : Option CStr × Copying :=
  let (field, c) := scopy c
  (isValidIpv4Str field, c)

/-! ### `extract_ipv4_args` -/

/-- The optional parameters, in the order they are searched for. -/
def keywords : List CStr :=
  [cstr "promiscuous", cstr "speed=", cstr "duplex=", cstr "bootp", cstr "rarp"]

/-- Going past a keyword that is found behind the first character. -/
def skipKeyword (args keyword : CStr) : CStr :=
  match strstrAt keyword args with
  | some tmp => if tmp.length < args.length then tmp.drop keyword.length else args
  | none => args

/-- From the last colon to the arguments in order, or to the comma in front of
them when parameters were skipped. -/
def ipv4Start (imagepath : CStr) : Option CStr :=
  (strrchr imagepath 58).bind fun start =>
    let args := keywords.foldl skipKeyword start
    if args.length ≠ start.length then strchr args 44 else some args

/-- `args[-1]`, `before` being the byte in front of the path. -/
def previous (before : UInt8) (imagepath args : CStr) : UInt8 :=
  (imagepath.take (imagepath.length - args.length)).getLastD before

/-- The arguments as they are copied. -/
def ipv4Source (before : UInt8) (imagepath args : CStr) : CStr :=
  if previous before imagepath args ≠ 58 then args.drop 1 else args

/-- What is allocated for the copies. -/
def ipv4Size (args : CStr) : Nat := args.length + 1

/-- The copies of a call. -/
def ipv4Copies (c : Copying) (result : BootFspec) : BootFspec × Copying :=
  let (siaddr, c) := scopyAddress c
  let (file, c) := scopy c
  let (ciaddr, c) := scopyAddress c
  let (giaddr, c) := scopyAddress c
  let (bootpRetries, c) := scopy c
  let (tftpRetries, c) := scopy c
  let (subnetmask, c) := scopyAddress c
  ({ result with siaddr, file, ciaddr, giaddr, bootpRetries, tftpRetries, subnetmask }, c)

/-- `extract_ipv4_args`. -/
def extractIpv4Args (before : UInt8) (imagepath : CStr) (result : BootFspec) :
    Bool × BootFspec :=
  match ipv4Start imagepath with
  | none => (true, result)
  | some args =>
    let (result, c) := ipv4Copies ⟨0, ipv4Source before imagepath args⟩ result
    (true, if c.source = [] then result else { result with addlParams := some c.source })

/-! ### `extract_ipv6_args` -/

/-- A field whose key is there. -/
def scopyKey (imagepath key : CStr) (old : Option CStr) (dest : Nat) : Option CStr × Nat :=
  match strstrAt key imagepath with
  | some tmp =>
    let (field, c) := scopy ⟨dest, tmp⟩
    (field, c.dest)
  | none => (old, dest)

/-- `total_len`. -/
def ipv6Size (imagepath : CStr) : Nat := imagepath.length + 1

/-- `extract_ipv6_args`, and how far it has written. -/
def ipv6Copies (imagepath : CStr) (result : BootFspec) : BootFspec × Nat :=
  let (dhcpv6, dest) := scopyKey imagepath (cstr "dhcpv6=") result.dhcpv6 0
  let (ciaddr, dest) := scopyKey imagepath (cstr "ciaddr=") result.ciaddr dest
  let (giaddr, dest) := scopyKey imagepath (cstr "giaddr=") result.giaddr dest
  let (siaddr, dest) := scopyKey imagepath (cstr "siaddr=") result.siaddr dest
  let (file, dest) := scopyKey imagepath (cstr "filename=") result.file dest
  let (tftpRetries, dest) := scopyKey imagepath (cstr "tftp-retries=") result.tftpRetries dest
  let (blksize, dest) := scopyKey imagepath (cstr "blksize=") result.blksize dest
  ({ result with isIpv6 := true, dhcpv6, ciaddr, giaddr, siaddr, file, tftpRetries, blksize }, dest)

def extractIpv6Args (imagepath : CStr) (result : BootFspec) : Bool × BootFspec :=
  (true, (ipv6Copies imagepath result).1)

end Yaboot.Netboot
