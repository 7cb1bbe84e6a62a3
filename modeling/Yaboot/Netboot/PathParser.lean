import Yaboot.Base.Pointers
import Yaboot.Netboot.Args
import Yaboot.Netboot.Netinfo

/-! `parse_device_path` with its readers of network arguments in place, and with
the pointers it hands to `strchr`, `strrchr`, `strlen` and `strdup`. Allocation
succeeds; a copy is a value of its own. -/
namespace Yaboot.Netboot
open CString Strtol Fs Pointers

/-- What the machine answers, and what lies in front of the copied path. -/
structure Machine where
  /-- `prom_get_devtype`. -/
  devtype : CStr → Except FileErr DeviceKind
  /-- Whether `prom_get_chosen` answers anything but zero for `nas-bootdevice`,
  and what it leaves in the buffer. -/
  nasBootdevice : CStr → Bool × CStr
  /-- `prom_get_netinfo`. -/
  netinfo : Option BootpPacket
  /-- The byte in front of the copied path. -/
  before : UInt8

/-- Memory that is not the parser's own: the string at address zero, and the
global `bootdevice`. -/
structure Memory where
  low : CStr
  bootdevice : CStr
  deriving DecidableEq, Repr

abbrev Parsing := Handing Memory

def tokIpv6 : CStr := cstr "ipv6"

/-- The fields of `extract_ipv4_args`, with the pointers. -/
def handIpv4Fields (m : Machine) (imagepath args : CStr) (r : BootFspec) :
    Parsing (Bool × BootFspec) := do
  hand (some args)
  let copies := ipv4Copies ⟨0, ipv4Source m.before imagepath args⟩ r
  if copies.2.source = [] then pure (true, copies.1)
  else
    hand (some copies.2.source)
    pure (true, { copies.1 with addlParams := some copies.2.source })

/-- `extract_ipv4_args`, with the pointers. -/
def handIpv4Args (m : Machine) (imagepath : CStr) (r : BootFspec) : Parsing (Bool × BootFspec) := do
  hand (some imagepath)
  match strrchr imagepath 58 with
  | none => pure (true, r)
  | some start =>
    let args := keywords.foldl skipKeyword start
    handIf (args.length ≠ start.length) (some args)
    match ipv4Start imagepath with
    | none => pure (true, r)
    | some args => handIpv4Fields m imagepath args r

/-- `extract_ipv6_args`, with the pointers. -/
def handIpv6Args (imagepath : CStr) (r : BootFspec) : Parsing (Bool × BootFspec) := do
  hand (some imagepath)
  pure (extractIpv6Args imagepath r)

def handIpArgs (m : Machine) (imagepath : CStr) (r : BootFspec) : Parsing (Bool × BootFspec) :=
  if strstr imagepath tokIpv6 then handIpv6Args imagepath r else handIpv4Args m imagepath r

/-- `extract_netboot_args`. -/
def handNetbootArgs (m : Machine) (imagepath : CStr) (r : BootFspec) :
    Parsing (Bool × BootFspec) := do
  let found ← handIpArgs m imagepath r
  let r ← reading (extractNetinfoArgs m.netinfo found.2)
  pure (found.1, r)

/-- `netdev_path_to_dev`, with the pointers. -/
def handNetdevPathToDev (path : CStr) : Parsing CStr := do
  hand (some path)
  handIf (58 ∉ path) (some path)
  pure (netdevPathToDev path)

/-- The colon that ends a local device comes off. Without a device it comes off
whatever lies at address zero. -/
def trimDefdev (defdev : Option CStr) : Parsing (Option CStr) := do
  hand defdev
  let memory ← state
  if 58 ∈ deref memory.low defdev then
    hand defdev
    match defdev with
    | some d => pure (some (beforeLast d 58))
    | none =>
      modify fun memory => { memory with low := beforeLast memory.low 58 }
      pure none
  else pure defdev

/-- The file of a local path comes off, unless a colon follows the comma. -/
def handSplitFile (ipath : CStr) : Parsing (CStr × Option CStr) := do
  hand (some ipath)
  if 58 ∈ ipath then
    hand (some ipath)
    if 44 ∈ ipath then
      hand (some ipath)
      if 58 ∉ afterLast ipath 44 then
        hand (some (afterLast ipath 44))
        pure (beforeLast ipath 44, some (afterLast ipath 44))
      else pure (ipath, none)
    else pure (ipath, none)
  else pure (ipath, none)

/-- The end of `parse_device_path`. -/
def handDefaults (defdev : Option CStr) (defpart : Int) (deffile : CStr) (r : BootFspec) :
    Parsing (Bool × BootFspec) := do
  handIf (r.dev = none ∧ defdev ≠ none) defdev
  handIf (r.file = none) (some deffile)
  pure (true, withDefaults defdev defpart deffile r)

/-- A path without a colon: a device, or a file on the default device. -/
def handName (ipath : CStr) (defdev : Option CStr) (defpart : Int) (deffile : CStr)
    (r : BootFspec) : Parsing (Bool × BootFspec) := do
  if defdev = none then
    hand (some ipath)
    handDefaults defdev defpart deffile { r with dev := some ipath }
  else
    hand (some ipath)
    if ipath ≠ [] then
      hand (some ipath)
      handDefaults defdev defpart deffile { r with file := some ipath }
    else pure (false, r)

/-- The fields a network path gives. One without a colon is a file. -/
def handNetFields (m : Machine) (ipath : CStr) (r : BootFspec) : Parsing (Bool × BootFspec) := do
  if 58 ∈ ipath then handNetbootArgs m ipath r
  else
    let r ← reading (extractNetinfoArgs m.netinfo r)
    hand (some ipath)
    pure (true, { r with file := some ipath })

/-- A path on a network device. -/
def handNetPath (m : Machine) (ipath : CStr) (defdev : Option CStr) (defpart : Int)
    (deffile : CStr) (r : BootFspec) : Parsing (Bool × BootFspec) := do
  hand (some ipath)
  let found ← handNetFields m ipath r
  if !found.1 then pure found
  else if defdev = none then
    let dev ← handNetdevPathToDev ipath
    handDefaults defdev defpart deffile { found.2 with dev := some dev }
  else handDefaults defdev defpart deffile found.2

/-- A path on a device that is neither. -/
def handLocalPath (ipath : CStr) (defdev : Option CStr) (defpart : Int) (deffile : CStr)
    (r : BootFspec) : Parsing (Bool × BootFspec) := do
  let defdev ← trimDefdev defdev
  let split ← handSplitFile ipath
  let ipath := split.1
  let r := { r with file := split.2 }
  hand (some ipath)
  if 58 ∈ ipath then
    hand (some (beforeLast ipath 58))
    let tail := afterLast ipath 58
    handDefaults defdev defpart deffile { r with
      dev := some (beforeLast ipath 58)
      part := if tail = [] then r.part else (simpleStrtol tail 10).1 }
  else handName ipath defdev defpart deffile r

/-- The part after the path is copied and the kind of device is known. -/
def handIpath (m : Machine) (kind : Except FileErr DeviceKind) (ipath : CStr)
    (defdev : Option CStr) (defpart : Int) (deffile : CStr) (r : BootFspec) :
    Parsing (Bool × BootFspec) :=
  match kind with
  | .ok .net => handNetPath m ipath defdev defpart deffile r
  | .ok .iscsi => handName ipath defdev defpart deffile r
  | _ => handLocalPath ipath defdev defpart deffile r

/-- The path is copied, or in its place what the firmware says it booted from. -/
def copyPath (m : Machine) (imagepath : CStr) : Parsing (Option CStr) := do
  if strstr imagepath tokIscsi then
    let memory ← state
    let answer := m.nasBootdevice memory.bootdevice
    modify fun memory => { memory with bootdevice := answer.2 }
    if answer.1 then
      hand (some answer.2)
      pure (some answer.2)
    else pure none
  else
    hand (some imagepath)
    pure (some imagepath)

/-- The kind of device that decides how the path is read. -/
def deviceKind (m : Machine) (imagepath : CStr) (defdevice : Option CStr) (ipath : CStr) :
    Except FileErr DeviceKind :=
  match defdevice with
  | some defdev => m.devtype defdev
  | none => if strstr imagepath tokIscsi then .ok .iscsi else m.devtype ipath

/-- `parse_device_path`. -/
def parseDevicePath (m : Machine) (imagepath defdevice : Option CStr) (defpart : Int)
    (deffile : CStr) (result : BootFspec) : Parsing (Bool × BootFspec) := do
  let r := { result with dev := none, part := -1, file := none }
  match imagepath with
  | none => pure (false, r)
  | some imagepath =>
    match ← copyPath m imagepath with
    | none => pure (false, r)
    | some ipath =>
      handIf (defdevice ≠ none) defdevice
      handIpath m (deviceKind m imagepath defdevice ipath) ipath defdevice defpart deffile r

end Yaboot.Netboot
