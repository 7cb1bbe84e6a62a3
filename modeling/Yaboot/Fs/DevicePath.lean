import Mathlib.Data.List.Infix
import Yaboot.Fs.Probe
import Yaboot.Lib.Strtol

/-! `parse_device_path` of `second/file.c`: a path the user or the firmware gave,
taken apart into device, partition and file. What the firmware answers, and
what is read out of network arguments and boot packets, is a parameter. -/
namespace Yaboot.Fs
open CString Strtol

/-- `struct boot_fspec_t`. -/
structure BootFspec where
  dev : Option CStr
  part : Int
  siaddr : Option CStr
  file : Option CStr
  ciaddr : Option CStr
  giaddr : Option CStr
  bootpRetries : Option CStr
  tftpRetries : Option CStr
  subnetmask : Option CStr
  addlParams : Option CStr
  isIpv6 : Bool
  dhcpv6 : Option CStr
  blksize : Option CStr
  deriving DecidableEq, Repr

/-- What `memset` makes of it. -/
def BootFspec.zero : BootFspec :=
  ⟨none, 0, none, none, none, none, none, none, none, none, false, none, none⟩

structure Firmware where
  /-- `prom_get_devtype`. -/
  devtype : CStr → Except FileErr DeviceKind
  /-- The property `nas-bootdevice`. -/
  nasBootdevice : Option CStr
  extractNetbootArgs : CStr → BootFspec → Bool × BootFspec
  extractNetinfoArgs : BootFspec → BootFspec

def tokIscsi : CStr := cstr "iscsi"

/-- `strstr(s, token) != NULL`. -/
def strstr (s token : CStr) : Bool := decide (token <:+: s)

/-- `netdev_path_to_dev`: everything up to the first colon, which is kept. -/
def netdevPathToDev (path : CStr) : CStr :=
  if 58 ∈ path then path.takeWhile (· != 58) ++ [58] else path

/-- A local device path: `,file` comes off unless a colon follows it. -/
def splitFile (ipath : CStr) : CStr × Option CStr :=
  if 58 ∈ ipath ∧ 44 ∈ ipath ∧ 58 ∉ afterLast ipath 44 then
    (beforeLast ipath 44, some (afterLast ipath 44))
  else (ipath, none)

/-- Fields that are still missing get their defaults. -/
def withDefaults (defdev : Option CStr) (defpart : Int) (deffile : CStr) (r : BootFspec) :
    BootFspec :=
  { r with
    dev := r.dev.or defdev
    part := if r.part < 0 then defpart else r.part
    file := r.file.or (some deffile) }

/-- The part after the path is copied and the kind of device is known. -/
def parseIpath (fw : Firmware) (kind : Except FileErr DeviceKind) (ipath : CStr)
    (defdev : Option CStr) (defpart : Int) (deffile : CStr) (r : BootFspec) : Bool × BootFspec :=
  match kind with
  | .ok .net =>
    let found :=
      if 58 ∈ ipath then fw.extractNetbootArgs ipath r
      else (true, { fw.extractNetinfoArgs r with file := some ipath })
    if !found.1 then found
    else
      let r := if defdev.isNone then { found.2 with dev := some (netdevPathToDev ipath) } else found.2
      (true, withDefaults defdev defpart deffile r)
  | .ok .iscsi =>
    if defdev.isNone then (true, withDefaults defdev defpart deffile { r with dev := some ipath })
    else if ipath ≠ [] then (true, withDefaults defdev defpart deffile { r with file := some ipath })
    else (false, r)
  | _ =>
    let defdev := defdev.map fun d => if 58 ∈ d then beforeLast d 58 else d
    let r := { r with file := (splitFile ipath).2 }
    let ipath := (splitFile ipath).1
    if 58 ∈ ipath then
      let tail := afterLast ipath 58
      let r := { r with
        dev := some (beforeLast ipath 58)
        part := if tail = [] then r.part else (simpleStrtol tail 10).1 }
      (true, withDefaults defdev defpart deffile r)
    else if defdev.isNone then
      (true, withDefaults defdev defpart deffile { r with dev := some ipath })
    else if ipath ≠ [] then (true, withDefaults defdev defpart deffile { r with file := some ipath })
    else (false, r)

/-- `parse_device_path`. A path that mentions iSCSI stands for the boot device
of the firmware. -/
def parseDevicePath (fw : Firmware) (imagepath : CStr) (defdevice : Option CStr) (defpart : Int)
    (deffile : CStr) (result : BootFspec) : Bool × BootFspec :=
  let r := { result with dev := none, part := -1, file := none }
  if strstr imagepath tokIscsi ∧ fw.nasBootdevice.isNone then (false, r)
  else
    let ipath := if strstr imagepath tokIscsi then fw.nasBootdevice.getD [] else imagepath
    let kind :=
      match defdevice with
      | some defdev => fw.devtype defdev
      | none => if strstr imagepath tokIscsi then .ok .iscsi else fw.devtype ipath
    parseIpath fw kind ipath defdevice defpart deffile r

end Yaboot.Fs
