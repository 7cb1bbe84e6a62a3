import Yaboot.Fs.DevicePath
import Yaboot.Netboot.Address

/-! What `second/file.c` takes from a boot packet: `extract_vendor_options` and
`extract_netinfo_args`. A read past the last byte of the packet has no outcome. -/
namespace Yaboot.Netboot
open CString Fs

/-- The fields of `struct bootp_packet` that are used here. -/
structure BootpPacket where
  ciaddr : UInt32
  yiaddr : UInt32
  siaddr : UInt32
  giaddr : UInt32
  options : List UInt8
  deriving DecidableEq, Repr

/-- What four bytes copied into a word make of it, and fewer into a zero word. -/
def wordOf (bytes : List UInt8) : UInt32 :=
  UInt32.ofNat (bytes[0]?.elim 0 UInt8.toNat * 2 ^ 24 + bytes[1]?.elim 0 UInt8.toNat * 2 ^ 16 +
    bytes[2]?.elim 0 UInt8.toNat * 2 ^ 8 + bytes[3]?.elim 0 UInt8.toNat)

/-- `NULL` or an empty string. -/
def unset (s : Option CStr) : Bool := s.getD [] == []

/-- An address that is missing is taken from the packet, if that has one. -/
def fill (old : Option CStr) (ip : UInt32) : Option CStr :=
  if unset old && ip != 0 then some (ipv4ToStr ip) else old

def dhcpPad : UInt8 := 0
def dhcpNetmask : UInt8 := 1
def dhcpRouters : UInt8 := 3
def dhcpEnd : UInt8 := 255
def dhcpCookie : UInt32 := 0x63825363

/-- The `switch` over the tag. -/
def storeOption (tag : UInt8) (value : UInt32) (r : BootFspec) : BootFspec :=
  if tag = dhcpNetmask then { r with subnetmask := fill r.subnetmask value }
  else if tag = dhcpRouters then { r with giaddr := fill r.giaddr value }
  else r

/-- The loop of `extract_vendor_options`. -/
def vendorLoop : List UInt8 → BootFspec → Option BootFspec
  | [], _ => none
  | tag :: rest, r =>
    if tag = dhcpEnd then some r
    else if tag = dhcpPad then vendorLoop rest r
    else
      match rest with
      | [] => none
      | len :: data =>
        if data.length < min len.toNat 4 then none
        else vendorLoop (data.drop len.toNat)
          (storeOption tag (wordOf (data.take (min len.toNat 4))) r)
termination_by options => options.length
decreasing_by
  · simp
  · simp only [List.length_drop, List.length_cons]
    omega

/-- `extract_vendor_options`. -/
def extractVendorOptions (options : List UInt8) (r : BootFspec) : Option BootFspec :=
  if options.length < 4 then none
  else if wordOf options ≠ dhcpCookie then some r
  else vendorLoop (options.drop 4) r

/-- `extract_netinfo_args`, given what `prom_get_netinfo` returns. -/
def extractNetinfoArgs (packet : Option BootpPacket) (r : BootFspec) : Option BootFspec :=
  match packet with
  | none => some r
  | some p =>
    let ciaddr := if p.ciaddr = 0 ∧ p.yiaddr ≠ 0 then p.yiaddr else p.ciaddr
    let r := { r with
      siaddr := fill r.siaddr p.siaddr
      ciaddr := fill r.ciaddr ciaddr
      giaddr := fill r.giaddr p.giaddr }
    (extractVendorOptions p.options r).map fun r =>
      if r.giaddr = none then { r with giaddr := some (ipv4ToStr p.siaddr) } else r

end Yaboot.Netboot
