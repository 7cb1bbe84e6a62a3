import Yaboot.Netboot.PathParser

/-! The path that `of_net_open` of `second/fs_of.c` hands to Open Firmware. -/
namespace Yaboot.Netboot
open CString Fs

/-- `/` is written `\`. -/
def backslashed (file : CStr) : CStr := file.map fun c => if c = 47 then 92 else c

/-- `filename`, which stays null without a file. -/
def filename (fspec : BootFspec) : Option CStr :=
  match fspec.file with
  | none => none
  | some file => if file = [] then none else some (backslashed file)

/-- The buffer with the device and a colon. `stale` is the string found behind the
768 bytes the device may take, and `before` the byte in front of the device. -/
def deviceColon (stale : CStr) (before : UInt8) (dev : CStr) : CStr :=
  let buffer := if dev.length < 768 then dev else dev.take 768 ++ stale
  if dev.getLastD before ≠ 58 then buffer ++ [58] else buffer

/-- What `strcat` appends to it, in order. -/
def ofNetPieces (low : CStr) (newTftp : Bool) (fspec : BootFspec) : List (Option CStr) :=
  let comma := some [44]
  if newTftp then
    [fspec.siaddr, comma] ++
      (if fspec.isIpv6 ∧ strstr (deref low (filename fspec)) (cstr "filename=") = false then
        [some (cstr "filename=")] else []) ++
      [filename fspec, comma, fspec.ciaddr, comma, fspec.giaddr, comma, fspec.bootpRetries, comma,
        fspec.tftpRetries, comma, fspec.subnetmask, comma, fspec.addlParams]
  else [comma, filename fspec]

/-- The path `of_net_open` opens. -/
def ofNetPath (low stale : CStr) (before : UInt8) (newTftp : Bool) (fspec : BootFspec) : CStr :=
  deviceColon stale before (deref low fspec.dev) ++
    (ofNetPieces low newTftp fspec).flatMap (deref low)

end Yaboot.Netboot
