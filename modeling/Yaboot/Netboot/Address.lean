import Yaboot.Lib.Strtol

/-! Network addresses in `second/file.c`: `ipv4_to_str` and `is_valid_ipv4_str`. -/
namespace Yaboot.Netboot
open CString Strtol Word

/-- `%u` of `vsprintf`. -/
def unsigned (n : Nat) : CStr := (Nat.toDigits 10 n).map fun c => UInt8.ofNat c.toNat

/-- `ipv4_to_str`. -/
def ipv4ToStr (ip : UInt32) : CStr :=
  unsigned (ip.toNat / 2 ^ 24) ++ 46 :: unsigned (ip.toNat / 2 ^ 16 % 256) ++
    46 :: unsigned (ip.toNat / 2 ^ 8 % 256) ++ 46 :: unsigned (ip.toNat % 256)

/-- The loop of `is_valid_ipv4_str` with so many octets to go: the address, if
every octet is followed by a dot, or the last one by the end of the string. The
`strtol` it calls is `simple_strtol`, by the macro of `stdlib.h`. -/
def octetLoop : Nat → Nat → CStr → Option Nat
  | 0, ip, _ => some ip
  | left + 1, ip, ptr =>
    let (tmp, endptr) := simpleStrtol ptr 10
    if tmp % 256 ≠ tmp then none
    else if endptr.headD 0 = 0 ∧ left ≠ 0 then none
    else if endptr.headD 0 ≠ 0 ∧ endptr.headD 0 ≠ 46 then none
    else octetLoop left (u32 (ip + tmp.toNat * 2 ^ (8 * left))) (endptr.drop 1)

/-- `is_valid_ipv4_str`. -/
def isValidIpv4Str (str : Option CStr) : Option CStr :=
  match str with
  | none => none
  | some str =>
    match octetLoop 4 0 str with
    | none => none
    | some ip => if ip = 0 ∨ ip = 2 ^ 32 - 1 then none else some str

end Yaboot.Netboot
