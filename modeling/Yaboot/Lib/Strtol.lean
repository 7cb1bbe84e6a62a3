import Yaboot.Base.CString
import Yaboot.Base.Word

/-! The number readers of `lib/vsprintf.c`: `simple_strtoul` and `simple_strtol`,
which `stdlib.h` makes the meaning of `strtol` as well. Each returns the number and
the part of the string `endp` points at. -/
namespace Yaboot.Strtol
open CString Word

def isdigit (c : UInt8) : Bool := 48 ≤ c && c ≤ 57

def isxdigit (c : UInt8) : Bool := isdigit c || (65 ≤ c && c ≤ 70) || (97 ≤ c && c ≤ 102)

/-- `isdigit(*cp) ? *cp-'0' : toupper(*cp)-'A'+10`. -/
def digitValue (c : UInt8) : Nat :=
  if isdigit c then c.toNat - 48 else if 97 ≤ c then c.toNat - 87 else c.toNat - 55

/-- The digits of `base`, most significant first. -/
def digits (base : Nat) : Nat → CStr → Nat × CStr
  | result, [] => (result, [])
  | result, c :: s =>
    if isxdigit c && digitValue c < base then digits base (u32 (result * base + digitValue c)) s
    else (result, c :: s)

/-- `simple_strtoul`. Base 0 is read off the string. -/
def simpleStrtoul (cp : CStr) (base : Nat) : Nat × CStr :=
  if base = 0 then
    if cp.head? = some 48 then
      if cp[1]? = some 120 ∧ cp[2]?.any isxdigit then digits 16 0 (cp.drop 2)
      else digits 8 0 (cp.drop 1)
    else digits 10 0 cp
  else digits base 0 cp

/-- `simple_strtol`. -/
def simpleStrtol (cp : CStr) (base : Nat) : Int × CStr :=
  if cp.head? = some 45 then
    (s32 (2 ^ 32 - (simpleStrtoul (cp.drop 1) base).1), (simpleStrtoul (cp.drop 1) base).2)
  else (s32 (simpleStrtoul cp base).1, (simpleStrtoul cp base).2)

end Yaboot.Strtol
