import Yaboot.Lib.Vsprintf

/-! `number` of `lib/vsprintf.c` statement by statement: its digits go through `tmp`, and each
of its loops counts one of its variables down. -/
namespace Yaboot.Vsprintf.Stepwise
open CString

def digitChars (large : Bool) : CStr :=
  if large then cstr "0123456789ABCDEFGHIJKLMNOPQRSTUVWXYZ"
  else cstr "0123456789abcdefghijklmnopqrstuvwxyz"

/-- `while (num != 0)`. A digit behind the 66 places of `tmp` is no result. -/
def digitLoop (digits : CStr) (base num : Nat) (tmp : CStr) : Option CStr :=
  if num = 0 then some tmp
  else if tmp.length < 66 then
    digitLoop digits base (num / base) (tmp ++ [digits.getD (num % base) 0])
  else none
termination_by 66 - tmp.length

/-- `while (size-- > 0) *str++ = c;`, with what is left in `size`. -/
def fill (c : UInt8) (size : Int) (str : CStr) : Int × CStr :=
  if 0 < size then fill c (size - 1) (str ++ [c]) else (size - 1, str)
termination_by size.toNat

/-- `while (i < precision--) *str++ = '0';`. -/
def zeros (i precision : Int) (str : CStr) : CStr :=
  if i < precision then zeros i (precision - 1) (str ++ [ascii '0']) else str
termination_by (precision - i).toNat

/-- `while (i-- > 0) *str++ = tmp[i];`. -/
def copyBack (tmp : CStr) : Nat → CStr → CStr
  | 0, str => str
  | i + 1, str => copyBack tmp i (str ++ [tmp.getD i 0])

/-- The sign, the number without it, and the size that is left. -/
def takeSign (num size : Int) (type : Flags) : CStr × Int × Int :=
  if type.sign then
    if num < 0 then ([ascii '-'], -num, size - 1)
    else if type.plus then ([ascii '+'], num, size - 1)
    else if type.space then ([ascii ' '], num, size - 1)
    else ([], num, size)
  else ([], num, size)

/-- `if (type & SPECIAL)`, where the size is counted. -/
def specialSize (base : Nat) (size : Int) (type : Flags) : Int :=
  if type.special then if base = 16 then size - 2 else if base = 8 then size - 1 else size
  else size

/-- `if (type & SPECIAL)`, where the characters are written. -/
def writeSpecial (digits : CStr) (base : Nat) (type : Flags) (str : CStr) : CStr :=
  if type.special then
    if base = 8 then str ++ [ascii '0']
    else if base = 16 then str ++ [ascii '0'] ++ [digits.getD 33 0]
    else str
  else str

/-- What is written behind `str` once the digits are in `tmp` and `size` is the padding. -/
def write (digits : CStr) (base : Nat) (sign tmp : CStr) (size precision : Int) (type : Flags)
    (str : CStr) : CStr :=
  let c := if type.zeropad then ascii '0' else ascii ' '
  let front := if !(type.zeropad || type.left) then fill (ascii ' ') size str else (size, str)
  let str := writeSpecial digits base type (front.2 ++ sign)
  let back := if !type.left then fill c front.1 str else (front.1, str)
  let str := zeros tmp.length precision back.2
  let str := copyBack tmp tmp.length str
  (fill (ascii ' ') back.1 str).2

/-- `number`. A negative number that is not printed as one would be looked up in front of the
digits. -/
def number (str : CStr) (num : Int) (base : Nat) (size precision : Int) (type : Flags) :
    Option CStr :=
  let digits := digitChars type.large
  let type := if type.left then { type with zeropad := false } else type
  if base < 2 ∨ 36 < base then none
  else
    let signed := takeSign num size type
    let num := signed.2.1
    let size := specialSize base signed.2.2 type
    let tmp := if num = 0 then some [ascii '0']
      else if num < 0 then none
      else digitLoop digits base num.toNat []
    tmp.map fun tmp =>
      let precision := if precision < tmp.length then (tmp.length : Int) else precision
      write digits base signed.1 tmp (size - precision) precision type str

end Yaboot.Vsprintf.Stepwise
