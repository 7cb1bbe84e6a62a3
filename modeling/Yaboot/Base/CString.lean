import Mathlib.Data.List.Basic
import Mathlib.Data.List.TakeWhile

/-! C strings as the bytes before their terminator. A pointer that may be null
is an option; reading through a null pointer yields whatever string low memory
holds, so a caller supplies that string and no dereference is silently total. -/
namespace Yaboot.CString

abbrev CStr := List UInt8

/-- The bytes of a string literal. -/
def cstr (text : String) : CStr := text.toList.map fun c => UInt8.ofNat c.toNat

/-- The string a possibly null pointer designates, `low` being the string found
at address zero. -/
def deref (low : CStr) (p : Option CStr) : CStr := p.getD low

/-- `!strncmp(s, t, n)`: agreement of the first `n` characters, where a string
that ends earlier differs from one that does not. -/
def strncmpEq (s t : CStr) (n : Nat) : Bool := s.take n == t.take n

/-- The ASCII folding of `strcasecmp`. -/
def lower (c : UInt8) : UInt8 := if 65 ≤ c ∧ c ≤ 90 then c + 32 else c

/-- `!strcasecmp(s, t)`. -/
def strcasecmpEq (s t : CStr) : Bool := s.map lower == t.map lower

/-- `strchr(s, c)` as the suffix it points at. -/
def strchr (s : CStr) (c : UInt8) : Option CStr :=
  if c ∈ s then some (s.dropWhile (· != c)) else none

/-- The part of `s` before the last `c`, which is what remains after a zero is
stored through `strrchr(s, c)`. -/
def beforeLast (s : CStr) (c : UInt8) : CStr :=
  ((s.reverse.dropWhile (· != c)).drop 1).reverse

/-- The part of `s` after the last `c`, that is `strrchr(s, c) + 1`. -/
def afterLast (s : CStr) (c : UInt8) : CStr := (s.reverse.takeWhile (· != c)).reverse

/-- A plain `char` is signed on this target, so a byte above 127 is negative. -/
def schar (b : UInt8) : Int := if b.toNat < 128 then b.toNat else (b.toNat : Int) - 256

/-- Storing an `int` into a `char`. -/
def toChar (i : Int) : UInt8 := UInt8.ofNat (i % 256).toNat

/-- The `int` value of a character constant. -/
def chr (c : Char) : Int := c.toNat

/-- The white space of `lib/ctype.c`. -/
def isspace (c : UInt8) : Bool := (9 ≤ c && c ≤ 13) || c == 32 || c == 160

/-- `strdup` of a character buffer copies up to its first zero byte. -/
def strdup (buf : List UInt8) : CStr := buf.takeWhile (· != 0)

theorem toChar_schar (b : UInt8) : toChar (schar b) = b := by
  have bound := b.toNat_lt
  apply UInt8.toNat_inj.mp
  unfold toChar schar
  split
  · rw [UInt8.toNat_ofNat']
    omega
  · rw [UInt8.toNat_ofNat']
    omega

/-- A byte is the character constant it was written as. -/
theorem schar_eq_iff {n : Nat} (ascii : n < 128) : schar b = (n : Int) ↔ b.toNat = n := by
  have bound := b.toNat_lt
  unfold schar
  split <;> omega

end Yaboot.CString
