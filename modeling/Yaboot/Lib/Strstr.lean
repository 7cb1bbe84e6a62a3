import Yaboot.Base.CString
import Yaboot.Base.Loop

/-! `strstr` of `lib/strstr.c`. The labels it jumps between are the places of one loop, and
pointers are positions in the two strings. -/
namespace Yaboot.Lib.Strstr
open CString Loop

/-- The character at a position. Behind the terminator there is none to read. -/
def char (s : CStr) (i : Nat) : Option UInt8 := (s ++ [0])[i]?

/-- A round of the inner loop, which is unrolled once: `*rhaystack` is `a`, and so is
`*needle`. -/
def agreeing (hay needle : CStr) :
    Nat × Nat × UInt8 → Option (Round (Nat × Nat × UInt8) Bool)
  | (rhaystack, at_, a) => do
    if a = 0 then return .out true
    let a ← char needle (at_ + 1)
    if (← char hay (rhaystack + 1)) ≠ a then return .out (a == 0)
    if a = 0 then return .out true
    let a ← char needle (at_ + 2)
    if (← char hay (rhaystack + 2)) = a then return .again (rhaystack + 2, at_ + 2, a)
    return .out (a == 0)

/-- Whether what `rhaystack` points at goes on with the rest of the needle. -/
def agree (fuel : Nat) (hay needle : CStr) (rhaystack rneedle : Nat) : Option Bool := do
  let a ← char needle rneedle
  if (← char hay rhaystack) = a then
    (spin (fun s => .ofOption (agreeing hay needle s)) fuel (rhaystack, rneedle, a)).join
  else return a == 0

/-- Where the outer loop is, with what `haystack` points at. -/
inductive Place where
  | again (haystack : Nat)
  | shloop (haystack : Nat) (a : UInt8)
  | jin (haystack : Nat)

def search (fuel : Nat) (hay needle : CStr) (b c : UInt8) :
    Place → Option (Round Place (Option Nat))
  | .again haystack => do
    let a ← char hay (haystack + 1)
    if a = 0 then return .out none
    if a = b then return .again (.jin (haystack + 1))
    let a ← char hay (haystack + 2)
    if a = 0 then return .out none
    return .again (.shloop (haystack + 2) a)
  | .shloop haystack a => some (.again (if a ≠ b then .again haystack else .jin haystack))
  | .jin haystack => do
    let a ← char hay (haystack + 1)
    if a = 0 then return .out none
    if a ≠ c then return .again (.shloop (haystack + 1) a)
    if ← agree fuel hay needle (haystack + 2) 2 then return .out (some haystack)
    return .again (.again haystack)

/-- The first loop, which looks for the first character of the needle. -/
def first (hay : CStr) (b : UInt8) (haystack : Nat) : Option (Round Nat (Option Nat)) := do
  let c ← char hay haystack
  if c = 0 then return .out none
  if c = b then return .out (some haystack)
  return .again (haystack + 1)

/-- What is returned, as a position. Without a result, a character is read that is not
there, or a loop makes more than `fuel` rounds. -/
def strstr (fuel : Nat) (hay needle : CStr) : Option (Option Nat) := do
  let b ← char needle 0
  if b = 0 then return some 0
  let found ← (spin (fun s => .ofOption (first hay b s)) fuel 0).join
  match found with
  | none => return none
  | some haystack =>
    let c ← char needle 1
    if c = 0 then return some haystack
    (spin (fun s => .ofOption (search fuel hay needle b c s)) fuel (.jin haystack)).join

end Yaboot.Lib.Strstr
