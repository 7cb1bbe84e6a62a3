import Yaboot.Base.CString
import Yaboot.Md5.Digest

/-! `md5_password` of `second/md5.c`. -/
namespace Yaboot.Md5
open Buffer CString

def b64t : CStr := cstr "./0123456789ABCDEFGHIJKLMNOPQRSTUVWXYZabcdefghijklmnopqrstuvwxyz"

/-- A string in memory, with what lies behind its end. -/
def stored (s : CStr) (behind : Bytes) : Bytes := fun i =>
  if i < s.length then s.getD i 0 else if i = s.length then 0 else behind (i - (s.length + 1))

/-- The loop that runs over `alt_result`, and the call behind it. -/
def updateAlt (alt : List UInt8) (i : Nat) (md : Context) : Context :=
  if 16 < i then updateAlt alt (i - 16) (md5Update md (alt.take 16)) else md5Update md (alt.take i)
termination_by i

/-- The loop over the bits of the key's length. -/
def updateBits (key : CStr) (i : Nat) (md : Context) : Context :=
  if 0 < i then
    updateBits key (i / 2)
      (md5Update md [if i % 2 = 1 then 0 else key.getD 0 0])
  else md
termination_by i

/-- One of the thousand rounds; the digest of the last one is where `state` is. -/
def rehash (key salt : List UInt8) (md : Context) (i : Nat) : Context :=
  let alt := md.digest
  let md := md5Init md
  let md := if i % 2 ≠ 0 then md5Update md key else md5Update md alt
  let md := if i % 3 ≠ 0 then md5Update md salt else md
  let md := if i % 7 ≠ 0 then md5Update md key else md
  let md := if i % 2 ≠ 0 then md5Update md alt else md5Update md key
  md5Final md

/-- The words the digest is encoded from, and how many characters each yields. -/
def groups (digest : List UInt8) : List (Nat × Nat) :=
  (List.range 5).map (fun i =>
    (4, (digest.getD (if i = 4 then 5 else 12 + i) 0).toNat |||
      ((digest.getD (6 + i) 0).toNat <<< 8) ||| ((digest.getD i 0).toNat <<< 16))) ++
    [(2, (digest.getD 11 0).toNat)]

/-- The loop over the characters of a word: `p` and memory behind it, or nothing
where the comparison fails. -/
def putChars (check : Bool) : Nat → Nat → Nat → Bytes → Option (Nat × Bytes)
  | 0, _, p, mem => some (p, mem)
  | n + 1, w, p, mem =>
    if check then
      if mem p ≠ b64t.getD (w % 64) 0 then none else putChars check n (w / 64) (p + 1) mem
    else putChars check n (w / 64) (p + 1) (blit mem p 1 fun _ => b64t.getD (w % 64) 0)

def putGroups (check : Bool) : List (Nat × Nat) → Nat → Bytes → Option (Nat × Bytes)
  | [], p, mem => some (p, mem)
  | (n, w) :: rest, p, mem =>
    match putChars check n w p mem with
    | none => none
    | some (p, mem) => putGroups check rest p mem

/-- `md5_password`: what it returns, and memory from `crypted` on. Without a `$` behind the
header there is no result when it checks, since it computes with a null pointer. -/
def md5Password (md : Context) (key crypted : CStr) (behind : Bytes) (check : Bool) :
    Option (Int × Bytes) := do
  let mem := stored crypted behind
  let dollar := (crypted.drop 3).idxOf? 36
  let saltlen ←
    if check then dollar
    else
      match dollar with
      | some n => some (if n < 8 then n else 8)
      | none => some 8
  let mem := if check then mem else blit mem (3 + saltlen) 1 fun _ => 36
  let salt := slice mem 3 saltlen
  let md := md5Init md
  let md := md5Update md key
  let md := md5Update md salt
  let md := md5Update md key
  let md := md5Final md
  let alt := md.digest
  let md := md5Init md
  let md := md5Update md key
  let md := md5Update md (slice mem 0 (3 + saltlen))
  let md := updateAlt alt key.length md
  let md := updateBits key key.length md
  let md := md5Final md
  let md := (List.range 1000).foldl (rehash key salt) md
  match putGroups check (groups md.digest) (3 + saltlen + 1) mem with
  | none => some (1, mem)
  | some (p, mem) =>
    let mem := if check then mem else blit mem p 1 fun _ => 0
    some ((mem p).toNat, mem)

end Yaboot.Md5
