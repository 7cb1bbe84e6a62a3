import Mathlib.Data.Nat.Bits
import Yaboot.Md5.Rfc

/-! The md5-crypt password scheme: a digest of the key and a salt, a thousand rounds
over it, and its encoding in 22 characters. -/
namespace Yaboot.Md5Crypt

def ascii (s : String) : List UInt8 := s.toList.map fun c => UInt8.ofNat c.toNat

def magic : List UInt8 := ascii "$1$"

def alphabet : List UInt8 := ascii "./0123456789ABCDEFGHIJKLMNOPQRSTUVWXYZabcdefghijklmnopqrstuvwxyz"

/-- The first `n` bytes of a digest repeated. -/
def repeated (digest : List UInt8) (n : Nat) : List UInt8 :=
  (List.range n).map fun i => digest.getD (i % 16) 0

/-- For each bit of the key's length, the lowest first: a zero, or the key's first byte
where the bit is clear. -/
def lengthBits (key : List UInt8) : List UInt8 :=
  key.length.bits.map fun set => if set then 0 else key.getD 0 0

def start (key salt : List UInt8) : List UInt8 :=
  Rfc1321.md5 (key ++ magic ++ salt ++ repeated (Rfc1321.md5 (key ++ salt ++ key)) key.length ++
    lengthBits key)

def round (key salt digest : List UInt8) (i : Nat) : List UInt8 :=
  Rfc1321.md5 ((if i % 2 = 1 then key else digest) ++ (if i % 3 ≠ 0 then salt else []) ++
    (if i % 7 ≠ 0 then key else []) ++ if i % 2 = 1 then digest else key)

def digest (key salt : List UInt8) : List UInt8 :=
  (List.range 1000).foldl (round key salt) (start key salt)

/-- `n` characters for a number, the lowest six bits first. -/
def characters (n value : Nat) : List UInt8 :=
  (List.range n).map fun k => alphabet.getD (value / 64 ^ k % 64) 0

def triple (digest : List UInt8) (high middle low : Nat) : Nat :=
  (digest.getD high 0).toNat * 65536 + (digest.getD middle 0).toNat * 256 + (digest.getD low 0).toNat

def encode (digest : List UInt8) : List UInt8 :=
  characters 4 (triple digest 0 6 12) ++ characters 4 (triple digest 1 7 13) ++
    characters 4 (triple digest 2 8 14) ++ characters 4 (triple digest 3 9 15) ++
    characters 4 (triple digest 4 10 5) ++ characters 2 (digest.getD 11 0).toNat

/-- The string a password is stored as. -/
def crypt (key salt : List UInt8) : List UInt8 :=
  magic ++ salt ++ ascii "$" ++ encode (digest key salt)

end Yaboot.Md5Crypt
