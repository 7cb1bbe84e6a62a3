import Yaboot.Base.Buffer
import Yaboot.Md5.Rfc

/-! `md5_init`, `md5_update` and `md5_final` of `second/md5.c`, on a big-endian machine
whose `long` has 32 bits. -/
namespace Yaboot.Md5
open Buffer
open Rfc1321 (Registers)

/-- `le32_to_cpu`, and `cpu_to_le32`. -/
def le32ToCpu (x : UInt32) : UInt32 :=
  ((x &&& 0x000000ff) <<< 24) ||| ((x &&& 0x0000ff00) <<< 8) ||| ((x &&& 0x00ff0000) >>> 8) |||
    ((x &&& 0xff000000) >>> 24)

def F (x y z : UInt32) : UInt32 := (x &&& y) ||| (~~~x &&& z)
def G (x y z : UInt32) : UInt32 := (x &&& z) ||| (y &&& ~~~z)
def H (x y z : UInt32) : UInt32 := x ^^^ y ^^^ z
def I (x y z : UInt32) : UInt32 := y ^^^ (x ||| ~~~z)

/-- `ROTATE_LEFT`. -/
def rotateLeft (x : UInt32) (n : UInt32) : UInt32 := (x <<< n) ||| (x >>> (32 - n))

def initstate : Registers := ⟨0x67452301, 0xefcdab89, 0x98badcfe, 0x10325476⟩

def s1 : List UInt32 := [7, 12, 17, 22]
def s2 : List UInt32 := [5, 9, 14, 20]
def s3 : List UInt32 := [4, 11, 16, 23]
def s4 : List UInt32 := [6, 10, 15, 21]

def T : List UInt32 :=
  [
    0xd76aa478, 0xe8c7b756, 0x242070db, 0xc1bdceee, 0xf57c0faf, 0x4787c62a,
    0xa8304613, 0xfd469501, 0x698098d8, 0x8b44f7af, 0xffff5bb1, 0x895cd7be,
    0x6b901122, 0xfd987193, 0xa679438e, 0x49b40821, 0xf61e2562, 0xc040b340,
    0x265e5a51, 0xe9b6c7aa, 0xd62f105d, 0x02441453, 0xd8a1e681, 0xe7d3fbc8,
    0x21e1cde6, 0xc33707d6, 0xf4d50d87, 0x455a14ed, 0xa9e3e905, 0xfcefa3f8,
    0x676f02d9, 0x8d2a4c8a, 0xfffa3942, 0x8771f681, 0x6d9d6122, 0xfde5380c,
    0xa4beea44, 0x4bdecfa9, 0xf6bb4b60, 0xbebfbc70, 0x289b7ec6, 0xeaa127fa,
    0xd4ef3085, 0x04881d05, 0xd9d4d039, 0xe6db99e5, 0x1fa27cf8, 0xc4ac5665,
    0xf4292244, 0x432aff97, 0xab9423a7, 0xfc93a039, 0x655b59c3, 0x8f0ccc92,
    0xffeff47d, 0x85845dd1, 0x6fa87e4f, 0xfe2ce6e0, 0xa3014314, 0x4e0811a1,
    0xf7537e82, 0xbd3af235, 0x2ad7d2bb, 0xeb86d391]

/-- A word of memory. -/
def wordAt (mem : Bytes) (at_ : Nat) : UInt32 :=
  ((mem at_).toUInt32 <<< 24) ||| ((mem (at_ + 1)).toUInt32 <<< 16) |||
    ((mem (at_ + 2)).toUInt32 <<< 8) ||| (mem (at_ + 3)).toUInt32

/-- The bytes of a word in memory. -/
def wordBytes (w : UInt32) : List UInt8 :=
  [(w >>> 24).toUInt8, (w >>> 16).toUInt8, (w >>> 8).toUInt8, w.toUInt8]

/-- The body of the four loops: `tmp` is computed, and the registers move on. -/
def step (fn : UInt32 → UInt32 → UInt32 → UInt32) (word t s : UInt32) (r : Registers) : Registers :=
  let tmp := r.a + fn r.b r.c r.d + le32ToCpu word + t
  let tmp := rotateLeft tmp s
  let tmp := tmp + r.b
  ⟨r.d, tmp, r.b, r.c⟩

/-- The loops of `md5_transform`, with `n` rounds to go. In the first one `j` is `i`. -/
def loop (fn : UInt32 → UInt32 → UInt32 → UInt32) (s : List UInt32) (inc off : Nat) (block : Bytes) :
    Nat → Nat → Nat → Registers → Registers
  | 0, _, _, r => r
  | n + 1, i, j, r =>
    loop fn s inc off block n (i + 1) (j + inc)
      (step fn (wordAt block (4 * (j % 16))) (T.getD (i + off) 0) (s.getD (i % 4) 0) r)

def md5Transform (state : Registers) (block : Bytes) : Registers :=
  let r := loop F s1 1 0 block 16 0 0 state
  let r := loop G s2 5 16 block 16 0 1 r
  let r := loop H s3 3 32 block 16 0 5 r
  let r := loop I s4 7 48 block 16 0 0 r
  ⟨state.a + r.a, state.b + r.b, state.c + r.c, state.d + r.d⟩

/-- The globals `state`, `length` and `buffer`. -/
structure Context where
  state : Registers
  length : UInt32
  buffer : Bytes

def md5Init (md : Context) : Context := { md with state := initstate, length := 0 }

/-- The bytes at a pointer. -/
def at_ (input : List UInt8) : Bytes := fun k => input.getD k 0

/-- The loop of `md5_update`: the state, and what is left of the input. -/
def updateLoop (state : Registers) (input : List UInt8) : Registers × List UInt8 :=
  if 64 ≤ input.length then updateLoop (md5Transform state (at_ input)) (input.drop 64)
  else (state, input)
termination_by input.length
decreasing_by
  rw [List.length_drop]
  omega

def md5Update (md : Context) (input : List UInt8) : Context :=
  let buflen := (md.length &&& 63).toNat
  let length := md.length + UInt32.ofNat input.length
  if buflen + input.length < 64 then
    { md with length := length, buffer := blit md.buffer buflen input.length (at_ input) }
  else
    let buffer := blit md.buffer buflen (64 - buflen) (at_ input)
    let (state, input) := updateLoop (md5Transform md.state buffer) (input.drop (64 - buflen))
    ⟨state, length, blit buffer 0 input.length (at_ input)⟩

/-- `md5_final`; the digest it returns is where `state` is. -/
def md5Final (md : Context) : Context :=
  let buflen := (md.length &&& 63).toNat
  let buffer := blit md.buffer buflen 1 fun _ => 0x80
  let buflen := buflen + 1
  let buffer := blit buffer buflen (64 - buflen) fun _ => 0
  let (state, buffer) :=
    if buflen > 56 then (md5Transform md.state buffer, blit buffer 0 64 fun _ => 0)
    else (md.state, buffer)
  let buffer := blit buffer 56 4 (at_ (wordBytes (le32ToCpu (8 * md.length))))
  let buffer := blit buffer 60 4 (at_ (wordBytes 0))
  let state := md5Transform state buffer
  ⟨⟨le32ToCpu state.a, le32ToCpu state.b, le32ToCpu state.c, le32ToCpu state.d⟩, md.length, buffer⟩

/-- The bytes of `state`. -/
def Context.digest (md : Context) : List UInt8 :=
  wordBytes md.state.a ++ wordBytes md.state.b ++ wordBytes md.state.c ++ wordBytes md.state.d

end Yaboot.Md5
