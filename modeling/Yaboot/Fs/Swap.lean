import Yaboot.Fs.Probe

/-! Where on a disk the search for swap signatures looks. The buffer of
`swap_open` remembers where each of its bytes was read from. -/
namespace Yaboot.Fs
open Buffer CString Word

/-! ### Reading blocks -/

/-- An open disk: the block size it names, whether it can seek to a position, what
`prom_read` answers there when asked for some bytes, and its bytes. -/
structure ByteDisk where
  getblksize : Nat
  seek : Nat → Bool
  read : Nat → Nat → Int
  content : Nat → UInt8

def ByteDisk.blksize (d : ByteDisk) : Nat := if d.getblksize ≤ 1 then 512 else d.getblksize

/-- The position each byte of a buffer was read from, if it was. -/
abbrev Origins := Nat → Option Nat

/-- How many bytes a read of `n` bytes puts in the buffer. -/
def ByteDisk.delivered (d : ByteDisk) (pos n : Nat) : Nat := min (d.read pos n).toNat n

/-- Where `prom_readblocks` seeks to, and how many bytes it asks for. -/
def ByteDisk.blockPos (d : ByteDisk) (blockNum : Nat) : Nat := u32 (blockNum * d.blksize)

def ByteDisk.blockBytes (d : ByteDisk) (blockCount : Nat) : Nat := u32 (blockCount * d.blksize)

/-- `prom_readblocks`, with `READ_BLOCKS_USE_READ`. -/
def ByteDisk.readblocks (d : ByteDisk) (blockNum blockCount : Nat) (buffer : Origins) :
    Bool × Origins :=
  let pos := d.blockPos blockNum
  let n := d.blockBytes blockCount
  if !d.seek pos then (false, buffer)
  else
    (d.read pos n = n, fun i => if i < d.delivered pos n then some (pos + i) else buffer i)

/-- The bytes of a buffer, `heap` being what was there before. -/
def ByteDisk.values (d : ByteDisk) (heap : Bytes) (buffer : Origins) : Bytes := fun i =>
  match buffer i with
  | some pos => d.content pos
  | none => heap i

/-! ### The comparisons -/

/-- A round of the loop of `swap_open`: the offset, how much is asked of the disk
for it, the bytes that are compared, and whether they are a signature. -/
structure Look where
  offset : Nat
  extent : Nat
  bytes : Nat → Option Nat
  found : Bool

def blkcount : Nat := 2

/-- The round for a signature, and the buffer behind it. -/
def lookFor (d : ByteDisk) (heap : Bytes) (p : Partition) (magic : CStr) (offset : Nat)
    (buffer : Origins) : Look × Origins :=
  let blk := u32 (p.partStart + offset / p.blocksize)
  let after := (d.readblocks blk blkcount buffer).2
  (⟨offset, if d.seek (d.blockPos blk) then d.blockBytes blkcount else 0,
    fun k => after (offset % p.blocksize + k),
    memcmpEq (d.values heap after) (offset % p.blocksize) magic⟩, after)

/-- The rounds of the loop. -/
def looks (d : ByteDisk) (heap : Bytes) (p : Partition) : List (CStr × Nat) → Origins → List Look
  | [], _ => []
  | (magic, offset) :: rest, buffer =>
    let round := lookFor d heap p magic offset buffer
    round.1 :: if round.1.found then [] else looks d heap p rest round.2

/-- The rounds of `swap_open` once it has its buffer. -/
def swapLooks (d : ByteDisk) (heap : Bytes) (p : Partition) : List Look :=
  looks d heap p signatures fun _ => none

/-! ### What is asked of them -/

/-- A round reads no more than the buffer has room for, and compares the bytes of
the partition at its offset. -/
structure Look.Right (p : Partition) (look : Look) : Prop where
  room : look.extent ≤ p.blocksize * blkcount
  bytes : ∀ k < 10, look.bytes k = some (p.partStart * p.blocksize + look.offset + k)

structure ProbeSound (d : ByteDisk) (heap : Bytes) (p : Partition) : Prop where
  divides : p.blocksize ≠ 0
  right : ∀ look ∈ swapLooks d heap p, look.Right p

/-- The device gives the bytes at an offset: it counts blocks as the partition
table does, or the block is its first; 32 bits are enough for the position; and
the read is long enough. -/
structure Reaches (d : ByteDisk) (p : Partition) (offset : Nat) : Prop where
  blocks : d.blksize = p.blocksize ∨ p.partStart + offset / p.blocksize = 0
  narrow : (p.partStart + offset / p.blocksize) * d.blksize < 2 ^ 32
  seeks : d.seek ((p.partStart + offset / p.blocksize) * d.blksize) = true
  reads : offset % p.blocksize + 10 ≤
    d.delivered ((p.partStart + offset / p.blocksize) * d.blksize) (d.blockBytes blkcount)

/-- The partition has a signature at an offset. -/
def Signed (d : ByteDisk) (p : Partition) (offset : Nat) : Prop :=
  ∃ magic ∈ [cstr "SWAP-SPACE", cstr "SWAPSPACE2"],
    (List.range 10).map (fun k => d.content (p.partStart * p.blocksize + offset + k)) = magic

end Yaboot.Fs
