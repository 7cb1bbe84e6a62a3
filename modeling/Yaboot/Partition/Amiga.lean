import Mathlib.Algebra.BigOperators.Group.List.Basic
import Yaboot.Partition.LookupProofs

/-! The Amiga partitions of a disk: what the checksum reads, where the walk looks
into its bitmap, and the chain of blocks the list is made from. -/
namespace Yaboot.Partition
open Buffer Word Fs

/-! ### The checksum -/

/-- The words `_amiga_checksum` reads. -/
def checksumReads (mem : Bytes) (blkSize : Nat) : List Nat :=
  0 :: 1 :: List.range' 1 (min (amigaBlock mem 1) blkSize - 1)

/-- What is asked of it: it reads the block and nothing behind, whatever was read
before, and adds up as many longs as the block says it has. -/
structure ChecksumRight (mem : Bytes) (blkSize : Nat) : Prop where
  inside : ∀ i ∈ checksumReads mem blkSize, 4 * i + 4 ≤ blkSize
  fresh : ∀ before, (∀ k < blkSize, before k = mem k) →
    amigaChecksum before blkSize = amigaChecksum mem blkSize
  sum : amigaChecksum mem blkSize =
    ((List.range (max 1 (min (amigaBlock mem 1) (blkSize / 4)))).map (amigaBlock mem)).sum % 2 ^ 32

/-! ### The walk -/

/-- The blocks the loop of `partition_amiga_lookup` looks up in `used`: those it
can read, the last one for its message if for nothing else. -/
def amigaWalk (d : Disk) (part : Nat) (used : Used) (mem : Bytes) : List Nat :=
  if part = amigaEnd then []
  else
    let read := d.readblock part mem
    if !read.1 then []
    else if amigaValid d amigaIdPart read.2 then
      if used.has part = false then
        part :: amigaWalk d (amigaBlock read.2 4) (used.mark part) read.2
      else [part]
    else [part]
termination_by used.left
decreasing_by exact used.left_mark ‹used.has part = false›

/-- The greatest index `used` is allocated for. -/
def possible (mem : Bytes) : Nat := amigaBlock mem 33 / 32 + 1

/-- The blocks of the walk that starts from a rigid disk block. -/
def amigaVisits (d : Disk) (mem : Bytes) : List Nat :=
  amigaWalk d (amigaBlock mem 7) (cleared d (possible mem)) mem

/-- What is asked of the walk: it stays inside the bitmap, shifts by the places of
a word, and ends. -/
structure WalkSound (d : Disk) (mem : Bytes) : Prop where
  index : ∀ part ∈ amigaVisits d mem, 0 ≤ usedWord part ∧ usedWord part ≤ possible mem
  shift : ∀ part ∈ amigaVisits d mem, 0 ≤ (s32 part).tmod 32 ∧ (s32 part).tmod 32 ≤ 31
  ends : (amigaVisits d mem).length ≤ 2 ^ 32 + 1

/-- The blocks that can be come to from a rigid disk block: the one it names, and
the next of every partition block. -/
inductive Reached (d : Disk) (mem : Bytes) : Nat → Prop
  | first : Reached d mem (amigaBlock mem 7)
  | next (reached : Reached d mem p) (more : p ≠ amigaEnd) (given : d.block p = some b)
      (valid : amigaValid d amigaIdPart (d.put mem b)) :
      Reached d mem (amigaBlock (d.put mem b) 4)

/-! ### The chain -/

/-- The blocks of the chain in order, up to one that is no partition block. -/
def chain (d : Disk) (mem : Bytes) : Nat → Option Nat
  | 0 => some (amigaBlock mem 7)
  | i + 1 => (chain d mem i).bind fun p =>
      if p = amigaEnd then none
      else (d.block p).bind fun b =>
        if amigaValid d amigaIdPart (d.put mem b) then some (amigaBlock (d.put mem b) 4) else none

/-- A block with a partition in it, and the buffer that holds it. -/
def PartBlock (d : Disk) (mem : Bytes) (p : Nat) (m : Bytes) : Prop :=
  p ≠ amigaEnd ∧ ∃ b, d.block p = some b ∧ m = d.put mem b ∧ amigaValid d amigaIdPart m

/-- The first `n` blocks of the chain hold partitions and are all different. -/
structure Prefix (d : Disk) (mem : Bytes) (n : Nat) : Prop where
  blocks : ∀ i < n, ∃ p m, chain d mem i = some p ∧ PartBlock d mem p m
  distinct : ∀ i < n, ∀ j < i, chain d mem j ≠ chain d mem i

def Longest (d : Disk) (mem : Bytes) (n : Nat) : Prop :=
  Prefix d mem n ∧ ∀ k, Prefix d mem k → k ≤ n

/-- The entry of a block: sectors and heads are those of the rigid disk block. -/
def chainEntry (d : Disk) (mem m : Bytes) (number : Nat) : Partition where
  partNumber := number
  partStart := amigaBlock mem 17 * amigaBlock mem 18 * amigaBlock m 41 % 2 ^ 32
  partSize := ((amigaBlock mem 17 * amigaBlock mem 18 *
    (amigaBlock m 42 - amigaBlock m 41 + 1) : Int) % 2 ^ 32).toNat
  blocksize := u16 d.blksize
  sysInd := 0

/-- The buffer with the `i`-th block of the chain in it. -/
def chainBuffer (d : Disk) (mem : Bytes) (i : Nat) : Bytes :=
  match (chain d mem i).bind d.block with
  | some b => d.put mem b
  | none => mem

/-- The entries of the first `n` blocks, the last one in front. -/
def chainEntries (d : Disk) (mem : Bytes) (n : Nat) : List Partition :=
  ((List.range n).map fun i => chainEntry d mem (chainBuffer d mem i) (i + 1)).reverse

end Yaboot.Partition
