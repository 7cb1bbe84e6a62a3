import Mathlib.Data.Finset.Card
import Mathlib.Data.Finset.Range
import Yaboot.Fs.Probe

/-! The partition tables of `second/partition.c`. Every table is read through
one static block buffer; memory is addressed from its start, and what the linker
puts behind it follows. The processor is big-endian. -/
namespace Yaboot.Partition
open Buffer CString Word Fs

/-- `le32_to_cpu`. -/
def le32 (b : Bytes) (at_ : Nat) : Nat :=
  (((b (at_ + 3)).toNat * 256 + (b (at_ + 2)).toNat) * 256 + (b (at_ + 1)).toNat) * 256 +
    (b at_).toNat

/-- A device as the firmware shows it. A block that cannot be read leaves bytes
of its own in the buffer. `heap` is what lies around an allocated array. -/
structure Disk where
  opened : Bool
  getblksize : Nat
  block : Nat → Option Bytes
  wreck : Nat → Bytes → Bytes
  malloc : Nat → Bool
  heap : Int → Nat

def maxBlockSize : Nat := 2048

/-- `prom_blksize`. -/
def Disk.blksize (d : Disk) : Nat := if d.getblksize ≤ 1 then 512 else d.getblksize

/-- `prom_readblocks` of one block into the buffer. -/
def Disk.readblock (d : Disk) (n : Nat) (mem : Bytes) : Bool × Bytes :=
  match d.block n with
  | some b => (true, blit mem 0 d.blksize b)
  | none => (false, blit mem 0 d.blksize (d.wreck n mem))

/-! ### Apple partition map -/

def macDriverMagic : Nat := 0x4552
def macPartitionMagic : Nat := 0x504d

/-- An entry of the map, in the buffer. -/
def macEntry (ptableBlockSize block : Nat) (mem : Bytes) : Partition where
  partNumber := block
  partStart := u32 (word32 mem 8 + word32 mem 80)
  partSize := word32 mem 84
  blocksize := ptableBlockSize
  sysInd := 0

/-- The loop over the map from `block` on, the size of the map being known. -/
def macLoop (d : Disk) (ptableBlockSize : Nat) : Nat → Nat → Bytes → List Partition → List Partition
  | 0, _, _, list => list
  | left + 1, block, mem, list =>
    let (success, mem) := d.readblock block mem
    if !success then list
    else if word16 mem 0 ≠ macPartitionMagic then list
    else
      macLoop d ptableBlockSize left (block + 1) mem (macEntry ptableBlockSize block mem :: list)

/-- `partition_mac_lookup`. The size of the map is in its first block. -/
def partitionMacLookup (d : Disk) (mem : Bytes) : List Partition :=
  let ptableBlockSize := word16 mem 2
  let (success, mem) := d.readblock 1 mem
  if !success then []
  else if word16 mem 0 ≠ macPartitionMagic then []
  else
    macLoop d ptableBlockSize (s32 (word32 mem 4 + 1) - 2).toNat 2 mem
      [macEntry ptableBlockSize 1 mem]

/-! ### Partition table of a PC -/

/-- `partition_fdisk_lookup`. -/
def partitionFdiskLookup (mem : Bytes) : List Partition :=
  (List.range 4).foldl (fun list k =>
    let part := 0x1be + 16 * k
    let sysInd := (mem (part + 4)).toNat
    if sysInd = linuxNative ∨ sysInd = linuxRaid then
      ⟨k + 1, le32 mem (part + 8), le32 mem (part + 12), 512, sysInd⟩ :: list
    else list) []

/-! ### ISO 9660 -/

/-- The loop of `identify_iso_fs` with `left` blocks to go: the block of the
descriptor, and the buffer. -/
def isoLoop (d : Disk) : Nat → Nat → Bytes → Option Nat × Bytes
  | 0, _, mem => (none, mem)
  | left + 1, block, mem =>
    let (success, mem) := d.readblock block mem
    if !success then (none, mem)
    else if memcmpEq mem 1 (cstr "CD001") then (some block, mem)
    else isoLoop d left (block + 1) mem

def identifyIsoFs (d : Disk) (mem : Bytes) : Option Nat × Bytes := isoLoop d 84 16 mem

/-! ### Amiga -/

def amigaRdbMax : Nat := 16
def amigaIdRdb : Nat := 0x5244534B
def amigaIdPart : Nat := 0x50415254
def amigaEnd : Nat := 0xffffffff

/-- `amiga_block[i]`. -/
def amigaBlock (mem : Bytes) (i : Nat) : Nat := word32 mem (4 * i)

/-- `_amiga_checksum`. The length of the block is in words, `blk_size` in bytes. -/
def amigaChecksum (mem : Bytes) (blkSize : Nat) : Nat :=
  let end_ := min (amigaBlock mem 1) blkSize
  (List.range' 1 (end_ - 1)).foldl (fun sum i => u32 (sum + amigaBlock mem i)) (amigaBlock mem 0)

/-- The buffer holds a block of the given type. -/
def amigaValid (d : Disk) (id : Nat) (mem : Bytes) : Bool :=
  amigaBlock mem 0 == id && amigaChecksum mem d.blksize == 0

/-- The loop of `_amiga_find_rdb` from block `i` on, with `left` blocks to go. -/
def rdbLoop (d : Disk) : Nat → Nat → Bytes → Bool × Bytes
  | 0, _, mem => (false, mem)
  | left + 1, i, mem =>
    let (success, mem) := if i ≠ 0 then d.readblock i mem else (true, mem)
    if !success then (false, mem)
    else if amigaValid d amigaIdRdb mem then (true, mem)
    else rdbLoop d left (i + 1) mem

/-- `_amiga_find_rdb`: its result and the buffer. -/
def amigaFindRdb (d : Disk) (mem : Bytes) : Nat × Bytes :=
  let rdb := rdbLoop d amigaRdbMax 0 mem
  if rdb.1 then (1, rdb.2) else (0, (d.readblock 0 rdb.2).2)

/-- The place of a block in `used`: the word and the bit. -/
def usedWord (part : Nat) : Int := (s32 part).tdiv 32
def usedBit (part : Nat) : Nat := ((s32 part).tmod 32 % 32).toNat

abbrev Used := Int → Nat

/-- `used[part/32] & (0x1 << (part % 32))` is not zero. -/
def Used.has (used : Used) (part : Nat) : Bool := (used (usedWord part)).testBit (usedBit part)

def Used.mark (used : Used) (part : Nat) : Used :=
  Function.update used (usedWord part) (used (usedWord part) ||| 2 ^ usedBit part)

/-- How many blocks are not yet travelled. -/
@[irreducible] def Used.left (used : Used) : Nat :=
  ((Finset.range (2 ^ 32)).filter fun p => !used.has p).card

theorem Used.has_mark_self (used : Used) (part : Nat) : (used.mark part).has part = true := by
  simp [Used.has, Used.mark, Nat.testBit_or]

theorem Used.has_mark (used : Used) (part : Nat) (has : used.has p = true) :
    (used.mark part).has p = true := by
  unfold Used.has Used.mark at *
  by_cases same : usedWord p = usedWord part
  · rw [same] at has
    rw [same, Function.update_self, Nat.testBit_or, has, Bool.true_or]
  · rw [Function.update_of_ne same, has]

theorem Used.has_u32 (used : Used) (part : Nat) : used.has (u32 part) = used.has part := by
  have same : s32 (u32 part) = s32 part := by simp only [s32, u32, Nat.mod_mod]
  simp only [Used.has, usedWord, usedBit, same]

theorem Used.left_mark (used : Used) (new : used.has part = false) :
    (used.mark part).left < used.left := by
  unfold Used.left
  apply Finset.card_lt_card
  refine ⟨fun p member => ?_, fun subset => ?_⟩
  · rw [Finset.mem_filter, Bool.not_eq_true'] at member ⊢
    refine ⟨member.1, ?_⟩
    cases has : used.has p with
    | false => rfl
    | true =>
      rw [used.has_mark part has] at member
      exact absurd member.2.symm Bool.false_ne_true
  · have absent := subset (Finset.mem_filter.mpr ⟨Finset.mem_range.mpr (u32_lt part),
      by rw [used.has_u32, new]; rfl⟩)
    rw [Finset.mem_filter, Used.has_u32, Used.has_mark_self] at absent
    exact absurd absent.2 Bool.false_ne_true

/-- A partition, in the buffer. -/
def amigaEntry (d : Disk) (blockspercyl partition : Nat) (mem : Bytes) : Partition where
  partNumber := partition
  partStart := u32 (blockspercyl * amigaBlock mem 41)
  partSize := u32 (blockspercyl * u32 (sub32 (amigaBlock mem 42) (amigaBlock mem 41) + 1))
  blocksize := u16 d.blksize
  sysInd := 0

/-- The loop of `partition_amiga_lookup` at block `part`. -/
def amigaLoop (d : Disk) (blockspercyl part partition : Nat) (used : Used) (mem : Bytes)
    (list : List Partition) : List Partition :=
  if part = amigaEnd then list
  else
    let read := d.readblock part mem
    if !read.1 then list
    else if amigaValid d amigaIdPart read.2 then
      if new : used.has part = false then
        amigaLoop d blockspercyl (amigaBlock read.2 4) (partition + 1) (used.mark part)
          read.2 (amigaEntry d blockspercyl partition read.2 :: list)
      else list
    else list
termination_by used.left
decreasing_by exact used.left_mark new

/-- `used` as it is after its first words were cleared. -/
def cleared (d : Disk) (possible : Nat) : Used := fun i => if 0 ≤ i ∧ i < possible then 0 else d.heap i

/-- `partition_amiga_lookup`. -/
def partitionAmigaLookup (d : Disk) (mem : Bytes) : List Partition :=
  let blockspercyl := u32 (amigaBlock mem 17 * amigaBlock mem 18)
  let possible := amigaBlock mem 33 / 32 + 1
  if !d.malloc (4 * (possible + 1)) then []
  else
    amigaLoop d blockspercyl (amigaBlock mem 7) 1 (cleared d possible) mem []

/-! ### `partitions_lookup` -/

/-- The branch for disks without one of the other tables. -/
def lookupAmiga (d : Disk) (mem : Bytes) : List Partition :=
  let rdb := amigaFindRdb d mem
  if (rdb.1 : Int) ≠ -1 then partitionAmigaLookup d rdb.2 else []

/-- What `partitions_lookup` does once block 0 is in the buffer. -/
def lookupIn (d : Disk) (mem : Bytes) : List Partition :=
  if word16 mem 0 = macDriverMagic then partitionMacLookup d mem
  else if mem 510 = 0x55 ∧ mem 511 = 0xaa then partitionFdiskLookup mem
  else if d.blksize = 2048 then
    match identifyIsoFs d mem with
    | (some block, _) => [⟨0, block, 0, d.blksize, 0⟩]
    | (none, mem) => lookupAmiga d mem
  else lookupAmiga d mem

/-- `partitions_lookup`, the buffer holding the name of the device. -/
def partitionsLookup (d : Disk) (mem : Bytes) : List Partition :=
  if !d.opened then []
  else if maxBlockSize < d.blksize then []
  else
    let (success, mem) := d.readblock 0 mem
    if !success then [] else lookupIn d mem

end Yaboot.Partition
