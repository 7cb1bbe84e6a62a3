import Yaboot.Partition.LookupProofs

/-! The entries of a partition list as they are in memory, and the type of a
partition read back from one. -/
namespace Yaboot.Partition
open Buffer CString Word Fs

/-! ### `struct partition_t` -/

/-- `strncpy(mem + at_, src + from_, n)`, which does not pad. -/
def strncpy (mem : Bytes) (at_ : Nat) (src : Bytes) (from_ : Nat) : Nat → Bytes
  | 0 => mem
  | n + 1 =>
    let mem := Function.update mem at_ (src from_)
    if src from_ = 0 then mem else strncpy mem (at_ + 1) src (from_ + 1) n

def maxPartName : Nat := 32

def store16 (mem : Bytes) (at_ value : Nat) : Bytes :=
  blit mem at_ 2 fun k => if k = 0 then UInt8.ofNat (value / 256) else UInt8.ofNat value

/-- The structure `add_new_partition` fills in, `part` being what `malloc` gave it:
the number is at 4, the type at 8, the name at 40 and the rest from 72 on. -/
def addNewPartition (part : Bytes) (entry : Partition) (partType : Bytes) (type : Nat)
    (partName : Bytes) (name : Nat) : Bytes :=
  let part := store32 part 4 entry.partNumber
  let part := strncpy part 8 partType type maxPartName
  let part := strncpy part 40 partName name maxPartName
  let part := store32 part 72 entry.partStart
  let part := store32 part 76 entry.partSize
  let part := store16 part 80 entry.blocksize
  store32 part 84 entry.sysInd

/-- `p->part_type` as a string, with what follows it in the structure. -/
def partType (part : Bytes) : CStr := strdup ((List.range' 8 80).map part)

/-- An entry of a list: its fields, and the structure that holds them. -/
structure Record where
  entry : Partition
  part : Bytes

/-- The memory the structures come from: `fresh k` is given to entry `k`, and `low`
is what a null pointer points at. -/
structure Heap where
  fresh : Nat → Bytes
  low : Bytes

/-! ### The lists with their structures -/

def macRecord (h : Heap) (ptableBlockSize block : Nat) (mem : Bytes) : Record where
  entry := macEntry ptableBlockSize block mem
  part := addNewPartition (h.fresh block) (macEntry ptableBlockSize block mem) mem 48 mem 16

/-- `macLoop`, with the structures. -/
def macRecords (d : Disk) (h : Heap) (ptableBlockSize : Nat) :
    Nat → Nat → Bytes → List Record → List Record
  | 0, _, _, list => list
  | left + 1, block, mem, list =>
    let (success, mem) := d.readblock block mem
    if !success then list
    else if word16 mem 0 ≠ macPartitionMagic then list
    else
      macRecords d h ptableBlockSize left (block + 1) mem (macRecord h ptableBlockSize block mem :: list)

def macLookupRecords (d : Disk) (h : Heap) (mem : Bytes) : List Record :=
  let ptableBlockSize := word16 mem 2
  let (success, mem) := d.readblock 1 mem
  if !success then []
  else if word16 mem 0 ≠ macPartitionMagic then []
  else
    macRecords d h ptableBlockSize (s32 (word32 mem 4 + 1) - 2).toNat 2 mem
      [macRecord h ptableBlockSize 1 mem]

/-- The type the other tables give: a literal, or a null pointer. -/
def otherRecord (h : Heap) (type : Bytes) (entry : Partition) : Record where
  entry := entry
  part := addNewPartition (h.fresh entry.partNumber) entry type 0 h.low 0

def linuxType : Bytes := fun i => (cstr "Linux").getD i 0

/-- `lookupIn`, with the structures. -/
def recordsIn (d : Disk) (h : Heap) (mem : Bytes) : List Record :=
  if word16 mem 0 = macDriverMagic then macLookupRecords d h mem
  else if mem 510 = 0x55 ∧ mem 511 = 0xaa then
    (partitionFdiskLookup mem).map (otherRecord h linuxType)
  else if d.blksize = 2048 then
    match identifyIsoFs d mem with
    | (some block, _) => [otherRecord h h.low ⟨0, block, 0, d.blksize, 0⟩]
    | (none, mem) => (lookupAmiga d mem).map (otherRecord h linuxType)
  else (lookupAmiga d mem).map (otherRecord h linuxType)

/-- `partitions_lookup`, with the structures. -/
def recordsLookup (d : Disk) (h : Heap) (mem : Bytes) : List Record :=
  if !d.opened then []
  else if maxBlockSize < d.blksize then []
  else
    let (success, mem) := d.readblock 0 mem
    if !success then [] else recordsIn d h mem

/-- `get_part_type`. -/
def getPartType (deviceKind : Except FileErr DeviceKind) (d : Disk) (h : Heap) (mem : Bytes)
    (partition : Int) : Option CStr :=
  match deviceKind with
  | .ok .block | .ok .iscsi =>
    ((recordsLookup d h mem).find? fun p => 0 ≤ partition ∧ partition = p.entry.partNumber).map
      fun p => partType p.part
  | _ => none

/-! ### What is asked of them -/

/-- Block `k` can be read and is a block of the map. -/
def macGood (d : Disk) (mem : Bytes) (k : Nat) : Bool :=
  match d.block k with
  | some b => word16 (d.put mem b) 0 == macPartitionMagic
  | none => false

/-- The buffer with block `k` in it. -/
def macBuffer (d : Disk) (mem : Bytes) (k : Nat) : Bytes :=
  match d.block k with
  | some b => d.put mem b
  | none => mem

/-- The `map_count` of block 1. -/
def mapCount (d : Disk) (mem : Bytes) : Nat := word32 (macBuffer d mem 1) 4

/-- How many blocks of the map there are, from block 1 on. -/
def mapLength (d : Disk) (mem : Bytes) : Nat :=
  ((List.range' 1 (max 1 (mapCount d mem))).takeWhile (macGood d mem)).length

/-- The type field of an entry of the map, read as a string. -/
def typeField (mem : Bytes) : CStr := strdup ((List.range' 48 32).map mem)

/-- What is asked of the map: its entries are those of its blocks, the last one in
front, and each has the type its block says. -/
structure MapRead (deviceKind : Except FileErr DeviceKind) (d : Disk) (h : Heap) (mem : Bytes) :
    Prop where
  entries : partitionsLookup d mem =
    ((List.range' 1 (mapLength d mem)).map fun k =>
      macEntry (word16 (d.zero mem) 2) k (macBuffer d mem k)).reverse
  types : ∀ k : Nat, getPartType deviceKind d h mem k =
    if 1 ≤ k ∧ k ≤ mapLength d mem then some (typeField (macBuffer d mem k)) else none

end Yaboot.Partition
