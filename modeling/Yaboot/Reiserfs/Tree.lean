import Yaboot.Reiserfs.Journal

/-! Opening a volume and walking its S+tree in `second/fs_reiserfs.c`. `FSYS_BUF`
is the cache of tree nodes: the root in slot 0, the leaf in slot 1, and above it
the nodes of the current path. A pointer into the cache is an offset. -/
namespace Yaboot.Reiserfs
open Buffer CString Word

/-- The values of `errors.h` the driver uses. -/
inductive Errnum where
  | ok
  | notFound
  | ioErr
  | badType
  | notDir
  | badFsys
  | symlinkLoop
  | length
  deriving DecidableEq, Repr

def Errnum.code : Errnum → Int
  | .ok => 0
  | .notFound => -2
  | .ioErr => -4
  | .badType => -6
  | .notDir => -7
  | .badFsys => -8
  | .symlinkLoop => -9
  | .length => -10

/-- What changes while a volume is in use: the rest of `struct reiserfs_state`,
the position and length of its file, `FSYS_BUF` and `errnum`. -/
structure State where
  mem : Bytes
  blocks : Nat → Nat
  nextKeyNr : Nat → Nat
  currentIh : Nat
  currentItem : Nat
  fileDirId : Nat
  fileObjectid : Nat
  pos : Nat
  len : Nat
  errnum : Errnum

/-! ### `reiserfs_read_super` -/

/-- `reiserfs_log2`: the lowest bit set above bit 0. -/
def reiserfsLog2 (word : Nat) : Nat :=
  if word = 0 then 0 else ((List.range' 1 31).find? word.testBit).getD 0

def isPowerOfTwo (word : Nat) : Bool := word &&& sub32 0 word == word

/-- The fields of the superblock that are used. -/
structure Super where
  rootBlock : Nat
  journalBlock : Nat
  origJournalSize : Nat
  blocksize : Nat
  version : Nat
  deriving DecidableEq, Repr

def superFields (b : Bytes) : Super where
  rootBlock := le b 8 4
  journalBlock := le b 12 4
  origJournalSize := le b 20 4
  blocksize := le b 44 2
  version := le b 72 2

def superMagic (b : Bytes) (at_ : Nat) : Bool :=
  strcmpAt (cstr "ReIsEr2Fs") b at_ || strcmpAt (cstr "ReIsErFs") b at_

/-- The superblock in its new place, in its old one, or as it was before there
was a journal. -/
def findSuper (disk : Bytes) (info : Info) : Option (Nat × Super) :=
  let super := readDiskBlock disk info 16 0
  if superMagic super 52 then some (16, superFields super)
  else
    let super := readDiskBlock disk info 2 0
    if superMagic super 52 then some (2, superFields super)
    else if strcmpAt (cstr "ReIsErFs") super 20 then
      some (2, { superFields super with blocksize := oldBlocksize, journalBlock := 0, version := 0 })
    else none

/-- `INFO` with what the superblock says. -/
def superInfo (partitionOffset : Nat) (super : Super) : Info where
  partitionOffset := partitionOffset
  journalBlock := super.journalBlock
  journalBlockCount := super.origJournalSize
  version := super.version
  blocksize := super.blocksize
  blocksizeShift := reiserfsLog2 super.blocksize
  cachedSlots := u16 (sub32 (fsysreiserCacheSize >>> reiserfsLog2 super.blocksize) 1)

/-- An open volume, with the number of the block read into `ROOT`. -/
structure Mounted where
  info : Info
  mem : Bytes
  root : Nat

/-- The end of `reiserfs_read_super`, from the root block on. -/
def readRoot (disk : Bytes) (info : Info) (mem : Bytes) (root : Nat) : Option Mounted :=
  let mem := blockReadInto disk info mem root 0 info.blocksize 0
  let treeDepth := le mem 0 2
  if maxTreeHeight ≤ treeDepth then none
  else
    let mem := if treeDepth = 1 then blit mem info.blocksize info.blocksize mem else mem
    some ⟨{ info with treeDepth := treeDepth }, mem, root⟩

/-- `reiserfs_read_super`, with `fuel` rounds for the journal. -/
def reiserfsReadSuper (disk : Bytes) (partitionOffset fuel : Nat) (mem : Bytes) : Option Mounted :=
  match findSuper disk { partitionOffset := partitionOffset } with
  | none => none
  | some (superblock, super) =>
    let info := superInfo partitionOffset super
    if 2 < info.version ∨ info.blocksize < 512 ∨ fsysreiserCacheSize / 3 < info.blocksize then none
    else if info.journalBlock = 0 then readRoot disk info mem super.rootBlock
    else if !isPowerOfTwo info.journalBlockCount then none
    else
      match journalInit disk info fuel mem with
      | none => none
      | some (info, mem) =>
        let super := superFields (blockRead disk info mem superblock 0)
        readRoot disk info (lookup disk info mem superblock).mem super.rootBlock

/-- The state in which a volume is left by `reiserfs_read_super`. -/
def Mounted.state (m : Mounted) : State :=
  ⟨m.mem, fun _ => 0, fun _ => 0, 0, 0, 0, 0, 0, 0, .ok⟩

/-! ### Tree nodes -/

def blkhLevel (mem : Bytes) (cache : Nat) : Nat := le mem cache 2
def blkhNrItem (mem : Bytes) (cache : Nat) : Nat := le mem (cache + 2) 2

/-- `dc_block_number(&DC(cache)[i])`. -/
def dcBlockNumber (mem : Bytes) (cache i : Nat) : Nat :=
  le mem (cache + 24 + 16 * blkhNrItem mem cache + 8 * i) 4

def Info.cache (info : Info) (depth : Nat) : Nat := depth * info.blocksize
def Info.leaf (info : Info) : Nat := info.cache 1

/-- `&ITEMHEAD[i]`. -/
def Info.itemhead (info : Info) (i : Nat) : Nat := info.leaf + 24 + 24 * i

def keyDirId (mem : Bytes) (ih : Nat) : Nat := le mem ih 4
def keyObjectid (mem : Bytes) (ih : Nat) : Nat := le mem (ih + 4) 4
def ihLocation (mem : Bytes) (ih : Nat) : Nat := le mem (ih + 20) 2

/-- `read_tree_node`: a place in the cache, or a null pointer. -/
def readTreeNode (disk : Bytes) (info : Info) (blockNr depth : Nat) (s : State) :
    Option Nat × State :=
  let s := { s with errnum := .ok }
  if depth < info.cachedSlots ∧ blockNr = s.blocks depth then (some (info.cache depth), s)
  else
    let cache := info.cache (min depth info.cachedSlots)
    let s := { s with mem := blockReadInto disk info s.mem blockNr 0 info.blocksize cache }
    if blkhLevel s.mem cache ≠ depth then (none, { s with errnum := .badFsys })
    else (some cache, { s with blocks := Function.update s.blocks depth blockNr })

/-! ### `next_key` -/

/-- The climb of `next_key` from `depth`, with so many levels above: the first
one at which the path can turn to a later child. -/
def climb (nextKeyNr : Nat → Nat) : Nat → Nat → Option Nat
  | 0, _ => none
  | above + 1, depth =>
    if nextKeyNr (depth + 1) = 0 then climb nextKeyNr above (depth + 1) else some (depth + 1)

/-- The descent of `next_key` from the node at the given depth. -/
def descend (disk : Bytes) (info : Info) : Nat → Nat → State → Bool × State
  | 0, _, s => (true, s)
  | 1, _, s => (true, s)
  | depth + 2, cache, s =>
    let nrItem := blkhNrItem s.mem cache
    let keyNr := s.nextKeyNr (depth + 2)
    let next := if keyNr = nrItem then 0 else keyNr + 1
    let s := { s with nextKeyNr := Function.update s.nextKeyNr (depth + 2) next }
    match readTreeNode disk info (dcBlockNumber s.mem cache keyNr) (depth + 1) s with
    | (none, s) => (false, s)
    | (some cache, s) => descend disk info (depth + 1) cache s

/-- Making `ih` the current item. -/
def State.arrive (info : Info) (ih : Nat) (s : State) : State :=
  { s with currentIh := ih, currentItem := info.leaf + ihLocation s.mem ih }

/-- The node from which `next_key` turns to a later child: the depth it goes on
with and the node's place. -/
def turn (disk : Bytes) (info : Info) (depth : Nat) (s : State) : Nat × Option Nat × State :=
  if depth = info.treeDepth then (depth, some 0, s)
  else if depth ≤ info.cachedSlots then (depth, some (info.cache depth), s)
  else (depth - 1, readTreeNode disk info (s.blocks depth) (depth - 1) s)

/-- `next_key`. -/
def nextKey (disk : Bytes) (info : Info) (s : State) : Bool × State :=
  let ih := s.currentIh + 24
  if ih = info.itemhead (blkhNrItem s.mem info.leaf) then
    match climb s.nextKeyNr (info.treeDepth - 1) 1 with
    | none => (true, s.arrive info (info.leaf + 8))
    | some depth =>
      match turn disk info depth s with
      | (_, none, s) => (false, s)
      | (depth, some cache, s) =>
        match descend disk info depth cache s with
        | (false, s) => (false, s)
        | (true, s) => (true, s.arrive info (info.itemhead 0))
  else (true, s.arrive info ih)

/-! ### `search_stat` -/

/-- The key at `key` lies behind the key of the stat item of an object. -/
def keyBehind (mem : Bytes) (key dirId objectid : Nat) : Bool :=
  dirId < keyDirId mem key ||
    (keyDirId mem key == dirId &&
      (objectid < keyObjectid mem key ||
        (keyObjectid mem key == objectid &&
          0 < (raw32 mem (key + 8) ||| raw32 mem (key + 12)))))

/-- The child below which an object's stat item would be. -/
def childFor (mem : Bytes) (cache dirId objectid : Nat) : Nat :=
  ((List.range (blkhNrItem mem cache)).find? fun i =>
    keyBehind mem (cache + 24 + 16 * i) dirId objectid).getD (blkhNrItem mem cache)

/-- The descent of `search_stat`. -/
def searchPath (disk : Bytes) (info : Info) (dirId objectid : Nat) :
    Nat → Nat → State → Bool × State
  | 0, _, s => (true, s)
  | 1, _, s => (true, s)
  | depth + 2, cache, s =>
    let i := childFor s.mem cache dirId objectid
    let next := if i = blkhNrItem s.mem cache then 0 else i + 1
    let s := { s with nextKeyNr := Function.update s.nextKeyNr (depth + 2) next }
    match readTreeNode disk info (dcBlockNumber s.mem cache i) (depth + 1) s with
    | (none, s) => (false, s)
    | (some cache, s) => searchPath disk info dirId objectid (depth + 1) cache s

/-- The item head at `ih` is that of an object's stat item. -/
def isStat (mem : Bytes) (ih dirId objectid : Nat) : Bool :=
  keyDirId mem ih == dirId && keyObjectid mem ih == objectid &&
    raw32 mem (ih + 8) == 0 && raw32 mem (ih + 12) == 0

/-- `search_stat`. -/
def searchStat (disk : Bytes) (info : Info) (dirId objectid : Nat) (s : State) : Bool × State :=
  match searchPath disk info dirId objectid info.treeDepth 0 { s with errnum := .ok } with
  | (false, s) => (false, s)
  | (true, s) =>
    match (List.range (blkhNrItem s.mem info.leaf)).find? fun i =>
        isStat s.mem (info.itemhead i) dirId objectid with
    | some i => (true, s.arrive info (info.itemhead i))
    | none => (false, { s with errnum := .badFsys })

end Yaboot.Reiserfs
