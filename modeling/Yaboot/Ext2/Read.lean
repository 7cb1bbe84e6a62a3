import Yaboot.Base.Buffer
import Yaboot.Base.Word

/-! Reading a file in `second/fs_ext2.c`. The fast version is a callback that
libext2fs runs over the blocks of an inode; contiguous blocks are collected in
a range and read together later. The list of calls and the value returned by
`ext2fs_block_iterate` come from the library and are parameters here. -/
namespace Yaboot.Ext2
open Buffer Word

def maxReadRange : Nat := 256

def fileIoerr : Int := -4

/-- The `errcode_t` values that reach the driver. `library` stands for any
other code of libext2fs. -/
inductive Errcode where
  | ok
  | blockAbort
  | llseekFailed
  | shortRead
  | library (code : Nat)
  deriving DecidableEq, Repr

/-- An open volume: its block size, the byte range of its partition (`dend` is
zero when unknown) and the disk behind it. `fault n` describes the `n`-th device
read of a call: a short read leaves some bytes of its own at the destination. -/
structure Volume where
  opened : Bool
  bs : Nat
  bs_pos : 0 < bs
  bs_le : bs ≤ 65536
  doff : Nat
  dend : Nat
  disk : Bytes
  fault : Nat → Option Bytes

/-- The globals of the fast version, the position of the file being read, the
caller's buffer `mem` (`readBuffer` is an offset into it) and `block_buffer`. -/
structure Reader where
  readRangeStart : Nat
  readRangeCount : Nat
  readLastLogical : Nat
  readTotal : Nat
  readMax : Nat
  readResult : Errcode
  readBuffer : Nat
  pos : Nat
  mem : Bytes
  blockBuffer : Bytes
  reads : Nat

/-- `linux_read_blk`, storing at offset `data` of `mem`. -/
def linuxReadBlk (v : Volume) (n block count : Nat) (mem : Bytes) (data : Nat) : Errcode × Bytes :=
  if count = 0 then (.ok, mem)
  else
    let tempb := block * v.bs + v.doff
    if v.dend ≠ 0 ∧ v.dend < tempb then (.llseekFailed, mem)
    else
      match v.fault n with
      | some junk => (.shortRead, blit mem data (count * v.bs) junk)
      | none => (.ok, blit mem data (count * v.bs) fun i => v.disk (tempb + i))

/-- `io_channel_read_blk` into `read_buffer`. -/
def readRange (v : Volume) (count : Nat) (s : Reader) : Reader :=
  let out := linuxReadBlk v s.reads s.readRangeStart count s.mem s.readBuffer
  { s with readResult := out.1, mem := out.2, reads := s.reads + 1 }

/-- `io_channel_read_blk` of one block into `block_buffer`. -/
def readBlock (v : Volume) (block : Nat) (s : Reader) : Reader :=
  let out := linuxReadBlk v s.reads block 1 s.blockBuffer 0
  { s with readResult := out.1, blockBuffer := out.2, reads := s.reads + 1 }

/-- The bookkeeping after `size` bytes were stored at `read_buffer`. -/
def advance (size : Nat) (s : Reader) : Reader :=
  { s with
    readBuffer := u32 (s.readBuffer + size)
    readMax := sub32 s.readMax size
    readTotal := u32 (s.readTotal + size)
    pos := u64 (s.pos + size) }

/-- The whole blocks of a range. -/
def dumpBlocks (v : Volume) (count : Nat) (s : Reader) : Bool × Reader :=
  if count = 0 then (false, s)
  else
    let size := u32 (count * v.bs)
    let s := readRange v count s
    if s.readResult ≠ .ok then (true, s)
    else
      (false,
        { advance size s with
          pos := add64 s.pos (s32 size)
          readRangeCount := sub32 s.readRangeCount count
          readRangeStart := u32 (s.readRangeStart + count)
          readLastLogical := u32 (s.readLastLogical + count) })

/-- The block of which only the first `read_max` bytes are wanted. -/
def dumpRemaining (v : Volume) (s : Reader) : Bool × Reader :=
  if s.readMax ≠ 0 ∧ s.readRangeCount ≠ 0 then
    let s := readBlock v s.readRangeStart s
    if s.readResult ≠ .ok then (true, s)
    else
      (false,
        { s with
          mem := blit s.mem s.readBuffer s.readMax s.blockBuffer
          pos := u64 (s.pos + s.readMax)
          readTotal := u32 (s.readTotal + s.readMax)
          readMax := 0 })
  else (false, s)

/-- `read_dump_range`; the flag is `BLOCK_ABORT`. -/
def readDumpRange (v : Volume) (s : Reader) : Bool × Reader :=
  let count :=
    if s.readMax < u32 (s.readRangeCount * v.bs) then s.readRangeCount - 1 else s.readRangeCount
  match dumpBlocks v count s with
  | (true, s) => (true, s)
  | (false, s) =>
    match dumpRemaining v s with
    | (true, s) => (true, s)
    | (false, s) => (s.readMax == 0, { s with readRangeCount := 0, readRangeStart := 0 })

def zeroFill (size : Nat) (s : Reader) : Reader :=
  advance size { s with mem := blit s.mem s.readBuffer size fun _ => 0 }

/-- A hole the position is in the middle of. -/
def fillPartial (v : Volume) (s : Reader) : Bool × Reader :=
  if s.pos % v.bs ≠ 0 then
    let s' := zeroFill (min (v.bs - s.pos % v.bs) s.readMax) s
    (s'.readMax == 0, { s' with readLastLogical := u32 (s.readLastLogical + 1) })
  else (false, s)

/-- The unallocated blocks up to `lgBlock`. -/
def fillGap (v : Volume) (lgBlock : Nat) (s : Reader) : Bool × Reader :=
  let nzero := u32 (sub32 lgBlock s.readLastLogical * v.bs)
  if nzero ≠ 0 then
    let s' := zeroFill (min nzero s.readMax) s
    (s'.readMax == 0, s')
  else (false, s)

def fillHole (v : Volume) (lgBlock : Nat) (s : Reader) : Bool × Reader :=
  if lgBlock ≠ 0 ∧ lgBlock ≠ s.readLastLogical then
    match fillPartial v s with
    | (true, s) => (true, s)
    | (false, s) =>
      match fillGap v lgBlock s with
      | (true, s) => (true, s)
      | (false, s) => (false, { s with readLastLogical := lgBlock })
  else (false, s)

/-- The end of `read_iterator`: an unaligned start is copied out of its block,
an aligned block starts a new range. -/
def takeBlock (v : Volume) (lgBlock blocknr : Nat) (s : Reader) : Bool × Reader :=
  if s.pos % v.bs ≠ 0 then
    let offset := s.pos % v.bs
    let s := readBlock v blocknr s
    if s.readResult ≠ .ok then (true, s)
    else
      let size := min (v.bs - offset) s.readMax
      let s := advance size
        { s with mem := blit s.mem s.readBuffer size fun i => s.blockBuffer (offset + i) }
      (s.readMax == 0, { s with readLastLogical := u32 (lgBlock + 1) })
  else if blocknr ≠ 0 then
    (decide (s.readMax ≤ v.bs), { s with readRangeStart := blocknr, readRangeCount := 1 })
  else (false, s)

/-- `read_iterator`; the flag is `BLOCK_ABORT`. -/
def readIterator (v : Volume) (lgBlock : Int) (blocknr : Nat) (s : Reader) : Bool × Reader :=
  if lgBlock < 0 then (false, s)
  else
    let lgBlock := lgBlock.toNat
    if lgBlock < s.pos / v.bs then (false, s)
    else if s.readRangeStart ≠ 0 ∧ s.readRangeCount < maxReadRange ∧
        blocknr = u32 (s.readRangeStart + s.readRangeCount) ∧
        lgBlock = u32 (s.readLastLogical + s.readRangeCount) then
      (decide (s.readMax ≤ u32 ((s.readRangeCount + 1) * v.bs)),
        { s with readRangeCount := s.readRangeCount + 1 })
    else
      match if s.readRangeStart ≠ 0 then readDumpRange v s else (false, s) with
      | (true, s) => (true, s)
      | (false, s) =>
        match fillHole v lgBlock s with
        | (true, s) => (true, s)
        | (false, s) => takeBlock v lgBlock blocknr s

/-- The calls made by `ext2fs_block_iterate`, which stops after `BLOCK_ABORT`. -/
def blockIterate (v : Volume) : List (Int × Nat) → Reader → Reader
  | [], s => s
  | (lgBlock, blocknr) :: calls, s =>
    match readIterator v lgBlock blocknr s with
    | (true, s) => s
    | (false, s) => blockIterate v calls s

/-- The state `ext2_read` starts the iteration from. -/
def beginRead (v : Volume) (pos size : Nat) (mem blockBuffer : Bytes) : Reader where
  readRangeStart := 0
  readRangeCount := 0
  readLastLogical := u32 (pos / v.bs)
  readTotal := 0
  readMax := size
  readResult := .ok
  readBuffer := 0
  pos := pos
  mem := mem
  blockBuffer := blockBuffer
  reads := 0

/-- The flush after the iteration. -/
def endRead (v : Volume) (retval : Errcode) (s : Reader) : Reader :=
  let retval := if retval = .blockAbort then s.readResult else retval
  if retval = .ok ∧ s.readRangeStart ≠ 0 then (readDumpRange v s).2 else s

/-- `ext2_read` with `FAST_VERSION`. -/
def ext2Read (v : Volume) (calls : List (Int × Nat)) (retval : Errcode) (pos size : Nat)
    (mem blockBuffer : Bytes) : Outcome :=
  if v.opened then
    let s := endRead v retval (blockIterate v calls (beginRead v pos size mem blockBuffer))
    ⟨s32 s.readTotal, s.pos, s.mem⟩
  else ⟨fileIoerr, pos, mem⟩

/-- The offset inside its block that the other version computes. -/
def blockOffset (v : Volume) (pos : Nat) : Nat := u32 (sub64 pos (u32 (u32 (pos / v.bs) * v.bs)))

theorem blockOffset_eq (v : Volume) (pos : Nat) : blockOffset v pos = pos % v.bs := by
  have split := Nat.div_add_mod pos v.bs
  have small := Nat.mod_lt pos v.bs_pos
  have limit := v.bs_le
  have wrapped : u32 (u32 (pos / v.bs) * v.bs) = pos / v.bs * v.bs % 2 ^ 32 := by
    simp [u32, Nat.mul_mod]
  have product : pos / v.bs * v.bs = v.bs * (pos / v.bs) := Nat.mul_comm _ _
  rw [blockOffset, wrapped]
  simp only [u32, sub64]
  omega

/-- The loop of the version without `FAST_VERSION`. `bmap` is `ext2fs_bmap`,
`none` being a non-zero status. -/
def readBlocks (v : Volume) (bmap : Nat → Option Nat) (n pos size read : Nat)
    (mem blockBuffer : Bytes) : Outcome :=
  if size = 0 then ⟨s32 read, pos, mem⟩
  else
    match bmap (u32 (pos / v.bs)) with
    | none => ⟨s32 read, pos, mem⟩
    | some pblock =>
      let b := blockOffset v pos
      let s := min size (v.bs - b)
      if pblock ≠ 0 then
        match v.fault n with
        | some _ => ⟨s32 read, pos, mem⟩
        | none =>
          let blockBuffer := blit blockBuffer 0 v.bs fun i => v.disk (pblock * v.bs + v.doff + i)
          readBlocks v bmap (n + 1) (u64 (pos + s)) (size - s) (u32 (read + s))
            (blit mem (u32 read) s fun i => blockBuffer (b + i)) blockBuffer
      else
        let blockBuffer := blit blockBuffer 0 v.bs fun _ => 0
        readBlocks v bmap n (u64 (pos + s)) (size - s) (u32 (read + s))
          (blit mem (u32 read) s fun i => blockBuffer (b + i)) blockBuffer
termination_by size
decreasing_by
  all_goals
    have inside := Nat.mod_lt pos v.bs_pos
    have offset := blockOffset_eq v pos
    omega

/-- `ext2_read` without `FAST_VERSION`. -/
def ext2ReadBmap (v : Volume) (bmap : Nat → Option Nat) (pos size : Nat) (mem blockBuffer : Bytes) :
    Outcome :=
  if v.opened then readBlocks v bmap 0 pos size 0 mem blockBuffer else ⟨fileIoerr, pos, mem⟩

end Yaboot.Ext2
