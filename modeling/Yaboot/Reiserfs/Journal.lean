import Yaboot.Base.Buffer
import Yaboot.Base.CString
import Yaboot.Base.Word

/-! Block reads of `second/fs_reiserfs.c`. The processor is big-endian and the
volume little-endian. Memory is addressed from the start of `FSYS_BUF`; what the
linker puts behind the buffer follows it. Device reads succeed. -/
namespace Yaboot.Reiserfs
open Buffer CString Word

/-- A little-endian number of `n` bytes, as `le32_to_cpu` and its like give it. -/
def le (b : Bytes) (at_ : Nat) : Nat → Nat
  | 0 => 0
  | n + 1 => le b (at_ + 1) n * 256 + (b at_).toNat

/-- A word as the processor loads it. -/
def raw32 (b : Bytes) (at_ : Nat) : Nat :=
  (((b at_).toNat * 256 + (b (at_ + 1)).toNat) * 256 + (b (at_ + 2)).toNat) * 256 +
    (b (at_ + 3)).toNat

/-- The bytes of a word as the processor stores it. -/
def storeRaw32 (mem : Bytes) (at_ n : Nat) : Bytes :=
  blit mem at_ 4 fun i => UInt8.ofNat (n / 256 ^ (3 - i))

/-- `strcmp(s, b + at) == 0` for a string literal. -/
def strcmpAt (s : CStr) (b : Bytes) (at_ : Nat) : Bool :=
  (List.range (s.length + 1)).map (fun i => b (at_ + i)) == s ++ [0]

def maxTreeHeight : Nat := 7
def oldBlocksize : Nat := 4096
def fsysreiserCacheSize : Nat := maxTreeHeight * oldBlocksize

/-- `sizeof(FSYS_BUF)`. -/
def fsysBufSize : Nat := fsysreiserCacheSize

def journalStart : Nat := fsysreiserCacheSize
def journalEnd : Nat := fsysBufSize

def journalTransHalf : Nat := 1018

/-- The part of `struct reiserfs_state` that is fixed once the volume is open. -/
structure Info where
  partitionOffset : Nat := 0
  journalBlock : Nat := 0
  journalBlockCount : Nat := 0
  journalFirstDesc : Nat := 0
  version : Nat := 0
  treeDepth : Nat := 0
  blocksizeShift : Nat := 0
  blocksize : Nat := 0
  cachedSlots : Nat := 0
  journalTransactions : Nat := 0
  deriving DecidableEq, Repr

/-- `read_disk_block`. -/
def readDiskBlock (disk : Bytes) (info : Info) (block start : Nat) : Bytes :=
  let fsBlocksize := if info.blocksize = 0 then oldBlocksize else info.blocksize
  fun i => disk (block * fsBlocksize + info.partitionOffset + start + i)

/-- `journal_read`. -/
def journalRead (disk : Bytes) (info : Info) (block : Nat) : Bytes :=
  readDiskBlock disk info (u32 (info.journalBlock + block)) 0

def Info.journalMask (info : Info) : Nat := sub32 info.journalBlockCount 1

/-! ### Fields of the descriptor and commit blocks -/

def transId (block : Bytes) : Nat := raw32 block 0
def jLen (block : Bytes) : Nat := le block 4 4
def mountId (desc : Bytes) : Nat := raw32 desc 8
def descMagic (desc : Bytes) : Bool := strcmpAt (cstr "ReIsErLB") desc 4084

/-- The commit block of a transaction. -/
def commitBlock (info : Info) (descBlock len : Nat) : Nat :=
  u32 (descBlock + 1 + len) &&& info.journalMask

/-! ### `block_read` -/

/-- The variables of `block_read`, and the addresses it read words from. -/
structure Lookup where
  journalTable : Nat
  descBlock : Nat
  translatedNr : Nat
  mem : Bytes
  touched : List Nat

/-- `swab32` is a macro with four uses of its argument. Where the argument has a
side effect the four values differ; they are taken from left to right. -/
def swab32 (a b c d : Nat) : Nat :=
  ((a &&& 0xff) <<< 24) ||| ((b &&& 0xff00) <<< 8) ||| ((c &&& 0xff0000) >>> 8) |||
    ((d &&& 0xff000000) >>> 24)

/-- `le32_to_cpu(word[i++])`. -/
def le32Next (word : Nat → Nat) (i : Nat) : Nat :=
  swab32 (word i) (word (i + 1)) (word (i + 2)) (word (i + 3))

/-- The loop over the words of a cached transaction with `left` rounds to go and
`i` done: the table pointer, the count when the block was found, the words read. -/
def scanCached (mem : Bytes) (blockNr : Nat) : Nat → Nat → Nat → Nat × Option Nat × List Nat
  | 0, _, table => (table, none, [])
  | left + 1, i, table =>
    let words := [table, table + 4, table + 8, table + 12]
    if le32Next (fun k => raw32 mem (table + 4 * k)) 0 = blockNr then
      (table + 16 + 4 * left, some (i + 1), words)
    else
      let (rest, found, touched) := scanCached mem blockNr left (i + 1) (table + 16)
      (rest, found, words ++ touched)

/-- A loop over the real blocks of a transaction from the `i`th on: the index
after it, and whether the block was found. -/
def scanRealblocks (word : Nat → Nat) (blockNr limit i : Nat) : Nat × Bool :=
  if i < limit then
    if le32Next word i = blockNr then (i + 4, true) else scanRealblocks word blockNr limit (i + 4)
  else (i, false)
termination_by limit - i

/-- The loops over the descriptor and the commit block of a transaction. -/
def scanDisk (disk : Bytes) (info : Info) (blockNr descBlock : Nat) : Option Nat :=
  let desc := journalRead disk info descBlock
  let len := (s32 (jLen desc)).toNat
  let (i, found) :=
    scanRealblocks (fun k => raw32 desc (12 + 4 * k)) blockNr (min len journalTransHalf) 0
  if found then some i
  else if journalTransHalf ≤ len then
    let commit := journalRead disk info (commitBlock info descBlock (jLen desc))
    let (i, found) := scanRealblocks (fun k => raw32 commit (8 + 4 * (k - journalTransHalf)))
      blockNr len i
    if found then some i else none
  else none

/-- What is left of a round once the block was or was not found. -/
def Lookup.advance (info : Info) (l : Lookup) (len : Nat) (found : Option Nat) : Lookup :=
  { l with
    translatedNr :=
      match found with
      | some i => u32 (info.journalBlock + (u32 (l.descBlock + i) &&& info.journalMask))
      | none => l.translatedNr
    descBlock := u32 (l.descBlock + 2 + len) &&& info.journalMask }

/-- A round of the loop over the transactions. `(*journal_table)++` counts up the
word, four times, and leaves the pointer where it is. -/
def lookupStep (disk : Bytes) (info : Info) (blockNr : Nat) (l : Lookup) : Lookup :=
  let word := raw32 l.mem l.journalTable
  let l := { l with touched := l.touched ++ [l.journalTable] }
  if word ≠ 2 ^ 32 - 1 then
    let len := le32Next (fun k => u32 (word + k)) 0
    let mem := storeRaw32 l.mem l.journalTable (u32 (word + 4))
    let (table, found, touched) := scanCached mem blockNr (s32 len).toNat 0 l.journalTable
    Lookup.advance info
      { l with journalTable := table, mem := mem, touched := l.touched ++ touched } len found
  else
    Lookup.advance info l (jLen (journalRead disk info l.descBlock))
      (scanDisk disk info blockNr l.descBlock)

/-- The loop of `block_read` over the given number of transactions. -/
def lookupLoop (disk : Bytes) (info : Info) (blockNr : Nat) : Nat → Lookup → Lookup
  | 0, l => l
  | transactions + 1, l =>
    lookupLoop disk info blockNr transactions (lookupStep disk info blockNr l)

/-- The search of `block_read` for the block to read. -/
def lookup (disk : Bytes) (info : Info) (mem : Bytes) (blockNr : Nat) : Lookup :=
  lookupLoop disk info blockNr info.journalTransactions
    ⟨journalStart, info.journalFirstDesc, blockNr, mem, []⟩

/-- `block_read` into another place than `FSYS_BUF`: the bytes it delivers. -/
def blockRead (disk : Bytes) (info : Info) (mem : Bytes) (blockNr start : Nat) : Bytes :=
  readDiskBlock disk info (lookup disk info mem blockNr).translatedNr start

/-- `block_read` into `FSYS_BUF`. -/
def blockReadInto (disk : Bytes) (info : Info) (mem : Bytes) (blockNr start len dest : Nat) :
    Bytes :=
  blit (lookup disk info mem blockNr).mem dest len (blockRead disk info mem blockNr start)

/-! ### `journal_init` -/

structure Init where
  descBlock : Nat
  nextTransId : Nat
  journalTable : Nat
  mem : Bytes

/-- Storing words one after the other. -/
def storeAll (mem : Bytes) (at_ : Nat) : List Nat → Bytes
  | [] => mem
  | word :: words => storeAll (storeRaw32 mem at_ word) (at_ + 4) words

/-- Entering a valid transaction into the table. The words are copied as they
are on the volume. -/
def cacheTransaction (desc commit : Bytes) (s : Init) : Init :=
  if s.journalTable < journalEnd then
    if journalEnd ≤ s.journalTable + 4 * (1 + jLen desc) then
      { s with mem := storeRaw32 s.mem s.journalTable (2 ^ 32 - 1), journalTable := journalEnd }
    else
      let words := (List.range (jLen desc)).map fun i =>
        if i < journalTransHalf then raw32 desc (12 + 4 * i)
        else raw32 commit (8 + 4 * (i - journalTransHalf))
      { s with
        mem := storeAll s.mem s.journalTable (raw32 desc 4 :: words)
        journalTable := s.journalTable + 4 * (1 + jLen desc) }
  else s

/-- The descriptor block holds a transaction that was committed and not flushed.
The identifier is compared as the processor loads it. -/
def valid (disk : Bytes) (info : Info) (header : Bytes) (descBlock nextTransId : Nat) : Bool :=
  let desc := journalRead disk info descBlock
  let commit := journalRead disk info (commitBlock info descBlock (jLen desc))
  descMagic desc && transId desc == nextTransId && mountId desc == raw32 header 8 &&
    transId desc == transId commit && raw32 desc 4 == raw32 commit 4

/-- The loop of `journal_init`, given up after `fuel` rounds. -/
def journalLoop (disk : Bytes) (info : Info) (header : Bytes) : Nat → Init → Option Init
  | 0, _ => none
  | fuel + 1, s =>
    if valid disk info header s.descBlock s.nextTransId then
      let desc := journalRead disk info s.descBlock
      let commitAt := commitBlock info s.descBlock (jLen desc)
      let s := cacheTransaction desc (journalRead disk info commitAt)
        { s with nextTransId := u32 (s.nextTransId + 1) }
      journalLoop disk info header fuel
        { s with descBlock := u32 (commitAt + 1) &&& info.journalMask }
    else some s

/-- `journal_init`: the state it leaves behind. -/
def journalInit (disk : Bytes) (info : Info) (fuel : Nat) (mem : Bytes) : Option (Info × Bytes) :=
  let header := journalRead disk info info.journalBlockCount
  let descBlock := le header 4 4
  let lastFlushed := le header 0 4
  if info.journalBlockCount ≤ descBlock then some (info, mem)
  else
    (journalLoop disk info header fuel ⟨descBlock, u32 (lastFlushed + 1), journalStart, mem⟩).map
      fun s => ({ info with
        journalFirstDesc := descBlock
        journalTransactions := u16 (sub32 (sub32 s.nextTransId lastFlushed) 1) }, s.mem)

end Yaboot.Reiserfs
