import Yaboot.Reiserfs.Tree

/-! Reading and opening files in `second/fs_reiserfs.c`. -/
namespace Yaboot.Reiserfs
open Buffer CString Word

/-! ### Item heads -/

def ihEntryCount (mem : Bytes) (ih : Nat) : Nat := le mem (ih + 16) 2
def ihItemLen (mem : Bytes) (ih : Nat) : Nat := le mem (ih + 18) 2
def ihVersion (mem : Bytes) (ih : Nat) : Nat := le mem (ih + 22) 2

/-- The key of an item head is of the old format. -/
def oldKey (info : Info) (mem : Bytes) (ih : Nat) : Bool :=
  info.version < 2 || ihVersion mem ih == 0

/-- `IH_KEY_OFFSET`. -/
def ihKeyOffset (info : Info) (mem : Bytes) (ih : Nat) : Nat :=
  if oldKey info mem ih then le mem (ih + 8) 4 else le mem (ih + 8) 8 % 2 ^ 60

/-- `IH_KEY_ISTYPE`, for a type with the given old and new codes. -/
def ihKeyIstype (info : Info) (mem : Bytes) (ih v1 v2 : Nat) : Bool :=
  if oldKey info mem ih then le mem (ih + 12) 4 == v1 else le mem (ih + 8) 8 / 2 ^ 60 == v2

def isDirect (info : Info) (mem : Bytes) (ih : Nat) : Bool := ihKeyIstype info mem ih 0xffffffff 2
def isIndirect (info : Info) (mem : Bytes) (ih : Nat) : Bool := ihKeyIstype info mem ih 0xfffffffe 1

/-! ### `reiserfs_read_data` -/

/-- The state of a read: `buf - prev_buf`, the length left, and the caller's memory. -/
structure Transfer where
  s : State
  count : Nat
  left : Nat
  out : Bytes

/-- Handing over bytes, with the changes at `update_buf_len`. -/
def Transfer.deliver (t : Transfer) (n : Nat) (src : Bytes) : Transfer where
  s := { t.s with pos := u64 (t.s.pos + n) }
  count := t.count + n
  left := sub32 t.left n
  out := blit t.out t.count n src

/-- The loop over the blocks of an indirect item: whether nothing is left to
read. There are no more rounds than bytes. -/
def readBlocks (disk : Bytes) (info : Info) (blocksize : Nat) :
    Nat → Nat → Transfer → Bool × Transfer
  | 0, _, t => (false, t)
  | rounds + 1, offset, t =>
    if offset < blocksize then
      let blocknr := le t.s.mem (t.s.currentItem + 4 * (offset >>> info.blocksizeShift)) 4
      let blkOffset := offset &&& (info.blocksize - 1)
      let toRead := min (info.blocksize - blkOffset) t.left
      let t := t.deliver toRead (readDiskBlock disk info blocknr blkOffset)
      if t.left = 0 then (true, t) else readBlocks disk info blocksize rounds (offset + toRead) t
    else (false, t)

/-- The part of a round that reads from the current item. -/
def readItem (disk : Bytes) (info : Info) (t : Transfer) : Bool × Transfer :=
  let mem := t.s.mem
  let ih := t.s.currentIh
  let offset := u32 (sub64 (t.s.pos + 1) (ihKeyOffset info mem ih))
  let len := ihItemLen mem ih
  if isDirect info mem ih && decide (offset < len) then
    let toRead := min (len - offset) t.left
    let t := t.deliver toRead fun i => mem (t.s.currentItem + offset + i)
    (t.left == 0, t)
  else if isIndirect info mem ih then
    let blocksize := u32 ((len >>> 2) <<< info.blocksizeShift)
    readBlocks disk info blocksize (blocksize - offset) offset t
  else (false, t)

/-- The loop of `reiserfs_read_data`, given up after `fuel` rounds. -/
def readLoop (disk : Bytes) (info : Info) : Nat → Transfer → Option Transfer
  | 0, _ => none
  | fuel + 1, t =>
    if t.s.errnum ≠ .ok then some t
    else if keyObjectid t.s.mem t.s.currentIh ≠ t.s.fileObjectid then some t
    else
      match readItem disk info t with
      | (true, t) => some t
      | (false, t) => readLoop disk info fuel { t with s := (nextKey disk info t.s).2 }

/-- `reiserfs_read_data`: the value returned, the state, the caller's memory. -/
def reiserfsReadData (disk : Bytes) (info : Info) (fuel : Nat) (s : State) (len : Nat) (out : Bytes) :
    Option (Int × State × Bytes) :=
  let s := { s with errnum := .ok }
  let s :=
    if keyObjectid s.mem s.currentIh ≠ s.fileObjectid ∨
        s.pos + 1 < ihKeyOffset info s.mem s.currentIh then
      (nextKey disk info (searchStat disk info s.fileDirId s.fileObjectid s).2).2
    else s
  (readLoop disk info fuel ⟨s, 0, len, out⟩).map fun t =>
    (if t.s.errnum ≠ .ok then 0 else s32 t.count, t.s, t.out)

/-- `reiserfs_seek`. -/
def reiserfsSeek (s : State) (newpos : Nat) : State := { s with pos := newpos }

/-! ### `reiserfs_open_file` -/

def maxLinkCount : Nat := 5
def pathMax : Nat := 1024

def sdMode (mem : Bytes) (item : Nat) : Nat := le mem item 2

/-- `sd_size`: the field is where it was, and wider in the new format. -/
def sdSize (mem : Bytes) (ih item : Nat) : Nat :=
  if ihVersion mem ih = 1 then le mem (item + 8) 8 else le mem (item + 8) 4

def sIsLnk (mode : Nat) : Bool := mode &&& 0o170000 == 0o120000
def sIsReg (mode : Nat) : Bool := mode &&& 0o170000 == 0o100000
def sIsDir (mode : Nat) : Bool := mode &&& 0o170000 == 0o040000

/-- The loop over the entries of a directory item, from the given one on: the
head of the entry with the given name. A zero stands behind the name meanwhile. -/
def scanEntries (mem : Bytes) (item : Nat) (name : CStr) : Nat → Nat → Nat → Option Nat
  | 0, _, _ => none
  | entries + 1, deHead, nameEnd =>
    let filename := item + le mem (deHead + 12) 2
    let visible := (le mem (deHead + 14) 2).testBit 2
    if visible && strcmpAt name (Function.update mem nameEnd 0) filename then some deHead
    else scanEntries mem item name entries (deHead + 16) filename

/-- How the loop over the items of a directory ends. -/
inductive Scan where
  | failed
  | missing
  | found (dirId objectid : Nat)
  deriving DecidableEq, Repr

/-- The loop over the items of a directory, given up after `fuel` rounds. -/
def scanDir (disk : Bytes) (info : Info) (objectid : Nat) (name : CStr) :
    Nat → State → Option (Scan × State)
  | 0, _ => none
  | fuel + 1, s =>
    match nextKey disk info s with
    | (false, s) => some (.failed, s)
    | (true, s) =>
      if keyObjectid s.mem s.currentIh ≠ objectid then some (.missing, s)
      else
        match scanEntries s.mem s.currentItem name (ihEntryCount s.mem s.currentIh) s.currentItem
            (s.currentItem + ihItemLen s.mem s.currentIh) with
        | some deHead => some (.found (le s.mem (deHead + 4) 4) (le s.mem (deHead + 8) 4), s)
        | none => scanDir disk info objectid name fuel s

/-- The variables of `reiserfs_open_file`. `dirname` is the string its pointer
designates, in the caller's memory or in `linkbuf`. -/
structure Opening where
  s : State
  dirId : Nat
  objectid : Nat
  parentDirId : Nat
  parentObjectid : Nat
  linkCount : Nat
  linkbuf : Bytes
  dirname : CStr

/-- Leaving with an error. -/
def State.fail (s : State) (errnum : Errnum) : Bool × State := (false, { s with errnum := errnum })

/-- Chasing the link whose stat item is current. -/
def chase (disk : Bytes) (info : Info) (fuel : Nat) (o : Opening) : Option (Except State Opening) :=
  if maxLinkCount < o.linkCount + 1 then some (.error { o.s with errnum := .symlinkLoop })
  else
    let size := sdSize o.s.mem o.s.currentIh o.s.currentItem
    let s := { o.s with len := size }
    let rest := (o.dirname.takeWhile fun c => !isspace c).length
    if pathMax - 1 < size + rest then some (.error { s with errnum := .length })
    else
      let linkbuf := blit o.linkbuf size (rest + 1) fun i => o.dirname.getD i 0
      let s := { s with fileDirId := o.dirId, fileObjectid := o.objectid, pos := 0 }
      match nextKey disk info s with
      | (false, s) => some (.error { s with errnum := .ioErr })
      | (true, s) =>
        (reiserfsReadData disk info fuel s size linkbuf).map fun (returned, s, linkbuf) =>
          if returned ≠ size then .error { s with errnum := .ioErr }
          else
            let dirname := ((List.range pathMax).map linkbuf).takeWhile (· != 0)
            let absolute := dirname.head? = some 47
            .ok { o with
              s := s
              linkCount := o.linkCount + 1
              linkbuf := linkbuf
              dirname := dirname
              dirId := if absolute then 1 else o.parentDirId
              objectid := if absolute then 2 else o.parentObjectid }

/-- The loop of `reiserfs_open_file`, given up after `fuel` rounds. -/
def openLoop (disk : Bytes) (info : Info) : Nat → Opening → Option (Bool × State)
  | 0, _ => none
  | fuel + 1, o =>
    match searchStat disk info o.dirId o.objectid o.s with
    | (false, s) => some (false, s)
    | (true, s) =>
      let mode := sdMode s.mem s.currentItem
      if sIsLnk mode then
        match chase disk info fuel { o with s := s } with
        | none => none
        | some (.error s) => some (false, s)
        | some (.ok o) => openLoop disk info fuel o
      else if o.dirname = [] ∨ isspace (o.dirname.headD 0) = true then
        if sIsReg mode then
          some (nextKey disk info { s with
            pos := 0
            len := sdSize s.mem s.currentIh s.currentItem
            fileDirId := o.dirId
            fileObjectid := o.objectid })
        else some (s.fail .badType)
      else
        let dirname := o.dirname.dropWhile (· == 47)
        if sIsDir mode then
          let name := dirname.takeWhile fun c => !isspace c && c != 47
          match scanDir disk info o.objectid name fuel s with
          | none => none
          | some (.failed, s) => some (false, s)
          | some (.missing, s) => some (s.fail .notFound)
          | some (.found dirId objectid, s) =>
            openLoop disk info fuel { o with
              s := s
              dirname := dirname.drop name.length
              parentDirId := o.dirId
              parentObjectid := o.objectid
              dirId := dirId
              objectid := objectid }
        else some (s.fail .notDir)

/-- `reiserfs_open_file`; `linkbuf` is not initialised. -/
def reiserfsOpenFile (disk : Bytes) (info : Info) (fuel : Nat) (s : State) (linkbuf : Bytes)
    (dirname : CStr) : Option (Bool × State) :=
  openLoop disk info fuel ⟨{ s with errnum := .ok }, 1, 2, 0, 0, 0, linkbuf, dirname⟩

end Yaboot.Reiserfs
