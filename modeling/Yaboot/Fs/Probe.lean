import Yaboot.Base.Buffer
import Yaboot.Base.CString
import Yaboot.Base.Word

/-! Finding the driver for a file: `fs_open` of `second/fs.c`, the `open` entries
of the drivers and `open_file` of `second/file.c`. What the firmware, libext2fs
and the inner routines of the drivers answer is a parameter. -/
namespace Yaboot.Fs
open Buffer CString Word

/-- The codes of `errors.h`. -/
inductive FileErr where
  | ok
  | eof
  | notFound
  | cantSeek
  | ioErr
  | badPath
  | badType
  | notDir
  | badFsys
  | symlinkLoop
  | length
  | fsBusy
  | badDev
  | noMem
  deriving DecidableEq, Repr

def FileErr.code : FileErr → Int
  | .ok => 0
  | .eof => -1
  | .notFound => -2
  | .cantSeek => -3
  | .ioErr => -4
  | .badPath => -5
  | .badType => -6
  | .notDir => -7
  | .badFsys => -8
  | .symlinkLoop => -9
  | .length => -10
  | .fsBusy => -11
  | .badDev => -12
  | .noMem => -13

inductive DeviceKind where
  | block
  | net
  | iscsi
  deriving DecidableEq, Repr

/-- What `prom_open` returns: `NULL`, `PROM_INVALID_HANDLE` or an open device. -/
inductive Handle where
  | null
  | invalid
  | device (id : Nat)
  deriving DecidableEq, Repr

/-- `struct partition_t`. -/
structure Partition where
  partNumber : Nat
  partStart : Nat
  partSize : Nat
  blocksize : Nat
  sysInd : Nat
  deriving DecidableEq, Repr

/-- The fields of `struct boot_fspec_t` a local file is opened by. -/
structure Fspec where
  dev : CStr
  part : Int
  file : Option CStr
  deriving DecidableEq, Repr

/-- What `ext2fs_namei_follow` returns, as far as the driver tells it apart. -/
inductive Namei where
  | found
  | symlinkLoop
  | fileNotFound
  | other
  deriving DecidableEq, Repr

/-- The answers the drivers get. `low` is what address zero holds where a
partition is expected. -/
structure World where
  bplan : Bool
  promOpen : CStr → Handle
  malloc : Nat → Bool
  heap : Bytes
  /-- The buffer after `prom_readblocks`, whether or not it succeeded. -/
  readblocks : Handle → Nat → Bytes → Bytes
  /-- The block size of the volume `ext2fs_open` finds. -/
  ext2fsOpen : Handle → Nat → Nat → Option Nat
  nameiFollow : Handle → Nat → Option CStr → Namei
  xfsMount : Handle → Nat → Bool
  /-- Whether the routine succeeds, and `errnum`. -/
  xfsDir : Handle → Nat → Option CStr → Bool × FileErr
  reiserfsReadSuper : Handle → Nat → Bool
  reiserfsOpenFile : Handle → Nat → Option CStr → Bool × FileErr
  low : Partition
  partitionsLookup : CStr → List Partition
  devtype : CStr → Except FileErr DeviceKind
  netOpen : Fspec → FileErr

/-- The file being opened, and `opened` of the ext2 driver. -/
structure File where
  deviceKind : DeviceKind
  ofDevice : Handle
  pos : Nat
  opened : Bool
  deriving DecidableEq, Repr

/-- The name of the whole disk: partition 0, except on bplan machines. -/
def World.wholeDisk (w : World) (fspec : Fspec) : CStr :=
  if w.bplan then fspec.dev.take 1020 else fspec.dev.take 1020 ++ cstr ":0"

/-! ### `swap_open` -/

/-- The table `signatures`: magic and offset. -/
def signatures : List (CStr × Nat) :=
  [(cstr "SWAP-SPACE", 0xff6), (cstr "SWAPSPACE2", 0xff6),
   (cstr "SWAP-SPACE", 0xfff6), (cstr "SWAPSPACE2", 0xfff6)]

def memcmpEq (mem : Bytes) (at_ : Nat) (magic : CStr) : Bool :=
  (List.range magic.length).map (fun i => mem (at_ + i)) == magic

/-- The loop over the signatures: whether one was found. -/
def findSignature (w : World) (h : Handle) (p : Partition) : List (CStr × Nat) → Bytes → Bool
  | [], _ => false
  | (magic, offset) :: rest, buffer =>
    let buffer := w.readblocks h (u32 (p.partStart + offset / p.blocksize)) buffer
    memcmpEq buffer (offset % p.blocksize) magic || findSignature w h p rest buffer

def swapOpen (w : World) (part : Option Partition) (fspec : Fspec) (file : File) : FileErr × File :=
  match part with
  | none => (.badDev, file)
  | some p =>
    if file.deviceKind ≠ .block then (.badDev, file)
    else
      let file := { file with ofDevice := w.promOpen (w.wholeDisk fspec) }
      if file.ofDevice = .null then (.ioErr, file)
      else if !w.malloc (p.blocksize * 2) then (.noMem, file)
      else if findSignature w file.ofDevice p signatures w.heap then (.notFound, file)
      else (.badFsys, { file with ofDevice := .null })

/-! ### The drivers behind it -/

/-- The byte offset of a partition. -/
def Partition.offset (p : Partition) : Nat := u64 (p.partStart * p.blocksize)

/-- The byte offset behind a partition. -/
def Partition.behind (p : Partition) : Nat := u64 (p.offset + p.partSize * p.blocksize)

def ext2Open (w : World) (part : Option Partition) (fspec : Fspec) (file : File) : FileErr × File :=
  if file.opened then (.fsBusy, file)
  else if file.deviceKind ≠ .block ∧ file.deviceKind ≠ .iscsi then (.badDev, file)
  else
    let doff := (part.map Partition.offset).getD 0
    let dend := (part.map Partition.behind).getD 0
    let file := { file with ofDevice := w.promOpen (w.wholeDisk fspec) }
    if file.ofDevice = .invalid then (.ioErr, file)
    else
      match w.ext2fsOpen file.ofDevice doff dend with
      | none => (.badFsys, file)
      | some blocksize =>
        if !w.malloc (blocksize * 2) then (.ioErr, file)
        else
          match w.nameiFollow file.ofDevice doff fspec.file with
          | .symlinkLoop => (.symlinkLoop, file)
          | .fileNotFound => (.notFound, file)
          | .other => (.ioErr, file)
          | .found => (.ok, { file with pos := 0, opened := true })

/-- What `xfs_open` and `reiserfs_open` have in common: the device, the volume
at an offset of it, and the file. -/
def openAt (w : World) (fspec : Fspec) (offset : Nat) (mount : Handle → Nat → Bool)
    (openFile : Handle → Nat → Option CStr → Bool × FileErr) (file : File) : FileErr × File :=
  let file := { file with ofDevice := w.promOpen (w.wholeDisk fspec) }
  if file.ofDevice = .invalid ∨ file.ofDevice = .null then (.badDev, file)
  else if !mount file.ofDevice offset then (.badFsys, file)
  else
    let (success, errnum) := openFile file.ofDevice offset fspec.file
    if success then (.ok, { file with pos := 0 }) else (errnum, file)

def xfsOpen (w : World) (part : Option Partition) (fspec : Fspec) : File → FileErr × File :=
  openAt w fspec ((part.map Partition.offset).getD 0) w.xfsMount w.xfsDir

/-- The offset is asked of the partition when `fspec` names one, even where there
is none. -/
def reiserfsOpen (w : World) (part : Option Partition) (fspec : Fspec) : File → FileErr × File :=
  openAt w fspec (if fspec.part ≠ 0 then (part.getD w.low).offset else 0) w.reiserfsReadSuper
    w.reiserfsOpenFile

def linuxNative : Nat := 0x83
def linuxRaid : Nat := 0xfd

/-- `sprintf(pn, "%02d", n)`. -/
def twoDigits (n : Nat) : CStr :=
  let digits := (Nat.toDigits 10 n).map fun c => UInt8.ofNat c.toNat
  List.replicate (2 - digits.length) 48 ++ digits

/-- The path `of_open` hands to the firmware. -/
def ofPath (part : Option Partition) (fspec : Fspec) : CStr :=
  let file := fspec.file.getD []
  fspec.dev.take 768 ++ cstr ":" ++ (part.map fun p => twoDigits p.partNumber).getD [] ++
    (if file ≠ [] ∧ part.isSome then cstr "," else []) ++
    file.map fun c => if c = 47 then 92 else c

def ofOpen (w : World) (part : Option Partition) (fspec : Fspec) (file : File) : FileErr × File :=
  if part.any fun p => p.sysInd == linuxRaid || p.sysInd == linuxNative then (.badFsys, file)
  else
    let file := { file with ofDevice := w.promOpen (ofPath part fspec), pos := 0 }
    if file.ofDevice = .invalid ∨ file.ofDevice = .null then (.badFsys, file) else (.ok, file)

/-! ### `fs_open` -/

inductive Driver where
  | swap
  | ext2
  | xfs
  | reiserfs
  | of
  deriving DecidableEq, Repr

def Driver.open_ (w : World) (part : Option Partition) (fspec : Fspec) :
    Driver → File → FileErr × File
  | .swap => swapOpen w part fspec
  | .ext2 => ext2Open w part fspec
  | .xfs => xfsOpen w part fspec
  | .reiserfs => reiserfsOpen w part fspec
  | .of => ofOpen w part fspec

/-- The driver `fs_open` returns, `fserrorno`, and the file. -/
structure Probed where
  driver : Option Driver
  fserrorno : FileErr
  file : File
  deriving DecidableEq, Repr

/-- The loop over a table of drivers. -/
def probe (w : World) (part : Option Partition) (fspec : Fspec) :
    List Driver → FileErr → File → Probed
  | [], fserrorno, file => ⟨none, fserrorno, file⟩
  | fs :: rest, _, file =>
    let opened := fs.open_ w part fspec file
    if opened.1 ≠ .badFsys then ⟨some fs, opened.1, opened.2⟩
    else probe w part fspec rest .badFsys opened.2

/-- The drivers that can open a file. -/
def fileDrivers : List Driver := [.ext2, .xfs, .reiserfs, .of]

def blockFilesystems : List Driver := .swap :: fileDrivers

def fsOpen (w : World) (part : Option Partition) (fspec : Fspec) (file : File) : Probed :=
  probe w part fspec blockFilesystems .ok file

/-! ### `open_file` -/

/-- The loop of `file_block_open` over the partitions: a file opened on the way,
or the partition asked for and the file as it is then. -/
def scanPartitions (w : World) (fspec : Fspec) (partition : Int) :
    List Partition → File → Probed ⊕ (Option Partition × File)
  | [], file => .inr (none, file)
  | p :: rest, file =>
    if partition = -1 then
      let probed := fsOpen w (some p) fspec file
      if probed.driver.isNone ∨ probed.fserrorno ≠ .ok then
        scanPartitions w fspec partition rest probed.file
      else .inl probed
    else if partition = p.partNumber then .inr (some p, file)
    else scanPartitions w fspec partition rest file

def fileBlockOpen (w : World) (fspec : Fspec) (partition : Int) (file : File) : Probed :=
  match scanPartitions w fspec partition (w.partitionsLookup fspec.dev) file with
  | .inl probed => probed
  | .inr (found, file) => fsOpen w found fspec file

/-- `open_file`: its result. -/
def openFile (w : World) (fspec : Fspec) (file : File) : FileErr :=
  match w.devtype fspec.dev with
  | .error e => e
  | .ok .block => (fileBlockOpen w fspec fspec.part { file with deviceKind := .block }).fserrorno
  | .ok .iscsi => (fileBlockOpen w fspec fspec.part { file with deviceKind := .iscsi }).fserrorno
  | .ok .net => w.netOpen fspec

end Yaboot.Fs
