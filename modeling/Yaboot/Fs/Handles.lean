import Yaboot.Fs.Probe

/-! `open_file` again, with the calls of `prom_open` and `prom_close` it makes on
the way. What the firmware and the volumes answer may depend on the calls made
before. -/
namespace Yaboot.Fs.Handles
open Buffer CString Word

inductive DeviceCall where
  | opened (h : Handle)
  | closed (h : Handle)
  deriving DecidableEq, Repr

abbrev Log := List DeviceCall

/-- The world after some calls. -/
abbrev History := Log → World

/-- The file being opened, and the calls made so far. -/
structure Traced where
  file : File
  log : Log
  deriving DecidableEq, Repr

def Traced.now (w : History) (t : Traced) : World := w t.log

/-- `file->of_device = prom_open(name)`. -/
def Traced.promOpen (w : History) (name : CStr) (t : Traced) : Traced :=
  let h := (t.now w).promOpen name
  ⟨{ t.file with ofDevice := h }, t.log ++ [.opened h]⟩

/-- `prom_close(file->of_device)`. -/
def Traced.promClose (t : Traced) : Traced := { t with log := t.log ++ [.closed t.file.ofDevice] }

/-! ### The drivers -/

def swapOpen (w : History) (part : Option Partition) (fspec : Fspec) (t : Traced) :
    FileErr × Traced :=
  match part with
  | none => (.badDev, t)
  | some p =>
    if t.file.deviceKind ≠ .block then (.badDev, t)
    else
      let t := t.promOpen w ((t.now w).wholeDisk fspec)
      if t.file.ofDevice = .null then (.ioErr, t)
      else if !(t.now w).malloc (p.blocksize * 2) then (.noMem, t)
      else if findSignature (t.now w) t.file.ofDevice p signatures (t.now w).heap then
        (.notFound, t)
      else (.badFsys, { t.promClose with file := { t.file with ofDevice := .null } })

def ext2Open (w : History) (part : Option Partition) (fspec : Fspec) (t : Traced) :
    FileErr × Traced :=
  if t.file.opened then (.fsBusy, t)
  else if t.file.deviceKind ≠ .block ∧ t.file.deviceKind ≠ .iscsi then (.badDev, t)
  else
    let doff := (part.map Partition.offset).getD 0
    let dend := (part.map Partition.behind).getD 0
    let t := t.promOpen w ((t.now w).wholeDisk fspec)
    if t.file.ofDevice = .invalid then (.ioErr, t)
    else
      match (t.now w).ext2fsOpen t.file.ofDevice doff dend with
      | none => (.badFsys, t.promClose)
      | some blocksize =>
        if !(t.now w).malloc (blocksize * 2) then (.ioErr, t.promClose)
        else
          match (t.now w).nameiFollow t.file.ofDevice doff fspec.file with
          | .symlinkLoop => (.symlinkLoop, t.promClose)
          | .fileNotFound => (.notFound, t.promClose)
          | .other => (.ioErr, t.promClose)
          | .found => (.ok, { t with file := { t.file with pos := 0, opened := true } })

/-- What `xfs_open` and `reiserfs_open` have in common. -/
def openAt (w : History) (fspec : Fspec) (offset : Nat) (mount : World → Handle → Nat → Bool)
    (openFile : World → Handle → Nat → Option CStr → Bool × FileErr) (t : Traced) :
    FileErr × Traced :=
  let t := t.promOpen w ((t.now w).wholeDisk fspec)
  if t.file.ofDevice = .invalid ∨ t.file.ofDevice = .null then (.badDev, t)
  else if !mount (t.now w) t.file.ofDevice offset then (.badFsys, t.promClose)
  else
    let (success, errnum) := openFile (t.now w) t.file.ofDevice offset fspec.file
    if success then (.ok, { t with file := { t.file with pos := 0 } }) else (errnum, t.promClose)

def xfsOpen (w : History) (part : Option Partition) (fspec : Fspec) : Traced → FileErr × Traced :=
  openAt w fspec ((part.map Partition.offset).getD 0) World.xfsMount World.xfsDir

def reiserfsOffset (w : World) (part : Option Partition) (fspec : Fspec) : Nat :=
  if fspec.part ≠ 0 then (part.getD w.low).offset else 0

def reiserfsOpen (w : History) (part : Option Partition) (fspec : Fspec) (t : Traced) :
    FileErr × Traced :=
  openAt w fspec (reiserfsOffset (t.now w) part fspec) World.reiserfsReadSuper
    World.reiserfsOpenFile t

def ofOpen (w : History) (part : Option Partition) (fspec : Fspec) (t : Traced) :
    FileErr × Traced :=
  if part.any fun p => p.sysInd == linuxRaid || p.sysInd == linuxNative then (.badFsys, t)
  else
    let t := t.promOpen w (ofPath part fspec)
    let t := { t with file := { t.file with pos := 0 } }
    if t.file.ofDevice = .invalid ∨ t.file.ofDevice = .null then (.badFsys, t) else (.ok, t)

def open_ (w : History) (part : Option Partition) (fspec : Fspec) :
    Driver → Traced → FileErr × Traced
  | .swap => swapOpen w part fspec
  | .ext2 => ext2Open w part fspec
  | .xfs => xfsOpen w part fspec
  | .reiserfs => reiserfsOpen w part fspec
  | .of => ofOpen w part fspec

/-! ### `fs_open` and `open_file` -/

structure Probed where
  driver : Option Driver
  fserrorno : FileErr
  after : Traced
  deriving DecidableEq, Repr

def probe (w : History) (part : Option Partition) (fspec : Fspec) :
    List Driver → FileErr → Traced → Probed
  | [], fserrorno, t => ⟨none, fserrorno, t⟩
  | fs :: rest, _, t =>
    let opened := open_ w part fspec fs t
    if opened.1 ≠ .badFsys then ⟨some fs, opened.1, opened.2⟩
    else probe w part fspec rest .badFsys opened.2

def fsOpen (w : History) (part : Option Partition) (fspec : Fspec) (t : Traced) : Probed :=
  probe w part fspec blockFilesystems .ok t

/-- `partitions_lookup`: the disk is closed whatever was found on it, and also
where it could not be opened. -/
def partitionsLookup (w : History) (dev : CStr) (t : Traced) : List Partition × Traced :=
  let w₀ := t.now w
  let name := if w₀.bplan then dev.take 2040 else dev.take 2040 ++ cstr ":0"
  let disk := w₀.promOpen name
  let t := { t with log := t.log ++ [DeviceCall.opened disk] }
  ((t.now w).partitionsLookup dev, { t with log := t.log ++ [DeviceCall.closed disk] })

def scanPartitions (w : History) (fspec : Fspec) (partition : Int) :
    List Partition → Traced → Probed ⊕ (Option Partition × Traced)
  | [], t => .inr (none, t)
  | p :: rest, t =>
    if partition = -1 then
      let probed := fsOpen w (some p) fspec t
      if probed.driver.isNone ∨ probed.fserrorno ≠ .ok then
        scanPartitions w fspec partition rest probed.after
      else .inl probed
    else if partition = p.partNumber then .inr (some p, t)
    else scanPartitions w fspec partition rest t

def fileBlockOpen (w : History) (fspec : Fspec) (partition : Int) (t : Traced) : Probed :=
  let (parts, t) := partitionsLookup w fspec.dev t
  match scanPartitions w fspec partition parts t with
  | .inl probed => probed
  | .inr (found, t) => fsOpen w found fspec t

/-- `open_file` on a block or iSCSI device: the result, and the file with the
calls made. -/
def openFile (w : History) (fspec : Fspec) (kind : DeviceKind) (file : File) : FileErr × Traced :=
  let probed := fileBlockOpen w fspec fspec.part ⟨{ file with deviceKind := kind }, []⟩
  (probed.fserrorno, probed.after)

/-! ### Open devices -/

/-- The devices that are open after a call. There are none any more once a device
is closed that is not open. -/
def heldAfter : Option (List Nat) → DeviceCall → Option (List Nat)
  | none, _ => none
  | some hs, .opened (.device id) => some (id :: hs)
  | some hs, .closed (.device id) => if id ∈ hs then some (hs.erase id) else none
  | some hs, _ => some hs

/-- The devices that are open after some calls. -/
def held (log : Log) : Option (List Nat) := log.foldl heldAfter (some [])

/-- The devices that were open before are open again, and with them that of the
file if one was opened. -/
structure Balanced (before : List Nat) (result : FileErr × Traced) : Prop where
  error : result.1 ≠ .ok → held result.2.log = some before
  success : result.1 = .ok →
    ∃ id, result.2.file.ofDevice = .device id ∧ held result.2.log = some (id :: before)

/-- A device that is open is not handed out again. -/
def Fresh (w : History) : Prop :=
  ∀ log hs name id, held log = some hs → (w log).promOpen name = .device id → id ∉ hs

/-! ### The driver calls of a run -/

structure DriverCall where
  part : Option Partition
  driver : Driver
  before : Traced
  deriving DecidableEq, Repr

def probeCalls (w : History) (part : Option Partition) (fspec : Fspec) :
    List Driver → Traced → List DriverCall
  | [], _ => []
  | fs :: rest, t =>
    let opened := open_ w part fspec fs t
    ⟨part, fs, t⟩ :: if opened.1 ≠ .badFsys then [] else probeCalls w part fspec rest opened.2

def scanCalls (w : History) (fspec : Fspec) (partition : Int) :
    List Partition → Traced → List DriverCall
  | [], _ => []
  | p :: rest, t =>
    if partition = -1 then
      let probed := fsOpen w (some p) fspec t
      probeCalls w (some p) fspec blockFilesystems t ++
        if probed.driver.isNone ∨ probed.fserrorno ≠ .ok then
          scanCalls w fspec partition rest probed.after
        else []
    else if partition = p.partNumber then []
    else scanCalls w fspec partition rest t

def blockCalls (w : History) (fspec : Fspec) (partition : Int) (t : Traced) : List DriverCall :=
  let (parts, t) := partitionsLookup w fspec.dev t
  scanCalls w fspec partition parts t ++
    match scanPartitions w fspec partition parts t with
    | .inl _ => []
    | .inr (found, t) => probeCalls w found fspec blockFilesystems t

/-- The drivers `open_file` asks, with the state each of them starts in. -/
def openCalls (w : History) (fspec : Fspec) (kind : DeviceKind) (file : File) : List DriverCall :=
  blockCalls w fspec fspec.part ⟨{ file with deviceKind := kind }, []⟩

/-- `xfs_open` or `reiserfs_open` when the inner routine fails without an error
code. -/
def FailsSilently (w : World) (h : Handle) (offset : Nat) (fspec : Fspec)
    (mount : World → Handle → Nat → Bool)
    (openFile : World → Handle → Nat → Option CStr → Bool × FileErr) : Prop :=
  (∃ id, h = .device id) ∧ mount w h offset = true ∧ openFile w h offset fspec.file = (false, .ok)

/-- The calls that do not keep the balance: `swap_open` keeps the disk open when it
finds a signature or has no memory; `xfs_open` and `reiserfs_open` close it and
report success when the inner routine fails without an error code; `ext2_open`
may succeed on a disk that was not opened. -/
def DriverCall.Leaks (w : History) (fspec : Fspec) (call : DriverCall) : Prop :=
  let opened := call.before.promOpen w ((call.before.now w).wholeDisk fspec)
  let disk := opened.file.ofDevice
  let offset := (call.part.map Partition.offset).getD 0
  match call.driver with
  | .swap =>
    call.before.file.deviceKind = .block ∧ (∃ id, disk = .device id) ∧
      ∃ p, call.part = some p ∧ ((opened.now w).malloc (p.blocksize * 2) = false ∨
        findSignature (opened.now w) disk p signatures (opened.now w).heap = true)
  | .ext2 =>
    call.before.file.opened = false ∧
      (call.before.file.deviceKind = .block ∨ call.before.file.deviceKind = .iscsi) ∧
      disk = .null ∧ (opened.now w).nameiFollow disk offset fspec.file = .found ∧
      ∃ blocksize, (opened.now w).ext2fsOpen disk offset
        ((call.part.map Partition.behind).getD 0) = some blocksize ∧
          (opened.now w).malloc (blocksize * 2) = true
  | .xfs => FailsSilently (opened.now w) disk offset fspec World.xfsMount World.xfsDir
  | .reiserfs =>
    FailsSilently (opened.now w) disk (reiserfsOffset (call.before.now w) call.part fspec) fspec
      World.reiserfsReadSuper World.reiserfsOpenFile
  | .of => False

end Yaboot.Fs.Handles
