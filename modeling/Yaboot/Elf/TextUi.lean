import Yaboot.Elf.Claim
import Yaboot.Elf.Load
import Yaboot.Elf.Ramdisk
import Yaboot.Prompt.Params

/-! `yaboot_text_ui` of `second/yaboot.c`: round after round, a kernel is asked for at
the prompt, loaded, given a ramdisk and entered. What files and heap do in a round is
given, what the firmware answers may depend on all that was asked before. -/
namespace Yaboot.Elf.TextUi
open Buffer CString Word Prompt Ramdisk

/-! ### What a round meets -/

/-- The step at which the headers of a kernel cannot be read. -/
inductive Trouble where
  | header
  | memory
  | seek
  | table
  deriving DecidableEq, Repr

/-- An open kernel: what the read of `e_ident`, `e_type` and `e_machine` returns and
stores, its headers as either kind of image, and the file for the segments. -/
structure KernelFile where
  count : Int
  ident : List UInt8
  elf32 : Image .elf32
  elf64 : Image .elf64
  trouble : Trouble
  file : File

/-- An open ramdisk: its size, if the file system can say, and what each read returns. -/
structure RamdiskFile where
  inoSize : Option Nat
  reads : List Int

/-- A round: whether there is memory for the names, and the files where they can be
opened. -/
structure Attempt where
  kernelName : Bool
  kernel : Option KernelFile
  ramdiskName : Bool
  ramdisk : Option RamdiskFile

/-- What is kept from one round to the next: the variables of `get_params`, `loadinfo`
with the headers read last, `flat_vmlinux`, memory, and what was asked so far. -/
structure Ui where
  statics : Statics
  info : Loadinfo
  ident : List UInt8
  flatVmlinux : Bool
  mem : Bytes
  log : Log

/-! ### The kernel -/

/-- `sizeof(Elf_Ident)`. -/
def identSize : Nat := 20

def elfMagic : List UInt8 := [0x7f, 0x45, 0x4c, 0x46]

/-- The magic number, and a class, a byte order, a type and a machine behind it. -/
def isElf (ident : List UInt8) (elfClass : UInt8) (types : List (List UInt8)) (machine : List UInt8) :
    Bool :=
  ident.take 4 == elfMagic && ident.getD 4 0 == elfClass && ident.getD 5 0 == 2 &&
    types.contains ((ident.drop 16).take 2) && (ident.drop 18).take 2 == machine

/-- `is_elf32`: an executable for PowerPC. -/
def isElf32 (ident : List UInt8) : Bool := isElf ident 1 [[0, 2]] [0, 20]

/-- `is_elf64`: an executable or a shared object for PowerPC with 64 bits. -/
def isElf64 (ident : List UInt8) : Bool := isElf ident 2 [[0, 2], [0, 3]] [0, 21]

/-- What is asked for the headers: a read, memory, a seek and a read. -/
def headerCalls : Trouble → Log
  | .header => [.access]
  | .memory => [.access, .malloc false]
  | .seek => [.access, .malloc true, .access]
  | .table => [.access, .malloc true, .access, .access]

/-- What is asked for the segments: a seek and a read each, until one fails. -/
def segmentCalls (f : File) : List (Phdr c) → Log
  | [] => []
  | p :: rest =>
    if !p.loadable then segmentCalls f rest
    else if !f.seekable (u32 p.pOffset) then [.access]
    else if !c.readAll (min (u32 p.pFilesz) (f.len - u32 p.pOffset)) p.pFilesz then
      [.access, .access]
    else .access :: .access :: segmentCalls f rest

/-- `load_elf32` and `load_elf64`. Memory is released when a segment cannot be read. -/
def load (fw : Firmware) (c : ElfClass) (e : Image c) (trouble : Trouble) (f : File) (ui : Ui) :
    Bool × Ui :=
  let info := { ui.info with entry := u32 e.eEntry }
  match e.phdrs with
  | none => (false, { ui with info, log := ui.log ++ headerCalls trouble })
  | some phdrs =>
    let log := ui.log ++ headerCalls .table
    let info := phdrs.foldl scanHeader { info with memsize := 0, filesize := 0, offset := 0 }
    if info.memsize = 0 then (false, { ui with info, log })
    else
      let info := { info with memsize := claimSize c info.memsize }
      let flatVmlinux := e.eEntry == c.kernelLinkAddr
      let loadaddr := if flatVmlinux then kerneladdr else c.linkedAt info
      match promClaimChunk fw info.memsize loadaddr log with
      | (none, log) => (false, { ui with info, flatVmlinux, log })
      | (some base, log) =>
        let info := { info with base }
        let segments := loadSegments f info phdrs ui.mem
        let log := log ++ segmentCalls f phdrs
        let log := if segments.1 then log else log ++ [.release ⟨base, info.memsize⟩]
        (segments.1, { ui with info, flatVmlinux, mem := segments.2.1, log })

/-- What is read from the front of the kernel lies over what was there. The count is
compared as an unsigned number. -/
def readIdent (k : KernelFile) (ui : Ui) : Bool × Ui :=
  (!decide (ofInt32 k.count < identSize),
    { ui with
      ident := k.ident.take identSize ++ ui.ident.drop (min k.ident.length identSize)
      log := ui.log ++ [.access] })

/-- From an open kernel to the closed file: whether it was loaded. -/
def loadKernel (fw : Firmware) (k : KernelFile) (ui : Ui) : Bool × Ui :=
  let read := readIdent k ui
  let loaded :=
    if !read.1 then (false, read.2)
    else if isElf32 read.2.ident then load fw .elf32 k.elf32 k.trouble k.file read.2
    else if isElf64 read.2.ident then load fw .elf64 k.elf64 k.trouble k.file read.2
    else (false, read.2)
  (loaded.1, { loaded.2 with log := loaded.2.log ++ [.closed] })

/-! ### The ramdisk -/

/-- What `prom_claim` returns. -/
def promClaimed (found : Option Nat) : Nat := found.getD (2 ^ 32 - 1)

/-- The loop over the chunks behind the first. There is no result when it goes on after
the last of the reads. -/
def moreChunks (fw : Firmware) (len : Nat) (reads : List Int) (more initrdRead : Nat) (i : Initrd)
    (log : Log) : Option (Initrd × Log) :=
  if initrdRead = len then
    let want := u32 (more + len)
    match claim fw want len log with
    | (found, log) =>
      if promClaimed found ≠ want then some (i, log)
      else
        match reads with
        | [] => none
        | read :: rest =>
          moreChunks fw len rest want (ofInt32 read) (i.add len want read) (log ++ [.access])
  else some (i, log)

/-- Reading an open ramdisk behind the kernel. -/
def readRamdisk (fw : Firmware) (info : Loadinfo) (r : RamdiskFile) (log : Log) :
    Option (Initrd × Log) :=
  let len := chunkLen r.inoSize
  match promClaimChunk fw len (u32 (info.base + info.memsize)) log with
  | (none, log) => some (⟨0, 0, [], []⟩, log)
  | (some found, log) =>
    match r.reads with
    | [] => none
    | first :: rest =>
      let size := ofInt32 first
      let base := if size = 0 then 0 else found
      moreChunks fw len rest base size ⟨base, size, [(found, len)], [(found, first)]⟩
        (log ++ [.access])

/-! ### A round -/

/-- Is the name put behind that of the boot file? The second name is looked at as well. -/
def extendsName (bootFile file other : CStr) : Bool :=
  bootFile == [92, 92] && file.head? != some 47 && other.head? != some 92

/-- The name to open, unless there is no memory for it. -/
def openName (bootFile file other : CStr) (given : Bool) (log : Log) : Option CStr × Log :=
  if extendsName bootFile file other then
    (if given then some (bootFile ++ file) else none, log ++ [.malloc given])
  else (some file, log)

/-- The ramdisk of a flat `vmlinux`: its address and size, `kernel` being the name of the
kernel. It is left out when it cannot be opened. -/
def initrdOf (fw : Firmware) (bootFile kernel : CStr) (rd : Option CStr) (a : Attempt) (ui : Ui) :
    Option (Option (Nat × Nat) × Log) :=
  match ui.flatVmlinux, rd with
  | true, some file =>
    match openName bootFile file kernel a.ramdiskName ui.log with
    | (none, log) => some (none, log)
    | (some name, log) =>
      match a.ramdisk with
      | none => some (some (0, 0), log)
      | some r => (readRamdisk fw ui.info r (log ++ [.opened name])).map fun read =>
        (some (read.1.base, read.1.size), read.2 ++ [.closed])
  | _, _ => some (some (0, 0), ui.log)

/-- The kernel is called. -/
def enter (args : Option CStr) (initrd : Nat × Nat) (ui : Ui) : Ui :=
  { ui with log := ui.log ++ [.entered
    { info := ui.info, address := kernelEntry ui.info
      arg1 := u32 (initrd.1 + ui.info.loadLoc), arg2 := initrd.2, args }] }

/-- What follows `get_params`, `file` being the name of the kernel. -/
def bootKernel (fw : Firmware) (bootFile file : CStr) (params : BootParam) (a : Attempt) (ui : Ui) :
    Option Ui :=
  match openName bootFile file file a.kernelName ui.log with
  | (none, log) => some { ui with log }
  | (some name, log) =>
    match a.kernel with
    | none => some { ui with log }
    | some k =>
      match loadKernel fw k { ui with log := log ++ [.opened name] } with
      | (false, ui) => some ui
      | (true, ui) => (initrdOf fw bootFile name params.rd.file a ui).map fun
        | (none, log) => { ui with log }
        | (some initrd, log) => enter params.args initrd { ui with log }

/-- A round of `yaboot_text_ui`: whether it returns. -/
def round (fw : Firmware) (w : World) (inp : Input) (a : Attempt) (ui : Ui) : Option (Bool × Ui) :=
  let params := getParams w inp ui.statics
  let ui := { ui with statics := params.2 }
  if params.1.returned ≠ 0 then some (true, ui)
  else
    match params.1.params.kernel.file with
    | none => some (false, ui)
    | some file =>
      (bootKernel fw (w.boot.file.getD w.lowString) file params.1.params a ui).map fun ui =>
        (false, ui)

/-- `yaboot_text_ui`, with what each round meets. The world of a round is another one when
another configuration was loaded. -/
def textUi (fw : Firmware) : List (World × Input × Attempt) → Ui → Option Ui
  | [], ui => some ui
  | (w, inp, a) :: rest, ui =>
    match round fw w inp a ui with
    | none => none
    | some (true, ui) => some ui
    | some (false, ui) => textUi fw rest ui

end Yaboot.Elf.TextUi
