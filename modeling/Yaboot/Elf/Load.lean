import Yaboot.Base.Buffer
import Yaboot.Base.Word

/-! Loading a kernel in `second/yaboot.c`: `load_elf32` and `load_elf64`, and the
address `yaboot_text_ui` jumps to. A pointer and an `unsigned long` have 32 bits.
The headers are given as read from the image; a read of the file delivers what
the file has. -/
namespace Yaboot.Elf
open Buffer Word

inductive ElfClass where
  | elf32
  | elf64
  deriving DecidableEq, Repr

/-- The width of the addresses, offsets and sizes in the headers. -/
def ElfClass.bits : ElfClass → Nat
  | .elf32 => 32
  | .elf64 => 64

/-- The fields of `Elf32_Phdr` and `Elf64_Phdr` that are used. -/
structure Phdr (c : ElfClass) where
  pType : Nat
  pOffset : Nat
  pVaddr : Nat
  pFilesz : Nat
  pMemsz : Nat
  offset_lt : pOffset < 2 ^ c.bits
  vaddr_lt : pVaddr < 2 ^ c.bits
  filesz_lt : pFilesz < 2 ^ c.bits
  memsz_lt : pMemsz < 2 ^ c.bits

/-- An image: the entry point, and the program headers where they can be read. -/
structure Image (c : ElfClass) where
  eEntry : Nat
  phdrs : Option (List (Phdr c))

/-- An open file. -/
structure File where
  content : Bytes
  len : Nat
  seekable : Nat → Bool

/-- `loadinfo_t` without the headers. -/
structure Loadinfo where
  base : Nat
  memsize : Nat
  filesize : Nat
  offset : Nat
  loadLoc : Nat
  entry : Nat
  deriving DecidableEq, Repr

def ptLoad : Nat := 1

/-- The headers the loader does not skip. -/
def Phdr.loadable (p : Phdr c) : Bool := p.pType == ptLoad && p.pOffset != 0

/-- One round of the scan over the program headers. -/
def scanHeader (info : Loadinfo) (p : Phdr c) : Loadinfo :=
  if !p.loadable then info
  else if info.memsize = 0 then
    { info with
      offset := u32 p.pOffset
      memsize := u32 p.pMemsz
      filesize := u32 p.pFilesz
      loadLoc := u32 p.pVaddr }
  else
    { info with
      memsize := sub32 (p.pOffset + p.pMemsz) info.offset
      filesize := sub32 (p.pOffset + p.pFilesz) info.offset }

/-- `_ALIGN(size, 1 << 20)`. -/
def alignMb (size : Nat) : Nat := u32 (size + (2 ^ 20 - 1)) / 2 ^ 20 * 2 ^ 20

/-- What a 32-bit image is given for boot infos. -/
def ElfClass.room : ElfClass → Nat
  | .elf32 => 0x100000
  | .elf64 => 0

/-- The size passed to `prom_claim_chunk`. -/
def claimSize (c : ElfClass) (memsize : Nat) : Nat := u32 (alignMb memsize + c.room)

def kerneladdr : Nat := 0

/-- `KERNEL_LINK_ADDR_PPC32` and `KERNEL_LINK_ADDR_PPC64`. -/
def ElfClass.kernelLinkAddr : ElfClass → Nat
  | .elf32 => 0xC0000000
  | .elf64 => 0xC000000000000000

/-- The address asked for an image that is not a `vmlinux`. -/
def ElfClass.linkedAt (c : ElfClass) (info : Loadinfo) : Nat :=
  match c with
  | .elf32 => info.loadLoc
  | .elf64 => info.entry

/-- `read(..) == p->p_filesz`: the `int` is converted to the type of the field. -/
def ElfClass.readAll (c : ElfClass) (count filesz : Nat) : Bool :=
  match c with
  | .elf32 => u32 count == filesz
  | .elf64 => ofInt64 (s32 count) == filesz

/-- Storing bytes in a 32-bit address space. -/
def store (mem : Bytes) (start n : Nat) (src : Bytes) : Bytes := fun a =>
  if sub32 a start < n then src (sub32 a start) else mem a

/-- The loop over the segments: whether all were loaded, memory, and the copies
made, each as its distance from `base` and its size. -/
def loadSegments (f : File) (info : Loadinfo) :
    List (Phdr c) → Bytes → Bool × Bytes × List (Nat × Nat)
  | [], mem => (true, mem, [])
  | p :: rest, mem =>
    if !p.loadable then loadSegments f info rest mem
    else if !f.seekable (u32 p.pOffset) then (false, mem, [])
    else
      let offset := sub32 p.pVaddr info.loadLoc
      let count := min (u32 p.pFilesz) (f.len - u32 p.pOffset)
      let mem := store mem (u32 (info.base + offset)) count fun k => f.content (u32 p.pOffset + k)
      if !c.readAll count p.pFilesz then (false, mem, [(offset, count)])
      else
        let later := loadSegments f info rest mem
        (later.1, later.2.1, (offset, count) :: later.2.2)

/-- What `load_elf32` or `load_elf64` returns and leaves behind. -/
structure Loaded where
  returned : Bool
  info : Loadinfo
  mem : Bytes
  copies : List (Nat × Nat)

/-- What the two routines have in common. `claim` is `prom_claim_chunk`, and
`info` what an earlier call has left in `loadinfo`. -/
def loadElf (c : ElfClass) (e : Image c) (f : File) (claim : Nat → Nat → Option Nat)
    (info : Loadinfo) (mem : Bytes) : Loaded :=
  let info := { info with entry := u32 e.eEntry }
  match e.phdrs with
  | none => ⟨false, info, mem, []⟩
  | some phdrs =>
    let info := phdrs.foldl scanHeader { info with memsize := 0, filesize := 0, offset := 0 }
    if info.memsize = 0 then ⟨false, info, mem, []⟩
    else
      let info := { info with memsize := claimSize c info.memsize }
      let loadaddr := if e.eEntry = c.kernelLinkAddr then kerneladdr else c.linkedAt info
      match claim loadaddr info.memsize with
      | none => ⟨false, info, mem, []⟩
      | some base =>
        let info := { info with base := base }
        let segments := loadSegments f info phdrs mem
        ⟨segments.1, info, segments.2.1, segments.2.2⟩

def loadElf32 : Image .elf32 → File → (Nat → Nat → Option Nat) → Loadinfo → Bytes → Loaded :=
  loadElf .elf32

def loadElf64 : Image .elf64 → File → (Nat → Nat → Option Nat) → Loadinfo → Bytes → Loaded :=
  loadElf .elf64

/-- The address `yaboot_text_ui` calls. -/
def kernelEntry (info : Loadinfo) : Nat := u32 (info.base + sub32 info.entry info.loadLoc)

end Yaboot.Elf
