import Yaboot.Base.BigEndian
import Yaboot.Elf.TextUi

/-! The headers of a kernel as bytes of its file: what `load_elf32` and `load_elf64` read
of them, and how a linker writes them. -/
namespace Yaboot.Elf.TextUi
open BigEndian Buffer Ramdisk Word

/-! ### Reading -/

/-- How many bytes an address, an offset or a size has. -/
def addrSize : ElfClass → Nat
  | .elf32 => 4
  | .elf64 => 8

/-- `sizeof(Elf32_Ehdr)` and `sizeof(Elf64_Ehdr)`. -/
def ehdrSize : ElfClass → Nat
  | .elf32 => 52
  | .elf64 => 64

/-- `sizeof(Elf32_Phdr)` and `sizeof(Elf64_Phdr)`. -/
def phdrSize : ElfClass → Nat
  | .elf32 => 32
  | .elf64 => 56

def eEntry (c : ElfClass) (file : Bytes) : Nat := field file 24 (addrSize c)

def ePhoff (c : ElfClass) (file : Bytes) : Nat := field file (24 + addrSize c) (addrSize c)

/-- `e_phnum`, which is signed in the larger headers. -/
def ePhnum (c : ElfClass) (file : Bytes) : Int :=
  match c with
  | .elf32 => (field file 44 2 : Nat)
  | .elf64 =>
    if field file 56 2 < 2 ^ 15 then (field file 56 2 : Nat) else (field file 56 2 : Nat) - 2 ^ 16

theorem field_bits (c : ElfClass) (file : Bytes) (at_ : Nat) :
    field file at_ (addrSize c) < 2 ^ c.bits := by
  cases c <;> exact field_lt file at_ _

/-- A program header. -/
def readPhdr (file : Bytes) (at_ : Nat) : (c : ElfClass) → Phdr c
  | .elf32 =>
    { pType := field file at_ 4
      pOffset := field file (at_ + 4) 4
      pVaddr := field file (at_ + 8) 4
      pFilesz := field file (at_ + 16) 4
      pMemsz := field file (at_ + 20) 4
      offset_lt := field_bits .elf32 file _
      vaddr_lt := field_bits .elf32 file _
      filesz_lt := field_bits .elf32 file _
      memsz_lt := field_bits .elf32 file _ }
  | .elf64 =>
    { pType := field file at_ 4
      pOffset := field file (at_ + 8) 8
      pVaddr := field file (at_ + 16) 8
      pFilesz := field file (at_ + 32) 8
      pMemsz := field file (at_ + 40) 8
      offset_lt := field_bits .elf64 file _
      vaddr_lt := field_bits .elf64 file _
      filesz_lt := field_bits .elf64 file _
      memsz_lt := field_bits .elf64 file _ }

/-- The program headers, `heap` saying whether there is memory for so many bytes. -/
def readPhdrs (c : ElfClass) (heap : Nat → Bool) (f : File) : Except Trouble (List (Phdr c)) :=
  let size := u32 (phdrSize c * ofInt32 (ePhnum c f.content))
  let phoff := u32 (ePhoff c f.content)
  if f.len < ehdrSize c then .error .header
  else if !heap size then .error .memory
  else if !f.seekable phoff then .error .seek
  else if min size (f.len - phoff) ≠ size then .error .table
  else
    .ok ((List.range (ePhnum c f.content).toNat).map fun k =>
      readPhdr f.content (phoff + k * phdrSize c) c)

/-- What the loader finds in a file. -/
def readImage (c : ElfClass) (heap : Nat → Bool) (f : File) : Image c where
  eEntry := eEntry c f.content
  phdrs := (readPhdrs c heap f).toOption

def troubleOf : Except Trouble (List (Phdr c)) → Trouble
  | .error t => t
  | .ok _ => .table

/-- A file that was opened as a kernel. -/
def kernelOf (heap : Nat → Bool) (f : File) : KernelFile where
  count := min identSize f.len
  ident := slice f.content 0 (min identSize f.len)
  elf32 := readImage .elf32 heap f
  elf64 := readImage .elf64 heap f
  trouble :=
    if isElf32 (slice f.content 0 identSize) then troubleOf (readPhdrs .elf32 heap f)
    else troubleOf (readPhdrs .elf64 heap f)
  file := f

/-! ### Writing -/

/-- A program header with all its fields. -/
structure Program (c : ElfClass) where
  phdr : Phdr c
  type_lt : phdr.pType < 2 ^ 32
  pPaddr : Nat
  pFlags : Nat
  pAlign : Nat

def Program.fields (p : Program c) : List (Nat × Nat) :=
  match c with
  | .elf32 =>
    [(4, p.phdr.pType), (4, p.phdr.pOffset), (4, p.phdr.pVaddr), (4, p.pPaddr),
      (4, p.phdr.pFilesz), (4, p.phdr.pMemsz), (4, p.pFlags), (4, p.pAlign)]
  | .elf64 =>
    [(4, p.phdr.pType), (4, p.pFlags), (8, p.phdr.pOffset), (8, p.phdr.pVaddr), (8, p.pPaddr),
      (8, p.phdr.pFilesz), (8, p.phdr.pMemsz), (8, p.pAlign)]

/-- How many program headers `e_phnum` can count; it is signed in the larger headers. -/
def phnumLimit : ElfClass → Nat
  | .elf32 => 2 ^ 16
  | .elf64 => 2 ^ 15

/-- An executable for the processor: the fields of its header, and the program headers,
whose offset in the file has 32 bits in either class. -/
structure Executable (c : ElfClass) where
  entry : Nat
  phoff : Nat
  programs : List (Program c)
  version : Nat
  shoff : Nat
  flags : Nat
  sections : List Nat
  entry_lt : entry < 2 ^ c.bits
  phoff_lt : phoff < 2 ^ 32
  few : programs.length < phnumLimit c

def identOf : ElfClass → List UInt8
  | .elf32 => elfMagic ++ [1, 2, 1] ++ List.replicate 9 0 ++ [0, 2, 0, 20]
  | .elf64 => elfMagic ++ [2, 2, 1] ++ List.replicate 9 0 ++ [0, 2, 0, 21]

/-- The fields behind `e_machine`. -/
def Executable.fields (x : Executable c) : List (Nat × Nat) :=
  [(4, x.version), (addrSize c, x.entry), (addrSize c, x.phoff), (addrSize c, x.shoff),
    (4, x.flags), (2, ehdrSize c), (2, phdrSize c), (2, x.programs.length), (2, x.sections.getD 0 0),
    (2, x.sections.getD 1 0), (2, x.sections.getD 2 0)]

/-- A file with an executable in it. -/
structure Executable.In (x : Executable c) (f : File) : Prop where
  ident : slice f.content 0 identSize = identOf c
  header : slice f.content identSize (width x.fields) = record x.fields
  table : slice f.content x.phoff (x.programs.length * phdrSize c) =
    x.programs.flatMap fun p => record p.fields
  long : ehdrSize c ≤ f.len
  whole : x.phoff + x.programs.length * phdrSize c ≤ f.len
  seekable : f.seekable x.phoff

end Yaboot.Elf.TextUi
