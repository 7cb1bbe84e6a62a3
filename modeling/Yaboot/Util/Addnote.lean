import Mathlib.Data.List.Basic
import Yaboot.Base.Buffer
import Yaboot.Base.CString
import Yaboot.Base.Word

/-! `util/addnote.c`: two note headers, and the notes, are written behind the
program headers of an ELF file. An `int` is the 32-bit word it is stored in. -/
namespace Yaboot.Util
open Buffer CString Word

/-- CHRP note section. -/
def arch : CStr := cstr "PowerPC"

def descr : List Nat := [0xffffffff, 0x00c00000, 0xffffffff, 0xffffffff, 0xffffffff, 0x4000]

/-- RPA note section. -/
def rpaname : CStr := cstr "IBM,RPA-Client-Config"

def rpanote : List Nat := [0, 64, 0, 40, 1, 0xffffffff, 0, 1]

/-- `ROUNDUP`. -/
def roundup (len : Nat) : Nat := (len + 3) / 4 * 4

def ePhoff : Nat := 28
def ePhentsize : Nat := 42
def ePhnum : Nat := 44
def eHsize : Nat := 52
def eiClass : Nat := 4
def eiData : Nat := 5
def phType : Nat := 0
def phOffset : Nat := 4
def phFilesz : Nat := 16
def phHsize : Nat := 32
def ptNote : Nat := 4
def elfclass32 : UInt8 := 1
def elfdata2msb : UInt8 := 2
def elfMagic : List UInt8 := [0x7f, 69, 76, 70]

def nnote : Nat := 12 + roundup (arch.length + 1) + 4 * descr.length
def nnote2 : Nat := 12 + roundup (rpaname.length + 1) + 4 * rpanote.length

/-- `PUT_16BE`. -/
def put16 (mem : Bytes) (off v : Nat) : Bytes :=
  blit mem off 2 fun k => if k = 0 then UInt8.ofNat (v / 256) else UInt8.ofNat v

def strcpy (mem : Bytes) (off : Nat) (s : CStr) : Bytes :=
  blit mem off (s.length + 1) fun k => s.getD k 0

/-- The loop that stores a descriptor. -/
def putWords (mem : Bytes) (ns : Nat) : List Nat → Bytes
  | [] => mem
  | word :: rest => putWords (store32 mem ns word) (ns + 4) rest

/-- The fields of a program header that are filled in. -/
def putHeader (mem : Bytes) (ph ns filesz : Nat) : Bytes :=
  store32 (store32 (store32 mem (ph + phType) ptNote) (ph + phOffset) ns) (ph + phFilesz) filesz

/-- A note whose descriptor starts `room` bytes behind the start of its name. -/
def putNote (mem : Bytes) (ns : Nat) (name : CStr) (type room : Nat) (words : List Nat) : Bytes :=
  let mem := store32 mem ns (name.length + 1)
  let mem := store32 mem (ns + 4) (words.length * 4)
  let mem := store32 mem (ns + 8) type
  putWords (strcpy mem (ns + 12) name) (ns + 12 + room) words

inductive Outcome where
  | rewritten
  | hasNote
  | notElf
  | notBigEndian32
  | noSpace
  deriving DecidableEq, Repr

/-- The loop over the program headers: where it ends, unless it meets a note. -/
def skipHeaders (buf : Bytes) (ps : Nat) : Nat → Nat → Option Nat
  | 0, ph => some ph
  | np + 1, ph =>
    if word32 buf (ph + phType) = ptNote then none else skipHeaders buf ps np (u32 (ph + ps))

/-- What is stored behind the last header. -/
def fillIn (buf : Bytes) (ph ps : Nat) : Bytes :=
  let ns := ph + 2 * ps
  let buf := putHeader buf ph ns nnote
  let buf := putNote buf ns arch 0x1275 (arch.length + 1) descr
  let ns := ns + 12 + (arch.length + 1) + 4 * descr.length
  let ph := ph + ps
  let buf := putHeader buf ph ns nnote2
  putNote buf ns rpaname 0x12759999 (roundup (rpaname.length + 1)) rpanote

/-- `main`, on the `n` bytes read into `buf`. -/
def hackIn (n : Nat) (buf : Bytes) : Outcome × Bytes :=
  if n < eHsize ∨ (List.range 4).map buf ≠ elfMagic then (.notElf, buf)
  else if buf eiClass ≠ elfclass32 ∨ buf eiData ≠ elfdata2msb then (.notBigEndian32, buf)
  else
    let ph := word32 buf ePhoff
    let ps := word16 buf ePhentsize
    let np := word16 buf ePhnum
    if s32 ph < eHsize ∨ ps < phHsize ∨ np < 1 then (.notElf, buf)
    else if s32 (ph + (np + 2) * ps + nnote + nnote2) > n then (.noSpace, buf)
    else
      match skipHeaders buf ps np ph with
      | none => (.hasNote, buf)
      | some ph =>
        if (List.range (2 * ps + nnote + nnote2)).any fun i => buf (ph + i) != 0 then (.noSpace, buf)
        else (.rewritten, put16 (fillIn buf ph ps) ePhnum (np + 2))

def bytesOf (file : List UInt8) : Bytes := fun i => file.getD i 0

/-- `addnote` on a file of which `read` returns the first `n` bytes: the outcome, and
the file afterwards. -/
def addnote (n : Nat) (file : List UInt8) : Outcome × List UInt8 :=
  match hackIn n fun i => if i < n then bytesOf file i else 0 with
  | (.rewritten, buf) => (.rewritten, (List.range n).map buf ++ file.drop n)
  | (outcome, _) => (outcome, file)

end Yaboot.Util
