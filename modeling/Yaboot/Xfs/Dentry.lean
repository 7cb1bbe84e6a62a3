import Yaboot.Base.CString
import Yaboot.Xfs.Read

/-! `first_dentry` and `next_dentry` of `second/fs_xfs.c`. What
`xfs_read_data` and `xfs_dabread` deliver is a parameter. -/
namespace Yaboot.Xfs
open Buffer CString Word

/-- The name and the inode number `next_dentry` returns. -/
abbrev Dentry := CStr × Nat

/-- What a directory is read with: `xfs_read_data` of so many bytes to a place
in `dirbuf`, and `xfs_dabread` of a block of the file to `dirbuf`. -/
structure DirReader where
  readData : File → Nat → Nat → Bytes → File × Bytes
  dabread : Nat → Bytes → Bytes

/-- The fields of `struct xfs_info` that belong to the directory being read, and
the memory the routines work in. `usual` is the memory from the literal "." on,
`data` is `di_u`, and `sfe` is an offset into it. -/
structure Listing where
  i8param : Nat
  dirpos : Int
  dirmax : Int
  blkoff : Int
  dablk : Nat
  forw : Nat
  file : File
  sfe : Nat
  usual : Bytes
  data : Bytes
  dirbuf : Bytes

def roundup8 (n : Nat) : Nat := (n + 7) / 8 * 8

/-- `name[namelen] = 0`, and the string that begins at `name` then. -/
def terminate (mem : Bytes) (name namelen : Nat) : Bytes × CStr :=
  let mem := Function.update mem (name + namelen) 0
  (mem, strdup (slice mem name namelen))

/-! ### Directories in the inode -/

/-- An inode number of the width the directory uses. -/
def Listing.sfNumber (l : Listing) (at_ : Nat) : Nat :=
  if l.i8param = 0 then be l.data at_ 8 else be l.data at_ 4

def sfIno (l : Listing) (namelen : Nat) : Nat := l.sfNumber (l.sfe + namelen + 3)

def sfParentIno (l : Listing) : Nat := l.sfNumber 2

/-- The case of `XFS_DINODE_FMT_LOCAL`. The pointer for ".." is the one for "."
moved on by one. -/
def nextLocal (l : Listing) : Dentry × Listing :=
  if l.dirpos = -2 then
    let (usual, name) := terminate l.usual 0 1
    ((name, 0), { l with usual := usual, dirpos := l.dirpos + 1 })
  else if l.dirpos = -1 then
    let (usual, name) := terminate l.usual (0 + 1) 2
    ((name, sfParentIno l),
      { l with usual := usual, sfe := 10 - l.i8param, dirpos := l.dirpos + 1 })
  else
    let namelen := (l.data l.sfe).toNat
    let (data, name) := terminate l.data (l.sfe + 3) namelen
    ((name, sfIno l namelen),
      { l with data := data, sfe := l.sfe + namelen + 11 - l.i8param, dirpos := l.dirpos + 1 })

/-! ### Directories in blocks -/

def freeTag : Nat := 0xffff
def blockMagic : Nat := 0x58443242
def leaf1Magic : Nat := 0xd2f1
def leafnMagic : Nat := 0xd2ff

/-- `sizeof(xfs_dir2_data_hdr_t)`. -/
def dataHdr : Nat := 16

/-- `xfs_read_data` to a place in `dirbuf`. -/
def Listing.readData (r : DirReader) (at_ len : Nat) (l : Listing) : Listing :=
  let (file, dirbuf) := r.readData l.file at_ len l.dirbuf
  { l with file := file, dirbuf := dirbuf }

/-- `xfs_dabread` of the block `xfs.dablk`. -/
def Listing.dabread (r : DirReader) (l : Listing) : Listing :=
  { l with dirbuf := r.dabread l.dablk l.dirbuf }

/-- Going on to the next data block at the end of one. The mask is an `int`. -/
def Listing.nextBlock (dirbsize : Nat) (l : Listing) : Listing :=
  if (dirbsize : Int) ≤ l.blkoff then
    { l with
      blkoff := dataHdr
      file := { l.file with pos := l.file.pos &&& ofInt64 (-dirbsize) ||| dataHdr } }
  else l

/-- The loop over unused regions, given up after `fuel` of them: the first four
bytes of an entry are in `dirbuf`. -/
def skipUnused (r : DirReader) (dirbsize : Nat) : Nat → Listing → Option Listing
  | 0, _ => none
  | fuel + 1, l =>
    let l := (l.nextBlock dirbsize).readData r 0 4
    let l := { l with blkoff := l.blkoff + 4 }
    if be l.dirbuf 0 2 = freeTag then
      let toread : Int := roundup8 (be l.dirbuf 2 2) - 4
      skipUnused r dirbsize fuel
        { l with
          blkoff := l.blkoff + toread
          file := { l.file with pos := add64 l.file.pos toread } }
    else some l

/-- Reading the entry of which the first four bytes are in `dirbuf`. -/
def readEntry (r : DirReader) (l : Listing) : Dentry × Listing :=
  let l := l.readData r 4 5
  let ino := be l.dirbuf 0 8
  let namelen := (l.dirbuf 8).toNat
  let toread := roundup8 (namelen + 11) - 9
  let l := l.readData r 0 toread
  let (dirbuf, name) := terminate l.dirbuf 0 namelen
  ((name, ino),
    { l with dirbuf := dirbuf, blkoff := l.blkoff + (toread + 5), dirpos := l.dirpos + 1 })

/-- The case of `XFS_DINODE_FMT_BTREE` and `XFS_DINODE_FMT_EXTENTS`. -/
def nextData (r : DirReader) (dirbsize fuel : Nat) (l : Listing) : Option (Dentry × Listing) :=
  (skipUnused r dirbsize fuel l).map (readEntry r)

/-- Taking over the header of the leaf block in `dirbuf`. -/
def Listing.enterLeaf (l : Listing) : Listing :=
  { l with
    dirmax := be l.dirbuf 12 2 - be l.dirbuf 14 2
    forw := be l.dirbuf 0 4 }

/-- Going on to the next leaf once all entries of one were returned; `none`
after the last. -/
def Listing.refill (r : DirReader) (l : Listing) : Option Listing :=
  if l.dirpos < l.dirmax then some l
  else if l.forw = 0 then none
  else some { (({ l with dablk := l.forw }).dabread r).enterLeaf with dirpos := 0 }

/-! ### The routines -/

/-- `next_dentry`; an entry or a null pointer, given up after `fuel` unused
regions in a row. Other formats are not directories. -/
def nextDentry (r : DirReader) (dirbsize fuel : Nat) (format : Format) (l : Listing) :
    Option (Option Dentry × Listing) :=
  match l.refill r with
  | none => some (none, l)
  | some l =>
    if format = .local then
      let (dentry, l) := nextLocal l
      some (some dentry, l)
    else (nextData r dirbsize fuel l).map fun (dentry, l) => (some dentry, l)

/-- The descent to the first leaf, given up after `fuel` blocks. -/
def firstLeaf (r : DirReader) : Nat → Listing → Option Listing
  | 0, _ => none
  | fuel + 1, l =>
    let l := l.dabread r
    if be l.dirbuf 8 2 = leafnMagic ∨ be l.dirbuf 8 2 = leaf1Magic then some l.enterLeaf
    else firstLeaf r fuel { l with dablk := be l.dirbuf 20 4 }

/-- Finding out how many entries there are, with the header of the first data
block in `dirbuf`. -/
def countEntries (r : DirReader) (blklog dirbsize fuel : Nat) (l : Listing) : Option Listing :=
  if be l.dirbuf 0 4 = blockMagic then
    let l := ({ l with file := { l.file with pos := dirbsize - 8 } }).readData r 0 8
    some { l with dirmax := s32 (sub32 (be l.dirbuf 0 4) (be l.dirbuf 4 4)) }
  else firstLeaf r fuel { l with dablk := u32 (2 ^ 35 >>> blklog) }

/-- Going to the first data block. -/
def Listing.rewind (l : Listing) : Listing :=
  { l with blkoff := dataHdr, file := { l.file with pos := dataHdr }, dirpos := 0 }

/-- The part of `first_dentry` before its call of `next_dentry`. -/
def openListing (r : DirReader) (blklog dirbsize fuel size : Nat) (format : Format) (l : Listing) :
    Option Listing :=
  let l := { l with forw := 0 }
  if format = .local then
    some { l with
      dirmax := (l.data 0).toNat
      i8param := if (l.data 1).toNat ≠ 0 then 0 else 4
      dirpos := -2 }
  else
    let l := ({ l with file := ⟨0, size⟩ }).readData r 0 dataHdr
    (countEntries r blklog dirbsize fuel l).map Listing.rewind

/-- `first_dentry`. -/
def firstDentry (r : DirReader) (blklog dirbsize fuel size : Nat) (format : Format) (l : Listing) :
    Option (Option Dentry × Listing) :=
  (openListing r blklog dirbsize fuel size format l).bind (nextDentry r dirbsize fuel format)

end Yaboot.Xfs
