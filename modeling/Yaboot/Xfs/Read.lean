import Yaboot.Xfs.Extents

/-! `xfs_read_data` of `second/fs_xfs.c`. -/
namespace Yaboot.Xfs
open Buffer Word

/-- The two fields of `struct boot_file_t` the driver uses. -/
structure File where
  pos : Nat
  len : Nat
  deriving DecidableEq, Repr

/-- The variables of the loop; `buf` is an offset into the caller's buffer. -/
structure Progress where
  pos : Nat
  len : Int
  endofprev : Nat
  buf : Nat
  mem : Bytes

/-- Moving on by `toread` after storing `count` bytes of `src`. -/
def Progress.take (p : Progress) (count : Nat) (toread : Int) (src : Bytes) : Progress :=
  { p with
    mem := blit p.mem p.buf count src
    buf := p.buf + count
    len := p.len - toread
    pos := add64 p.pos toread }

/-- The body of the loop for one extent. A hole is filled by counting `toread`
down to zero, so a negative count would wrap around. -/
def readExtent (g : Geometry) (d : Disk) (endpos : Int) (xad : Xad) (p : Progress) : Progress :=
  if isinxt (p.pos >>> g.blklog) xad.offset xad.len then
    let endofcur := u64 (u64 (xad.offset + xad.len) <<< g.blklog)
    let toread :=
      if ofInt64 endpos ≤ endofcur then p.len else s32 (sub64 endofcur p.pos)
    let start := ofInt64 (s32 (sub64 p.pos (u64 (xad.offset <<< g.blklog))))
    { p.take toread.toNat toread (readDiskBlock d (fsb2daddr g xad.start) start) with
      endofprev := u64 (xad.offset + xad.len) }
  else if p.endofprev < xad.offset then
    let toread :=
      if ofInt64 endpos ≤ u64 (xad.offset <<< g.blklog) then p.len
      else s32 (u64 (sub64 xad.offset p.endofprev <<< g.blklog))
    p.take (toread % 2 ^ 32).toNat toread fun _ => 0
  else { p with endofprev := u64 (xad.offset + xad.len) }

/-- The loop, given up after `fuel` rounds. -/
def readLoop (g : Geometry) (d : Disk) (inode : Dinode) (endpos : Int) :
    Nat → Walk → Progress → Option Progress
  | 0, _, _ => none
  | fuel + 1, w, p =>
    if 0 < p.len then
      match nextExtent g d inode w with
      | none => some p
      | some (xad, w) => readLoop g d inode endpos fuel w (readExtent g d endpos xad p)
    else some p

/-- The position the loop reads up to. -/
def endOfRead (file : File) (len : Int) : Int :=
  let endpos := s32 (add64 file.pos len)
  if file.len < ofInt64 endpos then s32 file.len else endpos

def xfsReadData (g : Geometry) (d : Disk) (fuel : Nat) (inode : Dinode) (w : Walk) (file : File)
    (len : Int) (mem : Bytes) : Option Outcome :=
  if inode.format = .local then
    some ⟨len, add64 file.pos len,
      blit mem 0 len.toNat fun i => inode.literal (file.pos + i)⟩
  else do
    let w ← initExtents g d fuel inode w
    let p ← readLoop g d inode (endOfRead file len) fuel w ⟨file.pos, len, 2 ^ 64 - 1, 0, mem⟩
    return ⟨s32 (add64 p.pos (-s32 file.pos)), p.pos, p.mem⟩

/-- `xfs_read`. -/
def xfsRead (g : Geometry) (d : Disk) (fuel : Nat) (inode : Dinode) (w : Walk) (file : File)
    (size : Nat) (mem : Bytes) : Option Outcome :=
  xfsReadData g d fuel inode w file (s32 size) mem

end Yaboot.Xfs
