import Yaboot.Base.Buffer
import Yaboot.Base.Word

/-! Extents of an XFS file in `second/fs_xfs.c`: the disk addresses of file
system blocks and the walk over the records of an inode, either in the inode
itself or in the leaves of its bmap btree. Device reads succeed. -/
namespace Yaboot.Xfs
open Buffer Word

/-- What `xfs_mount` takes from the superblock, with the bounds the format puts
on it. The driver does not keep `agcount`. -/
structure Geometry where
  blklog : Nat
  blklog_ge : 9 ≤ blklog
  blklog_le : blklog ≤ 16
  agblocks : Nat
  agblklog : Nat
  agblocks_pos : 0 < agblocks
  agblocks_le : agblocks ≤ 2 ^ agblklog
  agblklog_le : agblklog ≤ 31
  agcount : Nat
  agcount_lt : agcount < 2 ^ 32

namespace Geometry

def bsize (g : Geometry) : Nat := 2 ^ g.blklog

def bdlog (g : Geometry) : Nat := g.blklog - 9

theorem bsize_pos (g : Geometry) : 0 < g.bsize := Nat.two_pow_pos _

/-- Where the pointers of a btree node start: after as many keys as fit. -/
def btnodePtr0Off (g : Geometry) : Nat := (g.bsize - 24) / 16 * 8 + 24

end Geometry

/-- The whole disk and the byte at which the partition starts. -/
structure Disk where
  bytes : Bytes
  partitionOffset : Nat

/-- `read_disk_block`: the bytes from `start` on in the given 512-byte block. -/
def readDiskBlock (d : Disk) (block start : Nat) : Bytes :=
  fun i => d.bytes (u64 (u64 (block * 512) + d.partitionOffset + start) + i)

/-- A big-endian number of `n` bytes. -/
def be (b : Bytes) (at_ : Nat) : Nat → Nat
  | 0 => 0
  | n + 1 => be b at_ n * 256 + (b (at_ + n)).toNat

theorem be_moved (same : ∀ i < n, mem (at_ + i) = mem' (at' + i)) :
    be mem at_ n = be mem' at' n := by
  induction n with
  | zero => rfl
  | succ n ih =>
    rw [be, be, ih fun i inside => same i (by omega), same n (by omega)]

theorem be_lt (b : Bytes) (start n : Nat) : be b start n < 256 ^ n := by
  induction n with
  | zero => simp [be]
  | succ n ih =>
    have byte := (b (start + n)).toNat_lt
    rw [be, Nat.pow_succ]
    omega

def agb2daddr (g : Geometry) (agno agbno : Nat) : Nat :=
  u64 (u64 (u64 (agno * g.agblocks) + agbno) <<< g.bdlog)

def mask32lo (n : Nat) : Nat := u32 (1 <<< n) - 1

def fsb2daddr (g : Geometry) (fsbno : Nat) : Nat :=
  agb2daddr g (u32 (fsbno >>> g.agblklog)) (u32 (fsbno &&& mask32lo g.agblklog))

/-- `xfs_bmbt_rec_32_t`. -/
structure BmbtRec where
  l0 : Nat
  l1 : Nat
  l2 : Nat
  l3 : Nat
  deriving DecidableEq, Repr

def xtStart (r : BmbtRec) : Nat :=
  ((r.l1 &&& mask32lo 9) <<< 43) ||| (r.l2 <<< 11) ||| (r.l3 >>> 21)

def xtOffset (r : BmbtRec) : Nat := ((r.l0 &&& mask32lo 31) <<< 23) ||| (r.l1 >>> 9)

def xtLen (r : BmbtRec) : Nat := r.l3 &&& mask32lo 21

structure Xad where
  offset : Nat
  start : Nat
  len : Nat
  deriving DecidableEq, Repr

def BmbtRec.xad (r : BmbtRec) : Xad := ⟨xtOffset r, xtStart r, xtLen r⟩

/-- The record stored at a place in memory. -/
def recordAt (b : Bytes) (at_ : Nat) : BmbtRec :=
  ⟨be b at_ 4, be b (at_ + 4) 4, be b (at_ + 8) 4, be b (at_ + 12) 4⟩

def isinxt (key offset len : Nat) : Bool :=
  if offset ≤ key then decide (key < u64 (offset + len)) else false

inductive Format where
  | dev
  | local
  | extents
  | btree
  | uuid
  deriving DecidableEq, Repr

/-- The inode `di_read` left in memory, with the pointer it takes from the root
of a btree. `literal` is `di_u`. -/
structure Dinode where
  format : Format
  nextents : Nat
  nextents_lt : nextents < 2 ^ 32
  literal : Bytes
  ptr0 : Nat

/-- The part of `struct xfs_info` that the walk over the extents changes. The
pointer `xt` is an offset into `di_u`. -/
structure Walk where
  nextents : Nat
  next : Nat
  daddr : Nat
  xt : Nat
  fpos : Nat
  deriving DecidableEq, Repr

/-- `xfs_btree_lblock_t` at a disk address. -/
structure Lblock where
  level : Nat
  numrecs : Nat
  leftsib : Nat
  rightsib : Nat
  deriving DecidableEq, Repr

def lblockAt (d : Disk) (daddr : Nat) : Lblock :=
  let h := readDiskBlock d daddr 0
  ⟨be h 4 2, be h 6 2, be h 8 8, be h 16 8⟩

/-- Starting on a leaf, in `init_extents` and when `next_extent` runs out. -/
def enterLeaf (g : Geometry) (d : Disk) (daddr : Nat) (w : Walk) : Walk :=
  let h := lblockAt d daddr
  { w with daddr := daddr, nextents := h.numrecs, next := fsb2daddr g h.leftsib, fpos := 24 }

/-- The descent of `init_extents` from the block `ptr`, given up after `fuel`
blocks. -/
def descend (g : Geometry) (d : Disk) : Nat → Nat → Walk → Option Walk
  | 0, _, _ => none
  | fuel + 1, ptr, w =>
    let daddr := fsb2daddr g ptr
    if (lblockAt d daddr).level = 0 then some (enterLeaf g d daddr w)
    else
      descend g d fuel (be (readDiskBlock d daddr g.btnodePtr0Off) 0 8) { w with daddr := daddr }

def initExtents (g : Geometry) (d : Disk) (fuel : Nat) (inode : Dinode) (w : Walk) : Option Walk :=
  match inode.format with
  | .extents => some { w with xt := 0, nextents := inode.nextents }
  | .btree => descend g d fuel inode.ptr0 w
  | _ => some w

/-- `next_extent`; `none` is a null pointer. -/
def nextExtent (g : Geometry) (d : Disk) (inode : Dinode) (w : Walk) : Option (Xad × Walk) :=
  match inode.format with
  | .extents =>
    if w.nextents = 0 then none
    else
      some ((recordAt inode.literal w.xt).xad,
        { w with xt := w.xt + 16, nextents := sub32 w.nextents 1 })
  | .btree =>
    if w.nextents = 0 ∧ w.next = 0 then none
    else
      let w := if w.nextents = 0 then enterLeaf g d w.next w else w
      some ((recordAt (readDiskBlock d w.daddr w.fpos) 0).xad,
        { w with fpos := w.fpos + 16, nextents := sub32 w.nextents 1 })
  | _ => none

end Yaboot.Xfs
