import Yaboot.Xfs.Record

/-! Where `di_read` of `second/fs_xfs.c` looks for an inode: its number is taken
apart by shifts, and the parts are put together again by multiplication. -/
namespace Yaboot.Xfs
open Buffer Word

/-! ### Inode numbers -/

/-- What the superblock says about the places of inodes. The block size is an `int`,
and the number of an inode in its group has 32 bits. -/
structure Layout where
  blklog : Nat
  blklog_ge : 9 ≤ blklog
  blklog_le : blklog ≤ 30
  agblocks : Nat
  agblklog : Nat
  agblocks_le : agblocks ≤ 2 ^ agblklog
  agblklog_lt : agblklog < 32
  inopblog : Nat
  agino_le : agblklog + inopblog ≤ 32
  isize : Nat
  inodes : isize * 2 ^ inopblog = 2 ^ blklog
  agcount : Nat
  agcount_lt : agcount < 2 ^ 32
  volume : agcount * agblocks * 2 ^ blklog < 2 ^ 63

/-- `XFS_INO_MASK`. -/
def inoMask (k : Nat) : Nat := u32 (u64 (1 <<< k) - 1)

namespace Layout

def bsize (l : Layout) : Nat := 2 ^ l.blklog

def bdlog (l : Layout) : Nat := l.blklog - 9

def agino2agbno (l : Layout) (agino : Nat) : Nat := agino >>> l.inopblog

def ino2agno (l : Layout) (ino : Nat) : Nat := u32 (ino >>> (l.agblklog + l.inopblog))

def ino2agino (l : Layout) (ino : Nat) : Nat := u32 (ino &&& inoMask (l.agblklog + l.inopblog))

def ino2offset (l : Layout) (ino : Nat) : Nat := ino &&& inoMask l.inopblog

def agb2daddr (l : Layout) (agno agbno : Nat) : Nat :=
  u64 (u64 (u64 (agno * l.agblocks) + agbno) <<< l.bdlog)

def fsb2daddr (l : Layout) (fsbno : Nat) : Nat :=
  l.agb2daddr (u32 (fsbno >>> l.agblklog)) (u32 (fsbno &&& mask32lo l.agblklog))

end Layout

/-- The byte of the disk at which `read_disk_block` starts. -/
def diskPos (partitionOffset block start : Nat) : Nat :=
  u64 (u64 (block * 512) + partitionOffset + start)

/-- The byte of the disk at which `di_read` starts to read `isize` bytes. -/
def Layout.diRead (l : Layout) (partitionOffset ino : Nat) : Nat :=
  let agno := l.ino2agno ino
  let agino := l.ino2agino ino
  let agbno := l.agino2agbno agino
  let offset := l.ino2offset ino
  let daddr := l.agb2daddr agno agbno
  diskPos partitionOffset daddr (offset * l.isize)

/-- `partition_offset`, as `xfs_open` sets it. -/
def partitionOffset (partStart : UInt32) (blocksize : UInt16) : Nat :=
  partStart.toNat * blocksize.toNat

/-! ### What is asked of them -/

/-- The numbers of inodes on the volume: the group is one of its groups, and the
block one of the group's blocks. -/
def Layout.Numbers (l : Layout) (ino : Nat) : Prop :=
  ino / 2 ^ (l.agblklog + l.inopblog) < l.agcount ∧
    ino / 2 ^ l.inopblog % 2 ^ l.agblklog < l.agblocks

/-- The parts make up the number, and the inode lies in the block they address. -/
structure Layout.Addressed (l : Layout) (base ino : Nat) : Prop where
  recomposed : l.ino2agno ino <<< (l.agblklog + l.inopblog) |||
    l.agino2agbno (l.ino2agino ino) <<< l.inopblog ||| l.ino2offset ino = ino
  after : diskPos base
    (l.fsb2daddr (l.ino2agno ino <<< l.agblklog ||| l.agino2agbno (l.ino2agino ino))) 0 ≤
      l.diRead base ino
  before : l.diRead base ino + l.isize ≤ diskPos base
    (l.fsb2daddr (l.ino2agno ino <<< l.agblklog ||| l.agino2agbno (l.ino2agino ino))) 0 + l.bsize

/-! ### Parts of a number -/

variable {l : Layout} {base ino : Nat}

/-- The driver's addresses for files are computed like those for inodes. -/
theorem agb2daddr_layout (g : Geometry) (blocks : g.agblocks = l.agblocks)
    (log : g.blklog = l.blklog) : agb2daddr g = l.agb2daddr := by
  unfold agb2daddr Layout.agb2daddr Geometry.bdlog Layout.bdlog
  rw [blocks, log]

theorem readDiskBlock_diskPos (d : Disk) (block start : Nat) :
    readDiskBlock d block start = fun i => d.bytes (diskPos d.partitionOffset block start + i) := rfl

theorem and_inoMask (small : k ≤ 32) : x &&& inoMask k = x % 2 ^ k := by
  have bound : 2 ^ k ≤ 2 ^ 32 := Nat.pow_le_pow_right (by decide) small
  have positive := Nat.two_pow_pos k
  unfold inoMask
  rw [Nat.one_shiftLeft, u64_of_lt (by omega), u32_of_lt (by omega),
    Nat.and_two_pow_sub_one_eq_mod]

namespace Layout

theorem ino2agno_eq (numbers : l.Numbers ino) :
    l.ino2agno ino = ino / 2 ^ (l.agblklog + l.inopblog) := by
  have count := l.agcount_lt
  have group := numbers.1
  unfold ino2agno
  rw [Nat.shiftRight_eq_div_pow, u32_of_lt (by omega)]

theorem agbno_eq (ino : Nat) :
    l.agino2agbno (l.ino2agino ino) = ino / 2 ^ l.inopblog % 2 ^ l.agblklog := by
  have bound : 2 ^ (l.agblklog + l.inopblog) ≤ 2 ^ 32 :=
    Nat.pow_le_pow_right (by decide) l.agino_le
  have inside := Nat.mod_lt ino (Nat.two_pow_pos (l.agblklog + l.inopblog))
  unfold agino2agbno ino2agino
  rw [and_inoMask l.agino_le, u32_of_lt (by omega), Nat.shiftRight_eq_div_pow, Nat.add_comm,
    Nat.pow_add, Nat.mod_mul_right_div_self]

theorem ino2offset_eq (ino : Nat) : l.ino2offset ino = ino % 2 ^ l.inopblog :=
  and_inoMask (Nat.le_trans (Nat.le_add_left _ _) l.agino_le)

theorem recompose (numbers : l.Numbers ino) :
    l.ino2agno ino <<< (l.agblklog + l.inopblog) |||
      l.agino2agbno (l.ino2agino ino) <<< l.inopblog ||| l.ino2offset ino = ino := by
  have low := Nat.mod_lt ino (Nat.two_pow_pos l.inopblog)
  have inGroup : ino / 2 ^ l.inopblog % 2 ^ l.agblklog * 2 ^ l.inopblog + ino % 2 ^ l.inopblog =
      ino % 2 ^ (l.agblklog + l.inopblog) := by
    rw [Nat.add_comm l.agblklog, Nat.pow_add, Nat.mod_mul, Nat.add_comm, Nat.mul_comm]
  have bound := Nat.mod_lt ino (Nat.two_pow_pos (l.agblklog + l.inopblog))
  rw [ino2agno_eq numbers, agbno_eq, ino2offset_eq, Nat.or_assoc, shiftLeft_or low, inGroup,
    shiftLeft_or bound, Nat.mul_comm]
  exact Nat.div_add_mod _ _

/-! ### Places on the disk -/

/-- The number of the block in the volume, counted through all groups. -/
def block (l : Layout) (agno agbno : Nat) : Nat := agno * l.agblocks + agbno

theorem block_lt (group : agno < l.agcount) (inside : agbno < l.agblocks) :
    (l.block agno agbno + 1) * l.bsize < 2 ^ 63 := by
  have groups : (agno + 1) * l.agblocks ≤ l.agcount * l.agblocks := Nat.mul_le_mul_right _ group
  have count : l.block agno agbno + 1 ≤ l.agcount * l.agblocks := by
    rw [Nat.add_mul] at groups
    unfold block
    omega
  exact Nat.lt_of_le_of_lt (Nat.mul_le_mul_right _ count) l.volume

/-- The address of a block in its group is the place of the block on the disk. -/
theorem daddr_pos (group : agno < l.agcount) (inside : agbno < l.agblocks)
    (offset : base < 2 ^ 48) (fits : start ≤ l.bsize) :
    diskPos base (l.agb2daddr agno agbno) start = base + l.block agno agbno * l.bsize + start := by
  have bound := block_lt group inside
  have sector : l.bsize = 2 ^ l.bdlog * 512 := by
    have log := l.blklog_ge
    unfold bsize bdlog
    rw [show (512 : Nat) = 2 ^ 9 from rfl, ← Nat.pow_add, Nat.sub_add_cancel log]
  have place : l.block agno agbno * 2 ^ l.bdlog * 512 = l.block agno agbno * l.bsize := by
    rw [sector, Nat.mul_assoc]
  have less : l.block agno agbno ≤ l.block agno agbno * 2 ^ l.bdlog :=
    Nat.le_mul_of_pos_right _ (Nat.two_pow_pos _)
  rw [Nat.add_mul, Nat.one_mul] at bound
  generalize product : l.block agno agbno * l.bsize = bytes at *
  generalize shifted : l.block agno agbno * 2 ^ l.bdlog = sectors at *
  have first : u64 (u64 (agno * l.agblocks) + agbno) = l.block agno agbno := by
    have shape : l.block agno agbno = agno * l.agblocks + agbno := rfl
    rw [shape] at less ⊢
    rw [u64_of_lt (n := agno * l.agblocks) (by omega), u64_of_lt (by omega)]
  unfold diskPos agb2daddr
  rw [first, Nat.shiftLeft_eq, shifted, u64_of_lt (n := sectors) (by omega), place,
    u64_of_lt (n := bytes) (by omega), u64_of_lt (by omega), Nat.add_comm base]

/-- The two ways to address a block lead to the same place. -/
theorem fsb2daddr_eq (group : agno < 2 ^ 32) (inside : agbno < 2 ^ l.agblklog) :
    l.fsb2daddr (agno <<< l.agblklog ||| agbno) = l.agb2daddr agno agbno := by
  have small : 2 ^ l.agblklog < 2 ^ 32 := Nat.pow_lt_pow_right (by decide) l.agblklog_lt
  unfold fsb2daddr
  rw [and_mask32lo l.agblklog_lt, Nat.shiftRight_eq_div_pow, shiftLeft_or inside,
    Nat.mul_comm, Nat.mul_add_div (Nat.two_pow_pos _), Nat.mul_add_mod,
    Nat.div_eq_of_lt inside, Nat.mod_eq_of_lt inside, Nat.add_zero, u32_of_lt group,
    u32_of_lt (by omega)]

theorem offset_fits (ino : Nat) : (l.ino2offset ino + 1) * l.isize ≤ l.bsize := by
  have low := Nat.mod_lt ino (Nat.two_pow_pos l.inopblog)
  rw [ino2offset_eq]
  calc (ino % 2 ^ l.inopblog + 1) * l.isize ≤ 2 ^ l.inopblog * l.isize :=
        Nat.mul_le_mul_right _ low
    _ = l.bsize := by rw [Nat.mul_comm]; exact l.inodes

/-- Where an inode is: so many inodes behind the start of its block. -/
theorem diRead_eq (numbers : l.Numbers ino) (offset : base < 2 ^ 48) :
    l.diRead base ino = base + l.block (ino / 2 ^ (l.agblklog + l.inopblog))
      (ino / 2 ^ l.inopblog % 2 ^ l.agblklog) * l.bsize + ino % 2 ^ l.inopblog * l.isize := by
  have fits := offset_fits (l := l) ino
  rw [Nat.add_mul] at fits
  rw [diRead, ino2agno_eq numbers, agbno_eq, daddr_pos numbers.1 numbers.2 offset (by omega),
    ino2offset_eq]

theorem addressed (numbers : l.Numbers ino) (offset : base < 2 ^ 48) : l.Addressed base ino := by
  have fits := offset_fits (l := l) ino
  have count := l.agcount_lt
  have place := daddr_pos numbers.1 numbers.2 offset (Nat.zero_le _)
  have start : diskPos base
      (l.fsb2daddr (l.ino2agno ino <<< l.agblklog ||| l.agino2agbno (l.ino2agino ino))) 0 =
      base + l.block (ino / 2 ^ (l.agblklog + l.inopblog))
        (ino / 2 ^ l.inopblog % 2 ^ l.agblklog) * l.bsize := by
    have group := numbers.1
    rw [ino2agno_eq numbers, agbno_eq, fsb2daddr_eq (by omega) (Nat.mod_lt _ (Nat.two_pow_pos _)),
      place, Nat.add_zero]
  rw [Nat.add_mul, ino2offset_eq] at fits
  refine ⟨recompose numbers, ?_, ?_⟩
  · rw [start, diRead_eq numbers offset]
    exact Nat.le_add_right _ _
  · rw [start, diRead_eq numbers offset]
    omega

/-! ### Two inodes -/

theorem block_injective (inside : agbno < l.agblocks) (inside' : agbno' < l.agblocks)
    (same : l.block agno agbno = l.block agno' agbno') : agno = agno' ∧ agbno = agbno' := by
  unfold block at same
  have group := congrArg (· / l.agblocks) same
  have rest := congrArg (· % l.agblocks) same
  have positive : 0 < l.agblocks := by omega
  simp only [Nat.mul_comm _ l.agblocks, Nat.mul_add_div positive, Nat.div_eq_of_lt inside,
    Nat.div_eq_of_lt inside', Nat.mul_add_mod, Nat.mod_eq_of_lt inside, Nat.mod_eq_of_lt inside',
    Nat.add_zero] at group rest
  exact ⟨group, rest⟩

/-- The parts of a number determine it. -/
theorem number_eq (group : ino / 2 ^ (l.agblklog + l.inopblog) = ino' / 2 ^ (l.agblklog + l.inopblog))
    (block : ino / 2 ^ l.inopblog % 2 ^ l.agblklog = ino' / 2 ^ l.inopblog % 2 ^ l.agblklog)
    (offset : ino % 2 ^ l.inopblog = ino' % 2 ^ l.inopblog) : ino = ino' := by
  have upper : ino / 2 ^ l.inopblog = ino' / 2 ^ l.inopblog := by
    rw [Nat.add_comm, Nat.pow_add, ← Nat.div_div_eq_div_mul, ← Nat.div_div_eq_div_mul] at group
    rw [← Nat.div_add_mod (ino / 2 ^ l.inopblog) (2 ^ l.agblklog), group, block, Nat.div_add_mod]
  rw [← Nat.div_add_mod ino (2 ^ l.inopblog), upper, offset, Nat.div_add_mod]

/-- Two inodes of the volume do not share a byte. -/
theorem apart (numbers : l.Numbers ino) (numbers' : l.Numbers ino') (other : ino ≠ ino')
    (offset : base < 2 ^ 48) :
    l.diRead base ino + l.isize ≤ l.diRead base ino' ∨
      l.diRead base ino' + l.isize ≤ l.diRead base ino := by
  have fits := offset_fits (l := l) ino
  have fits' := offset_fits (l := l) ino'
  rw [ino2offset_eq, Nat.add_mul, Nat.one_mul] at fits fits'
  rw [diRead_eq numbers offset, diRead_eq numbers' offset]
  generalize place : l.block (ino / 2 ^ (l.agblklog + l.inopblog))
    (ino / 2 ^ l.inopblog % 2 ^ l.agblklog) = b
  generalize place' : l.block (ino' / 2 ^ (l.agblklog + l.inopblog))
    (ino' / 2 ^ l.inopblog % 2 ^ l.agblklog) = b'
  rcases Nat.lt_trichotomy b b' with below | same | above
  · have next := Nat.mul_le_mul_right l.bsize below
    rw [Nat.succ_mul] at next
    exact .inl (by omega)
  · have parts := block_injective numbers.2 numbers'.2 (place.trans (same.trans place'.symm))
    rcases Nat.lt_trichotomy (ino % 2 ^ l.inopblog) (ino' % 2 ^ l.inopblog) with low | equal | high
    · have next := Nat.mul_le_mul_right l.isize low
      rw [Nat.succ_mul] at next
      exact .inl (by rw [same]; omega)
    · exact absurd (number_eq parts.1 parts.2 equal) other
    · have next := Nat.mul_le_mul_right l.isize high
      rw [Nat.succ_mul] at next
      exact .inr (by rw [same]; omega)
  · have next := Nat.mul_le_mul_right l.bsize above
    rw [Nat.succ_mul] at next
    exact .inr (by omega)

end Layout

theorem partitionOffset_lt (partStart : UInt32) (blocksize : UInt16) :
    partitionOffset partStart blocksize < 2 ^ 48 := by
  have start := partStart.toNat_lt
  have size := blocksize.toNat_lt
  calc partitionOffset partStart blocksize
      ≤ 2 ^ 32 * blocksize.toNat := Nat.mul_le_mul_right _ (Nat.le_of_lt start)
    _ < 2 ^ 48 := by omega

/-- Every inode number of the volume is turned into a place inside the block it names, by the shifts
of `ino2agno`, `ino2agbno` and `ino2offset`, and no two inodes are read from the same bytes. -/
theorem inodes_addressed (l : Layout) (partStart : UInt32) (blocksize : UInt16)
    (numbers : l.Numbers ino) :
    l.Addressed (partitionOffset partStart blocksize) ino ∧
      ∀ ino', l.Numbers ino' → ino ≠ ino' →
        l.diRead (partitionOffset partStart blocksize) ino + l.isize ≤
            l.diRead (partitionOffset partStart blocksize) ino' ∨
          l.diRead (partitionOffset partStart blocksize) ino' + l.isize ≤
            l.diRead (partitionOffset partStart blocksize) ino :=
  have offset := partitionOffset_lt partStart blocksize
  ⟨Layout.addressed numbers offset, fun _ numbers' other =>
    Layout.apart numbers numbers' other offset⟩

/-- Three groups of 12 blocks of 4096 bytes, with 16 inodes in a block. -/
def smallLayout : Layout where
  blklog := 12
  blklog_ge := by decide
  blklog_le := by decide
  agblocks := 12
  agblklog := 4
  agblocks_le := by decide
  agblklog_lt := by decide
  inopblog := 4
  agino_le := by decide
  isize := 256
  inodes := by decide
  agcount := 3
  agcount_lt := by decide
  volume := by decide

/-- The fourth inode in block 11 of the second group. -/
theorem last_block_addressed : smallLayout.Addressed (partitionOffset 64 512) 435 :=
  (inodes_addressed smallLayout 64 512 ⟨by decide, by decide⟩).1

end Yaboot.Xfs
