import Yaboot.Xfs.RequestProofs

/-! The walk over the leaves of a bmap btree. It follows the left siblings and
expects zero behind the last leaf, but the chain starts at the leftmost leaf,
whose left sibling is the null block number, and no address computed from that
is zero. -/
namespace Yaboot.Xfs
open Buffer Word

/-- `NULLDFSBNO`, the sibling of a block at either end of its level. -/
def nullDfsbno : Nat := 2 ^ 64 - 1

/-- A file system block of the volume other than the first, which holds the
superblock. -/
structure InVolume (g : Geometry) (block : Nat) : Prop where
  nonzero : block ≠ 0
  group : block / 2 ^ g.agblklog < g.agcount
  inside : block % 2 ^ g.agblklog < g.agblocks

def header (g : Geometry) (d : Disk) (block : Nat) : Lblock := lblockAt d (fsb2daddr g block)

/-- The extents recorded in a leaf. -/
def leafExtents (g : Geometry) (d : Disk) (block : Nat) : List Xad :=
  (List.range (header g d block).numrecs).map fun i =>
    (recordAt (readDiskBlock d (fsb2daddr g block) (24 + 16 * i)) 0).xad

/-- A subtree on disk: its height, its block, its leaves from left to right and
all its blocks. -/
inductive Subtree (g : Geometry) (d : Disk) : Nat → Nat → List Nat → List Nat → Prop where
  | leaf (inside : InVolume g block) (level : (header g d block).level = 0)
      (fits : 24 + 16 * (header g d block).numrecs ≤ g.bsize) : Subtree g d 0 block [block] [block]
  | node (inside : InVolume g block) (children : List (Nat × List Nat × List Nat))
      (nonempty : children ≠ []) (level : (header g d block).level = height + 1)
      (count : (header g d block).numrecs = children.length)
      (pointers : ∀ i c, children[i]? = some c →
        be (readDiskBlock d (fsb2daddr g block) (g.btnodePtr0Off + 8 * i)) 0 8 = c.1)
      (below : ∀ c ∈ children, Subtree g d height c.1 c.2.1 c.2.2) :
      Subtree g d (height + 1) block (children.flatMap fun c => c.2.1)
        (block :: children.flatMap fun c => c.2.2)

/-- The bmap btree of an inode: the children of the root in the inode, of which
`ptr0` is the first, with the leaves linked in order and every level closed
under siblings. -/
structure BmapTree (g : Geometry) (d : Disk) (inode : Dinode) (leaves blocks : List Nat) : Prop where
  format : inode.format = .btree
  roots : ∃ (height : Nat) (children : List (Nat × List Nat × List Nat)),
    (children.head?.map fun c => c.1) = some inode.ptr0 ∧
      (∀ c ∈ children, Subtree g d height c.1 c.2.1 c.2.2) ∧
      leaves = (children.flatMap fun c => c.2.1) ∧ blocks = children.flatMap fun c => c.2.2
  left : ∀ i b, leaves[i]? = some b →
    (header g d b).leftsib = if i = 0 then nullDfsbno else leaves.getD (i - 1) 0
  right : ∀ i b, leaves[i]? = some b → (header g d b).rightsib = leaves.getD (i + 1) nullDfsbno
  siblings : ∀ b ∈ blocks, (header g d b).leftsib = nullDfsbno ∨ (header g d b).leftsib ∈ blocks
  sorted : (leaves.flatMap (leafExtents g d)).Pairwise fun e f => e.offset + e.len ≤ f.offset

/-- Two disks that hold the same bytes in the given blocks. -/
def SameBlocks (g : Geometry) (blocks : List Nat) (d d' : Disk) : Prop :=
  d'.partitionOffset = d.partitionOffset ∧
    ∀ b ∈ blocks, ∀ i < g.bsize, readDiskBlock d' (fsb2daddr g b) 0 i =
      readDiskBlock d (fsb2daddr g b) 0 i

/-- `init_extents` followed by `next_extent` enumerates the leaves. -/
def Enumerates (g : Geometry) (d : Disk) (inode : Dinode) (leaves : List Nat) : Prop :=
  ∀ w, ∃ fuel w', initExtents g d fuel inode w = some w' ∧
    Yields g d inode (leaves.flatMap (leafExtents g d)) w'

/-! ### Addresses that are not zero -/

theorem null_group : ∀ k, k ≤ 31 → u32 (nullDfsbno >>> k) = 2 ^ 32 - 1 := by decide +kernel

theorem null_block : ∀ k, k ≤ 31 → u32 (nullDfsbno &&& mask32lo k) = 2 ^ k - 1 := by decide +kernel

/-- The address of the null block number is not zero, even modulo 2^64: the
block it names is the last of the last allocation group a number can name. -/
theorem fsb2daddr_null (g : Geometry) : fsb2daddr g nullDfsbno ≠ 0 := by
  have le := g.agblocks_le
  have positive := g.agblocks_pos
  have log := g.blklog_le
  have small : 2 ^ g.agblklog ≤ 2 ^ 31 := Nat.pow_le_pow_right (by decide) g.agblklog_le
  have parity : 2 ^ g.agblklog = 1 ∨ ∃ half, 2 ^ g.agblklog = 2 * half := by
    cases g.agblklog with
    | zero => exact .inl rfl
    | succ k => exact .inr ⟨2 ^ k, by rw [Nat.pow_succ, Nat.mul_comm]⟩
  rw [fsb2daddr, null_group _ g.agblklog_le, null_block _ g.agblklog_le, agb2daddr]
  generalize 2 ^ g.agblklog = p at *
  have group : u64 ((2 ^ 32 - 1) * g.agblocks) = (2 ^ 32 - 1) * g.agblocks := u64_of_lt (by omega)
  have block : u64 ((2 ^ 32 - 1) * g.agblocks + (p - 1)) = (2 ^ 32 - 1) * g.agblocks + (p - 1) :=
    u64_of_lt (by omega)
  rw [group, block, Nat.shiftLeft_eq, u64]
  intro zero
  have divides : 2 ^ 64 ∣ ((2 ^ 32 - 1) * g.agblocks + (p - 1)) * 2 ^ g.bdlog :=
    Nat.dvd_of_mod_eq_zero zero
  have power : 2 ^ 64 = 2 ^ (64 - g.bdlog) * 2 ^ g.bdlog := by
    rw [← Nat.pow_add]
    congr 1
    unfold Geometry.bdlog
    omega
  rw [power] at divides
  have high : 2 ^ 57 ∣ (2 ^ 32 - 1) * g.agblocks + (p - 1) := by
    refine dvd_trans (Nat.pow_dvd_pow 2 ?_) (Nat.dvd_of_mul_dvd_mul_right (Nat.two_pow_pos _) divides)
    unfold Geometry.bdlog
    omega
  obtain ⟨n, multiple⟩ := high
  clear divides power zero group block
  have scaled : 2 ^ 32 * (2 ^ 25 * n) + g.agblocks = 2 ^ 32 * g.agblocks + (p - 1) := by omega
  have quotient : 2 ^ 25 * n = g.agblocks := by omega
  have last : g.agblocks = p - 1 := by omega
  rcases parity with one | ⟨half, even⟩
  · omega
  · omega

theorem InVolume.address_end {g : Geometry} {d : Disk} (holds : d.Holds g)
    (inside : InVolume g block) : blockAddress g d block + g.bsize ≤ 2 ^ 64 := by
  have limit := blockAddress_end holds inside.group (show _ + 1 ≤ g.agblocks from inside.inside)
  rwa [Nat.one_mul] at limit

theorem InVolume.fsb2daddr_ne {g : Geometry} {d : Disk} (holds : d.Holds g)
    (inside : InVolume g block) : fsb2daddr g block ≠ 0 := by
  have limit := inside.address_end holds
  have size := g.bsize_pos
  unfold blockAddress at limit
  rw [fsb2daddr_eq inside.group (by omega)]
  have raw : rawBlock g block ≠ 0 := by
    intro zero
    obtain ⟨groups, rest⟩ := Nat.add_eq_zero_iff.mp zero
    have split := Nat.div_add_mod block (2 ^ g.agblklog)
    have positive := g.agblocks_pos
    rcases Nat.mul_eq_zero.mp groups with none | none
    · rw [none, rest] at split
      exact inside.nonzero split.symm
    · omega
  exact Nat.mul_ne_zero raw (Nat.two_pow_pos _).ne'

/-! ### A disk on which the walk does not end -/

theorem lblockAt_congr {d d' : Disk}
    (same : ∀ i < 24, readDiskBlock d' daddr' 0 i = readDiskBlock d daddr 0 i) :
    lblockAt d' daddr' = lblockAt d daddr := by
  have part : ∀ start n, start + n ≤ 24 →
      be (readDiskBlock d' daddr' 0) start n = be (readDiskBlock d daddr 0) start n :=
    fun start n fits => be_moved fun i before => same _ (by omega)
  simp only [lblockAt, part 4 2 (by decide), part 6 2 (by decide), part 8 8 (by decide),
    part 16 8 (by decide)]

/-- The disk that holds the given blocks of `d` and otherwise all ones. -/
def isolate (g : Geometry) (d : Disk) (blocks : List Nat) : Disk where
  bytes := fun a =>
    if ∃ b ∈ blocks, blockAddress g d b ≤ a ∧ a < blockAddress g d b + g.bsize then d.bytes a
    else 255
  partitionOffset := d.partitionOffset

theorem bsize_dvd (g : Geometry) : g.bsize ∣ 2 ^ 64 :=
  Nat.pow_dvd_pow 2 (g.blklog_le.trans (by decide))

/-- Every block a number can name starts on a block boundary of the partition. -/
theorem address_mod (g : Geometry) (d : Disk) (fsbno : Nat) :
    u64 (u64 (fsb2daddr g fsbno * 512) + d.partitionOffset) % g.bsize =
      d.partitionOffset % g.bsize := by
  have sectors : 2 ^ g.bdlog ∣ fsb2daddr g fsbno := by
    have whole : 2 ^ g.bdlog ∣ 2 ^ 64 :=
      Nat.pow_dvd_pow 2 ((Nat.sub_le _ _).trans (g.blklog_le.trans (by decide)))
    rw [fsb2daddr, agb2daddr, u64, Nat.shiftLeft_eq, Nat.dvd_mod_iff whole]
    exact Nat.dvd_mul_left _ _
  have block : g.bsize ∣ u64 (fsb2daddr g fsbno * 512) := by
    rw [u64, Nat.dvd_mod_iff (bsize_dvd g), g.bsize_eq]
    exact Nat.mul_dvd_mul_right sectors 512
  obtain ⟨n, multiple⟩ := block
  rw [multiple, u64, Nat.mod_mod_of_dvd _ (bsize_dvd g), Nat.mul_add_mod]

/-- A window on a block boundary that overlaps a block is that block. -/
theorem eq_of_overlap {a b i size : Nat} (same : a % size = b % size) (short : i < size)
    (above : b ≤ a + i) (below : a + i < b + size) : a = b := by
  have ahead := Nat.sub_mod_eq_zero_of_mod_eq same.symm
  have behind := Nat.sub_mod_eq_zero_of_mod_eq same
  rw [Nat.mod_eq_of_lt (by omega)] at ahead behind
  omega

/-- On the isolated disk a header is one of the tree's, or has no left sibling. -/
theorem isolate_header {g : Geometry} {d : Disk} {blocks : List Nat} (holds : d.Holds g)
    (inside : ∀ b ∈ blocks, InVolume g b) (fsbno : Nat) :
    (∃ b ∈ blocks, header g (isolate g d blocks) fsbno = header g d b) ∨
      (header g (isolate g d blocks) fsbno).leftsib = nullDfsbno := by
  have size : 2 ^ 9 ≤ 2 ^ g.blklog := Nat.pow_le_pow_right (by decide) g.blklog_ge
  rw [← Geometry.bsize] at size
  obtain ⟨a, start⟩ : ∃ a, a = u64 (u64 (fsb2daddr g fsbno * 512) + d.partitionOffset) := ⟨_, rfl⟩
  have read : ∀ i, readDiskBlock (isolate g d blocks) (fsb2daddr g fsbno) 0 i =
      (isolate g d blocks).bytes (a + i) := fun i => by rw [start]; rfl
  by_cases found : ∃ b ∈ blocks, a = blockAddress g d b
  · obtain ⟨b, member, same⟩ := found
    refine .inl ⟨b, member, lblockAt_congr fun i before => ?_⟩
    have limit := (inside b member).address_end holds
    have known : ∃ b ∈ blocks, blockAddress g d b ≤ a + i ∧ a + i < blockAddress g d b + g.bsize :=
      ⟨b, member, by omega, by omega⟩
    rw [read, readDiskBlock_eq (inside b member).group (by omega), Nat.add_zero, ← same]
    exact if_pos known
  · have blank : ∀ i < 24, readDiskBlock (isolate g d blocks) (fsb2daddr g fsbno) 0 i = 255 := by
      intro i before
      rw [read]
      apply if_neg
      rintro ⟨b, member, above, below⟩
      apply found
      refine ⟨b, member, ?_⟩
      have mod : a % g.bsize = d.partitionOffset % g.bsize := by
        rw [start]
        exact address_mod g d fsbno
      have mod' : blockAddress g d b % g.bsize = d.partitionOffset % g.bsize := by
        rw [blockAddress, Nat.add_mul_mod_self_right]
      exact eq_of_overlap (mod.trans mod'.symm) (by omega) above below
    refine .inr ?_
    have sib : (header g (isolate g d blocks) fsbno).leftsib = be (fun _ => 255) 8 8 :=
      be_moved fun i before => blank _ (by omega)
    rw [sib]
    decide

theorem Subtree.inVolume {g : Geometry} {d : Disk} (tree : Subtree g d height root leaves blocks) :
    ∀ b ∈ blocks, InVolume g b := by
  induction tree with
  | leaf inside =>
    intro b member
    rwa [List.mem_singleton.mp member]
  | node inside children _ _ _ _ _ ih =>
    intro b member
    rcases List.mem_cons.mp member with rfl | below
    · exact inside
    · obtain ⟨c, child, member⟩ := List.mem_flatMap.mp below
      exact ih c child b member

theorem BmapTree.inVolume {g : Geometry} {d : Disk} (tree : BmapTree g d inode leaves blocks) :
    ∀ b ∈ blocks, InVolume g b := by
  obtain ⟨height, children, -, below, -, rfl⟩ := tree.roots
  intro b member
  obtain ⟨c, child, member⟩ := List.mem_flatMap.mp member
  exact (below c child).inVolume b member

theorem isolate_sameBlocks {g : Geometry} {d : Disk} {blocks : List Nat} (holds : d.Holds g)
    (inside : ∀ b ∈ blocks, InVolume g b) : SameBlocks g blocks d (isolate g d blocks) := by
  refine ⟨rfl, fun b member i before => ?_⟩
  have limit := (inside b member).address_end holds
  have size := g.bsize_pos
  have same : blockAddress g (isolate g d blocks) b = blockAddress g d b := rfl
  rw [readDiskBlock_eq (inside b member).group (by omega),
    readDiskBlock_eq (inside b member).group (by omega), same]
  exact if_pos ⟨b, member, by omega, by omega⟩

/-- The walk is on a leaf with another one to go to. -/
def Live (g : Geometry) (w : Walk) : Prop := ∃ fsbno, w.next = fsb2daddr g fsbno ∧ w.next ≠ 0

section

variable {g : Geometry} {d : Disk} {inode : Dinode} {leaves blocks : List Nat} (holds : d.Holds g)
  (tree : BmapTree g d inode leaves blocks)

include holds tree

theorem enterLeaf_live (fsbno : Nat) (w : Walk) :
    Live g (enterLeaf g (isolate g d blocks) (fsb2daddr g fsbno) w) := by
  refine ⟨_, rfl, ?_⟩
  rcases isolate_header holds tree.inVolume fsbno with ⟨b, member, same⟩ | null
  · rw [enterLeaf, ← header, same]
    rcases tree.siblings b member with null | sibling
    · rw [null]
      exact fsb2daddr_null g
    · exact (tree.inVolume _ sibling).fsb2daddr_ne holds
  · rw [enterLeaf, ← header, null]
    exact fsb2daddr_null g

theorem descend_live (started : descend g (isolate g d blocks) fuel ptr w = some w') : Live g w' := by
  induction fuel generalizing ptr w with
  | zero => cases started
  | succ fuel ih =>
    rw [descend] at started
    split at started
    · cases started
      exact enterLeaf_live holds tree ptr w
    · exact ih started

theorem nextExtent_live (live : Live g w) :
    ∃ e w', nextExtent g (isolate g d blocks) inode w = some (e, w') ∧ Live g w' := by
  obtain ⟨fsbno, address, more⟩ := live
  simp only [nextExtent, tree.format, more, and_false, ↓reduceIte]
  refine ⟨_, _, rfl, ?_⟩
  split
  · obtain ⟨next, same, more⟩ := enterLeaf_live holds tree fsbno w
    rw [← address] at same more
    exact ⟨next, same, more⟩
  · exact ⟨fsbno, address, more⟩

theorem not_yields (live : Live g w) (extents : List Xad) :
    ¬ Yields g (isolate g d blocks) inode extents w := by
  induction extents generalizing w with
  | nil =>
    intro ended
    obtain ⟨e, w', called, -⟩ := nextExtent_live holds tree live
    rw [Yields, called] at ended
    cases ended
  | cons e rest ih =>
    rintro ⟨w', called, yields⟩
    obtain ⟨e', w'', called', live'⟩ := nextExtent_live holds tree live
    rw [called] at called'
    cases called'
    exact ih live' yields

end

/-! ### A tree with a single leaf -/

theorem Subtree.leaves_ne {g : Geometry} {d : Disk} (tree : Subtree g d height root leaves blocks) :
    leaves ≠ [] := by
  induction tree with
  | leaf => simp
  | node inside children nonempty level count pointers below ih =>
    obtain ⟨c, rest, rfl⟩ := List.exists_cons_of_ne_nil nonempty
    simp [ih c (by simp)]

/-- The descent ends on the leftmost leaf. -/
theorem Subtree.descend {g : Geometry} {d : Disk} (tree : Subtree g d height root leaves blocks)
    (leftmost : leaves.head? = some b) (started : Xfs.descend g d fuel root w = some w') :
    ∃ w₀, w' = enterLeaf g d (fsb2daddr g b) w₀ := by
  induction tree generalizing fuel w with
  | leaf inside level fits =>
    cases fuel with
    | zero => cases started
    | succ fuel =>
      obtain rfl : _ = b := by simpa using leftmost
      rw [header] at level
      simp only [Xfs.descend, level, ↓reduceIte, Option.some.injEq] at started
      exact ⟨w, started.symm⟩
  | node inside children nonempty level count pointers below ih =>
    cases fuel with
    | zero => cases started
    | succ fuel =>
      obtain ⟨c, rest, rfl⟩ := List.exists_cons_of_ne_nil nonempty
      have first := pointers 0 c rfl
      rw [Nat.mul_zero, Nat.add_zero] at first
      have inFirst : c.2.1.head? = some b := by
        obtain ⟨x, xs, child⟩ := List.exists_cons_of_ne_nil (below c (by simp)).leaves_ne
        simpa [child] using leftmost
      rw [header] at level
      simp only [Xfs.descend, level, Nat.succ_ne_zero, ↓reduceIte, first] at started
      exact ih c (by simp) inFirst started

/-- When the records of a leaf are used up and another address is set, there is
no end. -/
theorem not_yields_leaf {g : Geometry} {d : Disk} {inode : Dinode} (format : inode.format = .btree)
    (count : w.nextents = extents.length) (small : w.nextents < 2 ^ 32) (more : w.next ≠ 0) :
    ¬ Yields g d inode extents w := by
  induction extents generalizing w with
  | nil =>
    intro ended
    simp [Yields, nextExtent, format, more] at ended
  | cons e rest ih =>
    rintro ⟨w', called, yields⟩
    rw [List.length_cons] at count
    have some_left : w.nextents ≠ 0 := by omega
    simp only [nextExtent, format, some_left, false_and, ↓reduceIte, Option.some.injEq,
      Prod.mk.injEq] at called
    obtain ⟨-, stepped⟩ := called
    have left : w'.nextents = rest.length := by
      rw [← stepped]
      exact (sub32_of_le small (by omega)).trans (by omega)
    have next : w'.next = w.next := by rw [← stepped]
    exact ih left (by omega) (by rwa [next]) yields

/-- A tree with one leaf is not enumerated: behind the leaf its sibling of all ones is read. -/
theorem single_leaf_not_enumerated {g : Geometry} {d : Disk}
    (tree : BmapTree g d inode [b] blocks) : ¬ Enumerates g d inode [b] := by
  intro right
  obtain ⟨fuel, w, started, yields⟩ := right ⟨0, 0, 0, 0, 0⟩
  simp only [initExtents, tree.format] at started
  obtain ⟨height, children, first, below, whole, -⟩ := tree.roots
  have leftmost : ∃ w₀, w = enterLeaf g d (fsb2daddr g b) w₀ := by
    cases children with
    | nil => cases first
    | cons c rest =>
      have child := below c (by simp)
      have root : c.1 = inode.ptr0 := by simpa using first
      rw [← root] at started
      obtain ⟨x, xs, split⟩ := List.exists_cons_of_ne_nil child.leaves_ne
      have head : c.2.1.head? = some b := by
        simp [split] at whole ⊢
        exact whole.1.symm
      exact child.descend head started
  obtain ⟨w₀, rfl⟩ := leftmost
  have end_of_level := tree.left 0 b rfl
  simp only [↓reduceIte] at end_of_level
  refine not_yields_leaf tree.format ?_ ?_ ?_ yields
  · simp [enterLeaf, leafExtents, header]
  · have small : be (readDiskBlock d (fsb2daddr g b) 0) 6 2 < 256 ^ 2 := be_lt _ _ _
    exact small.trans (by decide)
  · rw [enterLeaf, ← header, end_of_level]
    exact fsb2daddr_null g

/-- Of no bmap btree are the extents enumerated whatever the blocks outside the
tree hold, and of a tree with a single leaf they never are. -/
theorem btree_never_enumerated {g : Geometry} {d : Disk} {inode : Dinode} {leaves blocks : List Nat}
    (holds : d.Holds g) (tree : BmapTree g d inode leaves blocks) :
    (¬ ∀ d', SameBlocks g blocks d d' → Enumerates g d' inode leaves) ∧
      (leaves.length = 1 → ¬ Enumerates g d inode leaves) := by
  constructor
  · intro right
    obtain ⟨fuel, w, started, yields⟩ :=
      right (isolate g d blocks) (isolate_sameBlocks holds tree.inVolume) ⟨0, 0, 0, 0, 0⟩
    simp only [initExtents, tree.format] at started
    exact not_yields holds tree (descend_live holds tree started) _ yields
  · intro single
    obtain ⟨b, rfl⟩ := List.length_eq_one_iff.mp single
    exact single_leaf_not_enumerated tree

/-- A disk with one leaf in block 8 that holds one record. -/
def leafDisk : Disk where
  bytes := fun a =>
    if a = 8 * 512 + 7 then 1
    else if 8 * 512 + 8 ≤ a ∧ a < 8 * 512 + 24 then 255
    else if a = 8 * 512 + 24 + 15 then 1
    else 0
  partitionOffset := 0

def leafInode : Dinode := ⟨.btree, 0, by decide, fun _ => 0, 8⟩

theorem leaf_tree : BmapTree smallGeometry leafDisk leafInode [8] [8] where
  format := rfl
  roots := by
    refine ⟨0, [(8, [8], [8])], rfl, ?_, rfl, rfl⟩
    intro c member
    obtain rfl := List.mem_singleton.mp member
    exact .leaf ⟨by decide, by decide, by decide⟩ (by decide +kernel) (by decide +kernel)
  left i b found := by
    cases i with
    | zero =>
      obtain rfl : 8 = b := by simpa using found
      decide +kernel
    | succ i => simp at found
  right i b found := by
    cases i with
    | zero =>
      obtain rfl : 8 = b := by simpa using found
      decide +kernel
    | succ i => simp at found
  siblings := by decide +kernel
  sorted := by decide +kernel

/-- After the only record of the only leaf the walk goes on. -/
theorem single_leaf_goes_on :
    (∃ w, initExtents smallGeometry leafDisk 1 leafInode ⟨0, 0, 0, 0, 0⟩ = some w ∧
      ((nextExtent smallGeometry leafDisk leafInode w).bind fun first =>
        nextExtent smallGeometry leafDisk leafInode first.2).isSome = true) ∧
      ¬ Enumerates smallGeometry leafDisk leafInode [8] := by
  refine ⟨⟨⟨1, 68719476735, 8, 0, 24⟩, ?_, ?_⟩, single_leaf_not_enumerated leaf_tree⟩
  · decide +kernel
  · decide +kernel

/-- A tree with one leaf and one record: the walk follows a sibling that is not there. -/
theorem leaf_tree_not_enumerated :
    leafDisk.Holds smallGeometry ∧ ¬ Enumerates smallGeometry leafDisk leafInode [8] :=
  ⟨by decide +kernel, (btree_never_enumerated (by decide +kernel) leaf_tree).2 rfl⟩

end Yaboot.Xfs
