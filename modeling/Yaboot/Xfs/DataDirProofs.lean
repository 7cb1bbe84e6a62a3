import Yaboot.Xfs.BtreeProofs
import Yaboot.Xfs.DentryProofs

/-! Directories in blocks of their own. The entries are read one after the other
from the data blocks, and how many there are is counted leaf by leaf; the two
stay in step, whatever the layout of the blocks. -/
namespace Yaboot.Xfs
open Buffer CString Word

/-! ### What a directory is -/

/-- A region of a data block. -/
inductive Region where
  | live (e : Dentry)
  | unused (length : Nat)

def Region.size : Region → Nat
  | live e => roundup8 (e.1.length + 11)
  | unused length => roundup8 length

/-- The bytes of a region. An inode number does not begin like an unused region. -/
def Region.At (data : Bytes) (at_ : Nat) : Region → Prop
  | live e => be data at_ 2 ≠ freeTag ∧ be data at_ 8 = e.2 ∧ (data (at_ + 8)).toNat = e.1.length ∧
      slice data (at_ + 9) e.1.length = e.1 ∧ 0 ∉ e.1
  | unused length => be data at_ 2 = freeTag ∧ be data (at_ + 2) 2 = length ∧ 0 < length

def regionsSize (regions : List Region) : Nat := (regions.map Region.size).sum

def RegionsAt (data : Bytes) : Nat → List Region → Prop
  | _, [] => True
  | at_, region :: regions => region.At data at_ ∧ RegionsAt data (at_ + region.size) regions

def Region.entry : Region → Option Dentry
  | live e => some e
  | unused _ => none

/-- The data blocks from the given one on. All but the last are full. -/
def BlocksAt (data : Bytes) (dirbsize : Nat) : Nat → List (List Region) → Prop
  | _, [] => True
  | i, regions :: blocks => RegionsAt data (i * dirbsize + dataHdr) regions ∧
      dataHdr + regionsSize regions ≤ dirbsize ∧
      (blocks ≠ [] → dataHdr + regionsSize regions = dirbsize) ∧ BlocksAt data dirbsize (i + 1) blocks

/-- A chain of leaves, by the entries each holds that are not stale. -/
inductive LeafChain (mapped : Nat → Prop) (leaf : Nat → Bytes) : Nat → List Nat → Prop where
  | last (here : mapped b) (count : be (leaf b) 12 2 = be (leaf b) 14 2 + n) (some_ : 0 < n)
      (ends : be (leaf b) 0 4 = 0) : LeafChain mapped leaf b [n]
  | next (here : mapped b) (count : be (leaf b) 12 2 = be (leaf b) 14 2 + n) (some_ : 0 < n)
      (more : be (leaf b) 0 4 ≠ 0) (rest : LeafChain mapped leaf (be (leaf b) 0 4) counts) :
      LeafChain mapped leaf b (n :: counts)

/-- A block is a leaf: the first of a chain, if it is the leftmost. -/
def IsLeaf (block : Bytes) : Prop := be block 8 2 = leafnMagic ∨ be block 8 2 = leaf1Magic

/-- The leaves below a block. -/
inductive LeavesBelow (mapped : Nat → Prop) (leaf : Nat → Bytes) : Nat → List Nat → Prop where
  | leaf (is_leaf : IsLeaf (leaf b)) (chain : LeafChain mapped leaf b counts) :
      LeavesBelow mapped leaf b counts
  | node (here : mapped b) (is_node : ¬ IsLeaf (leaf b))
      (first : LeavesBelow mapped leaf (be (leaf b) 20 4) counts) : LeavesBelow mapped leaf b counts

/-- How the entries are counted: at the end of the only block, or in leaves. -/
inductive Counted (data : Bytes) (blklog dirbsize : Nat) (mapped : Nat → Prop) (leaf : Nat → Bytes) :
    List (List Region) → Nat → Prop where
  | block (magic : be data 0 4 = blockMagic)
      (count : be data (dirbsize - 8) 4 = be data (dirbsize - 4) 4 + n) :
      Counted data blklog dirbsize mapped leaf [regions] n
  | leaves (magic : be data 0 4 ≠ blockMagic)
      (below : LeavesBelow mapped leaf (u32 (2 ^ 35 >>> blklog)) counts) :
      Counted data blklog dirbsize mapped leaf blocks counts.sum

/-- A directory in blocks. `leaf` holds the blocks behind the data. -/
structure DataDir (blklog dirbsize : Nat) where
  data : Bytes
  size : Nat
  blocks : List (List Region)
  mapped : Nat → Prop
  leaf : Nat → Bytes
  power : ∃ k ≤ 30, 9 ≤ k ∧ dirbsize = 2 ^ k
  size_lt : size < 2 ^ 63
  covers : blocks.length * dirbsize ≤ size
  some_ : blocks ≠ []
  laid : BlocksAt data dirbsize 0 blocks
  counted : Counted data blklog dirbsize mapped leaf blocks
    (blocks.flatten.filterMap Region.entry).length

def DataDir.entries (d : DataDir blklog dirbsize) : List Dentry :=
  d.blocks.flatten.filterMap Region.entry

/-- The directory is read with success: the data at the position, and the first
bytes of a block. -/
structure Delivers (r : DirReader) (d : DataDir blklog dirbsize) : Prop where
  readData : ∀ pos at_ len mem, pos + len ≤ d.size →
    r.readData ⟨pos, d.size⟩ at_ len mem =
      (⟨pos + len, d.size⟩, blit mem at_ len fun i => d.data (pos + i))
  dabread : ∀ b mem, d.mapped b → r.dabread b mem = blit mem 0 100 (d.leaf b)

/-! ### Words in the buffer -/

theorem be_blit (src : Bytes) (inside : k + n ≤ len) :
    be (blit mem 0 len src) k n = be src k n :=
  be_moved fun i less => by
    rw [blit_inside mem src (Nat.zero_le _) (by omega), Nat.sub_zero]

/-- A word in bytes that were copied. -/
theorem be_copied (copied : ∀ k < len, mem k = data (at_ + k)) (inside : j + n ≤ len) :
    be mem j n = be data (at_ + j) n :=
  be_moved fun k less => by
    rw [copied (j + k) (by omega), Nat.add_assoc]

theorem roundup8_ge (n : Nat) : n ≤ roundup8 n := by
  unfold roundup8
  omega

theorem Region.At.size_ge {region : Region} (at_ : region.At data k) : 8 ≤ region.size := by
  cases region with
  | live e =>
    have large := roundup8_ge (e.1.length + 11)
    show 8 ≤ roundup8 (e.1.length + 11)
    omega
  | unused n =>
    obtain ⟨-, -, some_⟩ := at_
    show 8 ≤ (n + 7) / 8 * 8
    omega

/-! ### What lies ahead -/

/-- The entries ahead of the byte `off` of the data block `i`. -/
inductive Ahead (data : Bytes) (dirbsize size : Nat) : Nat → Nat → List Dentry → Prop where
  | done : Ahead data dirbsize size i off []
  | live (at_ : (Region.live e).At data (i * dirbsize + off))
      (inside : off + (Region.live e).size ≤ dirbsize)
      (rest : Ahead data dirbsize size i (off + (Region.live e).size) es) :
      Ahead data dirbsize size i off (e :: es)
  | unused (at_ : (Region.unused n).At data (i * dirbsize + off))
      (inside : off + (Region.unused n).size ≤ dirbsize)
      (rest : Ahead data dirbsize size i (off + (Region.unused n).size) es) :
      Ahead data dirbsize size i off es
  | cross (within : (i + 2) * dirbsize ≤ size) (rest : Ahead data dirbsize size (i + 1) dataHdr es) :
      Ahead data dirbsize size i dirbsize es

/-- The entries of the regions of a block lie ahead of its reader. -/
theorem RegionsAt.ahead (at_ : RegionsAt data (i * dirbsize + off) regions)
    (inside : off + regionsSize regions ≤ dirbsize)
    (later : es ≠ [] → off + regionsSize regions = dirbsize ∧ Ahead data dirbsize size i dirbsize es) :
    Ahead data dirbsize size i off (regions.filterMap Region.entry ++ es) := by
  induction regions generalizing off with
  | nil =>
    rw [List.filterMap_nil, List.nil_append]
    by_cases none : es = []
    · rw [none]
      exact .done
    · obtain ⟨full, rest⟩ := later none
      have here : off = dirbsize := full
      rw [here]
      exact rest
  | cons region regions ih =>
    obtain ⟨first, rest⟩ := at_
    have total : regionsSize (region :: regions) = region.size + regionsSize regions := rfl
    rw [total] at inside later
    rw [Nat.add_assoc] at rest
    have behind := ih rest (by omega) (by rw [Nat.add_assoc]; exact later)
    cases region with
    | live e => exact .live first (by omega) behind
    | unused n => exact .unused first (by omega) behind

/-- The entries of blocks lie ahead of a reader at the first of them. -/
theorem BlocksAt.ahead (at_ : BlocksAt data dirbsize i blocks) (some_ : blocks ≠ [])
    (covers : (i + blocks.length) * dirbsize ≤ size) :
    Ahead data dirbsize size i dataHdr (blocks.flatten.filterMap Region.entry) := by
  induction blocks generalizing i with
  | nil => exact absurd rfl some_
  | cons regions blocks ih =>
    obtain ⟨first, inside, full, rest⟩ := at_
    rw [List.flatten_cons, List.filterMap_append]
    refine first.ahead inside fun entries => ?_
    have more : blocks ≠ [] := by
      rintro rfl
      exact entries rfl
    rw [List.length_cons] at covers
    have within : (i + 2) * dirbsize ≤ size := by
      refine Nat.le_trans (Nat.mul_le_mul_right _ ?_) covers
      have length := List.length_pos_iff.mpr more
      omega
    have order : i + 1 + blocks.length = i + (blocks.length + 1) := by omega
    exact ⟨full more, .cross within (ih rest more (by rw [order]; exact covers))⟩

/-! ### The walk over the data blocks -/

/-- A multiple of a power of two, with a smaller number below it. -/
theorem and_mask (power : k < 64) (fits : m * 2 ^ k < 2 ^ 64) (low : c < 2 ^ k) :
    m * 2 ^ k &&& ofInt64 (-(2 ^ k : Nat)) ||| c = m * 2 ^ k + c := by
  have split : 2 ^ 64 = 2 ^ (64 - k) * 2 ^ k := by
    rw [← Nat.pow_add]
    congr 1
    omega
  have mask : ofInt64 (-(2 ^ k : Nat)) = (2 ^ (64 - k) - 1) <<< k := by
    have below : 2 ^ k < 2 ^ 64 := Nat.pow_lt_pow_right (by decide) power
    have positive := Nat.two_pow_pos k
    rw [Nat.shiftLeft_eq, Nat.sub_mul, ← split, Nat.one_mul]
    unfold ofInt64
    omega
  have small : m < 2 ^ (64 - k) := by
    rw [split] at fits
    exact Nat.lt_of_mul_lt_mul_right fits
  rw [mask, ← Nat.shiftLeft_eq, ← Nat.shiftLeft_and_distrib, Nat.and_two_pow_sub_one_eq_mod,
    Nat.mod_eq_of_lt small, ← Nat.shiftLeft_add_eq_or_of_lt low]

section
variable {blklog dirbsize : Nat} {d : DataDir blklog dirbsize} {r : DirReader} {l : Listing}

theorem Listing.readData_eq (at_ len : Nat) (delivers : Delivers r d)
    (here : l.file = ⟨pos, d.size⟩) (inside : pos + len ≤ d.size) :
    l.readData r at_ len = { l with
      file := ⟨pos + len, d.size⟩
      dirbuf := blit l.dirbuf at_ len fun i => d.data (pos + i) } := by
  unfold readData
  rw [here, delivers.readData _ _ _ _ inside]

/-- The listing is at the byte `off` of the data block `i`. -/
structure AtByte (d : DataDir blklog dirbsize) (l : Listing) (i off : Nat) : Prop where
  blkoff : l.blkoff = off
  file : l.file = ⟨i * dirbsize + off, d.size⟩
  within : (i + 1) * dirbsize ≤ d.size

theorem DataDir.dirbsize_gt (d : DataDir blklog dirbsize) : 512 ≤ dirbsize := by
  obtain ⟨k, -, ge, rfl⟩ := d.power
  calc 512 = 2 ^ 9 := by decide
    _ ≤ 2 ^ k := Nat.pow_le_pow_right (by decide) ge

theorem AtByte.nextBlock_inside (here : AtByte d l i off) (inside : off < dirbsize) :
    l.nextBlock dirbsize = l := by
  have blkoff := here.blkoff
  exact if_neg (by omega)

theorem AtByte.nextBlock_end (here : AtByte d l i dirbsize) (more : (i + 2) * dirbsize ≤ d.size) :
    AtByte d (l.nextBlock dirbsize) (i + 1) dataHdr := by
  obtain ⟨k, le, ge, size⟩ := d.power
  have blkoff := here.blkoff
  have large := d.dirbsize_gt
  have bound := d.size_lt
  have pos : i * dirbsize + dirbsize = (i + 1) * dirbsize := (Nat.succ_mul i dirbsize).symm
  have less : (i + 1) * dirbsize < 2 ^ 64 := by
    have := here.within
    omega
  have masked : (i + 1) * dirbsize &&& ofInt64 (-dirbsize) ||| dataHdr =
      (i + 1) * dirbsize + dataHdr := by
    rw [size] at less large ⊢
    exact and_mask (by omega) less (show 16 < 2 ^ k by omega)
  unfold Listing.nextBlock
  rw [if_pos (by omega), here.file]
  exact ⟨rfl, by dsimp only; rw [pos, masked], more⟩

/-- What the loop over unused regions changes. -/
structure Skipped (l l' : Listing) : Prop where
  dirpos : l'.dirpos = l.dirpos
  dirmax : l'.dirmax = l.dirmax
  forw : l'.forw = l.forw

/-- The first four bytes of the next entry are read. -/
structure EntryAhead (d : DataDir blklog dirbsize) (l : Listing) (e : Dentry) (es : List Dentry)
    (i off : Nat) : Prop where
  blkoff : l.blkoff = off + 4
  file : l.file = ⟨i * dirbsize + off + 4, d.size⟩
  within : (i + 1) * dirbsize ≤ d.size
  start : ∀ k < 4, l.dirbuf k = d.data (i * dirbsize + off + k)
  at_ : (Region.live e).At d.data (i * dirbsize + off)
  inside : off + (Region.live e).size ≤ dirbsize
  rest : Ahead d.data dirbsize d.size i (off + (Region.live e).size) es

theorem AtByte.readTag (delivers : Delivers r d) (here : AtByte d l i off)
    (inside : off + 4 ≤ dirbsize) :
    (l.readData r 0 4).file = ⟨i * dirbsize + off + 4, d.size⟩ ∧
      ∀ k < 4, (l.readData r 0 4).dirbuf k = d.data (i * dirbsize + off + k) := by
  have within := here.within
  rw [Nat.succ_mul] at within
  rw [Listing.readData_eq _ _ delivers here.file (by omega)]
  refine ⟨rfl, fun k less => ?_⟩
  dsimp only
  rw [blit_inside _ _ (Nat.zero_le _) (by omega), Nat.sub_zero]

/-- Skipping unused regions, over the ends of blocks too, comes to the next entry. -/
theorem AtByte.skipUnused (delivers : Delivers r d) (here : AtByte d l i off)
    (ahead : Ahead d.data dirbsize d.size i off (e :: es)) :
    ∃ rounds l' i' off', (∀ fuel > rounds, skipUnused r dirbsize fuel l = some l') ∧
      Skipped l l' ∧ EntryAhead d l' e es i' off' := by
  generalize entries : e :: es = list at ahead
  induction ahead generalizing l with
  | done => cases entries
  | @live e' i off es' at_ inside rest =>
    cases entries
    have large := at_.size_ge
    obtain ⟨file, bytes⟩ := here.readTag delivers (by omega)
    have tag : be (l.readData r 0 4).dirbuf 0 2 ≠ freeTag := by
      rw [be_copied bytes (by decide)]
      exact at_.1
    refine ⟨0, { l.readData r 0 4 with blkoff := l.blkoff + 4 }, i, off, ?_, ⟨rfl, rfl, rfl⟩,
      ⟨?_, file, here.within, bytes, at_, inside, rest⟩⟩
    · intro fuel some_
      obtain ⟨fuel, rfl⟩ : ∃ k, fuel = k + 1 := ⟨fuel - 1, by omega⟩
      rw [Xfs.skipUnused, here.nextBlock_inside (by omega)]
      dsimp only
      rw [if_neg tag]
      rfl
    · show l.blkoff + 4 = off + 4
      rw [here.blkoff]
  | @unused n i off es' at_ inside rest ih =>
    have large := at_.size_ge
    obtain ⟨file, bytes⟩ := here.readTag delivers (by omega)
    have tag : be (l.readData r 0 4).dirbuf 0 2 = freeTag := by
      rw [be_copied bytes (by decide)]
      exact at_.1
    have length : be (l.readData r 0 4).dirbuf 2 2 = n := by
      rw [be_copied bytes (by decide)]
      exact at_.2.1
    obtain ⟨after, result⟩ : ∃ after : Listing, after = { l.readData r 0 4 with
        blkoff := l.blkoff + 4 + ((roundup8 n : Int) - 4)
        file := ⟨add64 (i * dirbsize + off + 4) ((roundup8 n : Int) - 4), d.size⟩ } := ⟨_, rfl⟩
    have there : AtByte d after i (off + (Region.unused n).size) := by
      have size : (Region.unused n).size = roundup8 n := rfl
      have within := here.within
      have bound := d.size_lt
      rw [Nat.succ_mul] at within
      rw [size] at large inside ⊢
      have place : add64 (i * dirbsize + off + 4) ((roundup8 n : Int) - 4) =
          i * dirbsize + (off + roundup8 n) := by
        unfold add64
        omega
      refine ⟨?_, by rw [result, place], here.within⟩
      rw [result]
      dsimp only
      rw [here.blkoff]
      omega
    obtain ⟨rounds, l', i', off', run, skipped, stands⟩ := ih there entries
    refine ⟨rounds + 1, l', i', off', fun fuel enough => ?_, ?_, stands⟩
    · obtain ⟨fuel, rfl⟩ : ∃ k, fuel = k + 1 := ⟨fuel - 1, by omega⟩
      rw [Xfs.skipUnused, here.nextBlock_inside (by omega)]
      dsimp only
      rw [if_pos tag, length, ← run fuel (by omega), result, file]
      rfl
    · rw [result] at skipped
      exact ⟨skipped.dirpos, skipped.dirmax, skipped.forw⟩
  | @cross i es' within rest ih =>
    have there := here.nextBlock_end within
    obtain ⟨rounds, l', i', off', run, skipped, stands⟩ := ih there entries
    have large := d.dirbsize_gt
    have header : dataHdr = 16 := rfl
    have fields : Skipped l (l.nextBlock dirbsize) := by
      unfold Listing.nextBlock
      split <;> exact ⟨rfl, rfl, rfl⟩
    refine ⟨rounds, l', i', off', fun fuel enough => ?_, ⟨skipped.dirpos.trans fields.dirpos,
      skipped.dirmax.trans fields.dirmax, skipped.forw.trans fields.forw⟩, stands⟩
    obtain ⟨fuel, rfl⟩ : ∃ k, fuel = k + 1 := ⟨fuel - 1, by omega⟩
    rw [← run (fuel + 1) enough, Xfs.skipUnused, Xfs.skipUnused, there.nextBlock_inside (by omega)]

/-- Reading the entry leads to what is behind it. -/
theorem EntryAhead.readEntry (delivers : Delivers r d) (here : EntryAhead d l e es i off) :
    ∃ l', readEntry r l = (e, l') ∧ AtByte d l' i (off + (Region.live e).size) ∧
      l'.dirpos = l.dirpos + 1 ∧ l'.dirmax = l.dirmax ∧ l'.forw = l.forw := by
  obtain ⟨-, ino, namelen, name, plain⟩ := here.at_
  have size : (Region.live e).size = roundup8 (e.1.length + 11) := rfl
  have large := roundup8_ge (e.1.length + 11)
  have inside := here.inside
  have within := here.within
  rw [size] at inside
  rw [Nat.succ_mul] at within
  generalize start : i * dirbsize + off = at_ at *
  have file := here.file
  rw [start] at file
  have first := Listing.readData_eq 4 5 delivers file (by omega)
  have head : ∀ k < 9, blit l.dirbuf 4 5 (fun k => d.data (at_ + 4 + k)) k = d.data (at_ + k) := by
    intro k less
    by_cases front : k < 4
    · rw [blit_outside _ _ (.inl front), here.start k front, start]
    · rw [blit_inside _ _ (by omega) (by omega)]
      congr 1
      omega
  have number : be (blit l.dirbuf 4 5 fun k => d.data (at_ + 4 + k)) 0 8 = e.2 := by
    rw [be_copied head (by decide)]
    exact ino
  have length : (blit l.dirbuf 4 5 (fun k => d.data (at_ + 4 + k)) 8).toNat = e.1.length := by
    rw [head 8 (by decide), namelen]
  obtain ⟨toread, count⟩ : ∃ n, n = roundup8 (e.1.length + 11) - 9 := ⟨_, rfl⟩
  obtain ⟨buf, filled⟩ : ∃ buf, buf = blit (blit l.dirbuf 4 5 fun k => d.data (at_ + 4 + k)) 0 toread
      fun k => d.data (at_ + 9 + k) := ⟨_, rfl⟩
  have stored : slice buf 0 e.1.length = e.1 := by
    refine Eq.trans (List.map_congr_left fun k member => ?_) name
    have less := List.mem_range.mp member
    rw [filled, Nat.zero_add, blit_inside _ _ (Nat.zero_le _) (by omega), Nat.sub_zero]
  obtain ⟨l', result⟩ : ∃ l' : Listing, l' = { l with
      file := ⟨at_ + 9 + toread, d.size⟩
      dirbuf := (terminate buf 0 e.1.length).1
      blkoff := l.blkoff + (toread + 5)
      dirpos := l.dirpos + 1 } := ⟨_, rfl⟩
  refine ⟨l', ?_, ⟨?_, ?_, here.within⟩, by rw [result], by rw [result], by rw [result]⟩
  · unfold Xfs.readEntry
    rw [first]
    dsimp only
    rw [number, length, ← count, Listing.readData_eq _ _ delivers rfl (by omega)]
    dsimp only
    rw [← filled, terminate_name stored plain, result]
  · rw [result, size]
    dsimp only
    rw [here.blkoff]
    omega
  · rw [result, size]
    dsimp only
    congr 1
    omega

/-! ### The leaves -/

/-- The counts of the leaves that follow. -/
def Later (mapped : Nat → Prop) (leaf : Nat → Bytes) (forw : Nat) (counts : List Nat) : Prop :=
  counts = [] ∧ forw = 0 ∨ forw ≠ 0 ∧ LeafChain mapped leaf forw counts

theorem LeafChain.enter (chain : LeafChain mapped leaf b counts) :
    ∃ n rest, counts = n :: rest ∧ 0 < n ∧ mapped b ∧ be (leaf b) 12 2 = be (leaf b) 14 2 + n ∧
      Later mapped leaf (be (leaf b) 0 4) rest := by
  cases chain with
  | last here count some_ ends => exact ⟨_, [], rfl, some_, here, count, .inl ⟨rfl, ends⟩⟩
  | next here count some_ more rest => exact ⟨_, _, rfl, some_, here, count, .inr ⟨more, rest⟩⟩

/-- The entries still counted: `n` in the leaf at hand, `counts` in later ones. -/
structure Counting (d : DataDir blklog dirbsize) (l : Listing) (n : Nat) (counts : List Nat) : Prop where
  left : l.dirmax = l.dirpos + n
  later : Later d.mapped d.leaf l.forw counts

/-- Taking over a leaf. -/
theorem enterLeaf_chain (delivers : Delivers r d) (here : d.mapped l.dablk)
    (count : be (d.leaf l.dablk) 12 2 = be (d.leaf l.dablk) 14 2 + n) :
    (l.dabread r).enterLeaf.dirmax = n ∧
      (l.dabread r).enterLeaf.forw = be (d.leaf l.dablk) 0 4 := by
  unfold Listing.dabread Listing.enterLeaf
  rw [delivers.dabread _ _ here]
  dsimp only
  rw [be_blit _ (by decide), be_blit _ (by decide), be_blit _ (by decide), count]
  exact ⟨by omega, rfl⟩

/-- Refilling the counter goes to the next leaf that counts something, or there is none. -/
theorem Counting.refill (delivers : Delivers r d) (counting : Counting d l n counts) :
    (l.refill r = none ∧ n + counts.sum = 0) ∨
    ∃ l' n' counts', l.refill r = some l' ∧ n' + 1 + counts'.sum = n + counts.sum ∧
      Counting d l' (n' + 1) counts' ∧ l'.file = l.file ∧ l'.blkoff = l.blkoff := by
  have left := counting.left
  unfold Listing.refill
  cases n with
  | succ n =>
    rw [if_pos (by omega)]
    exact .inr ⟨l, n, counts, rfl, rfl, counting, rfl, rfl⟩
  | zero =>
    rw [if_neg (by omega)]
    rcases counting.later with ⟨none, ends⟩ | ⟨more, chain⟩
    · rw [if_pos ends, none]
      exact .inl ⟨rfl, rfl⟩
    · obtain ⟨n', rest, split, some_, here, count, later⟩ := chain.enter
      obtain ⟨dirmax, forw⟩ := enterLeaf_chain (l := { l with dablk := l.forw }) delivers here count
      obtain ⟨n', rfl⟩ : ∃ k, n' = k + 1 := ⟨n' - 1, by omega⟩
      rw [if_neg more]
      refine .inr ⟨_, n', rest, rfl, ?_, ⟨?_, ?_⟩, rfl, rfl⟩
      · rw [split, List.sum_cons]
        omega
      · show (({ l with dablk := l.forw } : Listing).dabread r).enterLeaf.dirmax = 0 + ((n' + 1 : Nat) : Int)
        rw [dirmax]
        omega
      · show Later _ _ (({ l with dablk := l.forw } : Listing).dabread r).enterLeaf.forw rest
        rw [forw]
        exact later

/-! ### The run -/

/-- The listing stands in front of these entries. -/
structure InBlocks (d : DataDir blklog dirbsize) (l : Listing) (es : List Dentry) : Prop where
  counting : ∃ n counts, Counting d l n counts ∧ n + counts.sum = es.length
  place : ∃ i off, AtByte d l i off ∧ Ahead d.data dirbsize d.size i off es

theorem InBlocks.done (delivers : Delivers r d) (here : InBlocks d l []) (fuel : Nat) :
    nextDentry r dirbsize fuel .extents l = some (none, l) := by
  obtain ⟨n, counts, counting, total⟩ := here.counting
  rw [List.length_nil] at total
  rcases counting.refill delivers with ⟨ends, -⟩ | ⟨-, n', counts', -, more, -⟩
  · unfold nextDentry
    rw [ends]
  · omega

/-- `next_dentry` returns the first of the entries that lie ahead. -/
theorem InBlocks.next (delivers : Delivers r d) (here : InBlocks d l (e :: es)) :
    ∃ rounds l', (∀ fuel > rounds, nextDentry r dirbsize fuel .extents l = some (some e, l')) ∧
      InBlocks d l' es := by
  obtain ⟨n, counts, counting, total⟩ := here.counting
  obtain ⟨i, off, place, ahead⟩ := here.place
  rw [List.length_cons] at total
  rcases counting.refill delivers with ⟨-, none⟩ | ⟨l₁, n₁, counts₁, refill, count, counting₁, file, blkoff⟩
  · omega
  have place₁ : AtByte d l₁ i off := ⟨blkoff.trans place.blkoff, file.trans place.file, place.within⟩
  obtain ⟨rounds, l₂, i', off', skip, same, entry⟩ := place₁.skipUnused delivers ahead
  obtain ⟨l₃, read, there, dirpos, dirmax, forw⟩ := entry.readEntry delivers
  refine ⟨rounds, l₃, fun fuel enough => ?_,
    ⟨⟨n₁, counts₁, ⟨?_, ?_⟩, by omega⟩, ⟨i', _, there, entry.rest⟩⟩⟩
  · have other : ¬ Format.extents = .local := by decide
    unfold nextDentry nextData
    rw [refill]
    dsimp only
    rw [if_neg other, skip fuel enough, Option.map_some, Option.map_some, read]
  · have left := counting₁.left
    rw [dirmax, same.dirmax, dirpos, same.dirpos, left]
    omega
  · rw [forw, same.forw]
    exact counting₁.later

theorem InBlocks.returns (delivers : Delivers r d) (here : InBlocks d l es) :
    ∃ rounds, ∀ fuel > rounds, ∃ result l', nextDentry r dirbsize fuel .extents l = some (result, l') ∧
      Returns (nextDentry r dirbsize fuel .extents) result l' es := by
  induction es generalizing l with
  | nil => exact ⟨0, fun fuel _ => ⟨none, l, here.done delivers fuel, .done⟩⟩
  | cons e es ih =>
    obtain ⟨rounds, l', step, there⟩ := here.next delivers
    obtain ⟨more, rest⟩ := ih there
    refine ⟨max rounds more, fun fuel enough => ?_⟩
    obtain ⟨result, l'', call, returns⟩ := rest fuel (by omega)
    exact ⟨some e, l', step fuel (by omega), .more call returns⟩

/-! ### Opening the directory -/

/-- The descent through the nodes ends at the first leaf, which counts entries of its own. -/
theorem LeavesBelow.firstLeaf (delivers : Delivers r d)
    (below : LeavesBelow d.mapped d.leaf b counts) (here : l.dablk = b) :
    ∃ rounds l' n rest, (∀ fuel > rounds, firstLeaf r fuel l = some l') ∧
      n + rest.sum = counts.sum ∧ l'.dirmax = n ∧ Later d.mapped d.leaf l'.forw rest ∧
      l'.file = l.file := by
  have kind : ∀ {l : Listing} {b : Nat}, l.dablk = b → d.mapped b →
      (be (l.dabread r).dirbuf 8 2 = leafnMagic ∨ be (l.dabread r).dirbuf 8 2 = leaf1Magic ↔
        IsLeaf (d.leaf b)) := by
    intro l b here mapped
    unfold Listing.dabread IsLeaf
    dsimp only
    rw [here, delivers.dabread _ _ mapped, be_blit _ (by decide)]
  induction below generalizing l with
  | leaf is_leaf chain =>
    obtain ⟨n, rest, split, -, mapped, count, later⟩ := chain.enter
    rw [← here] at mapped count later
    obtain ⟨dirmax, forw⟩ := enterLeaf_chain delivers mapped count
    refine ⟨0, (l.dabread r).enterLeaf, n, rest, fun fuel some_ => ?_, ?_, dirmax, ?_, rfl⟩
    · obtain ⟨fuel, rfl⟩ : ∃ k, fuel = k + 1 := ⟨fuel - 1, by omega⟩
      unfold Xfs.firstLeaf
      dsimp only
      rw [if_pos ((kind here (here ▸ mapped)).mpr is_leaf)]
    · rw [split, List.sum_cons]
    · rw [forw]
      exact later
  | node mapped is_node first ih =>
    obtain ⟨rounds, l', n, rest, run, total, dirmax, later, file⟩ :=
      ih (l := { l.dabread r with dablk := be (d.leaf _) 20 4 }) rfl
    refine ⟨rounds + 1, l', n, rest, fun fuel enough => ?_, total, dirmax, later, file⟩
    obtain ⟨fuel, rfl⟩ : ∃ k, fuel = k + 1 := ⟨fuel - 1, by omega⟩
    rw [← run fuel (by omega), Xfs.firstLeaf]
    dsimp only
    rw [if_neg (mt (kind here mapped).mp is_node)]
    unfold Listing.dabread
    dsimp only
    rw [here, delivers.dabread _ _ mapped, be_blit _ (by decide)]

/-- Regions are not empty, so entries are no more than bytes. -/
theorem RegionsAt.length_le (at_ : RegionsAt data k regions) :
    (regions.filterMap Region.entry).length ≤ regionsSize regions := by
  induction regions generalizing k with
  | nil => exact Nat.le_refl 0
  | cons region regions ih =>
    obtain ⟨first, rest⟩ := at_
    have large := first.size_ge
    have inside := ih rest
    have total : regionsSize (region :: regions) = region.size + regionsSize regions := rfl
    cases region with
    | live e =>
      have entries : ((Region.live e :: regions).filterMap Region.entry).length =
          (regions.filterMap Region.entry).length + 1 := rfl
      omega
    | unused n =>
      have entries : (Region.unused n :: regions).filterMap Region.entry =
          regions.filterMap Region.entry := rfl
      rw [entries]
      omega

/-- The number of entries of a directory of one block. -/
theorem s32_count (count : be data (dirbsize - 8) 4 = be data (dirbsize - 4) 4 + n)
    (small : n < 2 ^ 31) :
    s32 (sub32 (be data (dirbsize - 8) 4) (be data (dirbsize - 4) 4)) = n := by
  have low := be_lt data (dirbsize - 8) 4
  have difference : sub32 (be data (dirbsize - 8) 4) (be data (dirbsize - 4) 4) = n := by
    unfold sub32
    omega
  rw [difference, s32_of_lt small]

/-- A directory of one block counts its entries in its tail. -/
theorem DataDir.countEntries_block (d : DataDir blklog dirbsize) (delivers : Delivers r d)
    (here : l.file.len = d.size) (magic : be l.dirbuf 0 4 = blockMagic)
    (fits : dirbsize ≤ d.size) (small : n < 2 ^ 31)
    (count : be d.data (dirbsize - 8) 4 = be d.data (dirbsize - 4) 4 + n) :
    ∃ l', (∀ fuel, countEntries r blklog dirbsize fuel l = some l') ∧ l'.dirmax = n ∧
      l'.forw = l.forw ∧ l'.file.len = d.size := by
  have large := d.dirbsize_gt
  have there : ({ l with file := { l.file with pos := dirbsize - 8 } } : Listing).file =
      ⟨dirbsize - 8, d.size⟩ := by rw [← here]
  have tail := Listing.readData_eq 0 8 delivers there (by omega)
  have first : be (blit l.dirbuf 0 8 fun i => d.data (dirbsize - 8 + i)) 0 4 =
      be d.data (dirbsize - 8) 4 := by
    rw [be_blit _ (by decide)]
    exact be_moved fun i _ => by rw [Nat.zero_add]
  have second : be (blit l.dirbuf 0 8 fun i => d.data (dirbsize - 8 + i)) 4 4 =
      be d.data (dirbsize - 4) 4 := by
    rw [be_blit _ (by decide)]
    exact be_moved fun i _ => by
      congr 1
      omega
  unfold countEntries
  simp only [if_pos magic, tail, first, second, s32_count count small]
  exact ⟨_, fun _ => rfl, rfl, rfl, rfl⟩

/-- The entries are counted by the leaves, or in the one block there is. -/
theorem DataDir.countEntries (d : DataDir blklog dirbsize) (delivers : Delivers r d)
    (here : l.file.len = d.size) (header : be l.dirbuf 0 4 = be d.data 0 4) (forw : l.forw = 0) :
    ∃ rounds l' n rest, (∀ fuel > rounds, countEntries r blklog dirbsize fuel l = some l') ∧
      l'.dirmax = (n : Nat) ∧ n + rest.sum = d.entries.length ∧
      Later d.mapped d.leaf l'.forw rest ∧ l'.file.len = d.size := by
  have counted := d.counted
  have covers := d.covers
  have total : (d.blocks.flatten.filterMap Region.entry).length = d.entries.length := rfl
  have small : ∀ regions, d.blocks = [regions] → d.entries.length < 2 ^ 31 := by
    intro regions one
    obtain ⟨k, le, -, size⟩ := d.power
    have laid := d.laid
    rw [one] at laid total
    obtain ⟨first, inside, -, -⟩ := laid
    have bound := first.length_le
    have power : dirbsize ≤ 2 ^ 30 := by
      rw [size]
      exact Nat.pow_le_pow_right (by decide) le
    rw [List.flatten_cons, List.flatten_nil, List.append_nil] at total
    omega
  rw [total] at counted
  generalize length : d.entries.length = m at *
  generalize list : d.blocks = blocks at *
  cases counted with
  | @block m regions magic count =>
    have fits : dirbsize ≤ d.size := by
      rw [List.length_singleton, Nat.one_mul] at covers
      exact covers
    obtain ⟨l', run, dirmax, later, len⟩ :=
      d.countEntries_block delivers here (header.trans magic) fits (small regions rfl) count
    exact ⟨0, l', m, [], fun fuel _ => run fuel, dirmax, rfl, .inl ⟨rfl, later.trans forw⟩, len⟩
  | @leaves counts blocks other below =>
    obtain ⟨rounds, l', n, rest, run, sum, dirmax, later, file⟩ :=
      below.firstLeaf (l := { l with dablk := u32 (2 ^ 35 >>> blklog) }) delivers rfl
    refine ⟨rounds, l', n, rest, fun fuel enough => ?_, dirmax, sum, later, ?_⟩
    · unfold Xfs.countEntries
      rw [if_neg (by rw [header]; exact other), run fuel enough]
    · rw [file, here]

/-- `first_dentry` opens a directory in blocks at the first of its entries. -/
theorem DataDir.opens (d : DataDir blklog dirbsize) (delivers : Delivers r d) (l : Listing) :
    ∃ rounds l', (∀ fuel > rounds, openListing r blklog dirbsize fuel d.size .extents l = some l') ∧
      InBlocks d l' d.entries := by
  have large := d.dirbsize_gt
  have one : (0 + 1) * dirbsize ≤ d.size := by
    have length := List.length_pos_iff.mpr d.some_
    exact Nat.le_trans (Nat.mul_le_mul_right _ length) d.covers
  have ahead : Ahead d.data dirbsize d.size 0 dataHdr d.entries :=
    d.laid.ahead d.some_ (by rw [Nat.zero_add]; exact d.covers)
  have there : ({ l with forw := 0, file := ⟨0, d.size⟩ } : Listing).file = ⟨0, d.size⟩ := rfl
  have header := Listing.readData_eq 0 dataHdr delivers there (show 0 + 16 ≤ d.size by omega)
  have magic : be (blit l.dirbuf 0 dataHdr fun i => d.data (0 + i)) 0 4 = be d.data 0 4 := by
    rw [be_blit _ (by decide)]
    exact be_moved fun i _ => by rw [Nat.zero_add]
  obtain ⟨rounds, l', n, rest, run, dirmax, total, later, len⟩ :=
    d.countEntries (l := (({ l with forw := 0, file := ⟨0, d.size⟩ } : Listing).readData r 0 dataHdr))
      delivers (by rw [header]) (by rw [header]; exact magic) (by rw [header])
  refine ⟨rounds, l'.rewind, fun fuel enough => ?_,
    ⟨⟨n, rest, ⟨?_, later⟩, total⟩, ⟨0, dataHdr, ⟨rfl, ?_, one⟩, ahead⟩⟩⟩
  · unfold openListing
    rw [if_neg (by decide)]
    dsimp only
    rw [run fuel enough, Option.map_some]
  · show l'.dirmax = 0 + (n : Int)
    omega
  · unfold Listing.rewind
    dsimp only
    rw [len, Nat.zero_mul, Nat.zero_add]

/-- A directory in blocks, with leaves or without, is enumerated as it is stored: every entry in use
once, in the order of the blocks, past the unused ones and to the end of the directory. -/
theorem dataDir_lists (d : DataDir blklog dirbsize) (delivers : Delivers r d) (l : Listing) :
    ∃ rounds, ∀ fuel > rounds, Lists r blklog dirbsize fuel d.size .extents l d.entries := by
  obtain ⟨opening, l', opens, here⟩ := d.opens delivers l
  obtain ⟨walking, walk⟩ := here.returns delivers
  refine ⟨max opening walking, fun fuel enough => ?_⟩
  obtain ⟨result, l'', call, returns⟩ := walk fuel (by omega)
  refine ⟨result, l'', ?_, returns⟩
  rw [firstDentry, opens fuel (by omega), Option.bind_some, call]

end

/-! ### A directory with a node and two leaves -/

/-- A reader that delivers a directory. -/
def DataDir.reader (d : DataDir blklog dirbsize) : DirReader where
  readData file at_ len mem :=
    ({ file with pos := file.pos + len }, blit mem at_ len fun i => d.data (file.pos + i))
  dabread b mem := blit mem 0 100 (d.leaf b)

theorem DataDir.reader_delivers (d : DataDir blklog dirbsize) : Delivers d.reader d where
  readData _ _ _ _ _ := rfl
  dabread _ _ _ := rfl

/-- The entry ".", an unused region and the entry "a" in a second block. -/
def twoBlocks (i : Nat) : UInt8 :=
  if i < 512 then
    [88, 68, 50, 68, 0, 0, 0, 0, 0, 0, 0, 0, 0, 0, 0, 0,
      0, 0, 0, 0, 0, 0, 0, 128, 1, 46, 0, 0, 0, 0, 0, 16,
      255, 255, 1, 224].getD i 0
  else
    [88, 68, 50, 68, 0, 0, 0, 0, 0, 0, 0, 0, 0, 0, 0, 0,
      0, 0, 0, 0, 0, 0, 0, 129, 1, 97, 0, 0, 0, 0, 2, 16].getD (i - 512) 0

def twoLeaves (b : Nat) : Bytes := fun i =>
  match b with
  | 67108864 => if i = 8 then 254 else if i = 9 then 190 else if i = 23 then 1 else 0
  | 1 => if i = 3 then 2 else if i = 8 then 210 else if i = 9 then 255 else if i = 13 then 3
    else if i = 15 then 2 else 0
  | _ => if i = 8 then 210 else if i = 9 then 255 else if i = 13 then 1 else 0

def twoDir : DataDir 9 512 where
  data := twoBlocks
  size := 1024
  blocks := [[.live ([46], 128), .unused 480], [.live ([97], 129)]]
  mapped _ := True
  leaf := twoLeaves
  power := ⟨9, by decide, by decide, by decide⟩
  size_lt := by decide
  covers := by decide
  some_ := by decide
  laid := by
    refine ⟨⟨⟨?_, ?_, ?_, ?_, ?_⟩, ⟨?_, ?_, ?_⟩, trivial⟩, ?_, ?_, ⟨⟨?_, ?_, ?_, ?_, ?_⟩, trivial⟩, ?_,
      ?_, trivial⟩ <;> decide +kernel
  counted := by
    have chain : LeafChain (fun _ => True) twoLeaves 1 [1, 1] :=
      .next trivial (by decide +kernel) (by decide) (by decide +kernel)
        (.last trivial (by decide +kernel) (by decide) (by decide +kernel))
    have below : LeavesBelow (fun _ => True) twoLeaves (u32 (2 ^ 35 >>> 9)) [1, 1] :=
      .node trivial (by unfold IsLeaf; decide +kernel) (.leaf (.inl (by decide +kernel)) chain)
    exact .leaves (by decide +kernel) below

/-- A directory of two blocks with an entry in each. -/
theorem twoDir_lists : ∃ rounds, ∀ fuel > rounds,
    Lists twoDir.reader 9 512 fuel 1024 .extents emptyListing [([46], 128), ([97], 129)] :=
  dataDir_lists twoDir twoDir.reader_delivers emptyListing

end Yaboot.Xfs
