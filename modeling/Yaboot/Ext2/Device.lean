import Yaboot.Ext2.Read
import Yaboot.Fs.Probe

/-! Which bytes of the disk the driver of libext2fs asks for, and which of them are
its partition's. The comparison is with the end of the partition, and of the place
a read starts from alone. -/
namespace Yaboot.Ext2.Device
open Word Fs

/-- The globals `bs`, `doff` and `dend`. -/
structure Channel where
  bs : Nat
  doff : Nat
  dend : Nat

/-- What `ext2_open` sets for a partition. -/
def ext2Channel (part : Partition) : Channel := ⟨1024, part.offset, part.behind⟩

/-- `linux_set_blksize`. -/
def linuxSetBlksize (c : Channel) (blksize : Int) : Channel :=
  { c with bs := (blksize % 2 ^ 32).toNat }

/-- The disk: whether it can seek to a place, where it stands when it cannot, and
what `prom_read` answers. -/
structure Disk where
  seek : Nat → Bool
  stands : Nat
  read : Nat → Nat → Int

/-- What is read after a seek. -/
structure Access where
  start : Nat
  size : Nat
  deriving DecidableEq, Repr

/-- `linux_read_blk`: its result, and what it asked the disk for. The result of
`prom_lseek` is not looked at. -/
def linuxReadBlk (d : Disk) (c : Channel) (block : Nat) (count : Int) : Errcode × Option Access :=
  if count = 0 then (.ok, none)
  else
    let tempb := u64 (block * c.bs + c.doff)
    if c.dend ≠ 0 ∧ c.dend < tempb then (.llseekFailed, none)
    else
      let size := if count < 0 then u32 count.natAbs else u32 (count.natAbs * c.bs)
      let start := if d.seek tempb then tempb else d.stands
      (if d.read start size = s32 size then .ok else .shortRead, some ⟨start, size⟩)

/-- How many bytes are requested. -/
def requested (c : Channel) (count : Int) : Nat :=
  if count < 0 then count.natAbs else count.natAbs * c.bs

/-- A request is for bytes of the partition. -/
def Inside (c : Channel) (block : Nat) (count : Int) : Prop :=
  c.doff + block * c.bs + requested c count ≤ c.dend

/-- What is asked of a request: what is read is the partition's, and a request for
anything else is an error that leaves the disk alone. -/
structure Kept (d : Disk) (c : Channel) (block : Nat) (count : Int) : Prop where
  inside : ∀ a, (linuxReadBlk d c block count).2 = some a → a.size ≠ 0 →
    c.doff ≤ a.start ∧ a.start + a.size ≤ c.dend
  refused : ¬ Inside c block count →
    (linuxReadBlk d c block count).1 ≠ .ok ∧ (linuxReadBlk d c block count).2 = none

/-! ### Requests -/

variable {d : Disk} {c : Channel} {block : Nat} {count : Int}

/-- A request that is not refused is a read of as many bytes as 32 bits tell. -/
theorem linuxReadBlk_access (some_ : count ≠ 0)
    (taken : ¬ (c.dend ≠ 0 ∧ c.dend < u64 (block * c.bs + c.doff))) :
    (linuxReadBlk d c block count).2 =
      some ⟨if d.seek (u64 (block * c.bs + c.doff)) then u64 (block * c.bs + c.doff) else d.stands,
        u32 (requested c count)⟩ := by
  unfold linuxReadBlk requested
  dsimp only
  rw [if_neg some_, if_neg taken]
  by_cases negative : count < 0
  · simp only [if_pos negative]
  · simp only [if_neg negative]

theorem linuxReadBlk_refused (some_ : count ≠ 0)
    (beyond : c.dend ≠ 0 ∧ c.dend < u64 (block * c.bs + c.doff)) :
    linuxReadBlk d c block count = (.llseekFailed, none) := by
  unfold linuxReadBlk
  dsimp only
  rw [if_neg some_, if_pos beyond]

/-- The reads of files refuse what is refused here. -/
theorem linuxReadBlk_volume (v : Volume) (n : Nat) (mem : Buffer.Bytes) (data k : Nat)
    (narrow : block * v.bs + v.doff < 2 ^ 64) :
    (linuxReadBlk d ⟨v.bs, v.doff, v.dend⟩ block k).1 = .llseekFailed ↔
      (Ext2.linuxReadBlk v n block k mem data).1 = .llseekFailed := by
  unfold linuxReadBlk Ext2.linuxReadBlk
  dsimp only
  rw [u64_of_lt narrow]
  by_cases none : k = 0
  · rw [if_pos none, if_pos (by omega)]
  · rw [if_neg none, if_neg (by omega)]
    by_cases beyond : v.dend ≠ 0 ∧ v.dend < block * v.bs + v.doff
    · rw [if_pos beyond, if_pos beyond]
    · rw [if_neg beyond, if_neg beyond]
      have other : ∀ (P : Prop) [Decidable P],
          (if P then Errcode.ok else .shortRead) ≠ .llseekFailed := by
        intro P _
        split <;> decide
      refine iff_of_false (other _) ?_
      cases v.fault n with
      | none => exact Errcode.noConfusion
      | some junk => exact Errcode.noConfusion

/-- A request for bytes of the partition starts where its block is. -/
theorem Inside.place (inside : Inside c block count) (bound : c.dend < 2 ^ 64) :
    u64 (block * c.bs + c.doff) = c.doff + block * c.bs := by
  unfold Inside at inside
  rw [u64_of_lt (by omega), Nat.add_comm]

/-- A request is handled right exactly when its start, as 64 bits tell it, is behind
the partition, or it is for bytes of the partition and the disk goes there. -/
theorem kept_iff (d : Disk) (part : Partition) (blksize : Int) (block : Nat) (count : Int)
    (some_ : count ≠ 0) :
    Kept d (linuxSetBlksize (ext2Channel part) blksize) block count ↔
      (part.behind ≠ 0 ∧ part.behind <
        u64 (block * (linuxSetBlksize (ext2Channel part) blksize).bs + part.offset)) ∨
      (Inside (linuxSetBlksize (ext2Channel part) blksize) block count ∧
        (d.seek (part.offset + block * (linuxSetBlksize (ext2Channel part) blksize).bs) = true ∨
          u32 (requested (linuxSetBlksize (ext2Channel part) blksize) count) = 0 ∨
          part.offset ≤ d.stands ∧ d.stands +
            u32 (requested (linuxSetBlksize (ext2Channel part) blksize) count) ≤ part.behind)) := by
  obtain ⟨c, channel⟩ : ∃ c, c = linuxSetBlksize (ext2Channel part) blksize := ⟨_, rfl⟩
  have front : part.offset = c.doff := by rw [channel]; rfl
  have back : part.behind = c.dend := by rw [channel]; rfl
  have bound : c.dend < 2 ^ 64 := by rw [← back]; exact Nat.mod_lt _ (by decide)
  rw [← channel, front, back]
  by_cases beyond : c.dend ≠ 0 ∧ c.dend < u64 (block * c.bs + c.doff)
  · have run : linuxReadBlk d c block count = (.llseekFailed, none) :=
      linuxReadBlk_refused some_ beyond
    refine iff_of_true ⟨fun a access => ?_, fun _ => ?_⟩ (.inl beyond)
    · rw [run] at access
      cases access
    · rw [run]
      exact ⟨by decide, rfl⟩
  · have access := linuxReadBlk_access (d := d) some_ beyond
    have less : u32 (requested c count) ≤ requested c count := Nat.mod_le _ _
    constructor
    · rintro ⟨inside, refused⟩
      have within : Inside c block count := by
        by_contra outside
        rw [(refused outside).2] at access
        cases access
      refine .inr ⟨within, ?_⟩
      have place := within.place bound
      rw [place] at access
      by_cases seeks : d.seek (c.doff + block * c.bs) = true
      · exact .inl seeks
      · rw [if_neg seeks] at access
        by_cases none : u32 (requested c count) = 0
        · exact .inr (.inl none)
        · exact .inr (.inr (inside _ access none))
    · rintro (refused | ⟨within, goes⟩)
      · exact absurd refused beyond
      · refine ⟨fun a found some_ => ?_, fun outside => absurd within outside⟩
        have place := within.place bound
        unfold Inside at within
        rw [access, place] at found
        obtain rfl := Option.some.inj found
        dsimp only at some_ ⊢
        by_cases seeks : d.seek (c.doff + block * c.bs) = true
        · rw [if_pos seeks]
          omega
        · rw [if_neg seeks]
          rcases goes with seek | none | room
          · exact absurd seek seeks
          · exact absurd none some_
          · exact room

/-- A disk that can seek everywhere. -/
def willing : Disk := ⟨fun _ => true, 0, fun _ n => n⟩

/-- The first block of a partition of 16 blocks. -/
theorem first_block_kept :
    Kept willing (linuxSetBlksize (ext2Channel ⟨1, 64, 16, 512, 0x83⟩) 1024) 0 1 :=
  (kept_iff willing ⟨1, 64, 16, 512, 0x83⟩ 1024 0 1 (by decide)).mpr
    (.inr ⟨by unfold Inside; decide, .inl rfl⟩)

/-- The block behind that partition. -/
theorem block_behind_read :
    ¬ ∀ (d : Disk) (part : Partition) (blksize : Int) (block : Nat) (count : Int),
      0 < part.partSize → count ≠ 0 →
        Kept d (linuxSetBlksize (ext2Channel part) blksize) block count := by
  intro kept
  have right := kept willing ⟨1, 64, 16, 512, 0x83⟩ 1024 8 1 (by decide) (by decide)
  have outside : ¬ Inside (linuxSetBlksize (ext2Channel ⟨1, 64, 16, 512, 0x83⟩) 1024) 8 1 := by
    unfold Inside
    decide
  exact absurd (right.refused outside).2 (by decide)

end Yaboot.Ext2.Device
