import Yaboot.Ext2.ReadProofs
import Yaboot.Fs.OfNet
import Yaboot.Reiserfs.FileProofs
import Yaboot.Xfs.RequestProofs

/-! The end of a file, as its readers see it. Every driver is held to one
contract: a read hands over what is left of the file, cut to the size asked for,
and counts it. Each driver keeps it for some positions and sizes, according to how
it finds the end. -/
namespace Yaboot.Fs
open Buffer Word

/-! ### The contract -/

/-- A driver's read of an open file, from a position and a size. `none` is a
loop given up. -/
abbrev ReadMethod := Nat → Nat → Bytes → Option Outcome

/-- A read hands over the rest of the file, cut to the size, and returns its
length. -/
def RightAt (read : ReadMethod) (len : Nat) (content : Bytes) (pos size : Nat) : Prop :=
  ∀ mem, ∃ mem', read pos size mem =
      some ⟨(min size (len - pos) : Nat), pos + min size (len - pos), mem'⟩ ∧
    Delivered content mem mem' pos (min size (len - pos))

/-- A read hands over so many bytes and returns their number as an `int`. -/
def ReadsTo (read : ReadMethod) (bytes : Bytes) (pos size count : Nat) : Prop :=
  ∀ mem, ∃ mem', read pos size mem = some ⟨s32 count, pos + count, mem'⟩ ∧
    Delivered bytes mem mem' pos count

/-- To a request from `pos` an end at `limit` is as good as one at `len`. -/
def SameEnd (limit len pos size : Nat) : Prop :=
  size = 0 ∨ pos + size ≤ limit ∧ pos + size ≤ len ∨ limit = len ∨ limit ≤ pos ∧ len ≤ pos

/-- An `int` can count the bytes a request gets. -/
def Countable (len pos size : Nat) : Prop := size < 2 ^ 31 ∨ len < pos + 2 ^ 31

theorem sameEnd_iff (limit len pos size : Nat) :
    SameEnd limit len pos size ↔ min size (limit - pos) = min size (len - pos) := by
  unfold SameEnd
  omega

theorem countable_iff (len pos size : Nat) :
    Countable len pos size ↔ min size (len - pos) < 2 ^ 31 := by
  unfold Countable
  omega

variable {read : ReadMethod}

/-- A read is right when it hands over as many bytes as it should, an `int` can
count them, and they are those of the file. -/
theorem ReadsTo.rightAt_iff (reads : ReadsTo read bytes pos size count) (range : count < 2 ^ 32)
    (len : Nat) (content : Bytes) :
    RightAt read len content pos size ↔
      count = min size (len - pos) ∧ count < 2 ^ 31 ∧
        ∀ i < count, bytes (pos + i) = content (pos + i) := by
  constructor
  · intro right
    obtain ⟨mem₁, outcome₁, delivered₁⟩ := reads fun _ => 0
    obtain ⟨mem₂, outcome₂, delivered₂⟩ := right fun _ => 0
    rw [outcome₁] at outcome₂
    simp only [Option.some.injEq, Outcome.mk.injEq] at outcome₂
    obtain ⟨returned, moved, same⟩ := outcome₂
    have counted : count = min size (len - pos) := by omega
    refine ⟨counted, ?_, fun i inside => ?_⟩
    · by_contra long
      rw [s32_of_ge (by omega) range] at returned
      omega
    · rw [← delivered₁.copied i inside, ← delivered₂.copied i (by omega), same]
  · rintro ⟨rfl, small, same⟩ mem
    obtain ⟨mem', outcome, delivered⟩ := reads mem
    rw [s32_of_lt small] at outcome
    refine ⟨mem', outcome, fun i inside => ?_, delivered.kept⟩
    rw [delivered.copied i inside, same i inside]

/-! ### The network driver -/

def netDriver (file : NetFile) : ReadMethod := fun pos size mem =>
  some (ofNetRead (ofNetSeek file pos) size mem)

/-- What is left of a loaded file is counted modulo 2^32. -/
theorem netDriver_readsTo (file : NetFile) (inside : pos ≤ file.len) (near : pos < 2 ^ 32)
    (range : size < 2 ^ 32) :
    ReadsTo (netDriver file) file.buffer pos size (min size (u32 (file.len - pos))) := by
  intro mem
  have av : u32 (sub64 file.len pos) = u32 (file.len - pos) := by
    unfold u32 sub64
    omega
  have count : (if u32 (file.len - pos) < size then u32 (file.len - pos) else size) =
      min size (u32 (file.len - pos)) := by
    split <;> omega
  have sought : ofNetSeek file pos = { file with pos } := by
    unfold ofNetSeek
    rw [if_neg (by omega)]
  have moved : u64 (pos + min size (u32 (file.len - pos))) =
      pos + min size (u32 (file.len - pos)) := u64_of_lt (by omega)
  refine ⟨blit mem 0 (min size (u32 (file.len - pos))) fun i => file.buffer (pos + i), ?_, ?_, ?_⟩
  · unfold netDriver ofNetRead
    simp only [sought, av, count, moved]
  · intro i less
    rw [blit_inside _ _ (Nat.zero_le _) (by omega), Nat.sub_zero]
  · intro i behind
    exact blit_outside _ _ (.inr (by omega))

/-- A loaded file is read right when its length is an `int`, as the value of the load
method is, and otherwise where an `int` counts the bytes and 32 bits what is left. -/
theorem netDriver_rightAt_iff (file : NetFile) (inside : pos ≤ file.len) (near : pos < 2 ^ 32)
    (range : size < 2 ^ 32) :
    RightAt (netDriver file) file.len file.buffer pos size ↔
      Countable file.len pos size ∧
        (file.len < pos + 2 ^ 32 ∨ size ≤ (file.len - pos) % 2 ^ 32) := by
  rw [(netDriver_readsTo file inside near range).rightAt_iff (by omega), countable_iff]
  have left : u32 (file.len - pos) = (file.len - pos) % 2 ^ 32 := rfl
  simp only [implies_true, and_true, left]
  omega

/-! ### ext2 -/

/-- An open ext2 file, the calls libext2fs makes for it and what it returns. No
block read of it fails. -/
structure Ext2File where
  v : Ext2.Volume
  m : Ext2.BlockMap
  calls : List (Int × Nat)
  retval : Nat → Nat → Ext2.Errcode
  blockBuffer : Bytes
  opened : v.opened = true
  listed : Ext2.Calls m false 0 calls
  narrow : m.Narrow v
  finished : ∀ pos size, retval pos size = .ok ∨ retval pos size = .blockAbort
  sound : ∀ n, v.fault n = none
  inside : v.dend = 0 ∨ ∀ n, m.phys n ≠ 0 → m.phys n * v.bs + v.doff ≤ v.dend

def ext2Driver (f : Ext2File) : ReadMethod := fun pos size mem =>
  some (Ext2.ext2Read f.v f.calls (f.retval pos size) pos size mem f.blockBuffer)

/-- A file is read up to the end of its last block, wherever it ends itself. -/
theorem Ext2File.readsTo (f : Ext2File) (near : pos < 2 ^ 32) (range : size < 2 ^ 32) :
    ReadsTo (ext2Driver f) (f.m.byte f.v) pos size (min size (f.m.limit f.v - pos)) := by
  intro mem
  obtain ⟨q, request⟩ : ∃ q : Ext2.Request,
      q = ⟨f.v, f.m, pos, size, mem, by omega, range, f.narrow⟩ := ⟨_, rfl⟩
  have healthy : q.Healthy := by
    subst request
    exact ⟨f.sound, f.inside⟩
  obtain ⟨s, outcome, core, total⟩ := q.ext2Read_outcome (by rw [request]; exact f.opened)
    (by rw [request]; exact f.listed) (f.retval pos size) f.blockBuffer
  have count := total healthy rfl (f.finished pos size)
  have kept := core.kept healthy
  have copied := core.copied
  have place := core.place
  subst request
  dsimp only at outcome count kept copied place
  rw [count] at kept copied place outcome
  refine ⟨s.mem, ?_, copied, kept⟩
  unfold ext2Driver
  rw [outcome, place]

/-- A request to an ext2 file is read right when the end of its last allocated block
is, to that request, as good as its own. -/
theorem ext2Driver_rightAt_iff (f : Ext2File) (len : Nat) (near : pos < 2 ^ 32)
    (range : size < 2 ^ 32) :
    RightAt (ext2Driver f) len (f.m.byte f.v) pos size ↔
      SameEnd (f.m.limit f.v) len pos size ∧ Countable len pos size := by
  rw [(f.readsTo near range).rightAt_iff (by omega), sameEnd_iff, countable_iff]
  simp only [implies_true, and_true]
  exact ⟨fun ⟨same, small⟩ => ⟨same, same ▸ small⟩, fun ⟨same, small⟩ => ⟨same, same ▸ small⟩⟩

/-! ### ReiserFS -/

def reiserfsDriver (v : Reiserfs.Volume) (fuel : Nat) (s : Reiserfs.State) : ReadMethod :=
  fun pos size mem =>
    (Reiserfs.reiserfsReadData v.disk v.info fuel (Reiserfs.reiserfsSeek s pos) size mem).map
      fun result => ⟨result.1, result.2.1.pos, result.2.2⟩

/-- A ReiserFS file is read up to the end of its last item. -/
theorem reiserfsDriver_readsTo {f : Reiserfs.FileOf v} (opened : Reiserfs.Opened f s)
    (enough : f.data.length < fuel) (near : pos < 2 ^ 32) (range : size < 2 ^ 32) :
    ReadsTo (reiserfsDriver v fuel s) (v.bytesOf f.data) pos size
      (min size (v.coverage f.data - pos)) := by
  intro mem
  obtain ⟨done, todo, whole, stream⟩ := opened.stream
  have sought : Reiserfs.Opened f (Reiserfs.reiserfsSeek s pos) :=
    ⟨opened.dirId, opened.objectid, done, todo, whole, stream.congr rfl rfl rfl rfl rfl⟩
  obtain ⟨t, outcome, -, arrived, -⟩ := sought.reiserfsReadData near range mem enough
  have here : (Reiserfs.reiserfsSeek s pos).pos = pos := rfl
  rw [here] at outcome arrived
  refine ⟨blit mem 0 (min size (v.coverage f.data - pos)) fun i => v.bytesOf f.data (pos + i),
    ?_, ?_, ?_⟩
  · unfold reiserfsDriver
    rw [outcome, Option.map_some, arrived]
  · intro i less
    rw [blit_inside _ _ (Nat.zero_le _) (by omega), Nat.sub_zero]
  · intro i behind
    exact blit_outside _ _ (.inr (by omega))

/-- A request to a ReiserFS file is read right when the end of its last item is as good
as its own, and block zero of the device holds zeros where the request meets a hole. -/
theorem reiserfsDriver_rightAt_iff {f : Reiserfs.FileOf v} (opened : Reiserfs.Opened f s)
    (enough : f.data.length < fuel) (len : Nat) (near : pos < 2 ^ 32) (range : size < 2 ^ 32) :
    RightAt (reiserfsDriver v fuel s) len f.content pos size ↔
      SameEnd (v.coverage f.data) len pos size ∧ Countable len pos size ∧
        ∀ i, pos ≤ i → i < pos + size → i < len →
          ∀ o, v.holeAt f.data i = some o → v.node 0 o = 0 := by
  rw [(reiserfsDriver_readsTo opened enough near range).rightAt_iff (by omega), sameEnd_iff,
    countable_iff]
  simp only [f.bytesOf_eq_iff]
  constructor
  · rintro ⟨same, small, holes⟩
    refine ⟨same, same ▸ small, fun i after before inside => ?_⟩
    have zero := holes (i - pos) (by omega)
    rwa [Nat.add_sub_cancel' after] at zero
  · rintro ⟨same, small, holes⟩
    exact ⟨same, same ▸ small, fun i before => holes _ (by omega) (by omega) (by omega)⟩

/-! ### XFS -/

def xfsDriver (g : Xfs.Geometry) (d : Xfs.Disk) (fuel : Nat) (inode : Xfs.Dinode) (w : Xfs.Walk)
    (len : Nat) : ReadMethod := fun pos size mem => Xfs.xfsRead g d fuel inode w ⟨pos, len⟩ size mem

section

variable {g : Xfs.Geometry} {d : Xfs.Disk} {inode : Xfs.Dinode} {w : Xfs.Walk} {len pos size : Nat}

/-- A file in the inode itself is read right when it has what is asked for: its length
is not looked at. -/
theorem xfsLocal_rightAt_iff (inline : inode.format = .local) (inside : pos ≤ len)
    (near : pos < 2 ^ 32) (range : size < 2 ^ 32) :
    RightAt (xfsDriver g d fuel inode w len) len inode.literal pos size ↔
      size < 2 ^ 31 ∧ pos + size ≤ len := by
  have read : ∀ mem, xfsDriver g d fuel inode w len pos size mem =
      some ⟨s32 size, add64 pos (s32 size),
        blit mem 0 (s32 size).toNat fun i => inode.literal (pos + i)⟩ := by
    intro mem
    unfold xfsDriver Xfs.xfsRead Xfs.xfsReadData
    rw [if_pos inline]
  constructor
  · intro right
    obtain ⟨mem', outcome, -⟩ := right fun _ => 0
    rw [read] at outcome
    simp only [Option.some.injEq, Outcome.mk.injEq] at outcome
    have small : size < 2 ^ 31 := by
      by_contra long
      have negative := s32_of_ge (by omega) range
      omega
    rw [s32_of_lt small] at outcome
    omega
  · rintro ⟨small, fits⟩ mem
    have count : min size (len - pos) = size := by omega
    have moved : add64 pos (size : Int) = pos + size := add64_of_lt (by omega)
    rw [count, read, s32_of_lt small, moved]
    refine ⟨_, rfl, fun i before => ?_, fun i behind => ?_⟩
    · rw [Int.toNat_natCast, blit_inside _ _ (Nat.zero_le _) (by omega), Nat.sub_zero]
    · rw [Int.toNat_natCast]
      exact blit_outside _ _ (.inr (by omega))

/-- A size that is no positive `int` moves nothing. -/
theorem xfsRead_idle (remote : inode.format ≠ .local)
    (starts : Xfs.initExtents g d (fuel + 1) inode w = some w') (idle : s32 size ≤ 0)
    (mem : Bytes) :
    Xfs.xfsRead g d (fuel + 1) inode w ⟨pos, len⟩ size mem = some ⟨0, pos, mem⟩ := by
  have ended : ∀ endpos, Xfs.readLoop g d inode endpos (fuel + 1) w'
      ⟨pos, s32 size, 2 ^ 64 - 1, 0, mem⟩ = some ⟨pos, s32 size, 2 ^ 64 - 1, 0, mem⟩ := by
    intro endpos
    rw [Xfs.readLoop, if_neg (Int.not_lt.mpr idle)]
  have back : s32 (add64 pos (-s32 pos)) = 0 := by
    unfold s32 add64
    omega
  unfold Xfs.xfsRead Xfs.xfsReadData
  simp only [if_neg remote, starts, ended, back, Option.bind_eq_bind, Option.bind_some]
  rfl

/-- Such a size is right when it is zero, or at the end of the file. -/
theorem xfsIdle_rightAt_iff (remote : inode.format ≠ .local)
    (starts : Xfs.initExtents g d (fuel + 1) inode w = some w') (idle : s32 size ≤ 0)
    (inside : pos ≤ len) (content : Bytes) :
    RightAt (xfsDriver g d (fuel + 1) inode w len) len content pos size ↔
      size = 0 ∨ pos = len := by
  have read : ∀ mem, Xfs.xfsRead g d (fuel + 1) inode w ⟨pos, len⟩ size mem =
      some ⟨0, pos, mem⟩ := xfsRead_idle remote starts idle
  constructor
  · intro right
    obtain ⟨mem', outcome, -⟩ := right fun _ => 0
    rw [xfsDriver, read] at outcome
    simp only [Option.some.injEq, Outcome.mk.injEq] at outcome
    omega
  · intro none mem
    have count : min size (len - pos) = 0 := by omega
    rw [count]
    exact ⟨mem, read mem, Copied.none _ _ _, Kept.refl _ _⟩

end

/-- An open XFS file whose extents the walk shows, whatever else the disk holds. -/
structure XfsFile where
  g : Xfs.Geometry
  partitionOffset : Nat
  inode : Xfs.Dinode
  w : Xfs.Walk
  fuel : Nat
  len : Nat
  extents : List Xfs.Xad
  remote : inode.format ≠ .local
  mapped : Xfs.Mapped g extents
  holds : (Xfs.ones partitionOffset).Holds g
  walk : ∀ bytes, ∃ w', Xfs.initExtents g ⟨bytes, partitionOffset⟩ fuel inode w = some w' ∧
    Xfs.Yields g ⟨bytes, partitionOffset⟩ inode extents w'
  enough : extents.length < fuel

namespace XfsFile

/-- Every request is right, whatever the disk holds. -/
def RightAt (f : XfsFile) (pos size : Nat) : Prop :=
  ∀ bytes, Fs.RightAt (xfsDriver f.g ⟨bytes, f.partitionOffset⟩ f.fuel f.inode f.w f.len) f.len
    (Xfs.fileByte f.g ⟨bytes, f.partitionOffset⟩ f.extents) pos size

/-- The request ends in the file and its extents let the loop serve it, or the file ends
first and they let the loop end with it. Sizes from 2^31 on are right at the end. -/
def EndsAt (f : XfsFile) (pos size : Nat) : Prop :=
  size = 0 ∨ (2 ^ 31 ≤ size ∧ pos = f.len) ∨
    (size < 2 ^ 31 ∧ pos + size < 2 ^ 31 ∧ pos + size ≤ f.len ∧
      Xfs.Served f.g f.extents pos (pos + size)) ∨
    (size < 2 ^ 31 ∧ f.len < 2 ^ 31 ∧ f.len < pos + size ∧ Xfs.Spent f.g f.extents pos f.len)

variable {f : XfsFile} {pos size : Nat}

theorem idle_iff (f : XfsFile) (idle : s32 size ≤ 0) (inside : pos ≤ f.len) :
    f.RightAt pos size ↔ size = 0 ∨ pos = f.len := by
  have enough := f.enough
  obtain ⟨fuel, more⟩ : ∃ n, f.fuel = n + 1 := ⟨f.fuel - 1, by omega⟩
  have each : ∀ bytes, Fs.RightAt (xfsDriver f.g ⟨bytes, f.partitionOffset⟩ f.fuel f.inode f.w f.len)
      f.len (Xfs.fileByte f.g ⟨bytes, f.partitionOffset⟩ f.extents) pos size ↔
        size = 0 ∨ pos = f.len := by
    intro bytes
    obtain ⟨w', starts, -⟩ := f.walk bytes
    rw [more] at starts ⊢
    exact xfsIdle_rightAt_iff f.remote starts idle inside _
  exact ⟨fun right => (each fun _ => 0).mp (right _), fun none bytes => (each bytes).mpr none⟩

/-- A request that ends below 2^31, at its own end or at that of the file. -/
theorem short_iff (f : XfsFile) (inside : pos ≤ f.len) (short : size < 2 ^ 31)
    (near : pos + size < 2 ^ 31 ∨ f.len < 2 ^ 31) :
    f.RightAt pos size ↔
      (pos + size ≤ f.len ∧ Xfs.Served f.g f.extents pos (pos + size)) ∨
        f.len < pos + size ∧ Xfs.Spent f.g f.extents pos f.len := by
  obtain ⟨stop, ends⟩ : ∃ stop, stop = min (pos + size) f.len := ⟨_, rfl⟩
  have count : min size (f.len - pos) = stop - pos := by omega
  have place : pos + (stop - pos) = stop := by omega
  rw [← Xfs.xfsReadData_answers_iff f.remote f.mapped f.holds f.walk f.enough inside short ends
    (by omega)]
  unfold RightAt Fs.RightAt Xfs.Answers xfsDriver Xfs.xfsRead
  simp only [count, place, s32_of_lt short]

theorem rightAt_of_endsAt (inside : pos ≤ f.len) (range : size < 2 ^ 32)
    (ends : f.EndsAt pos size) : f.RightAt pos size := by
  rcases ends with rfl | ⟨long, last⟩ | ⟨short, low, fits, served⟩ | ⟨short, low, far, spent⟩
  · exact (f.idle_iff (by decide) inside).mpr (.inl rfl)
  · have negative := s32_of_ge long range
    exact (f.idle_iff (by omega) inside).mpr (.inr last)
  · exact (f.short_iff inside short (.inl low)).mpr (.inl ⟨fits, served⟩)
  · exact (f.short_iff inside short (.inr low)).mpr (.inr ⟨far, spent⟩)

theorem endsAt_of_rightAt (inside : pos ≤ f.len) (range : size < 2 ^ 32)
    (low : 2 ^ 31 ≤ size ∨ pos + size < 2 ^ 31 ∨ f.len < 2 ^ 31) (right : f.RightAt pos size) :
    f.EndsAt pos size := by
  by_cases long : 2 ^ 31 ≤ size
  · have negative := s32_of_ge long range
    exact ((f.idle_iff (by omega) inside).mp right).imp_right fun last => .inl ⟨long, last⟩
  · rcases (f.short_iff inside (by omega) (by omega)).mp right with ⟨fits, served⟩ | ⟨far, spent⟩
    · exact .inr (.inr (.inl ⟨by omega, by omega, fits, served⟩))
    · exact .inr (.inr (.inr ⟨by omega, by omega, far, spent⟩))

end XfsFile

/-- An open file in extents format. The walk shows the records in its inode. -/
def XfsFile.ofExtents (g : Xfs.Geometry) (partitionOffset : Nat) (inode : Xfs.Dinode) (w : Xfs.Walk)
    (len : Nat) (inline : inode.format = .extents) (mapped : Xfs.Mapped g inode.extents)
    (holds : (Xfs.ones partitionOffset).Holds g) : XfsFile where
  g := g
  partitionOffset := partitionOffset
  inode := inode
  w := w
  fuel := inode.nextents + 1
  len := len
  extents := inode.extents
  remote := by simp [inline]
  mapped := mapped
  holds := holds
  walk bytes := Xfs.extents_yield g ⟨bytes, partitionOffset⟩ inline _ w
  enough := by simp [Xfs.Dinode.extents]

example : (XfsFile.ofExtents Xfs.smallGeometry 0 Xfs.holed ⟨0, 0, 0, 0, 0⟩ 1536 rfl
    Xfs.holed_mapped (by decide +kernel)).EndsAt 1024 512 := by
  refine .inr (.inr (.inl ⟨by decide, by decide, by decide, ?_⟩))
  unfold XfsFile.ofExtents
  dsimp only
  rw [Xfs.holed_extents]
  exact .data (by decide) (by decide) rfl (.inl (by decide)) (.inl (by decide))

/-- An open XFS file in btree format. The walk shows some of its extents first, and then
goes on at addresses of no leaf. -/
structure XfsTree where
  g : Xfs.Geometry
  d : Xfs.Disk
  inode : Xfs.Dinode
  w : Xfs.Walk
  fuel : Nat
  len : Nat
  seen : List Xfs.Xad
  unseen : List Xfs.Xad
  remote : inode.format ≠ .local
  mapped : Xfs.Mapped g (seen ++ unseen)
  holds : d.Holds g
  walk : ∃ w', Xfs.initExtents g d fuel inode w = some w' ∧ Xfs.Shows g d inode seen w'
  enough : seen.length < fuel

namespace XfsTree

def content (f : XfsTree) : Bytes := Xfs.fileByte f.g f.d (f.seen ++ f.unseen)

/-- The request ends in the file, in front of the extents that are not shown, and those
that are let the loop serve it. -/
def EndsAt (f : XfsTree) (pos size : Nat) : Prop :=
  size = 0 ∨ (2 ^ 31 ≤ size ∧ pos = f.len) ∨
    (size < 2 ^ 31 ∧ pos + size < 2 ^ 31 ∧ pos + size ≤ f.len ∧
      Xfs.Served f.g f.seen pos (pos + size) ∧
      ∀ e ∈ f.unseen, pos + size ≤ e.offset * f.g.bsize)

theorem mapped_seen (f : XfsTree) : Xfs.Mapped f.g f.seen where
  sorted := (List.pairwise_append.mp f.mapped.sorted).1
  some_block e member := f.mapped.some_block e (List.mem_append_left _ member)
  group e member := f.mapped.group e (List.mem_append_left _ member)
  inside e member := f.mapped.inside e (List.mem_append_left _ member)
  low e member := f.mapped.low e (List.mem_append_left _ member)

theorem content_seen (f : XfsTree) (before : ∀ e ∈ f.unseen, i < e.offset * f.g.bsize) :
    Xfs.fileByte f.g f.d f.seen i = f.content i := by
  have none : f.unseen.find? (fun e => decide (e.Covers (i / f.g.bsize))) = none := by
    rw [List.find?_eq_none]
    exact fun e member covers =>
      Xfs.not_covers_div f.g e (.inl (before e member)) (of_decide_eq_true covers)
  unfold content Xfs.fileByte
  rw [List.find?_append, none, Option.or_none]

/-- A read of a file with a tree is right where it ends as it should among the records seen. -/
theorem rightAt_of_endsAt {f : XfsTree} (inside : pos ≤ f.len) (range : size < 2 ^ 32) (ends : f.EndsAt pos size) :
    RightAt (xfsDriver f.g f.d f.fuel f.inode f.w f.len) f.len f.content pos size := by
  obtain ⟨w', starts, shown⟩ := f.walk
  have enough := f.enough
  obtain ⟨fuel, more⟩ : ∃ n, f.fuel = n + 1 := ⟨f.fuel - 1, by omega⟩
  rcases ends with rfl | ⟨long, last⟩ | ⟨short, low, fits, served, behind⟩
  · rw [more] at starts ⊢
    exact (xfsIdle_rightAt_iff f.remote starts (by decide) inside _).mpr (.inl rfl)
  · have negative := s32_of_ge long range
    rw [more] at starts ⊢
    exact (xfsIdle_rightAt_iff f.remote starts (by omega) inside _).mpr (.inr last)
  · intro mem
    obtain ⟨r, request⟩ : ∃ r : Xfs.Span, r = ⟨f.g, f.d, f.seen, pos, pos + size, pos + size, mem,
      f.holds, f.mapped_seen, by omega, by omega, low, by omega⟩ := ⟨_, rfl⟩
    have taken : pos + size - pos = size := Nat.add_sub_cancel_left ..
    have count : min size (f.len - pos) = size := by omega
    have answered := r.answered_of_shows f.remote (show r.stop ≤ f.len by rw [request]; exact fits)
      (by rw [request]; exact starts) (by rw [request]; exact shown) (by rw [request]; exact enough)
      (by rw [request]) (by rw [request]; exact served)
    rw [request] at answered
    obtain ⟨mem', outcome, delivered⟩ := answered
    dsimp only at outcome delivered
    rw [taken] at outcome delivered
    rw [count]
    refine ⟨mem', ?_, fun i before => ?_, delivered.kept⟩
    · unfold xfsDriver Xfs.xfsRead
      rw [s32_of_lt short]
      exact outcome
    · rw [delivered.copied i before]
      exact f.content_seen fun e member => by
        have start := behind e member
        omega

end XfsTree

/-! ### All of them -/

/-- An open file, as its driver reads it. -/
inductive OpenFile where
  | ext2 (f : Ext2File) (len : Nat)
  | xfsLocal (g : Xfs.Geometry) (d : Xfs.Disk) (fuel : Nat) (inode : Xfs.Dinode) (w : Xfs.Walk)
      (len : Nat) (inline : inode.format = .local)
  | xfs (f : XfsFile)
  | xfsTree (f : XfsTree)
  | reiserfs (v : Reiserfs.Volume) (f : Reiserfs.FileOf v) (s : Reiserfs.State) (fuel : Nat)
      (opened : Reiserfs.Opened f s) (enough : f.data.length < fuel)
  | net (file : NetFile)

namespace OpenFile

def len : OpenFile → Nat
  | ext2 _ len => len
  | xfsLocal _ _ _ _ _ len _ => len
  | xfs f => f.len
  | xfsTree f => f.len
  | reiserfs _ _ s _ _ _ => s.len
  | net file => file.len

/-- A read of the file meets the contract. -/
def RightAt : OpenFile → Nat → Nat → Prop
  | ext2 f len => Fs.RightAt (ext2Driver f) len (f.m.byte f.v)
  | xfsLocal g d fuel inode w len _ => Fs.RightAt (xfsDriver g d fuel inode w len) len inode.literal
  | xfs f => f.RightAt
  | xfsTree f => Fs.RightAt (xfsDriver f.g f.d f.fuel f.inode f.w f.len) f.len f.content
  | reiserfs v f s fuel _ _ => Fs.RightAt (reiserfsDriver v fuel s) s.len f.content
  | net file => Fs.RightAt (netDriver file) file.len file.buffer

/-- To this request the driver ends where the file does. -/
def EndsAt : OpenFile → Nat → Nat → Prop
  | ext2 f len, pos, size => SameEnd (f.m.limit f.v) len pos size ∧ Countable len pos size
  | xfsLocal _ _ _ _ _ len _, pos, size => size < 2 ^ 31 ∧ pos + size ≤ len
  | xfs f, pos, size => f.EndsAt pos size
  | xfsTree f, pos, size => f.EndsAt pos size
  | reiserfs v f s _ _ _, pos, size =>
    SameEnd (v.coverage f.data) s.len pos size ∧ Countable s.len pos size ∧
      ∀ i, pos ≤ i → i < pos + size → i < s.len → ∀ o, v.holeAt f.data i = some o → v.node 0 o = 0
  | net file, pos, size =>
    Countable file.len pos size ∧ (file.len < pos + 2 ^ 32 ∨ size ≤ (file.len - pos) % 2 ^ 32)

/-- The request does not come to an address that is no `int`, and the file is not in
btree format. -/
def Settled : OpenFile → Nat → Nat → Prop
  | xfs f, pos, size => 2 ^ 31 ≤ size ∨ pos + size < 2 ^ 31 ∨ f.len < 2 ^ 31
  | xfsTree _, _, _ => False
  | _, _, _ => True

end OpenFile

/-- Which requests are read right up to the end of the file and not beyond. The
condition is enough for every file, and necessary apart from requests to XFS files that
come to 2^31, or that follow a btree. -/
theorem end_of_file_iff (file : OpenFile) (pos size : Nat) (inside : pos ≤ file.len)
    (near : pos < 2 ^ 32) (range : size < 2 ^ 32) :
    (file.EndsAt pos size → file.RightAt pos size) ∧
      (file.Settled pos size → file.RightAt pos size → file.EndsAt pos size) := by
  cases file with
  | ext2 f len =>
    have same := ext2Driver_rightAt_iff f len near range
    exact ⟨same.mpr, fun _ => same.mp⟩
  | xfsLocal g d fuel inode w len inline =>
    have same : RightAt (xfsDriver g d fuel inode w len) len inode.literal pos size ↔
        size < 2 ^ 31 ∧ pos + size ≤ len := xfsLocal_rightAt_iff inline inside near range
    exact ⟨same.mpr, fun _ => same.mp⟩
  | xfs f => exact ⟨f.rightAt_of_endsAt inside range, f.endsAt_of_rightAt inside range⟩
  | xfsTree f => exact ⟨f.rightAt_of_endsAt inside range, False.elim⟩
  | reiserfs v f s fuel opened enough =>
    have same := reiserfsDriver_rightAt_iff opened enough s.len near range
    exact ⟨same.mpr, fun _ => same.mp⟩
  | net file =>
    have same := netDriver_rightAt_iff file inside near range
    exact ⟨same.mpr, fun _ => same.mp⟩

/-- A leaf with the stat item of object (1, 2) and three bytes of data. -/
def smallLeaf : List UInt8 :=
  [1, 0, 2, 0] ++ List.replicate 20 0 ++
  [1, 0, 0, 0, 2, 0, 0, 0, 0, 0, 0, 0, 0, 0, 0, 0, 0, 0, 44, 0, 72, 0, 1, 0] ++
  [1, 0, 0, 0, 2, 0, 0, 0, 1, 0, 0, 0, 0, 0, 0, 32, 0, 0, 3, 0, 116, 0, 1, 0] ++
  List.replicate 44 0 ++ [97, 98, 99]

def smallVolume : Reiserfs.Volume where
  disk := fun a => if 16 * 4096 ≤ a then smallLeaf.getD (a - 16 * 4096) 0 else 0
  info := { version := 2, treeDepth := 1, blocksize := 4096, blocksizeShift := 12, cachedSlots := 6 }
  root := 16
  shift_ge := by decide
  shift_le := by decide
  blocksize_eq := by decide
  slots_eq := by decide
  empty := by decide
  depth_lt := by decide
  shaped := by decide +kernel

def smallFile : Reiserfs.FileOf smallVolume where
  dirId := 1
  objectid := 2
  stat := (16, 0)
  data := [(16, 1)]
  tail := []
  found := by decide +kernel
  own := by decide +kernel
  ends := by
    unfold Reiserfs.Volume.Ends
    decide +kernel
  laid := ⟨.inl (by decide +kernel), by decide +kernel, by decide +kernel, trivial⟩
  walkable := .inl (by decide)

/-- The volume with its root in the cache, and nothing else read. -/
def smallState : Reiserfs.State where
  mem := fun i => smallVolume.node 16 (i % 4096)
  blocks := fun _ => 0
  nextKeyNr := fun _ => 0
  currentIh := 0
  currentItem := 0
  fileDirId := 1
  fileObjectid := 2
  pos := 0
  len := 3
  errnum := .ok

theorem smallState_cached : Reiserfs.Cached smallVolume smallState where
  root i inside := by
    have small : i < 4096 := inside
    have place : (0 * 4096 + i) % 4096 = i := by omega
    exact congrArg (smallVolume.node 16) place
  leaf _ i inside := by
    have small : i < 4096 := inside
    have place : (1 * 4096 + i) % 4096 = i := by omega
    exact congrArg (smallVolume.node 16) place
  nodes _ _ _ _ known := absurd rfl known

/-- The small file can be open. -/
theorem smallFile_opens : ∃ s, Reiserfs.Opened smallFile s ∧ s.len = 3 := by
  obtain ⟨s, -, stream, file, fine⟩ := smallState_cached.findItems smallFile.found smallFile.walkable
  obtain ⟨t, -, ahead, file', -⟩ := stream.nextKey
  exact ⟨t, ⟨file'.dirId.trans file.dirId, file'.objectid.trans file.objectid, [], [(16, 1)], rfl,
    ahead⟩, file'.len.trans file.len⟩

/-- The small file is read right, to its end and no further. -/
theorem smallFile_read_right : ∃ s, s.len = 3 ∧ Reiserfs.Opened smallFile s ∧
    RightAt (reiserfsDriver smallVolume 2 s) s.len smallFile.content 1 10 := by
  obtain ⟨s, opened, len⟩ := smallFile_opens
  have enough : smallFile.data.length < 2 := by decide
  have mapped : ∀ i < 3, smallVolume.holeAt smallFile.data i = none := by decide +kernel
  have covered : smallVolume.coverage smallFile.data = 3 := by decide +kernel
  have ends : (OpenFile.reiserfs smallVolume smallFile s 2 opened enough).EndsAt 1 10 := by
    refine ⟨.inr (.inr (.inl (covered.trans len.symm))), .inl (by decide), ?_⟩
    intro i _ _ inside o hole
    rw [mapped i (by omega)] at hole
    cases hole
  exact ⟨s, len, opened, (end_of_file_iff (.reiserfs smallVolume smallFile s 2 opened enough) 1 10
    (show 1 ≤ s.len by omega) (by decide) (by decide)).1 ends⟩

/-- A file of one block. -/
def oneBlock : Ext2File where
  v := ⟨true, 1024, by decide, by decide, 0, 0, fun _ => 1, fun _ => none⟩
  m := ⟨[5], by decide, by decide⟩
  calls := [(0, 5)]
  retval := fun _ _ => .blockAbort
  blockBuffer := fun _ => 0
  opened := rfl
  listed := by
    refine .data (Nat.zero_le 0) (fun n _ before => absurd before (Nat.not_lt_zero n)) (by decide)
      (.stop fun _ n after => ?_)
    by_contra allocated
    have inside : n < 1 := Ext2.BlockMap.lt_of_phys_ne allocated
    omega
  narrow := Ext2.BlockMap.narrow_of_low (by decide)
  finished _ _ := .inr rfl
  sound _ := rfl
  inside := .inl rfl

/-- A read of 200 bytes from the start of a file of 100 returns 200. -/
theorem block_read_past_end :
    ¬ ∀ (file : OpenFile) (pos size : Nat), pos ≤ file.len → pos < 2 ^ 32 → size < 2 ^ 32 →
      file.RightAt pos size := by
  intro right
  obtain ⟨mem₁, outcome₁, -⟩ := oneBlock.readsTo (show 0 < 2 ^ 32 by decide)
    (show 200 < 2 ^ 32 by decide) fun _ => 0
  obtain ⟨mem₂, outcome₂, -⟩ := right (.ext2 oneBlock 100) 0 200 (by decide) (by decide)
    (by decide) fun _ => 0
  rw [outcome₁] at outcome₂
  have wrong : s32 (min 200 (oneBlock.m.limit oneBlock.v - 0)) ≠ (min 200 (100 - 0) : Nat) := by
    decide
  exact wrong (congrArg Outcome.returned (Option.some.inj outcome₂))

end Yaboot.Fs
