import Yaboot.Ext2.Read

/-! The fast read hands over the bytes of the file. Between two calls of the
iterator the reader is idle or holds a range of blocks that are contiguous in
the file and on disk and start at the current position; both are stated against
the block map of the inode, and every branch of the iterator keeps them. -/
namespace Yaboot.Ext2
open Buffer Word

/-- The blocks of an inode, zero standing for a hole. The list ends with the
last allocated block. -/
structure BlockMap where
  blocks : List Nat
  last_ne : blocks.getLast? ≠ some 0
  wide : ∀ b ∈ blocks, b < 2 ^ 32

namespace BlockMap

def phys (m : BlockMap) (n : Nat) : Nat := m.blocks.getD n 0

/-- The end of the last allocated block. -/
def limit (m : BlockMap) (v : Volume) : Nat := v.bs * m.blocks.length

/-- The file's bytes, unallocated blocks reading as zeros. -/
def byte (m : BlockMap) (v : Volume) : Bytes := fun i =>
  if m.phys (i / v.bs) = 0 then 0
  else v.disk (m.phys (i / v.bs) * v.bs + v.doff + i % v.bs)

theorem lt_of_phys_ne {m : BlockMap} (allocated : m.phys n ≠ 0) : n < m.blocks.length := by
  by_contra outside
  apply allocated
  rw [phys, List.getD_eq_getElem?_getD, List.getElem?_eq_none (by omega), Option.getD_none]

theorem phys_lt (m : BlockMap) (n : Nat) : m.phys n < 2 ^ 32 := by
  unfold phys
  rw [List.getD_eq_getElem?_getD]
  cases found : m.blocks[n]? with
  | none => simp
  | some b => exact m.wide b (List.mem_of_getElem? found)

theorem length_le_of_clear {m : BlockMap} (clear : ∀ n, k ≤ n → m.phys n = 0) :
    m.blocks.length ≤ k := by
  by_contra beyond
  apply m.last_ne
  have zero := clear (m.blocks.length - 1) (by omega)
  rw [phys, List.getD_eq_getElem?_getD, List.getElem?_eq_getElem (by omega)] at zero
  rw [List.getLast?_eq_getElem?, List.getElem?_eq_getElem (by omega)]
  simpa using zero

theorem block_end_le {m : BlockMap} (v : Volume) (allocated : m.phys n ≠ 0) :
    (n + 1) * v.bs ≤ m.limit v := by
  rw [limit, Nat.mul_comm v.bs]
  exact Nat.mul_le_mul_right _ (lt_of_phys_ne allocated)

/-- The blocks have 32-bit numbers, and no hole in front of a block takes 4 GiB. -/
structure Narrow (m : BlockMap) (v : Volume) : Prop where
  count : m.blocks.length < 2 ^ 32
  gap : ∀ n k, (∀ j, n ≤ j → j < k → m.phys j = 0) → m.phys k ≠ 0 → (k - n) * v.bs < 2 ^ 32

/-- A file that ends below 4 GiB is one of those. -/
theorem narrow_of_low {m : BlockMap} {v : Volume} (low : m.limit v < 2 ^ 32) : m.Narrow v := by
  refine ⟨(Nat.le_mul_of_pos_left _ v.bs_pos).trans_lt low, fun n k _ allocated => ?_⟩
  have inside := block_end_le v allocated
  have le : (k - n) * v.bs ≤ (k + 1) * v.bs := Nat.mul_le_mul_right _ (by omega)
  omega

theorem Narrow.limit_lt {m : BlockMap} {v : Volume} (narrow : m.Narrow v) : m.limit v < 2 ^ 48 := by
  have count := narrow.count
  calc m.limit v ≤ 65536 * m.blocks.length := Nat.mul_le_mul_right _ v.bs_le
    _ < 2 ^ 48 := by omega

theorem byte_eq (m : BlockMap) (v : Volume) (inside : o < v.bs) :
    m.byte v (n * v.bs + o) =
      if m.phys n = 0 then 0 else v.disk (m.phys n * v.bs + v.doff + o) := by
  have block : (n * v.bs + o) / v.bs = n := by
    rw [Nat.mul_comm, Nat.mul_add_div v.bs_pos, Nat.div_eq_of_lt inside, Nat.add_zero]
  have offset : (n * v.bs + o) % v.bs = o := by
    rw [Nat.mul_comm, Nat.mul_add_mod, Nat.mod_eq_of_lt inside]
  simp only [byte, block, offset]

/-- A run of blocks that is contiguous on disk is one stretch of the disk. -/
theorem byte_of_run {m : BlockMap} {v : Volume} (started : start ≠ 0)
    (run : ∀ j < count, m.phys (first + j) = start + j) (inside : i < count * v.bs) :
    m.byte v (first * v.bs + i) = v.disk (start * v.bs + v.doff + i) := by
  have small := Nat.mod_lt i v.bs_pos
  have split := Nat.div_add_mod i v.bs
  have which : i / v.bs < count := Nat.div_lt_of_lt_mul (by rwa [Nat.mul_comm])
  have place : first * v.bs + i = (first + i / v.bs) * v.bs + i % v.bs := by
    rw [Nat.add_mul, Nat.mul_comm (i / v.bs)]
    omega
  have nonzero : start + i / v.bs ≠ 0 := fun zero => started (Nat.eq_zero_of_add_eq_zero_right zero)
  rw [place, byte_eq m v small, run _ which, if_neg nonzero, Nat.add_mul, Nat.mul_comm (i / v.bs)]
  congr 1
  omega

end BlockMap

/-- What libext2fs is relied on for: from block `k` on, each allocated block is
reported once, in order, with its physical block; calls for metadata carry a
negative number. An iteration that is `cut` may stop early. -/
inductive Calls (m : BlockMap) (cut : Bool) : Nat → List (Int × Nat) → Prop where
  | stop (clear : cut = false → ∀ n, k ≤ n → m.phys n = 0) : Calls m cut k []
  | metadata (negative : lgBlock < 0) (rest : Calls m cut k calls) :
      Calls m cut k ((lgBlock, blocknr) :: calls)
  | data (reached : k ≤ lgBlock) (hole : ∀ n, k ≤ n → n < lgBlock → m.phys n = 0)
      (allocated : m.phys lgBlock ≠ 0) (rest : Calls m cut (lgBlock + 1) calls) :
      Calls m cut k (((lgBlock : Nat), m.phys lgBlock) :: calls)

/-- A read, in the ranges of the C types, of a file whose holes are below 4 GiB. -/
structure Request where
  v : Volume
  m : BlockMap
  pos : Nat
  size : Nat
  mem : Bytes
  pos_lt : pos < 2 ^ 64
  size_lt : size < 2 ^ 32
  narrow : m.Narrow v

namespace Request

/-- No block read of this file fails. -/
def Healthy (q : Request) : Prop :=
  (∀ n, q.v.fault n = none) ∧
    (q.v.dend = 0 ∨ ∀ n, q.m.phys n ≠ 0 → q.m.phys n * q.v.bs + q.v.doff ≤ q.v.dend)

/-- What a read has done so far, faults or not. -/
structure Core (q : Request) (s : Reader) : Prop where
  left : s.readTotal + s.readMax = q.size
  place : s.pos = q.pos + s.readTotal
  within : s.readTotal = 0 ∨ s.pos ≤ q.m.limit q.v
  copied : Copied (q.m.byte q.v) s.mem q.pos s.readTotal
  kept : q.Healthy → Kept q.mem s.mem s.readTotal
  sound : q.Healthy → s.readResult = .ok

/-- No range is held; no block from the position up to block `k` is allocated. -/
structure Idle (q : Request) (k : Nat) (s : Reader) : Prop extends Core q s where
  cursor : s.readBuffer = s.readTotal
  start : s.readRangeStart = 0
  last : s.readLastLogical = u32 (s.pos / q.v.bs)
  clear : ∀ n, s.pos / q.v.bs ≤ n → n < k → q.m.phys n = 0

/-- The blocks from the position up to block `k` are held as a range. -/
structure Ranged (q : Request) (k : Nat) (s : Reader) : Prop extends Core q s where
  cursor : s.readBuffer = s.readTotal
  aligned : s.pos = s.readLastLogical * q.v.bs
  narrow : s.readLastLogical < 2 ^ 32
  started : s.readRangeCount ≠ 0 → s.readRangeStart ≠ 0
  count_le : s.readRangeCount ≤ maxReadRange
  run : ∀ j < s.readRangeCount, q.m.phys (s.readLastLogical + j) = s.readRangeStart + j
  stop : s.readLastLogical + s.readRangeCount = k
  room : (s.readRangeCount - 1) * q.v.bs ≤ s.readMax

structure Pending (q : Request) (k : Nat) (s : Reader) : Prop extends Ranged q k s where
  held : s.readRangeCount ≠ 0

/-- Everything asked for was handed over. -/
structure Done (q : Request) (s : Reader) : Prop extends Core q s where
  full : s.readMax = 0
  start : s.readRangeStart = 0

theorem Core.pos_lt {q : Request} (core : Core q s) : s.pos < 2 ^ 64 := by
  have bound := q.narrow.limit_lt
  have start := q.pos_lt
  have place := core.place
  cases core.within with
  | inl none => omega
  | inr within => omega

/-- The bookkeeping does not overflow. -/
theorem Core.advance_eq {q : Request} (core : Core q s) (cursor : s.readBuffer = s.readTotal)
    (fits : n ≤ s.readMax) (inside : n = 0 ∨ s.pos + n ≤ q.m.limit q.v) (mem : Bytes) :
    advance n { s with mem := mem } =
      { s with
        readBuffer := s.readTotal + n, readMax := s.readMax - n, readTotal := s.readTotal + n,
        pos := s.pos + n, mem := mem } := by
  have sized := q.size_lt
  have left := core.left
  have small := core.pos_lt
  have bound := q.narrow.limit_lt
  have far : s.pos + n < 2 ^ 64 := by omega
  simp only [advance, cursor, u32_of_lt (show s.readTotal + n < 2 ^ 32 by omega),
    sub32_of_le (show s.readMax < 2 ^ 32 by omega) fits, u64_of_lt far]

/-- Bytes of the file stored where the request stands take it on by as many. -/
theorem Core.deliver {q : Request} (core : Core q s) (fits : n ≤ s.readMax)
    (inside : n = 0 ∨ s.pos + n ≤ q.m.limit q.v)
    (same : ∀ i < n, src i = q.m.byte q.v (s.pos + i)) (total : t.readTotal = s.readTotal + n)
    (rest : t.readMax = s.readMax - n) (moved : t.pos = s.pos + n)
    (stored : t.mem = blit s.mem s.readTotal n src)
    (result : t.readResult = .ok ∨ t.readResult = s.readResult) : Core q t where
  left := by
    have left := core.left
    omega
  place := by
    have place := core.place
    omega
  within := by
    have within := core.within
    omega
  copied := by
    rw [stored, total]
    apply core.copied.extend
    intro i inside
    rw [same i inside, core.place]
  kept healthy := by
    rw [stored, total]
    exact (core.kept healthy).extend src n
  sound healthy := by
    rcases result with ok | same
    · exact ok
    · rw [same, core.sound healthy]

/-- A read that fails may leave anything behind the bytes handed over. -/
theorem Core.scribble {q : Request} (core : Core q s) (sick : ¬ q.Healthy)
    (total : t.readTotal = s.readTotal) (rest : t.readMax = s.readMax) (moved : t.pos = s.pos)
    (stored : t.mem = s.mem ∨ ∃ k junk, t.mem = blit s.mem s.readTotal k junk) : Core q t where
  left := by rw [total, rest, core.left]
  place := by rw [total, moved, core.place]
  within := by rw [total, moved]; exact core.within
  copied := by
    rw [total]
    rcases stored with same | ⟨k, junk, scribbled⟩
    · rw [same]
      exact core.copied
    · rw [scribbled]
      exact core.copied.behind junk k
  kept healthy := absurd healthy sick
  sound healthy := absurd healthy sick

end Request

/-- A block read delivers the disk's bytes, or fails on a volume that is not
healthy. -/
theorem linuxReadBlk_cases (q : Request) (some_block : count ≠ 0 → q.m.phys which = block)
    (allocated : count ≠ 0 → block ≠ 0) (n : Nat) (mem : Bytes) (data : Nat) :
    linuxReadBlk q.v n block count mem data =
        (.ok, blit mem data (count * q.v.bs) fun i => q.v.disk (block * q.v.bs + q.v.doff + i)) ∨
      (linuxReadBlk q.v n block count mem data).1 ≠ .ok ∧ ¬ q.Healthy ∧
        ((linuxReadBlk q.v n block count mem data).2 = mem ∨
          ∃ k junk, (linuxReadBlk q.v n block count mem data).2 = blit mem data k junk) := by
  unfold linuxReadBlk
  by_cases none : count = 0
  · simp [none]
  simp only [none, ↓reduceIte]
  by_cases beyond : q.v.dend ≠ 0 ∧ q.v.dend < block * q.v.bs + q.v.doff
  · refine .inr ?_
    simp only [beyond, ↓reduceIte, ne_eq, not_false_eq_true, and_self, reduceCtorEq, true_or,
      and_true, true_and]
    rintro ⟨-, unknown | within⟩
    · exact beyond.1 unknown
    · have le := within which (by rw [some_block none]; exact allocated none)
      rw [some_block none] at le
      omega
  · simp only [beyond, ↓reduceIte]
    cases fault : q.v.fault n with
    | none => simp
    | some junk =>
      refine .inr ⟨by simp, ?_, .inr ⟨_, junk, rfl⟩⟩
      rintro ⟨sound, -⟩
      rw [sound n] at fault
      cases fault

namespace Request

theorem Ranged.phys_ne {q : Request} (ranged : Ranged q k s) (inside : j < s.readRangeCount) :
    q.m.phys (s.readLastLogical + j) ≠ 0 := by
  have started := ranged.started (by omega)
  rw [ranged.run j inside]
  omega

theorem Ranged.end_le {q : Request} (ranged : Ranged q k s) (le : n ≤ s.readRangeCount)
    (some_block : n ≠ 0) : (s.readLastLogical + n) * q.v.bs ≤ q.m.limit q.v := by
  have allocated := ranged.phys_ne (show n - 1 < s.readRangeCount by omega)
  have le := BlockMap.block_end_le q.v allocated
  rwa [show s.readLastLogical + (n - 1) + 1 = s.readLastLogical + n by omega] at le

theorem blocks_lt {q : Request} (le : n * q.v.bs ≤ q.m.limit q.v) : n < 2 ^ 32 := by
  rw [BlockMap.limit, Nat.mul_comm q.v.bs] at le
  exact (Nat.le_of_mul_le_mul_right le q.v.bs_pos).trans_lt q.narrow.count

theorem range_small {q : Request} (le : n ≤ maxReadRange) : n * q.v.bs < 2 ^ 31 := by
  calc n * q.v.bs ≤ 256 * 65536 := Nat.mul_le_mul le q.v.bs_le
    _ < 2 ^ 31 := by decide

theorem Ranged.inside {q : Request} (ranged : Ranged q k s) (le : n ≤ s.readRangeCount)
    (some_block : n ≠ 0) : s.pos + n * q.v.bs ≤ q.m.limit q.v := by
  rw [ranged.aligned, ← Nat.add_mul]
  exact ranged.end_le le some_block

/-- The reader when the first `n` blocks of a range have been read. -/
def flushed (q : Request) (n : Nat) (s : Reader) : Reader :=
  { s with
    readResult := .ok
    reads := s.reads + 1
    mem := blit s.mem s.readTotal (n * q.v.bs) fun i =>
      q.v.disk (s.readRangeStart * q.v.bs + q.v.doff + i)
    readBuffer := s.readTotal + n * q.v.bs
    readMax := s.readMax - n * q.v.bs
    readTotal := s.readTotal + n * q.v.bs
    pos := s.pos + n * q.v.bs
    readRangeCount := s.readRangeCount - n
    readRangeStart := u32 (s.readRangeStart + n)
    readLastLogical := s.readLastLogical + n }

/-- No sum of `dumpBlocks` overflows. -/
theorem Ranged.dumpBlocks_flushed {q : Request} (ranged : Ranged q k s)
    (le : n ≤ s.readRangeCount) (fits : n * q.v.bs ≤ s.readMax) (some_block : n ≠ 0)
    (read : linuxReadBlk q.v s.reads s.readRangeStart n s.mem s.readTotal =
      (.ok, blit s.mem s.readTotal (n * q.v.bs) fun i =>
        q.v.disk (s.readRangeStart * q.v.bs + q.v.doff + i))) :
    Ext2.dumpBlocks q.v n s = (false, q.flushed n s) := by
  have count_le := ranged.count_le
  have inside := ranged.inside le some_block
  have far := q.narrow.limit_lt
  have left := ranged.left
  have sized := q.size_lt
  have small : n * q.v.bs < 2 ^ 31 := range_small (le.trans count_le)
  have size : u32 (n * q.v.bs) = n * q.v.bs := u32_of_lt (by omega)
  have moved : add64 s.pos (s32 (n * q.v.bs)) = s.pos + n * q.v.bs := by
    rw [s32_of_lt small, add64_of_lt (by omega)]
  have total : u32 (s.readTotal + n * q.v.bs) = s.readTotal + n * q.v.bs := u32_of_lt (by omega)
  have rest : sub32 s.readMax (n * q.v.bs) = s.readMax - n * q.v.bs :=
    sub32_of_le (by omega) fits
  have last : u32 (s.readLastLogical + n) = s.readLastLogical + n :=
    u32_of_lt (blocks_lt (ranged.end_le le some_block))
  have count : sub32 s.readRangeCount n = s.readRangeCount - n :=
    sub32_of_le (by unfold maxReadRange at count_le; omega) le
  simp [Ext2.dumpBlocks, readRange, ranged.cursor, read, some_block, advance, size, moved, total,
    rest, last, count, flushed]

/-- Blocks of the range that waits are delivered by one read, and the range stays behind them. -/
theorem Ranged.flushed {q : Request} (ranged : Ranged q k s) (le : n ≤ s.readRangeCount)
    (fits : n * q.v.bs ≤ s.readMax) (some_block : n ≠ 0) : Ranged q k (q.flushed n s) := by
  have started := ranged.started (by omega)
  have stop := ranged.end_le le some_block
  have next : n < s.readRangeCount → u32 (s.readRangeStart + n) = s.readRangeStart + n := by
    intro more
    rw [← ranged.run n more]
    exact u32_of_lt (q.m.phys_lt _)
  refine ⟨?_, rfl, ?_, blocks_lt stop, ?_, ?_, ?_, ?_, ?_⟩
  · have run : ∀ j < n, q.m.phys (s.readLastLogical + j) = s.readRangeStart + j :=
      fun j before => ranged.run j (by omega)
    have same : ∀ i < n * q.v.bs, q.v.disk (s.readRangeStart * q.v.bs + q.v.doff + i) =
        q.m.byte q.v (s.pos + i) := by
      intro i within
      rw [ranged.aligned, BlockMap.byte_of_run started run within]
    exact ranged.toCore.deliver fits (.inr (ranged.inside le some_block)) same rfl rfl rfl rfl
      (.inl rfl)
  · simp only [Request.flushed, ranged.aligned, Nat.add_mul]
  · simp only [Request.flushed]
    intro more
    rw [next (by omega)]
    omega
  · exact (Nat.sub_le _ _).trans ranged.count_le
  · simp only [Request.flushed]
    intro j before
    rw [next (by omega), Nat.add_assoc, Nat.add_assoc]
    exact ranged.run (n + j) (by omega)
  · have stop := ranged.stop
    simp only [Request.flushed]
    omega
  · have room := ranged.room
    have fewer : (s.readRangeCount - n - 1) * q.v.bs + n * q.v.bs ≤ s.readMax := by
      rw [← Nat.add_mul]
      by_cases more : n = s.readRangeCount
      · simpa [more] using fits
      · rwa [show s.readRangeCount - n - 1 + n = s.readRangeCount - 1 by omega]
    simp only [Request.flushed]
    omega

/-- Flushing the first `n` blocks of a range leaves the others. -/
theorem Ranged.dumpBlocks {q : Request} (ranged : Ranged q k s) (le : n ≤ s.readRangeCount)
    (fits : n * q.v.bs ≤ s.readMax) :
    (∃ t, Ext2.dumpBlocks q.v n s = (false, t) ∧ Ranged q k t ∧
        t.readRangeCount = s.readRangeCount - n ∧ t.readMax = s.readMax - n * q.v.bs) ∨
      ∃ t, Ext2.dumpBlocks q.v n s = (true, t) ∧ ¬ q.Healthy ∧ Ranged q k t ∧
        t.readRangeCount = s.readRangeCount := by
  by_cases none : n = 0
  · exact .inl ⟨s, by simp [Ext2.dumpBlocks, none], ranged, by omega, by simp [none]⟩
  have started := ranged.started (by omega)
  have first : n ≠ 0 → q.m.phys s.readLastLogical = s.readRangeStart := fun _ =>
    ranged.run 0 (by omega)
  rcases linuxReadBlk_cases q first (fun _ => started) s.reads s.mem s.readTotal with
    read | ⟨failed, sick, stored⟩
  · exact .inl ⟨q.flushed n s, ranged.dumpBlocks_flushed le fits none read,
      ranged.flushed le fits none, rfl, rfl⟩
  · refine .inr ⟨readRange q.v n s, ?_, sick, ?_, rfl⟩
    · simp [Ext2.dumpBlocks, readRange, failed, none, ranged.cursor]
    · refine ⟨ranged.toCore.scribble sick rfl rfl rfl ?_, ranged.cursor, ranged.aligned,
        ranged.narrow, ranged.started, ranged.count_le, ranged.run, ranged.stop, ranged.room⟩
      simpa only [readRange, ranged.cursor] using stored

/-- The last block of a range is copied in part. -/
theorem Ranged.dumpRemaining {q : Request} (ranged : Ranged q k s) (single : s.readRangeCount = 1)
    (short : s.readMax < q.v.bs) (wanted : s.readMax ≠ 0) :
    (∃ t, Ext2.dumpRemaining q.v s = (false, t) ∧ Core q t ∧ t.readMax = 0) ∨
      ∃ t, Ext2.dumpRemaining q.v s = (true, t) ∧ ¬ q.Healthy ∧ Ranged q k t ∧
        t.readRangeCount = s.readRangeCount := by
  have started := ranged.started (by omega)
  have first : 1 ≠ 0 → q.m.phys s.readLastLogical = s.readRangeStart := fun _ =>
    ranged.run 0 (by omega)
  rcases linuxReadBlk_cases q first (fun _ => started) s.reads s.blockBuffer 0 with
    read | ⟨failed, sick, -⟩
  · have stop := ranged.end_le (show 1 ≤ s.readRangeCount by omega) (by decide)
    have far := q.narrow.limit_lt
    have inside : s.pos + s.readMax ≤ q.m.limit q.v := by
      rw [Nat.add_mul] at stop
      rw [ranged.aligned]
      omega
    have left := ranged.left
    have sized := q.size_lt
    have total : u32 (s.readTotal + s.readMax) = s.readTotal + s.readMax := u32_of_lt (by omega)
    have moved : u64 (s.pos + s.readMax) = s.pos + s.readMax := u64_of_lt (by omega)
    refine .inl
      ⟨{ s with
          readResult := .ok
          reads := s.reads + 1
          blockBuffer := blit s.blockBuffer 0 (1 * q.v.bs) fun i =>
            q.v.disk (s.readRangeStart * q.v.bs + q.v.doff + i)
          mem := blit s.mem s.readTotal s.readMax (blit s.blockBuffer 0 (1 * q.v.bs) fun i =>
            q.v.disk (s.readRangeStart * q.v.bs + q.v.doff + i))
          pos := s.pos + s.readMax
          readTotal := s.readTotal + s.readMax
          readMax := 0 }, ?_, ?_, rfl⟩
    · simp [Ext2.dumpRemaining, readBlock, read, single, wanted, total, moved, ranged.cursor]
    · have run : ∀ j < 1, q.m.phys (s.readLastLogical + j) = s.readRangeStart + j :=
        fun j before => ranged.run j (by omega)
      have same : ∀ i < s.readMax, blit s.blockBuffer 0 (1 * q.v.bs) (fun i =>
          q.v.disk (s.readRangeStart * q.v.bs + q.v.doff + i)) i = q.m.byte q.v (s.pos + i) := by
        intro i within
        have inBlock : i < 1 * q.v.bs := by omega
        rw [blit_inside _ _ (Nat.zero_le i) (by omega), ranged.aligned,
          BlockMap.byte_of_run started run inBlock, Nat.sub_zero]
      exact ranged.toCore.deliver (Nat.le_refl _) (.inr inside) same rfl (by simp) rfl rfl (.inl rfl)
  · refine .inr ⟨readBlock q.v s.readRangeStart s, ?_, sick, ?_, rfl⟩
    · simp [Ext2.dumpRemaining, readBlock, failed, single, wanted]
    · exact ⟨ranged.toCore.scribble sick rfl rfl rfl (.inl rfl), ranged.cursor, ranged.aligned,
        ranged.narrow, ranged.started, ranged.count_le, ranged.run, ranged.stop, ranged.room⟩

/-- How `read_dump_range` leaves the reader. -/
inductive Dumped (q : Request) (k : Nat) : Bool × Reader → Prop where
  | done (done : Done q s) : Dumped q k (true, s)
  | idle (idle : Idle q k s) (left : s.readMax ≠ 0) (flushed : s.pos = k * q.v.bs) :
      Dumped q k (false, s)
  | failed (sick : ¬ q.Healthy) (pending : Pending q k s) : Dumped q k (true, s)

theorem Core.release {q : Request} (core : Core q s) :
    Core q { s with readRangeCount := 0, readRangeStart := 0 } :=
  ⟨core.left, core.place, core.within, core.copied, core.kept, core.sound⟩

theorem Core.finish {q : Request} (core : Core q s) (full : s.readMax = 0) :
    Dumped q k (s.readMax == 0, { s with readRangeCount := 0, readRangeStart := 0 }) := by
  rw [show (s.readMax == 0) = true by simpa using full]
  exact .done ⟨core.release, full, rfl⟩

/-- Dumping the range delivers its blocks, and the last of them as far as the request goes. -/
theorem Pending.readDumpRange {q : Request} (pending : Pending q k s) :
    Dumped q k (Ext2.readDumpRange q.v s) := by
  have count_le := pending.count_le
  have held := pending.held
  have size : u32 (s.readRangeCount * q.v.bs) = s.readRangeCount * q.v.bs := by
    have small := range_small (q := q) count_le
    exact u32_of_lt (by omega)
  by_cases exceeds : s.readMax < s.readRangeCount * q.v.bs
  · have room := pending.room
    have split : s.readRangeCount * q.v.bs = (s.readRangeCount - 1) * q.v.bs + q.v.bs := by
      rw [← Nat.succ_mul]
      congr 1
      omega
    rcases pending.toRanged.dumpBlocks (Nat.sub_le _ 1) room with
      ⟨t, flushed, ranged, count, rest⟩ | ⟨t, failed, sick, ranged, count⟩
    · have single : t.readRangeCount = 1 := by omega
      by_cases wanted : t.readMax = 0
      · have skipped : Ext2.dumpRemaining q.v t = (false, t) := by
          simp [Ext2.dumpRemaining, wanted]
        simp only [Ext2.readDumpRange, size, exceeds, ↓reduceIte, flushed, skipped]
        exact ranged.toCore.finish wanted
      · rcases ranged.dumpRemaining single (by omega) wanted with
          ⟨u, copied, core, full⟩ | ⟨u, failed, sick, ranged, count⟩
        · simp only [Ext2.readDumpRange, size, exceeds, ↓reduceIte, flushed, copied]
          exact core.finish full
        · simp only [Ext2.readDumpRange, size, exceeds, ↓reduceIte, flushed, failed]
          exact .failed sick ⟨ranged, by omega⟩
    · simp only [Ext2.readDumpRange, size, exceeds, ↓reduceIte, failed]
      exact .failed sick ⟨ranged, by omega⟩
  · rcases pending.toRanged.dumpBlocks (Nat.le_refl _) (by omega) with
      ⟨t, flushed, ranged, count, rest⟩ | ⟨t, failed, sick, ranged, count⟩
    · have skipped : Ext2.dumpRemaining q.v t = (false, t) := by
        simp [Ext2.dumpRemaining, count]
      simp only [Ext2.readDumpRange, size, exceeds, ↓reduceIte, flushed, skipped]
      have last : t.readLastLogical = k := by
        have stop := ranged.stop
        omega
      by_cases full : t.readMax = 0
      · exact ranged.toCore.finish full
      · rw [show (t.readMax == 0) = false by simpa using full]
        have block : t.pos / q.v.bs = k := by
          rw [ranged.aligned, Nat.mul_div_cancel _ q.v.bs_pos, last]
        refine .idle ⟨ranged.toCore.release, ranged.cursor, rfl, ?_, ?_⟩ full ?_
        · simp only [block]
          rw [last, u32_of_lt (by rw [← last]; exact ranged.narrow)]
        · simp only [block]
          omega
        · simp only [ranged.aligned, last]
    · simp only [Ext2.readDumpRange, size, exceeds, ↓reduceIte, failed]
      exact .failed sick ⟨ranged, by omega⟩

theorem Idle.reach {q : Request} (idle : Idle q k s)
    (hole : ∀ n, k ≤ n → n < lgBlock → q.m.phys n = 0) : Idle q lgBlock s := by
  refine ⟨idle.toCore, idle.cursor, idle.start, idle.last, ?_⟩
  intro n from_pos before
  by_cases seen : n < k
  · exact idle.clear n from_pos seen
  · exact hole n (by omega) before

theorem Idle.byte_zero {q : Request} (idle : Idle q k s) (le : s.pos ≤ i) (lt : i < k * q.v.bs) :
    q.m.byte q.v i = 0 := by
  have before : i / q.v.bs < k := Nat.div_lt_of_lt_mul (by rwa [Nat.mul_comm])
  have hole := idle.clear (i / q.v.bs) (Nat.div_le_div_right le) before
  rw [BlockMap.byte, if_pos hole]

/-- Zeros are handed over for a stretch no allocated block covers. -/
theorem Idle.zeroFill {q : Request} (idle : Idle q k s) (covered : k * q.v.bs ≤ q.m.limit q.v)
    (fits : n ≤ s.readMax) (inside : s.pos + n ≤ k * q.v.bs) :
    ∃ t, Ext2.zeroFill n s = t ∧ Core q t ∧ t.readBuffer = t.readTotal ∧
      t.readRangeStart = 0 ∧ t.pos = s.pos + n ∧ t.readMax = s.readMax - n ∧
      t.readLastLogical = s.readLastLogical := by
  have moved := idle.toCore.advance_eq idle.cursor fits (.inr (inside.trans covered))
    (blit s.mem s.readBuffer n fun _ => 0)
  have same : ∀ i < n, (0 : UInt8) = q.m.byte q.v (s.pos + i) := by
    intro i before
    rw [idle.byte_zero (by omega) (by omega)]
  refine ⟨_, rfl, ?_⟩
  rw [Ext2.zeroFill, moved]
  refine ⟨?_, rfl, idle.start, rfl, rfl, rfl⟩
  rw [idle.cursor]
  exact idle.toCore.deliver fits (.inr (inside.trans covered)) same rfl rfl rfl rfl (.inr rfl)

/-- A request that stands inside a hole has the rest of that block filled with zeros. -/
theorem Idle.fillPartial {q : Request} (idle : Idle q lgBlock s)
    (covered : lgBlock * q.v.bs ≤ q.m.limit q.v) (before : s.pos / q.v.bs < lgBlock) :
    (∃ t, Ext2.fillPartial q.v s = (true, t) ∧ Done q t) ∨
      ∃ t, Ext2.fillPartial q.v s = (false, t) ∧ Idle q lgBlock t ∧
        t.pos = t.readLastLogical * q.v.bs ∧ t.readLastLogical ≤ lgBlock := by
  have narrow := blocks_lt covered
  have last : s.readLastLogical = s.pos / q.v.bs := by
    rw [idle.last, u32_of_lt (by omega)]
  have split := Nat.div_add_mod s.pos q.v.bs
  have small := Nat.mod_lt s.pos q.v.bs_pos
  by_cases aligned : s.pos % q.v.bs = 0
  · refine .inr ⟨s, by simp [Ext2.fillPartial, aligned], idle, ?_, by omega⟩
    rw [last, Nat.mul_comm]
    omega
  have next : (s.pos / q.v.bs + 1) * q.v.bs ≤ lgBlock * q.v.bs := Nat.mul_le_mul_right _ before
  have block : (s.pos / q.v.bs + 1) * q.v.bs = s.pos + (q.v.bs - s.pos % q.v.bs) := by
    rw [Nat.add_mul, Nat.mul_comm]
    omega
  obtain ⟨t, filled, core, cursor, start, moved, rest, -⟩ :=
    idle.zeroFill covered (Nat.min_le_right (q.v.bs - s.pos % q.v.bs) s.readMax) (by omega)
  have result : Ext2.fillPartial q.v s =
      (t.readMax == 0, { t with readLastLogical := s.pos / q.v.bs + 1 }) := by
    simp [Ext2.fillPartial, aligned, filled, last, u32_of_lt (show s.pos / q.v.bs + 1 < 2 ^ 32 by omega)]
  have core' : Core q { t with readLastLogical := s.pos / q.v.bs + 1 } :=
    ⟨core.left, core.place, core.within, core.copied, core.kept, core.sound⟩
  by_cases full : t.readMax = 0
  · refine .inl ⟨_, by rw [result, show (t.readMax == 0) = true by simpa using full], ?_⟩
    exact ⟨core', full, start⟩
  · refine .inr ⟨_, by rw [result, show (t.readMax == 0) = false by simpa using full], ?_, ?_, ?_⟩
    · have reached : t.pos / q.v.bs = s.pos / q.v.bs + 1 := by
        rw [show t.pos = (s.pos / q.v.bs + 1) * q.v.bs by omega, Nat.mul_div_cancel _ q.v.bs_pos]
      refine ⟨core', cursor, start, ?_, ?_⟩
      · simp only [reached]
        rw [u32_of_lt (by omega)]
      · simp only [reached]
        exact fun n after => idle.clear n (by omega)
    · simp only
      omega
    · exact before

/-- Holes in front of the next block of the file are filled with zeros up to it. -/
theorem Idle.fillGap {q : Request} (idle : Idle q lgBlock s) (allocated : q.m.phys lgBlock ≠ 0)
    (covered : lgBlock * q.v.bs ≤ q.m.limit q.v) (aligned : s.pos = s.readLastLogical * q.v.bs)
    (before : s.readLastLogical ≤ lgBlock) :
    (∃ t, Ext2.fillGap q.v lgBlock s = (true, t) ∧ Done q t) ∨
      ∃ t, Ext2.fillGap q.v lgBlock s = (false, t) ∧ Core q t ∧ t.readBuffer = t.readTotal ∧
        t.readRangeStart = 0 ∧ t.pos = lgBlock * q.v.bs := by
  have narrow := blocks_lt covered
  have here : s.pos / q.v.bs = s.readLastLogical := by
    rw [aligned, Nat.mul_div_cancel _ q.v.bs_pos]
  have width := q.narrow.gap s.readLastLogical lgBlock
    (fun n after => idle.clear n (here.le.trans after)) allocated
  have gap : (lgBlock - s.readLastLogical) * q.v.bs = lgBlock * q.v.bs - s.pos := by
    rw [Nat.sub_mul, aligned]
  have le : s.pos ≤ lgBlock * q.v.bs := by
    rw [aligned]
    exact Nat.mul_le_mul_right _ before
  have nzero : u32 (sub32 lgBlock s.readLastLogical * q.v.bs) = lgBlock * q.v.bs - s.pos := by
    rw [sub32_of_le narrow before, gap, u32_of_lt (by omega)]
  by_cases none : lgBlock * q.v.bs - s.pos = 0
  · refine .inr ⟨s, by simp [Ext2.fillGap, nzero, none], idle.toCore, idle.cursor, idle.start, ?_⟩
    omega
  obtain ⟨t, filled, core, cursor, start, moved, rest, -⟩ :=
    idle.zeroFill covered (Nat.min_le_right (lgBlock * q.v.bs - s.pos) s.readMax) (by omega)
  have result : Ext2.fillGap q.v lgBlock s = (t.readMax == 0, t) := by
    simp [Ext2.fillGap, nzero, none, filled]
  by_cases full : t.readMax = 0
  · refine .inl ⟨t, by rw [result, show (t.readMax == 0) = true by simpa using full], ?_⟩
    exact ⟨core, full, start⟩
  · refine .inr ⟨t, by rw [result, show (t.readMax == 0) = false by simpa using full], core,
      cursor, start, ?_⟩
    omega

/-- After the hole before an allocated block is filled, the position is in that
block. -/
theorem Idle.fillHole {q : Request} (idle : Idle q lgBlock s) (allocated : q.m.phys lgBlock ≠ 0)
    (reached : s.pos / q.v.bs ≤ lgBlock) :
    (∃ t, Ext2.fillHole q.v lgBlock s = (true, t) ∧ Done q t) ∨
      ∃ t, Ext2.fillHole q.v lgBlock s = (false, t) ∧ Idle q lgBlock t ∧
        t.pos / q.v.bs = lgBlock := by
  have block := BlockMap.block_end_le q.v allocated
  have covered : lgBlock * q.v.bs ≤ q.m.limit q.v :=
    (Nat.mul_le_mul_right _ (Nat.le_succ lgBlock)).trans block
  have narrow := blocks_lt covered
  have last : s.readLastLogical = s.pos / q.v.bs := by
    rw [idle.last, u32_of_lt (by omega)]
  by_cases gap : lgBlock ≠ 0 ∧ lgBlock ≠ s.readLastLogical
  · rcases idle.fillPartial covered (by omega) with
      ⟨t, filled, done⟩ | ⟨t, filled, idle, aligned, before⟩
    · exact .inl ⟨t, by simp [Ext2.fillHole, gap, filled], done⟩
    · rcases idle.fillGap allocated covered aligned before with
        ⟨u, zeros, done⟩ | ⟨u, zeros, core, cursor, start, moved⟩
      · exact .inl ⟨u, by simp [Ext2.fillHole, gap, filled, zeros], done⟩
      · have here : u.pos / q.v.bs = lgBlock := by
          rw [moved, Nat.mul_div_cancel _ q.v.bs_pos]
        refine .inr ⟨{ u with readLastLogical := lgBlock },
          by simp [Ext2.fillHole, gap, filled, zeros], ?_, here⟩
        refine ⟨⟨core.left, core.place, core.within, core.copied, core.kept, core.sound⟩, cursor, start, ?_, ?_⟩
        · simp only [here]
          rw [u32_of_lt narrow]
        · simp only [here]
          omega
  · exact .inr ⟨s, by simp [Ext2.fillHole, gap], idle, by omega⟩

/-- The reader between two calls: what it holds does not yet cover the request. -/
def Waiting (q : Request) (k : Nat) (s : Reader) : Prop :=
  Idle q k s ∨ (Pending q k s ∧ s.readRangeCount * q.v.bs < s.readMax)

/-- How `read_iterator` leaves the reader, with the blocks below `k` seen. -/
inductive Stepped (q : Request) (k : Nat) : Bool × Reader → Prop where
  | done (done : Done q s) : Stepped q k (true, s)
  | full (pending : Pending q k s) (enough : s.readMax ≤ s.readRangeCount * q.v.bs) :
      Stepped q k (true, s)
  | failed (sick : ¬ q.Healthy) (kept : Idle q j s ∨ Pending q j s) : Stepped q k (true, s)
  | waiting (waiting : Waiting q k s) : Stepped q k (false, s)

/-- A block entered in the middle is read into `block_buffer` and copied from
there. -/
theorem Idle.takePart {q : Request} (idle : Idle q lgBlock s) (allocated : q.m.phys lgBlock ≠ 0)
    (reached : s.pos / q.v.bs = lgBlock) (unaligned : s.pos % q.v.bs ≠ 0) :
    Stepped q (lgBlock + 1) (Ext2.takeBlock q.v lgBlock (q.m.phys lgBlock) s) := by
  have block := BlockMap.block_end_le q.v allocated
  have narrow := blocks_lt block
  have split := Nat.div_add_mod s.pos q.v.bs
  rw [reached, Nat.mul_comm] at split
  have small := Nat.mod_lt s.pos q.v.bs_pos
  have target : 1 ≠ 0 → q.m.phys lgBlock = q.m.phys lgBlock := fun _ => rfl
  rcases linuxReadBlk_cases q target (fun _ => allocated) s.reads s.blockBuffer 0 with
    read | ⟨failed, sick, -⟩
  · obtain ⟨n, size⟩ : ∃ n, n = min (q.v.bs - s.pos % q.v.bs) s.readMax := ⟨_, rfl⟩
    obtain ⟨loaded, image⟩ : ∃ loaded, loaded = blit s.blockBuffer 0 (1 * q.v.bs) fun i =>
      q.v.disk (q.m.phys lgBlock * q.v.bs + q.v.doff + i) := ⟨_, rfl⟩
    rw [← image] at read
    have next : (lgBlock + 1) * q.v.bs = s.pos + (q.v.bs - s.pos % q.v.bs) := by
      rw [Nat.add_mul]
      omega
    have fits : n ≤ s.readMax := by omega
    have inside : s.pos + n ≤ q.m.limit q.v := by omega
    have same : ∀ i < n, loaded (s.pos % q.v.bs + i) = q.m.byte q.v (s.pos + i) := by
      intro i before
      have place : s.pos + i = lgBlock * q.v.bs + (s.pos % q.v.bs + i) := by omega
      have inBlock : s.pos % q.v.bs + i < q.v.bs := by omega
      rw [place, BlockMap.byte_eq _ _ inBlock, if_neg allocated, image]
      exact blit_inside _ _ (Nat.zero_le _) (by omega)
    obtain ⟨u, state⟩ : ∃ u : Reader,
      u = { s with readResult := .ok, blockBuffer := loaded, reads := s.reads + 1 } := ⟨_, rfl⟩
    have held : Core q u := by
      subst state
      exact ⟨idle.left, idle.place, idle.within, idle.copied, idle.kept, fun _ => rfl⟩
    obtain ⟨copy, stored⟩ : ∃ copy, copy = blit s.mem s.readTotal n fun i =>
      loaded (s.pos % q.v.bs + i) := ⟨_, rfl⟩
    have taken : Ext2.takeBlock q.v lgBlock (q.m.phys lgBlock) s =
        ((advance n { u with mem := copy }).readMax == 0,
          { advance n { u with mem := copy } with readLastLogical := lgBlock + 1 }) := by
      simp [Ext2.takeBlock, unaligned, readBlock, read, size, state, stored, idle.cursor,
        u32_of_lt narrow]
    subst state
    rw [taken, held.advance_eq idle.cursor fits (.inr inside)]
    have core : Core q
        { s with
          readResult := .ok, blockBuffer := loaded, reads := s.reads + 1,
          readBuffer := s.readTotal + n, readMax := s.readMax - n, readTotal := s.readTotal + n,
          pos := s.pos + n, readLastLogical := lgBlock + 1, mem := copy } :=
      held.deliver fits (.inr inside) same rfl rfl rfl stored (.inl rfl)
    by_cases full : s.readMax - n = 0
    · rw [show (s.readMax - n == 0) = true by simpa using full]
      exact .done ⟨core, full, idle.start⟩
    · rw [show (s.readMax - n == 0) = false by simpa using full]
      have here : (s.pos + n) / q.v.bs = lgBlock + 1 := by
        rw [show s.pos + n = (lgBlock + 1) * q.v.bs by omega, Nat.mul_div_cancel _ q.v.bs_pos]
      refine .waiting (.inl ⟨core, rfl, idle.start, ?_, ?_⟩)
      · simp only [here, u32_of_lt narrow]
      · simp only [here]
        omega
  · have stopped : Ext2.takeBlock q.v lgBlock (q.m.phys lgBlock) s =
        (true, readBlock q.v (q.m.phys lgBlock) s) := by
      simp [Ext2.takeBlock, unaligned, readBlock, failed]
    rw [stopped]
    refine .failed (j := lgBlock) sick (.inl ⟨?_, idle.cursor, idle.start, idle.last, idle.clear⟩)
    exact idle.toCore.scribble sick rfl rfl rfl (.inl rfl)

/-- A block of the file that the request stands in begins a range, or is delivered in part. -/
theorem Idle.takeBlock {q : Request} (idle : Idle q lgBlock s) (allocated : q.m.phys lgBlock ≠ 0)
    (reached : s.pos / q.v.bs = lgBlock) :
    Stepped q (lgBlock + 1) (Ext2.takeBlock q.v lgBlock (q.m.phys lgBlock) s) := by
  by_cases aligned : s.pos % q.v.bs = 0
  · have narrow := blocks_lt (BlockMap.block_end_le q.v allocated)
    have split := Nat.div_add_mod s.pos q.v.bs
    rw [reached, Nat.mul_comm] at split
    have taken : Ext2.takeBlock q.v lgBlock (q.m.phys lgBlock) s =
        (decide (s.readMax ≤ q.v.bs),
          { s with readRangeStart := q.m.phys lgBlock, readRangeCount := 1 }) := by
      simp [Ext2.takeBlock, aligned, allocated]
    have last : s.readLastLogical = lgBlock := by
      rw [idle.last, reached, u32_of_lt (by omega)]
    have core : Core q { s with readRangeStart := q.m.phys lgBlock, readRangeCount := 1 } :=
      ⟨idle.left, idle.place, idle.within, idle.copied, idle.kept, idle.sound⟩
    have pending : Pending q (lgBlock + 1)
        { s with readRangeStart := q.m.phys lgBlock, readRangeCount := 1 } := by
      refine ⟨⟨core, idle.cursor, ?_, ?_, fun _ => allocated, ?_, ?_, ?_, ?_⟩, ?_⟩
      · simp only [last]
        omega
      · simp only [last]
        omega
      · simp [maxReadRange]
      · intro j single
        have zero : j = 0 := by simpa using single
        simp [zero, last]
      · simp only [last]
      · simp
      · simp
    rw [taken]
    by_cases enough : s.readMax ≤ q.v.bs
    · rw [decide_eq_true enough]
      exact .full pending (by simpa using enough)
    · rw [decide_eq_false enough]
      exact .waiting (.inr ⟨pending, by simpa using enough⟩)
  · exact idle.takePart allocated reached aligned

/-- The call for block `lgBlock`, from either state of the reader. -/
theorem Idle.readIterator {q : Request} (idle : Idle q k s)
    (hole : ∀ n, k ≤ n → n < lgBlock → q.m.phys n = 0) (allocated : q.m.phys lgBlock ≠ 0) :
    Stepped q (lgBlock + 1) (Ext2.readIterator q.v lgBlock (q.m.phys lgBlock) s) := by
  by_cases skipped : lgBlock < s.pos / q.v.bs
  · simp only [Ext2.readIterator, Int.toNat_natCast, skipped, ↓reduceIte,
      show ¬ (lgBlock : Int) < 0 by omega]
    refine .waiting (.inl ⟨idle.toCore, idle.cursor, idle.start, idle.last, ?_⟩)
    omega
  · have next := idle.reach hole
    rcases next.fillHole allocated (by omega) with ⟨t, filled, done⟩ | ⟨t, filled, next, reached⟩
    · simp only [Ext2.readIterator, Int.toNat_natCast, skipped, ↓reduceIte, idle.start,
        show ¬ (lgBlock : Int) < 0 by omega, ne_eq, not_true_eq_false, false_and, filled]
      exact .done done
    · simp only [Ext2.readIterator, Int.toNat_natCast, skipped, ↓reduceIte, idle.start,
        show ¬ (lgBlock : Int) < 0 by omega, ne_eq, not_true_eq_false, false_and, filled]
      exact next.takeBlock allocated reached

/-- A block that continues the range joins it. -/
theorem Pending.extend {q : Request} (pending : Pending q k s)
    (short : s.readRangeCount * q.v.bs < s.readMax) (allocated : q.m.phys k ≠ 0)
    (more : s.readRangeCount < maxReadRange)
    (follows : q.m.phys k = u32 (s.readRangeStart + s.readRangeCount)) :
    Pending q (k + 1) { s with readRangeCount := s.readRangeCount + 1 } := by
  have held := pending.held
  have stop := pending.stop
  have started := pending.started held
  have before := pending.run (s.readRangeCount - 1) (by omega)
  have wide := q.m.phys_lt (s.readLastLogical + (s.readRangeCount - 1))
  have next : u32 (s.readRangeStart + s.readRangeCount) = s.readRangeStart + s.readRangeCount := by
    by_cases fits : s.readRangeStart + s.readRangeCount < 2 ^ 32
    · exact u32_of_lt fits
    · refine absurd ?_ allocated
      rw [follows, show s.readRangeStart + s.readRangeCount = 2 ^ 32 by omega]
      rfl
  refine ⟨⟨?_, pending.cursor, pending.aligned, pending.narrow, fun _ => started, more, ?_, ?_, ?_⟩,
    ?_⟩
  · exact ⟨pending.left, pending.place, pending.within, pending.copied, pending.kept, pending.sound⟩
  · intro j inside
    by_cases old : j < s.readRangeCount
    · exact pending.run j old
    · have newest : j = s.readRangeCount := by
        simp only at inside
        omega
      rw [newest]
      simp only [stop, follows, next]
  · simp only
    omega
  · simp only [Nat.add_sub_cancel]
    omega
  · simp

/-- A further block joins the range where it follows it on the disk; otherwise the range is dumped
before the block is taken. -/
theorem Pending.readIterator {q : Request} (pending : Pending q k s)
    (short : s.readRangeCount * q.v.bs < s.readMax) (reached : k ≤ lgBlock)
    (hole : ∀ n, k ≤ n → n < lgBlock → q.m.phys n = 0) (allocated : q.m.phys lgBlock ≠ 0) :
    Stepped q (lgBlock + 1) (Ext2.readIterator q.v lgBlock (q.m.phys lgBlock) s) := by
  have narrow := blocks_lt (BlockMap.block_end_le q.v allocated)
  have stop := pending.stop
  have started := pending.started pending.held
  have here : s.pos / q.v.bs = s.readLastLogical := by
    rw [pending.aligned, Nat.mul_div_cancel _ q.v.bs_pos]
  have beyond : ¬ lgBlock < s.pos / q.v.bs := by omega
  have data : ¬ (lgBlock : Int) < 0 := by omega
  have last : u32 (s.readLastLogical + s.readRangeCount) = k := by
    rw [stop, u32_of_lt (by omega)]
  by_cases joins : s.readRangeStart ≠ 0 ∧ s.readRangeCount < maxReadRange ∧
      q.m.phys lgBlock = u32 (s.readRangeStart + s.readRangeCount) ∧
      lgBlock = u32 (s.readLastLogical + s.readRangeCount)
  · obtain ⟨-, more, follows, same⟩ := joins
    rw [last] at same
    subst same
    have grown := pending.extend short allocated more follows
    have size : u32 ((s.readRangeCount + 1) * q.v.bs) = (s.readRangeCount + 1) * q.v.bs := by
      have small : (s.readRangeCount + 1) * q.v.bs < 2 ^ 31 := range_small more
      exact u32_of_lt (by omega)
    have joined : Ext2.readIterator q.v lgBlock (q.m.phys lgBlock) s =
        (decide (s.readMax ≤ (s.readRangeCount + 1) * q.v.bs),
          { s with readRangeCount := s.readRangeCount + 1 }) := by
      simp only [Ext2.readIterator, Int.toNat_natCast, beyond, data, ↓reduceIte, started, ne_eq,
        not_false_eq_true, more, ← follows, last, and_self, size]
    rw [joined]
    by_cases enough : s.readMax ≤ (s.readRangeCount + 1) * q.v.bs
    · rw [decide_eq_true enough]
      exact .full grown enough
    · rw [decide_eq_false enough]
      exact .waiting (.inr ⟨grown, by simpa using enough⟩)
  · simp only [Ext2.readIterator, Int.toNat_natCast, beyond, data, ↓reduceIte, joins]
    rw [if_pos started]
    have dumped := pending.readDumpRange
    generalize Ext2.readDumpRange q.v s = result at dumped
    cases dumped with
    | done done => exact .done done
    | failed sick pending => exact .failed sick (.inr pending)
    | idle idle left flushed =>
      rename_i t
      have reached : t.pos / q.v.bs ≤ lgBlock := by
        rwa [flushed, Nat.mul_div_cancel _ q.v.bs_pos]
      rcases (idle.reach hole).fillHole allocated reached with
        ⟨u, filled, done⟩ | ⟨u, filled, next, arrived⟩
      · simp only [filled]
        exact .done done
      · simp only [filled]
        exact next.takeBlock allocated arrived

theorem Waiting.readIterator {q : Request} (waiting : Waiting q k s) (reached : k ≤ lgBlock)
    (hole : ∀ n, k ≤ n → n < lgBlock → q.m.phys n = 0) (allocated : q.m.phys lgBlock ≠ 0) :
    Stepped q (lgBlock + 1) (Ext2.readIterator q.v lgBlock (q.m.phys lgBlock) s) := by
  rcases waiting with idle | ⟨pending, short⟩
  · exact idle.readIterator hole allocated
  · exact pending.readIterator short reached hole allocated

/-- How the iteration leaves the reader. -/
inductive Iterated (q : Request) (cut : Bool) (s : Reader) : Prop where
  | done (done : Done q s)
  | full (pending : Pending q k s) (enough : s.readMax ≤ s.readRangeCount * q.v.bs)
  | failed (sick : ¬ q.Healthy) (kept : Idle q k s ∨ Pending q k s)
  | exhausted (waiting : Waiting q k s) (clear : cut = false → ∀ n, k ≤ n → q.m.phys n = 0)

theorem Waiting.blockIterate {q : Request} (calls : Calls q.m cut k list)
    (waiting : Waiting q k s) : Iterated q cut (Ext2.blockIterate q.v list s) := by
  induction calls generalizing s with
  | stop clear => exact .exhausted waiting clear
  | metadata negative rest ih =>
    rw [Ext2.blockIterate, Ext2.readIterator, if_pos negative]
    exact ih waiting
  | data reached hole allocated rest ih =>
    rw [Ext2.blockIterate]
    have step := waiting.readIterator reached hole allocated
    generalize Ext2.readIterator q.v _ _ s = result at step
    cases step with
    | done done => exact .done done
    | full pending enough => exact .full pending enough
    | failed sick kept => exact .failed sick kept
    | waiting waiting => exact ih waiting

theorem beginRead_waiting (q : Request) (blockBuffer : Bytes) :
    Waiting q 0 (beginRead q.v q.pos q.size q.mem blockBuffer) := by
  refine .inl ⟨⟨?_, rfl, .inl rfl, Copied.none _ _ _, fun _ => Kept.refl _ _, fun _ => rfl⟩,
    rfl, rfl, rfl, ?_⟩
  · simp [beginRead]
  · intro n _ before
    omega

theorem Iterated.core {q : Request} (iterated : Iterated q cut s) : Core q s := by
  cases iterated with
  | done done => exact done.toCore
  | full pending => exact pending.toCore
  | failed _ kept =>
    rcases kept with idle | pending
    · exact idle.toCore
    · exact pending.toCore
  | exhausted waiting =>
    rcases waiting with idle | ⟨pending, -⟩
    · exact idle.toCore
    · exact pending.toCore

theorem Dumped.core {q : Request} (dumped : Dumped q k result) : Core q result.2 := by
  cases dumped with
  | done done => exact done.toCore
  | idle idle => exact idle.toCore
  | failed _ pending => exact pending.toCore

theorem Iterated.pending {q : Request} (iterated : Iterated q cut s)
    (started : s.readRangeStart ≠ 0) : ∃ k, Pending q k s := by
  cases iterated with
  | done done => exact absurd done.start started
  | full pending => exact ⟨_, pending⟩
  | failed _ kept =>
    rcases kept with idle | pending
    · exact absurd idle.start started
    · exact ⟨_, pending⟩
  | exhausted waiting =>
    rcases waiting with idle | ⟨pending, -⟩
    · exact absurd idle.start started
    · exact ⟨_, pending⟩

theorem Iterated.endRead_core {q : Request} (iterated : Iterated q cut s) (retval : Errcode) :
    Core q (endRead q.v retval s) := by
  by_cases flush : (if retval = .blockAbort then s.readResult else retval) = .ok ∧
      s.readRangeStart ≠ 0
  · obtain ⟨k, pending⟩ := iterated.pending flush.2
    simp only [endRead, if_pos flush]
    exact pending.readDumpRange.core
  · simp only [endRead, if_neg flush]
    exact iterated.core

theorem Core.total_of_full {q : Request} (core : Core q s) (full : s.readMax = 0) :
    s.readTotal = min q.size (q.m.limit q.v - q.pos) := by
  have left := core.left
  have place := core.place
  have within := core.within
  omega

theorem Core.total_of_past {q : Request} (core : Core q s) (past : q.m.limit q.v ≤ s.pos) :
    s.readTotal = min q.size (q.m.limit q.v - q.pos) := by
  have left := core.left
  have place := core.place
  have within := core.within
  omega

theorem limit_le_of_clear {q : Request} (clear : ∀ n, k ≤ n → q.m.phys n = 0) :
    q.m.limit q.v ≤ k * q.v.bs := by
  rw [BlockMap.limit, Nat.mul_comm]
  exact Nat.mul_le_mul_right _ (BlockMap.length_le_of_clear clear)

/-- A range that covers the request, or reaches the end of the file, is flushed
to the end. -/
theorem Pending.total {q : Request} (healthy : q.Healthy) (pending : Pending q k s)
    (last : s.readMax ≤ s.readRangeCount * q.v.bs ∨ ∀ n, k ≤ n → q.m.phys n = 0) :
    (Ext2.readDumpRange q.v s).2.readTotal = min q.size (q.m.limit q.v - q.pos) := by
  have dumped := pending.readDumpRange
  generalize Ext2.readDumpRange q.v s = result at dumped
  cases dumped with
  | done done => exact done.toCore.total_of_full done.full
  | failed sick => exact absurd healthy sick
  | idle idle left flushed =>
    rcases last with enough | clear
    · have before := pending.left
      have after := idle.left
      have start := pending.place
      have stop := idle.place
      rw [pending.aligned] at start
      rw [flushed, ← pending.stop, Nat.add_mul] at stop
      omega
    · exact idle.toCore.total_of_past (by rw [flushed]; exact limit_le_of_clear clear)

/-- On a healthy volume the request delivers what it was asked for, or up to the end of the file.
-/
theorem Iterated.endRead_total {q : Request} (healthy : q.Healthy) (iterated : Iterated q false s)
    (finished : retval = .ok ∨ retval = .blockAbort) :
    (endRead q.v retval s).readTotal = min q.size (q.m.limit q.v - q.pos) := by
  have flush : (if retval = .blockAbort then s.readResult else retval) = .ok := by
    rcases finished with ok | abort
    · simp [ok]
    · simp [abort, iterated.core.sound healthy]
  have idle_end : s.readRangeStart = 0 → endRead q.v retval s = s := by
    intro none
    simp [endRead, none]
  have pending_end : s.readRangeStart ≠ 0 → endRead q.v retval s = (readDumpRange q.v s).2 := by
    intro started
    simp [endRead, flush, started]
  cases iterated with
  | done done =>
    rw [idle_end done.start]
    exact done.toCore.total_of_full done.full
  | full pending enough =>
    rw [pending_end (pending.started pending.held)]
    exact pending.total healthy (.inl enough)
  | failed sick => exact absurd healthy sick
  | exhausted waiting clear =>
    rename_i k
    rcases waiting with idle | ⟨pending, -⟩
    · rw [idle_end idle.start]
      have unallocated : ∀ n, s.pos / q.v.bs ≤ n → q.m.phys n = 0 := by
        intro n after
        by_cases seen : n < k
        · exact idle.clear n after seen
        · exact clear rfl n (by omega)
      exact idle.toCore.total_of_past
        ((limit_le_of_clear unallocated).trans (Nat.div_mul_le_self _ _))
    · rw [pending_end (pending.started pending.held)]
      exact pending.total healthy (.inr (clear rfl))

end Request

/-- One round of the block-by-block version copies the file's bytes up to the
end of a block. -/
theorem byte_of_block (q : Request) (blockBuffer : Bytes) (before : i < q.v.bs - pos % q.v.bs) :
    blit blockBuffer 0 q.v.bs
        (fun i => if q.m.phys (pos / q.v.bs) = 0 then 0
          else q.v.disk (q.m.phys (pos / q.v.bs) * q.v.bs + q.v.doff + i)) (pos % q.v.bs + i) =
      q.m.byte q.v (pos + i) := by
  have split := Nat.div_add_mod pos q.v.bs
  rw [Nat.mul_comm] at split
  have place : pos + i = pos / q.v.bs * q.v.bs + (pos % q.v.bs + i) := by omega
  have inBlock : pos % q.v.bs + i < q.v.bs := by omega
  rw [place, BlockMap.byte_eq _ _ inBlock]
  exact blit_inside _ _ (Nat.zero_le _) (by omega)

/-- Read block by block, a request inside the file delivers its bytes and stops where it should.
-/
theorem readBlocks_eq {read : Nat} (q : Request) (sound : ∀ n, q.v.fault n = none)
    (inside : pos + size ≤ q.m.limit q.v) (place : pos = q.pos + read)
    (total : read + size = q.size) (done : Delivered (q.m.byte q.v) q.mem mem q.pos read)
    (n : Nat) (blockBuffer : Bytes) :
    ∃ mem', readBlocks q.v (fun n => some (q.m.phys n)) n pos size read mem blockBuffer =
        ⟨s32 q.size, q.pos + q.size, mem'⟩ ∧
      Delivered (q.m.byte q.v) q.mem mem' q.pos q.size := by
  induction size using Nat.strong_induction_on generalizing n pos read mem blockBuffer with
  | _ size ih =>
    rw [readBlocks]
    by_cases none : size = 0
    · refine ⟨mem, ?_, ?_⟩
      · rw [if_pos none, ← total, none, place]
        simp
      · rw [← total, none]
        exact done
    · have bound := q.narrow.limit_lt
      have sized := q.size_lt
      have small := Nat.mod_lt pos q.v.bs_pos
      have block : u32 (pos / q.v.bs) = pos / q.v.bs :=
        u32_of_lt ((Nat.div_lt_of_lt_mul (show pos < q.m.limit q.v by omega)).trans q.narrow.count)
      obtain ⟨k, step⟩ : ∃ k, k = min size (q.v.bs - pos % q.v.bs) := ⟨_, rfl⟩
      have moved : u64 (pos + k) = pos + k := u64_of_lt (by omega)
      have more : u32 (read + k) = read + k := u32_of_lt (by omega)
      have start : u32 read = read := u32_of_lt (by omega)
      have next : ∀ n src blockBuffer, (∀ i < k, src i = q.m.byte q.v (pos + i)) →
          ∃ mem', readBlocks q.v (fun n => some (q.m.phys n)) n (pos + k) (size - k) (read + k)
            (blit mem read k src) blockBuffer = ⟨s32 q.size, q.pos + q.size, mem'⟩ ∧
          Delivered (q.m.byte q.v) q.mem mem' q.pos q.size := by
        intro n src blockBuffer same
        refine ih (size - k) (by omega) (by omega) (by omega) (by omega) ⟨?_, ?_⟩ n blockBuffer
        · exact done.copied.extend (by rwa [← place])
        · exact done.kept.extend src k
      have here := fun i (before : i < k) =>
        byte_of_block q blockBuffer (show i < q.v.bs - pos % q.v.bs by omega)
      simp only [if_neg none, block, blockOffset_eq, ← step, moved, more, start]
      by_cases hole : q.m.phys (pos / q.v.bs) = 0
      · simp only [hole, ↓reduceIte] at here
        simp only [hole, ne_eq, not_true_eq_false, ↓reduceIte]
        exact next n _ _ here
      · simp only [hole, ↓reduceIte] at here
        simp only [ne_eq, hole, not_false_eq_true, ↓reduceIte, sound n]
        exact next (n + 1) _ _ here

/-- The reader `ext2_read` ends with, and what it returns from it. -/
theorem Request.ext2Read_outcome (q : Request) (opened : q.v.opened = true)
    (calls : Calls q.m cut 0 list) (retval : Errcode) (blockBuffer : Bytes) :
    ∃ s, ext2Read q.v list retval q.pos q.size q.mem blockBuffer =
        ⟨s32 s.readTotal, s.pos, s.mem⟩ ∧ q.Core s ∧
      (q.Healthy → cut = false → retval = .ok ∨ retval = .blockAbort →
        s.readTotal = min q.size (q.m.limit q.v - q.pos)) := by
  have iterated := Waiting.blockIterate calls (q.beginRead_waiting blockBuffer)
  refine ⟨_, by rw [ext2Read, if_pos opened], iterated.endRead_core retval, ?_⟩
  intro healthy whole finished
  subst whole
  exact iterated.endRead_total healthy finished

/-- `ext2_read` hands over the file's bytes, advances the position by as many
and returns their number as an `int`. Without faults that number is the smaller
of the request and what is left up to the end of the last allocated block, and
the block-by-block version does the same inside that limit; with faults it is
the length of the prefix that was read. -/
theorem ext2Read_reads_file (q : Request) (opened : q.v.opened = true)
    (calls : Calls q.m cut 0 list) (retval : Errcode) (blockBuffer blockBuffer' : Bytes) :
    (∃ r, r ≤ q.size ∧
      (ext2Read q.v list retval q.pos q.size q.mem blockBuffer).returned = s32 r ∧
      (ext2Read q.v list retval q.pos q.size q.mem blockBuffer).pos = q.pos + r ∧
      Copied (q.m.byte q.v) (ext2Read q.v list retval q.pos q.size q.mem blockBuffer).mem q.pos r) ∧
    (q.Healthy → cut = false → retval = .ok ∨ retval = .blockAbort →
      ∃ r, r = min q.size (q.m.limit q.v - q.pos) ∧
        (ext2Read q.v list retval q.pos q.size q.mem blockBuffer).returned = s32 r ∧
        (ext2Read q.v list retval q.pos q.size q.mem blockBuffer).pos = q.pos + r ∧
        Delivered (q.m.byte q.v) q.mem
          (ext2Read q.v list retval q.pos q.size q.mem blockBuffer).mem q.pos r ∧
        (q.pos + q.size ≤ q.m.limit q.v →
          ext2Read q.v list retval q.pos q.size q.mem blockBuffer =
            ext2ReadBmap q.v (fun n => some (q.m.phys n)) q.pos q.size q.mem blockBuffer')) := by
  obtain ⟨s, outcome, core, complete⟩ := q.ext2Read_outcome opened calls retval blockBuffer
  rw [outcome]
  refine ⟨⟨s.readTotal, ?_, rfl, core.place, core.copied⟩, ?_⟩
  · have left := core.left
    omega
  · intro healthy whole finished
    have total := complete healthy whole finished
    have delivered : Delivered (q.m.byte q.v) q.mem s.mem q.pos s.readTotal :=
      ⟨core.copied, core.kept healthy⟩
    refine ⟨s.readTotal, total, rfl, core.place, delivered, ?_⟩
    intro inside
    obtain ⟨mem', slow, same⟩ := readBlocks_eq q healthy.1 inside rfl (Nat.zero_add _)
      ⟨Copied.none _ _ _, Kept.refl _ _⟩ 0 blockBuffer'
    have all : s.readTotal = q.size := by omega
    rw [ext2ReadBmap, if_pos opened, slow, core.place, all]
    rw [all] at delivered
    rw [delivered.unique same]

/-- Three blocks of two bytes, the middle one a hole, read from the second byte
on. -/
def sparseRequest : Request where
  v := ⟨true, 2, by decide, by decide, 0, 0, fun i => UInt8.ofNat i, fun _ => none⟩
  m := ⟨[5, 0, 7], by decide, by decide⟩
  pos := 1
  size := 9
  mem := fun _ => 255
  pos_lt := by decide
  size_lt := by decide
  narrow := BlockMap.narrow_of_low (by decide)

theorem sparseRequest_calls : Calls sparseRequest.m false 0 [(0, 5), (-1, 3), (2, 7)] := by
  have tail : Calls sparseRequest.m false 3 [] := by
    refine .stop fun _ n after => ?_
    by_contra allocated
    have inside : n < 3 := BlockMap.lt_of_phys_ne allocated
    omega
  have hole : ∀ n, 1 ≤ n → n < 2 → sparseRequest.m.phys n = 0 := by
    intro n after before
    obtain rfl : n = 1 := by omega
    decide
  have last : Calls sparseRequest.m false 1 [(2, 7)] := .data (by decide) hole (by decide) tail
  refine .data (Nat.zero_le 0) ?_ (by decide) (.metadata (by decide) last)
  intro n _ before
  exact absurd before (Nat.not_lt_zero n)

/-- Of a file with a hole in its second block, a request that starts at its second byte delivers the
five bytes to its end, the hole as zeros. -/
theorem sparse_read_whole :
    (ext2Read sparseRequest.v [(0, 5), (-1, 3), (2, 7)] .ok 1 9 (fun _ => 255)
      fun _ => 0).returned = 5 := by
  obtain ⟨-, whole⟩ := ext2Read_reads_file sparseRequest rfl sparseRequest_calls .ok
    (fun _ => 0) (fun _ => 0)
  obtain ⟨r, count, returned, -⟩ := whole ⟨fun _ => rfl, .inl rfl⟩ rfl (.inl rfl)
  have five : r = 5 := count
  subst five
  exact returned

/-- A file whose only allocated block comes after `n` holes. -/
def onlyLast (n : Nat) : BlockMap where
  blocks := List.replicate n 0 ++ [1]
  last_ne := by simp
  wide b member := by
    have zero_or_one : b = 0 ∨ b = 1 := by
      rcases List.mem_append.mp member with hole | last
      · exact .inl (List.eq_of_mem_replicate hole)
      · exact .inr (List.mem_singleton.mp last)
    omega

theorem onlyLast_length (n : Nat) : (onlyLast n).blocks.length = n + 1 := by simp [onlyLast]

theorem onlyLast_hole (before : k < n) : (onlyLast n).phys k = 0 := by
  simp [onlyLast, BlockMap.phys, List.getElem?_append, before]

theorem onlyLast_last (n : Nat) : (onlyLast n).phys n = 1 := by
  simp [onlyLast, BlockMap.phys]

theorem onlyLast_calls (n : Nat) : Calls (onlyLast n) false 0 [(n, 1)] := by
  have tail : Calls (onlyLast n) false (n + 1) [] := by
    refine .stop fun _ k after => ?_
    by_contra allocated
    have inside := BlockMap.lt_of_phys_ne allocated
    rw [onlyLast_length] at inside
    omega
  have call := Calls.data (Nat.zero_le n) (fun k _ before => onlyLast_hole before)
    (by rw [onlyLast_last]; decide) tail
  rwa [onlyLast_last] at call

/-- The whole of a file of 2 GiB. -/
def hugeRequest : Request where
  v := ⟨true, 65536, by decide, by decide, 0, 0, fun _ => 0, fun _ => none⟩
  m := onlyLast 32767
  pos := 0
  size := 2 ^ 31
  mem := fun _ => 0
  pos_lt := by decide
  size_lt := by decide
  narrow := BlockMap.narrow_of_low (by
    rw [BlockMap.limit, onlyLast_length]
    decide)

/-- The number of bytes read does not always fit the `int` it is returned in. -/
theorem huge_read_negative :
    hugeRequest.v.opened = true ∧ hugeRequest.Healthy ∧
      Calls hugeRequest.m false 0 [(32767, 1)] ∧
      (ext2Read hugeRequest.v [(32767, 1)] .ok hugeRequest.pos hugeRequest.size hugeRequest.mem
        fun _ => 0).returned ≠
          (min hugeRequest.size (hugeRequest.m.limit hugeRequest.v - hugeRequest.pos) : Nat) := by
  have healthy : hugeRequest.Healthy := ⟨fun _ => rfl, .inl rfl⟩
  have calls : Calls hugeRequest.m false 0 [(32767, 1)] := onlyLast_calls 32767
  refine ⟨rfl, healthy, calls, ?_⟩
  obtain ⟨s, outcome, -, complete⟩ :=
    hugeRequest.ext2Read_outcome rfl calls .ok (fun _ => 0)
  have size : min hugeRequest.size (hugeRequest.m.limit hugeRequest.v - hugeRequest.pos) =
      2 ^ 31 := by
    rw [BlockMap.limit, show hugeRequest.m.blocks.length = 32768 from onlyLast_length 32767]
    decide
  have negative : s32 (2 ^ 31) ≠ ((2 ^ 31 : Nat) : Int) := by decide
  rw [outcome, complete healthy rfl (.inl rfl), size]
  exact negative

end Yaboot.Ext2
