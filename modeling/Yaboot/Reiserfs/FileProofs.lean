import Yaboot.Reiserfs.File
import Yaboot.Reiserfs.TraversalProofs

/-! What `reiserfs_read_data` delivers. A file is a run of items in tree order
that lie end to end; a read finds the item of the current position and goes on
to the next ones until nothing is left or the run ends. -/
namespace Yaboot.Reiserfs
open Buffer CString Word

/-! ### The items ahead -/

/-- The leaf of the last item. -/
def Volume.lastLeaf (v : Volume) : Nat :=
  ((v.items v.info.treeDepth v.root).getLast?.map Prod.fst).getD v.root

/-- The items `next_key` still shows, the current one first. Behind the last one
the right delimiting key of its leaf is current. -/
inductive Stream (v : Volume) (s : State) : List Position → Prop where
  | item (easy : Easy v s) (cursor : Cursor v s b j rest) :
      Stream v s ((b, j) :: following v b j rest)
  | done (cached : Cached v s) (leaf : Holds v s.mem v.info.leaf v.lastLeaf)
      (dummy : s.currentIh = v.info.leaf + 8) : Stream v s []

section
variable {v : Volume} {s t : State} {b j : Nat} {rest : List Position}

theorem Stream.cached (stream : Stream v s list) : Cached v s := by
  cases stream with
  | item easy cursor => exact cursor.reached.cached
  | done cached leaf dummy => exact cached

theorem Stream.cursor (stream : Stream v s (p :: list)) :
    ∃ rest, Easy v s ∧ Cursor v s p.1 p.2 rest ∧ following v p.1 p.2 rest = list := by
  cases stream with
  | item easy cursor => exact ⟨_, easy, cursor, rfl⟩

theorem Easy.not_stuck (easy : Easy v s) (high : v.info.cachedSlots < d)
    (low : d < v.info.treeDepth) (entry : s.nextKeyNr d ≠ 0) : False := by
  rcases easy with shallow | zeros
  · omega
  · exact entry (zeros d high (by omega))

theorem Cursor.lastLeaf (cursor : Cursor v s b j rest) (last : following v b j rest = []) :
    v.lastLeaf = b := by
  obtain ⟨front, whole⟩ := cursor.split
  rw [Volume.lastLeaf, whole, last]
  simp

/-- `next_key` comes to the next item of the file, and keeps file and error as they were. -/
theorem Stream.nextKey (stream : Stream v s (p :: ps)) :
    ∃ t, nextKey v.disk v.info s = (true, t) ∧ Stream v t ps ∧ SameFile s t ∧
      (s.errnum = .ok → t.errnum = .ok) := by
  cases stream with
  | @item b j rest easy cursor =>
    have step := cursor.nextKey
    generalize Reiserfs.nextKey v.disk v.info s = r at step
    cases step with
    | @moved u c k after e inner next turned errnum file =>
      refine ⟨u, rfl, ?_, file, errnum⟩
      rw [next]
      exact .item (easy.turned turned) inner
    | @last u cached leaf dummy none zeros errnum file =>
      refine ⟨u, rfl, ?_, file, fun fine => errnum.trans fine⟩
      rw [none]
      refine .done cached ?_ dummy
      rw [cursor.lastLeaf none]
      exact leaf
    | stuck cached high low entry errnum file => exact (easy.not_stuck high low entry).elim

/-- The item head at hand is that of the volume. -/
theorem Cursor.le (cursor : Cursor v s b j rest) (inside : k + n ≤ 24) :
    le s.mem (s.currentIh + k) n = le (v.node b) (headAt j + k) n := by
  have fits := Shaped.leaf_fits cursor.reached.spine.shaped
  have index := cursor.index
  rw [cursor.here, Info.itemhead, Nat.add_assoc, Nat.add_assoc, ← Nat.add_assoc 24]
  apply cursor.reached.leaf.le
  omega

theorem Cursor.objectid (cursor : Cursor v s b j rest) :
    keyObjectid s.mem s.currentIh = keyObjectid (v.node b) (headAt j) := cursor.le (by decide)

theorem Cursor.itemLen (cursor : Cursor v s b j rest) :
    ihItemLen s.mem s.currentIh = ihItemLen (v.node b) (headAt j) := cursor.le (by decide)

theorem Cursor.oldKey (cursor : Cursor v s b j rest) :
    oldKey v.info s.mem s.currentIh = oldKey v.info (v.node b) (headAt j) := by
  have version : ihVersion s.mem s.currentIh = ihVersion (v.node b) (headAt j) :=
    cursor.le (by decide)
  rw [Reiserfs.oldKey, Reiserfs.oldKey, version]

theorem Cursor.keyOffset (cursor : Cursor v s b j rest) :
    ihKeyOffset v.info s.mem s.currentIh = ihKeyOffset v.info (v.node b) (headAt j) := by
  have short := cursor.le (k := 8) (n := 4) (by decide)
  have long := cursor.le (k := 8) (n := 8) (by decide)
  rw [ihKeyOffset, ihKeyOffset, cursor.oldKey, short, long]

theorem Cursor.istype (cursor : Cursor v s b j rest) (v1 v2 : Nat) :
    ihKeyIstype v.info s.mem s.currentIh v1 v2 = ihKeyIstype v.info (v.node b) (headAt j) v1 v2 := by
  have short := cursor.le (k := 12) (n := 4) (by decide)
  have long := cursor.le (k := 8) (n := 8) (by decide)
  rw [ihKeyIstype, ihKeyIstype, cursor.oldKey, short, long]

theorem Cursor.location (cursor : Cursor v s b j rest) :
    s.currentItem = v.info.leaf + ihLocation (v.node b) (headAt j) := by
  have same : ihLocation s.mem s.currentIh = ihLocation (v.node b) (headAt j) :=
    cursor.le (by decide)
  rw [cursor.item, same]

/-- The bytes of the current item. -/
theorem Cursor.byte (cursor : Cursor v s b j rest)
    (inside : ihLocation (v.node b) (headAt j) + k < v.info.blocksize) :
    s.mem (s.currentItem + k) = v.node b (ihLocation (v.node b) (headAt j) + k) := by
  rw [cursor.location, Nat.add_assoc]
  exact cursor.reached.leaf _ inside

end

/-! ### Items that hold data -/

namespace Volume

variable (v : Volume)

def objectidOf (p : Position) : Nat := keyObjectid (v.node p.1) (headAt p.2)
def offsetOf (p : Position) : Nat := ihKeyOffset v.info (v.node p.1) (headAt p.2)
def lenOf (p : Position) : Nat := ihItemLen (v.node p.1) (headAt p.2)
def locationOf (p : Position) : Nat := ihLocation (v.node p.1) (headAt p.2)
def direct (p : Position) : Bool := isDirect v.info (v.node p.1) (headAt p.2)
def indirect (p : Position) : Bool := isIndirect v.info (v.node p.1) (headAt p.2)

/-- The bytes of a file an item stands for. -/
def sizeOf (p : Position) : Nat :=
  if v.direct p then v.lenOf p else v.lenOf p / 4 * v.info.blocksize

/-- The block pointer of an indirect item for the byte `k`. -/
def pointer (p : Position) (k : Nat) : Nat :=
  le (v.node p.1) (v.locationOf p + 4 * (k / v.info.blocksize)) 4

/-- The byte `k` of an item as the driver reads it. -/
def byteOf (p : Position) (k : Nat) : UInt8 :=
  if v.direct p then v.node p.1 (v.locationOf p + k)
  else v.node (v.pointer p k) (k % v.info.blocksize)

/-- Items that hold data end to end, from the given byte on. -/
def Laid : Nat → List Position → Prop
  | _, [] => True
  | start, p :: ps => (v.direct p = true ∨ v.indirect p = true) ∧ v.offsetOf p = start + 1 ∧
      v.locationOf p + v.lenOf p ≤ v.info.blocksize ∧ Laid (start + v.sizeOf p) ps

/-- How many bytes items hold. -/
def coverage (ps : List Position) : Nat := (ps.map v.sizeOf).sum

/-- The bytes items hold, as the driver reads them. -/
def bytesOf : List Position → Nat → UInt8
  | [], _ => 0
  | p :: ps, k => if k < v.sizeOf p then v.byteOf p k else bytesOf ps (k - v.sizeOf p)

end Volume

/-! ### Delivering bytes -/

theorem Transfer.deliver_congr {t : Transfer} {f g : Bytes} (same : ∀ i < n, f i = g i) :
    t.deliver n f = t.deliver n g := by
  rw [Transfer.deliver, Transfer.deliver, blit_congr same]

theorem Transfer.deliver_deliver {t : Transfer} (f g : Bytes) (fits : t.left < 2 ^ 32)
    (enough : a + b ≤ t.left) : (t.deliver a f).deliver b g =
      t.deliver (a + b) fun i => if i < a then f i else g (i - a) := by
  have left : sub32 (sub32 t.left a) b = sub32 t.left (a + b) := by
    rw [sub32_of_le fits (by omega), sub32_of_le (by omega) (by omega), sub32_of_le fits enough]
    omega
  have pos : u64 (u64 (t.s.pos + a) + b) = u64 (t.s.pos + (a + b)) := by
    unfold u64
    omega
  simp only [Transfer.deliver, left, pos, blit_blit, Nat.add_assoc]

theorem Transfer.deliver_out {t : Transfer} (src : Bytes) :
    (t.deliver n src).out = blit t.out t.count n src := rfl

theorem Transfer.deliver_left {t : Transfer} (src : Bytes) (fits : t.left < 2 ^ 32)
    (enough : n ≤ t.left) : (t.deliver n src).left = t.left - n := sub32_of_le fits enough

section
variable {v : Volume} {s : State} {b j : Nat} {rest : List Position}

theorem Volume.blocksize_pos (v : Volume) : 0 < v.info.blocksize := by
  have size := v.blocksize_ge
  omega

theorem Volume.shift_eq (v : Volume) (k : Nat) : k >>> v.info.blocksizeShift = k / v.info.blocksize := by
  rw [Nat.shiftRight_eq_div_pow, v.blocksize_eq]

theorem Volume.mask_eq (v : Volume) (k : Nat) : k &&& (v.info.blocksize - 1) = k % v.info.blocksize := by
  rw [v.blocksize_eq, Nat.and_two_pow_sub_one_eq_mod]

theorem readDiskBlock_start (v : Volume) (b start i : Nat) :
    readDiskBlock v.disk v.info b start i = v.node b (start + i) := by
  unfold Volume.node node readDiskBlock
  rw [Nat.add_zero, Nat.add_assoc _ start]

/-- The same block as long as the offset stays in it. -/
theorem Volume.pointer_add (v : Volume) (p : Position)
    (inside : k % v.info.blocksize + i < v.info.blocksize) :
    v.pointer p (k + i) = v.pointer p k ∧
      (k + i) % v.info.blocksize = k % v.info.blocksize + i := by
  have pos := v.blocksize_pos
  have split := Nat.div_add_mod k v.info.blocksize
  have quotient : (k + i) / v.info.blocksize = k / v.info.blocksize := by
    rw [← split, Nat.add_assoc, Nat.mul_add_div pos, Nat.div_eq_of_lt inside, Nat.mul_add_div pos,
      Nat.div_eq_of_lt (Nat.mod_lt _ pos)]
  have remainder : (k + i) % v.info.blocksize = k % v.info.blocksize + i := by
    conv_lhs => rw [← split]
    rw [Nat.add_assoc, Nat.mul_add_mod, Nat.mod_eq_of_lt inside]
  exact ⟨by rw [Volume.pointer, Volume.pointer, quotient], remainder⟩

/-- The current item depends on the cache, the tables and the pointers to it only. -/
theorem Cursor.congr {t : State} (cursor : Cursor v s b j rest) (mem : t.mem = s.mem)
    (blocks : t.blocks = s.blocks) (next : t.nextKeyNr = s.nextKeyNr)
    (ih : t.currentIh = s.currentIh) (item : t.currentItem = s.currentItem) :
    Cursor v t b j rest := by
  refine ⟨cursor.reached.congr mem blocks next, cursor.index, ih.trans cursor.here, ?_⟩
  rw [item, cursor.item, mem, ih]

/-- The block pointer at hand. -/
theorem Cursor.pointer (cursor : Cursor v s b j rest)
    (fits : v.locationOf (b, j) + v.lenOf (b, j) ≤ v.info.blocksize)
    (inside : k / v.info.blocksize < v.lenOf (b, j) / 4) :
    Reiserfs.le s.mem (s.currentItem + 4 * (k >>> v.info.blocksizeShift)) 4 =
      v.pointer (b, j) k := by
  rw [v.shift_eq, cursor.location, Nat.add_assoc, Volume.pointer]
  apply cursor.reached.leaf.le
  have place : ihLocation (v.node b) (headAt j) = v.locationOf (b, j) := rfl
  omega

/-- A part of a block of an indirect item. -/
theorem Volume.byteOf_block (v : Volume) (kind : v.direct p = false)
    (inside : k % v.info.blocksize + i < v.info.blocksize) :
    readDiskBlock v.disk v.info (v.pointer p k) (k % v.info.blocksize) i = v.byteOf p (k + i) := by
  obtain ⟨pointer, remainder⟩ := v.pointer_add p inside
  rw [readDiskBlock_start, Volume.byteOf, kind, pointer, remainder]
  rfl

/-- The end of the block an offset lies in. -/
theorem block_end_le {k n bs : Nat} (pos : 0 < bs) (inside : k < n * bs) :
    k / bs < n ∧ k + (bs - k % bs) = (k / bs + 1) * bs ∧ k + (bs - k % bs) ≤ n * bs := by
  have quotient : k / bs < n := Nat.div_lt_of_lt_mul (by rwa [Nat.mul_comm])
  have split := Nat.div_add_mod k bs
  have small := Nat.mod_lt k pos
  have stop : k + (bs - k % bs) = (k / bs + 1) * bs := by
    rw [Nat.succ_mul, Nat.mul_comm (k / bs)]
    omega
  refine ⟨quotient, stop, ?_⟩
  rw [stop]
  exact Nat.mul_le_mul_right bs quotient

/-- The loop over the blocks of an indirect item delivers its bytes. -/
theorem Cursor.readBlocks {t : Transfer} (cursor : Cursor v t.s b j rest)
    (fits : v.locationOf (b, j) + v.lenOf (b, j) ≤ v.info.blocksize)
    (kind : v.direct (b, j) = false) (size : n = v.lenOf (b, j) / 4 * v.info.blocksize)
    (enough : n - offset ≤ rounds) (inside : offset < n) (small : t.left < 2 ^ 32) :
    readBlocks v.disk v.info n rounds offset t = (decide (t.left ≤ n - offset),
      t.deliver (min (n - offset) t.left) fun i => v.byteOf (b, j) (offset + i)) := by
  have pos := v.blocksize_pos
  induction rounds generalizing t offset with
  | zero => omega
  | succ rounds ih =>
    obtain ⟨block, stop, le⟩ := block_end_le pos (size ▸ inside)
    rw [← size] at le
    have short := Nat.mod_lt offset pos
    rw [Reiserfs.readBlocks]
    simp only [inside, ↓reduceIte, v.mask_eq, cursor.pointer fits block]
    have part : t.deliver (min (v.info.blocksize - offset % v.info.blocksize) t.left)
        (readDiskBlock v.disk v.info (v.pointer (b, j) offset) (offset % v.info.blocksize)) =
        t.deliver (min (v.info.blocksize - offset % v.info.blocksize) t.left)
          fun i => v.byteOf (b, j) (offset + i) := by
      apply Transfer.deliver_congr
      intro i less
      exact v.byteOf_block kind (by omega)
    rw [part, Transfer.deliver_left _ small (by omega)]
    have gap : 0 < v.info.blocksize - offset % v.info.blocksize := by omega
    generalize v.info.blocksize - offset % v.info.blocksize = d at *
    by_cases last : t.left ≤ d
    · rw [if_pos (by omega), Nat.min_eq_right last, Nat.min_eq_right (by omega),
        decide_eq_true (by omega)]
    · rw [if_neg (by omega), Nat.min_eq_left (by omega)]
      by_cases more : offset + d < n
      · have next := ih (t := t.deliver d fun i => v.byteOf (b, j) (offset + i))
          (cursor.congr rfl rfl rfl rfl rfl) (by omega) more
          (by rw [Transfer.deliver_left _ small (by omega)]; omega)
        rw [next, Transfer.deliver_left _ small (by omega),
          Transfer.deliver_deliver _ _ small (by omega)]
        have total : d + min (n - (offset + d)) (t.left - d) = min (n - offset) t.left := by omega
        have ends : (t.left - d ≤ n - (offset + d)) = (t.left ≤ n - offset) := by
          apply propext
          omega
        rw [total]
        simp only [ends]
        congr 1
        apply Transfer.deliver_congr
        intro i less
        by_cases first : i < d
        · rw [if_pos first]
        · rw [if_neg first]
          congr 1
          omega
      · have whole : min (n - offset) t.left = d := by omega
        rw [whole, decide_eq_false (by omega)]
        cases rounds with
        | zero => rfl
        | succ rounds => rw [Reiserfs.readBlocks, if_neg more]

theorem Volume.blocksize_le (v : Volume) : v.info.blocksize ≤ 8192 := by
  rcases v.slots_cases with ⟨small, -⟩ | ⟨large, -⟩ <;> omega

theorem not_indirect (direct : isDirect info mem ih = true) : isIndirect info mem ih = false := by
  unfold isDirect ihKeyIstype at direct
  unfold isIndirect ihKeyIstype
  split at direct
  · simp_all
  · simp_all

/-- The bytes of an indirect item fit a word. -/
theorem Volume.blocks_eq (v : Volume)
    (fits : v.locationOf p + v.lenOf p ≤ v.info.blocksize) :
    u32 ((v.lenOf p >>> 2) <<< v.info.blocksizeShift) = v.lenOf p / 4 * v.info.blocksize := by
  have bound := v.blocksize_le
  have count : v.lenOf p / 4 ≤ 2048 := by omega
  have product : v.lenOf p / 4 * v.info.blocksize ≤ 2048 * 8192 := Nat.mul_le_mul count bound
  rw [Nat.shiftLeft_eq, Nat.shiftRight_eq_div_pow, ← v.blocksize_eq, show 2 ^ 2 = 4 from rfl]
  exact u32_of_lt (by omega)

/-- What a round reads from an item that holds data from `start` on. -/
theorem Cursor.readItem {t : Transfer} (cursor : Cursor v t.s b j rest)
    (kind : v.direct (b, j) = true ∨ v.indirect (b, j) = true) (key : v.offsetOf (b, j) = start + 1)
    (fits : v.locationOf (b, j) + v.lenOf (b, j) ≤ v.info.blocksize) (behind : start ≤ t.s.pos)
    (near : t.s.pos - start < 2 ^ 32) (bound : t.s.pos + 1 < 2 ^ 64) (small : t.left < 2 ^ 32) :
    readItem v.disk v.info t =
      if t.s.pos - start < v.sizeOf (b, j) then
        (decide (t.left ≤ v.sizeOf (b, j) - (t.s.pos - start)),
          t.deliver (min (v.sizeOf (b, j) - (t.s.pos - start)) t.left)
            fun i => v.byteOf (b, j) (t.s.pos - start + i))
      else (false, t) := by
  have offset : u32 (sub64 (t.s.pos + 1) (ihKeyOffset v.info t.s.mem t.s.currentIh)) =
      t.s.pos - start := by
    rw [cursor.keyOffset, show ihKeyOffset v.info (v.node b) (headAt j) = start + 1 from key,
      sub64_of_le bound (by omega), Nat.add_sub_add_right, u32_of_lt near]
  have len : ihItemLen t.s.mem t.s.currentIh = v.lenOf (b, j) := cursor.itemLen
  have direct : isDirect v.info t.s.mem t.s.currentIh = v.direct (b, j) := cursor.istype _ _
  have indirect : isIndirect v.info t.s.mem t.s.currentIh = v.indirect (b, j) := cursor.istype _ _
  unfold Reiserfs.readItem
  dsimp only
  rw [offset, len, direct, indirect]
  generalize t.s.pos - start = off
  cases isdirect : v.direct (b, j) with
  | true =>
    have size : v.sizeOf (b, j) = v.lenOf (b, j) := if_pos isdirect
    have other : v.indirect (b, j) = false := not_indirect isdirect
    rw [size, other]
    by_cases inside : off < v.lenOf (b, j)
    · simp only [inside, decide_true, Bool.and_self, ↓reduceIte]
      rw [Transfer.deliver_left _ small (by omega)]
      have zero : (t.left - min (v.lenOf (b, j) - off) t.left == 0) =
          decide (t.left ≤ v.lenOf (b, j) - off) := by
        rw [Bool.eq_iff_iff]
        simp only [beq_iff_eq, decide_eq_true_eq]
        omega
      rw [zero]
      congr 1
      apply Transfer.deliver_congr
      intro i less
      have place : ihLocation (v.node b) (headAt j) = v.locationOf (b, j) := rfl
      rw [Nat.add_assoc, cursor.byte (by omega), Volume.byteOf, isdirect]
      rfl
    · simp [inside]
  | false =>
    have size : v.sizeOf (b, j) = v.lenOf (b, j) / 4 * v.info.blocksize := if_neg (by simp [isdirect])
    have other : v.indirect (b, j) = true := by simpa [isdirect] using kind
    simp only [other, Bool.false_and, Bool.false_eq_true, ↓reduceIte, v.blocks_eq fits, ← size]
    by_cases inside : off < v.sizeOf (b, j)
    · rw [if_pos inside]
      exact cursor.readBlocks fits isdirect size (Nat.le_refl _) inside small
    · rw [if_neg inside, Nat.sub_eq_zero_of_le (by omega)]
      rfl

end

/-! ### Reading a file -/

/-- The items behind a file do not start with one of the same object. -/
def Volume.Ends (v : Volume) (objectid : Nat) : List Position → Prop
  | [] => le (v.node v.lastLeaf) 12 4 ≠ objectid
  | p :: _ => v.objectidOf p ≠ objectid

/-- What the loop of a read leaves behind once `n` more bytes are handed over. -/
structure Fetched (v : Volume) (t : Transfer) (n : Nat) (src : Bytes) (tail : List Position)
    (ps : List Position) (u : Transfer) : Prop where
  count : u.count = t.count + n
  out : u.out = blit t.out t.count n src
  pos : u.s.pos = t.s.pos + n
  dirId : u.s.fileDirId = t.s.fileDirId
  objectid : u.s.fileObjectid = t.s.fileObjectid
  len : u.s.len = t.s.len
  errnum : u.s.errnum = .ok
  stream : ∃ done todo, ps = done ++ todo ∧ Stream v u.s (todo ++ tail)

section
variable {v : Volume}

theorem Stream.ends_objectid (stream : Stream v s tail) (ends : v.Ends objectid tail) :
    keyObjectid s.mem s.currentIh ≠ objectid := by
  cases stream with
  | item easy cursor =>
    rw [cursor.objectid]
    exact ends
  | done cached leaf dummy =>
    have size := v.blocksize_ge
    have same : le s.mem (v.info.leaf + 12) 4 = le (v.node v.lastLeaf) 12 4 := leaf.le (by omega)
    rw [keyObjectid, dummy, Nat.add_assoc, same]
    exact ends

theorem Stream.congr {t : State} (stream : Stream v s list) (mem : t.mem = s.mem)
    (blocks : t.blocks = s.blocks) (next : t.nextKeyNr = s.nextKeyNr)
    (ih : t.currentIh = s.currentIh) (item : t.currentItem = s.currentItem) : Stream v t list := by
  cases stream with
  | item easy cursor =>
    have same : Easy v t := by
      unfold Easy
      rw [next]
      exact easy
    exact .item same (cursor.congr mem blocks next ih item)
  | done cached leaf dummy =>
    refine .done (cached.congr mem blocks) ?_ (ih.trans dummy)
    rw [mem]
    exact leaf

theorem Stream.moved (stream : Stream v s list) (pos : Nat) : Stream v { s with pos := pos } list :=
  stream.congr rfl rfl rfl rfl rfl

theorem Volume.bytesOf_inside (v : Volume) (inside : k < v.sizeOf p) (ps : List Position) :
    v.bytesOf (p :: ps) k = v.byteOf p k := if_pos inside

theorem Volume.bytesOf_behind (v : Volume) (behind : v.sizeOf p ≤ k) (ps : List Position) :
    v.bytesOf (p :: ps) k = v.bytesOf ps (k - v.sizeOf p) := if_neg (by omega)

theorem Volume.coverage_cons (v : Volume) (p : Position) (ps : List Position) :
    v.coverage (p :: ps) = v.sizeOf p + v.coverage ps := rfl

/-- A transfer that goes on with the next item, `n` bytes later. -/
theorem Fetched.cons {t middle u : Transfer} (start : Nat) (p : Position)
    (rest : Fetched v middle
      (min middle.left (v.coverage ps - (middle.s.pos - (start + v.sizeOf p))))
      (fun i => v.bytesOf ps (middle.s.pos - (start + v.sizeOf p) + i)) tail ps u)
    (given : n = v.sizeOf p - (t.s.pos - start)) (le : n ≤ t.left) (behind : start ≤ t.s.pos)
    (count : middle.count = t.count + n)
    (out : middle.out = blit t.out t.count n fun i => v.byteOf p (t.s.pos - start + i))
    (left : middle.left = t.left - n) (pos : middle.s.pos = t.s.pos + n)
    (dirId : middle.s.fileDirId = t.s.fileDirId)
    (objectid : middle.s.fileObjectid = t.s.fileObjectid) (len : middle.s.len = t.s.len) :
    Fetched v t (min t.left (v.coverage (p :: ps) - (t.s.pos - start)))
      (fun i => v.bytesOf (p :: ps) (t.s.pos - start + i)) tail (p :: ps) u := by
  have cover := v.coverage_cons p ps
  obtain ⟨m, more⟩ : ∃ m, m =
      min middle.left (v.coverage ps - (middle.s.pos - (start + v.sizeOf p))) := ⟨_, rfl⟩
  have total : min t.left (v.coverage (p :: ps) - (t.s.pos - start)) = n + m := by omega
  rw [← more] at rest
  rw [total]
  refine ⟨?_, ?_, ?_, rest.dirId.trans dirId, rest.objectid.trans objectid, rest.len.trans len,
    rest.errnum, ?_⟩
  · rw [rest.count, count, Nat.add_assoc]
  · rw [rest.out, out, count, blit_blit]
    apply blit_congr
    intro i less
    by_cases before : i < n
    · rw [if_pos before, v.bytesOf_inside (by omega)]
    · rw [if_neg before, v.bytesOf_behind (by omega)]
      congr 1
      omega
  · rw [rest.pos, pos, Nat.add_assoc]
  · obtain ⟨done, todo, whole, stream⟩ := rest.stream
    exact ⟨p :: done, todo, by rw [whole]; rfl, stream⟩

/-- The loop delivers the bytes from the position on, up to the end of the file. -/
theorem Stream.readLoop {t : Transfer} (stream : Stream v t.s (ps ++ tail))
    (own : ∀ p ∈ ps, v.objectidOf p = t.s.fileObjectid) (ends : v.Ends t.s.fileObjectid tail)
    (laid : v.Laid start ps) (fine : t.s.errnum = .ok) (behind : start ≤ t.s.pos)
    (near : t.s.pos - start < 2 ^ 32) (bound : t.s.pos + t.left + 1 < 2 ^ 64)
    (small : t.left < 2 ^ 32) (enough : ps.length < fuel) :
    ∃ u, readLoop v.disk v.info fuel t = some u ∧
      Fetched v t (min t.left (v.coverage ps - (t.s.pos - start)))
        (fun i => v.bytesOf ps (t.s.pos - start + i)) tail ps u := by
  induction ps generalizing t start fuel with
  | nil =>
    obtain ⟨fuel, rfl⟩ : ∃ k, fuel = k + 1 := ⟨fuel - 1, by omega⟩
    have past := stream.ends_objectid ends
    refine ⟨t, ?_, ?_⟩
    · rw [Reiserfs.readLoop, if_neg (by simp [fine]), if_pos past]
    · have none : min t.left (v.coverage [] - (t.s.pos - start)) = 0 := by simp [Volume.coverage]
      rw [none]
      exact ⟨rfl, (blit_zero _ _ _).symm, rfl, rfl, rfl, rfl, fine, [], [], rfl, stream⟩
  | cons p ps ih =>
    obtain ⟨fuel, rfl⟩ : ∃ k, fuel = k + 1 := ⟨fuel - 1, by omega⟩
    rw [List.length_cons] at enough
    have cover := v.coverage_cons p ps
    obtain ⟨kind, key, fits, laid⟩ := laid
    have inner : ∀ q ∈ ps, v.objectidOf q = t.s.fileObjectid := fun q member =>
      own q (List.mem_cons_of_mem p member)
    obtain ⟨b, j⟩ := p
    obtain ⟨rest, -, cursor, -⟩ := stream.cursor
    replace cursor : Cursor v t.s b j rest := cursor
    have mine : v.objectidOf (b, j) = t.s.fileObjectid := own (b, j) List.mem_cons_self
    have here : keyObjectid t.s.mem t.s.currentIh = t.s.fileObjectid := by
      rw [cursor.objectid]
      exact mine
    rw [Reiserfs.readLoop, if_neg (by simp [fine]), if_neg (by simp [here]),
      cursor.readItem kind key fits behind near (by omega) small]
    by_cases inside : t.s.pos - start < v.sizeOf (b, j)
    · rw [if_pos inside]
      by_cases last : t.left ≤ v.sizeOf (b, j) - (t.s.pos - start)
      · rw [decide_eq_true last, Nat.min_eq_right last, Nat.min_eq_left (by omega)]
        refine ⟨_, rfl, ⟨rfl, ?_, u64_of_lt (by omega), rfl, rfl, rfl, fine, ?_⟩⟩
        · rw [Transfer.deliver_out]
          apply blit_congr
          intro i less
          exact (v.bytesOf_inside (by omega) ps).symm
        · exact ⟨[], (b, j) :: ps, rfl, stream.moved _⟩
      · rw [decide_eq_false last, Nat.min_eq_left (by omega)]
        dsimp only
        obtain ⟨n, given⟩ : ∃ n, n = v.sizeOf (b, j) - (t.s.pos - start) := ⟨_, rfl⟩
        rw [← given]
        obtain ⟨s', call, stream', file, errnum⟩ := (stream.moved (u64 (t.s.pos + n))).nextKey
        obtain ⟨t', delivered⟩ : ∃ t', t' = t.deliver n fun i => v.byteOf (b, j) (t.s.pos - start + i) :=
          ⟨_, rfl⟩
        have count : t'.count = t.count + n := by rw [delivered]; rfl
        have out : t'.out = blit t.out t.count n fun i => v.byteOf (b, j) (t.s.pos - start + i) := by
          rw [delivered]; rfl
        have left : t'.left = t.left - n := by
          rw [delivered, Transfer.deliver_left _ small (by omega)]
        have turned : Reiserfs.nextKey v.disk v.info t'.s = (true, s') := by
          rw [delivered]
          exact call
        have pos : s'.pos = t.s.pos + n := file.pos.trans (u64_of_lt (by omega))
        have objectid : s'.fileObjectid = t.s.fileObjectid := file.objectid
        rw [← delivered, turned]
        obtain ⟨u, run, rest⟩ := ih (t := { t' with s := s' }) stream'
          (fun q member => (inner q member).trans objectid.symm)
          (by rw [objectid]; exact ends) laid (errnum fine) (by dsimp only; omega)
          (by dsimp only; omega) (by dsimp only; omega) (by dsimp only; omega)
          (show ps.length < fuel by omega)
        exact ⟨u, run, rest.cons start (b, j) given (by omega) behind count out left pos file.dirId
          objectid file.len⟩
    · rw [if_neg inside]
      dsimp only
      obtain ⟨s', call, stream', file, errnum⟩ := stream.nextKey
      have pos : s'.pos = t.s.pos := file.pos
      have none : 0 = v.sizeOf (b, j) - (t.s.pos - start) := by omega
      rw [call]
      obtain ⟨u, run, rest⟩ := ih (t := { t with s := s' }) stream'
        (fun q member => (inner q member).trans file.objectid.symm)
        (by rw [file.objectid]; exact ends) laid (errnum fine) (by dsimp only; omega)
        (by dsimp only; omega) (by dsimp only; omega) small (show ps.length < fuel by omega)
      exact ⟨u, run, rest.cons start (b, j) none (Nat.zero_le _) behind rfl (blit_zero _ _ _).symm
        rfl pos file.dirId file.objectid file.len⟩

end

/-- A file of a volume: the items behind its stat item lie end to end, and the
driver can walk to them. -/
structure FileOf (v : Volume) where
  dirId : Nat
  objectid : Nat
  stat : Position
  data : List Position
  tail : List Position
  found : v.findStat dirId objectid = some (stat, data ++ tail)
  own : ∀ p ∈ data, v.objectidOf p = objectid
  ends : v.Ends objectid tail
  laid : v.Laid 0 data
  walkable : v.info.blocksize ≤ 4096 ∨ v.info.treeDepth ≤ 3 ∨
    v.RightEdge dirId objectid v.info.treeDepth v.root

/-- A state in which a file is open: the current item is one of its own, or the
first behind them. -/
structure Opened {v : Volume} (f : FileOf v) (s : State) : Prop where
  dirId : s.fileDirId = f.dirId
  objectid : s.fileObjectid = f.objectid
  stream : ∃ done todo, f.data = done ++ todo ∧ Stream v s (todo ++ f.tail)

section
variable {v : Volume} {s : State}

theorem Volume.coverage_append (v : Volume) (done todo : List Position) :
    v.coverage (done ++ todo) = v.coverage done + v.coverage todo := by
  simp [Volume.coverage]

theorem Volume.Laid.behind (laid : v.Laid start (done ++ todo)) :
    v.Laid (start + v.coverage done) todo := by
  induction done generalizing start with
  | nil => exact laid
  | cons p done ih =>
    have rest := ih laid.2.2.2
    rw [v.coverage_cons, ← Nat.add_assoc]
    exact rest

theorem Volume.bytesOf_append (v : Volume) (behind : v.coverage done ≤ k) (todo : List Position) :
    v.bytesOf (done ++ todo) k = v.bytesOf todo (k - v.coverage done) := by
  induction done generalizing k with
  | nil => rfl
  | cons p done ih =>
    rw [v.coverage_cons] at behind
    rw [List.cons_append, v.bytesOf_behind (by omega), ih (by omega), v.coverage_cons, Nat.sub_sub]

/-- A search and a step lead to the items of an object, when they can be reached. -/
theorem Cached.findItems {v : Volume} (cached : Cached v s)
    (found : v.findStat dirId objectid = some (stat, list))
    (walkable : v.info.blocksize ≤ 4096 ∨ v.info.treeDepth ≤ 3 ∨
      v.RightEdge dirId objectid v.info.treeDepth v.root) :
    ∃ t, Reiserfs.searchStat v.disk v.info dirId objectid s = (true, t) ∧
      Stream v t (stat :: list) ∧ SameFile s t ∧ t.errnum = .ok := by
  have result := cached.searchStat dirId objectid
  generalize Reiserfs.searchStat v.disk v.info dirId objectid s = r at result
  obtain ⟨success, t⟩ := r
  cases success with
  | false =>
    have missing := result.missing rfl
    rw [found] at missing
    cases missing
  | true =>
    obtain ⟨b, j, rest, cursor, -, same, edge⟩ := result.cursor rfl
    rw [found] at same
    cases same
    have depth := v.depth_lt
    unfold maxTreeHeight at depth
    have easy : Easy v t := by
      rcases v.slots_cases with ⟨small, slots⟩ | ⟨large, slots⟩
      · exact .inl (by omega)
      rcases walkable with small | shallow | right
      · omega
      · exact .inl (by omega)
      · exact .inr fun k high low => edge.mp right k (by omega) low
    exact ⟨t, rfl, .item easy cursor, result.file, result.errnum⟩

/-- The loop of a read, from any item of the file not behind the position. -/
theorem FileOf.readLoop (f : FileOf v) (whole : f.data = done ++ todo)
    (stream : Stream v s (todo ++ f.tail)) (dirId : s.fileDirId = f.dirId)
    (objectid : s.fileObjectid = f.objectid) (fine : s.errnum = .ok)
    (behind : v.coverage done ≤ s.pos) (seek : s.pos < 2 ^ 32) (small : len < 2 ^ 32) (out : Bytes)
    (enough : f.data.length < fuel) :
    ∃ u, readLoop v.disk v.info fuel ⟨s, 0, len, out⟩ = some u ∧ u.s.errnum = .ok ∧
      u.count = min len (v.coverage f.data - s.pos) ∧
      u.out = blit out 0 (min len (v.coverage f.data - s.pos)) (fun i => v.bytesOf f.data (s.pos + i)) ∧
      Opened f u.s ∧ u.s.pos = s.pos + min len (v.coverage f.data - s.pos) ∧ u.s.len = s.len := by
  have laid := f.laid
  rw [whole] at laid
  have start : 0 + v.coverage done = v.coverage done := Nat.zero_add _
  have later := laid.behind
  rw [start] at later
  have own : ∀ p ∈ todo, v.objectidOf p = s.fileObjectid := by
    intro p member
    rw [objectid]
    exact f.own p (by rw [whole]; exact List.mem_append_right done member)
  have length : todo.length ≤ f.data.length := by
    rw [whole, List.length_append]
    omega
  obtain ⟨u, run, fetched⟩ := stream.readLoop (t := ⟨s, 0, len, out⟩) own
    (by rw [objectid]; exact f.ends) later fine behind (by dsimp only; omega)
    (by dsimp only; omega) small (show todo.length < fuel by omega)
  have cover : v.coverage f.data = v.coverage done + v.coverage todo := by
    rw [whole, v.coverage_append]
  have total : min len (v.coverage todo - (s.pos - v.coverage done)) =
      min len (v.coverage f.data - s.pos) := by omega
  have bytes : (fun i => v.bytesOf todo (s.pos - v.coverage done + i)) =
      fun i => v.bytesOf f.data (s.pos + i) := by
    funext i
    rw [whole, v.bytesOf_append (by omega)]
    congr 1
    omega
  dsimp only at fetched
  rw [total, bytes] at fetched
  have count := fetched.count
  dsimp only at count
  rw [Nat.zero_add] at count
  obtain ⟨done', todo', split, stream'⟩ := fetched.stream
  refine ⟨u, run, fetched.errnum, count, fetched.out, ?_, fetched.pos, fetched.len⟩
  refine ⟨fetched.dirId.trans dirId, fetched.objectid.trans objectid, done ++ done', todo', ?_, stream'⟩
  rw [whole, split, List.append_assoc]

/-- The state from which the loop of a read starts. -/
def Opened.ready {v : Volume} (s : State) : State :=
  if keyObjectid s.mem s.currentIh ≠ s.fileObjectid ∨
      s.pos + 1 < ihKeyOffset v.info s.mem s.currentIh then
    (nextKey v.disk v.info (searchStat v.disk v.info s.fileDirId s.fileObjectid s).2).2
  else s

/-- Before it reads, an open file stands in its items at or in front of the position. -/
theorem Opened.ready_items {f : FileOf v} (opened : Opened f s) (fine : s.errnum = .ok) :
    ∃ done todo, f.data = done ++ todo ∧ Stream v (Opened.ready (v := v) s) (todo ++ f.tail) ∧
      v.coverage done ≤ s.pos ∧ SameFile s (Opened.ready (v := v) s) ∧
      (Opened.ready (v := v) s).errnum = .ok := by
  obtain ⟨done, todo, whole, stream⟩ := opened.stream
  unfold Opened.ready
  split
  next stale =>
    rw [opened.dirId, opened.objectid]
    obtain ⟨t, search, items, file, good⟩ := stream.cached.findItems f.found f.walkable
    obtain ⟨u, step, ahead, file', kept⟩ := items.nextKey
    rw [search]
    dsimp only
    rw [step]
    exact ⟨[], f.data, rfl, ahead, Nat.zero_le _, file.trans file', kept good⟩
  next fresh =>
    rw [not_or, not_not] at fresh
    cases todo with
    | nil =>
      have ends := stream.ends_objectid f.ends
      rw [← opened.objectid] at ends
      exact absurd fresh.1 ends
    | cons p todo =>
      obtain ⟨rest, -, cursor, -⟩ := stream.cursor
      have laid := f.laid
      rw [whole] at laid
      have key : v.offsetOf p = 0 + v.coverage done + 1 := laid.behind.2.1
      have offset : ihKeyOffset v.info s.mem s.currentIh = v.offsetOf p := cursor.keyOffset
      refine ⟨done, p :: todo, whole, stream, ?_, .refl s, fine⟩
      omega

/-- What a read of an open file does: the bytes from the position on, as many as
there are. -/
theorem Opened.reiserfsReadData {f : FileOf v} (opened : Opened f s) (seek : s.pos < 2 ^ 32)
    (small : len < 2 ^ 32) (out : Bytes) (enough : f.data.length < fuel) :
    ∃ t, reiserfsReadData v.disk v.info fuel s len out =
        some (s32 (min len (v.coverage f.data - s.pos)), t,
          blit out 0 (min len (v.coverage f.data - s.pos)) fun i => v.bytesOf f.data (s.pos + i)) ∧
      Opened f t ∧ t.pos = s.pos + min len (v.coverage f.data - s.pos) ∧ t.len = s.len := by
  have renewed : Opened f { s with errnum := .ok } := by
    obtain ⟨done, todo, whole, stream⟩ := opened.stream
    exact ⟨opened.dirId, opened.objectid, done, todo, whole, stream.congr rfl rfl rfl rfl rfl⟩
  obtain ⟨done, todo, whole, stream, behind, file, fine⟩ := renewed.ready_items rfl
  have pos : (Opened.ready (v := v) { s with errnum := .ok }).pos = s.pos := file.pos
  have behind' : v.coverage done ≤ s.pos := behind
  obtain ⟨u, run, good, count, bytes, after, arrived, kept⟩ :=
    f.readLoop whole stream (file.dirId.trans opened.dirId) (file.objectid.trans opened.objectid)
      fine (by omega) (by omega) small out enough
  rw [pos] at count bytes arrived
  refine ⟨u.s, ?_, after, arrived, kept.trans file.len⟩
  have start : Reiserfs.reiserfsReadData v.disk v.info fuel s len out =
      (Reiserfs.readLoop v.disk v.info fuel
        ⟨Opened.ready (v := v) { s with errnum := .ok }, 0, len, out⟩).map fun t =>
          (if t.s.errnum ≠ .ok then 0 else s32 t.count, t.s, t.out) := rfl
  rw [start, run, Option.map_some, if_neg (by simp [good]), count, bytes]

end

/-! ### Holes -/

/-- Where in its block a byte lies for which a file has no block. -/
def Volume.holeAt (v : Volume) : List Position → Nat → Option Nat
  | [], _ => none
  | p :: ps, k =>
    if k < v.sizeOf p then
      if v.direct p = false ∧ v.pointer p k = 0 then some (k % v.info.blocksize) else none
    else v.holeAt ps (k - v.sizeOf p)

/-- The bytes of a file, holes reading as zeros. -/
def FileOf.content {v : Volume} (f : FileOf v) : Bytes := fun i =>
  if (v.holeAt f.data i).isSome then 0 else v.bytesOf f.data i

/-- In place of a hole the driver reads block zero. -/
theorem Volume.bytesOf_hole (v : Volume) (hole : v.holeAt ps k = some o) :
    v.bytesOf ps k = v.node 0 o := by
  induction ps generalizing k with
  | nil => cases hole
  | cons p ps ih =>
    unfold holeAt at hole
    unfold bytesOf
    by_cases inside : k < v.sizeOf p
    · simp only [if_pos inside] at hole ⊢
      split at hole
      next unmapped =>
        cases hole
        rw [byteOf, unmapped.1, unmapped.2]
        rfl
      next => cases hole
    · simp only [if_neg inside] at hole ⊢
      exact ih hole

/-- The driver reads a byte right unless it is in a hole that block zero does not
look like. -/
theorem FileOf.bytesOf_eq_iff {v : Volume} (f : FileOf v) (i : Nat) :
    v.bytesOf f.data i = f.content i ↔ ∀ o, v.holeAt f.data i = some o → v.node 0 o = 0 := by
  unfold content
  cases hole : v.holeAt f.data i with
  | none => simp
  | some o =>
    rw [v.bytesOf_hole hole]
    simp

end Yaboot.Reiserfs
