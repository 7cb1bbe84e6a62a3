import Yaboot.Fs.Swap

/-! Swap signatures are looked for in blocks of the partition table, but the
device is asked for blocks of its own. -/
namespace Yaboot.Fs
open Buffer CString Word

variable {d : ByteDisk} {heap : Bytes} {p : Partition} {buffer : Origins}

/-- The search of `swap_open` is over the rounds. -/
theorem findSignature_looks (reads : ∀ blk buffer,
      w.readblocks h blk (d.values heap buffer) = d.values heap (d.readblocks blk blkcount buffer).2)
    (table : List (CStr × Nat)) (buffer : Origins) :
    findSignature w h p table (d.values heap buffer) =
      (looks d heap p table buffer).any Look.found := by
  induction table generalizing buffer with
  | nil => rfl
  | cons signature rest ih =>
    obtain ⟨magic, offset⟩ := signature
    unfold findSignature looks
    dsimp only
    rw [reads, ih, List.any_cons]
    by_cases found : (lookFor d heap p magic offset buffer).1.found
    · rw [if_pos found, found, Bool.true_or]
      exact Bool.or_eq_true_iff.mpr (.inl found)
    · rw [if_neg found]
      rfl

/-! ### Positions -/

theorem blksize_pos (d : ByteDisk) : 0 < d.blksize := by
  unfold ByteDisk.blksize
  split <;> omega

/-- Counting in blocks of two sizes comes to the same place only at the start. -/
theorem position_eq_iff {b size blocksize : Nat} (some_ : 0 < size) (le : size ≤ blocksize) :
    u32 (u32 b * size) = b * blocksize ↔ (size = blocksize ∨ b = 0) ∧ b * size < 2 ^ 32 := by
  constructor
  · intro same
    have wrapped : u32 (u32 b * size) ≤ u32 b * size := Nat.mod_le _ _
    have block : u32 b * size ≤ b * size := Nat.mul_le_mul_right size (Nat.mod_le _ _)
    have more : b * size ≤ b * blocksize := Nat.mul_le_mul_left b le
    have bound := u32_lt (u32 b * size)
    refine ⟨?_, by omega⟩
    have equal : b * size = b * blocksize := by omega
    rcases Nat.eq_zero_or_pos b with none | positive
    · exact .inr none
    · exact .inl (Nat.eq_of_mul_eq_mul_left positive equal)
  · rintro ⟨same, narrow⟩
    have small : b ≤ b * size := Nat.le_mul_of_pos_right b some_
    rw [u32_of_lt (by omega : b < 2 ^ 32), u32_of_lt narrow]
    rcases same with rfl | rfl
    · rfl
    · rw [Nat.zero_mul, Nat.zero_mul]

/-- The place the disk is asked for, where it is the right one. -/
theorem blockPos_eq (same : d.blockPos (u32 b) = b * blocksize)
    (blocks : d.blksize = blocksize ∨ b = 0) : d.blockPos (u32 b) = b * d.blksize := by
  rcases blocks with blocks | zero
  · rw [same, blocks]
  · rw [same, zero, Nat.zero_mul, Nat.zero_mul]

theorem offset_eq (p : Partition) (offset : Nat) :
    p.partStart * p.blocksize + offset =
      (p.partStart + offset / p.blocksize) * p.blocksize + offset % p.blocksize := by
  have parts := Nat.div_add_mod' offset p.blocksize
  rw [Nat.add_mul]
  omega

theorem blockBytes_of_small (small : d.blksize ≤ 2048) : d.blockBytes blkcount = 2 * d.blksize :=
  u32_of_lt (by unfold blkcount; omega)

/-! ### A round -/

theorem readblocks_again (d : ByteDisk) (blk n : Nat) (buffer : Origins) :
    (d.readblocks blk n (d.readblocks blk n buffer).2).2 = (d.readblocks blk n buffer).2 := by
  unfold ByteDisk.readblocks
  dsimp only
  by_cases seeks : d.seek (d.blockPos blk) = true
  · simp only [seeks, Bool.not_true, Bool.false_eq_true, if_false]
    funext i
    split <;> rfl
  · simp [seeks]

/-- What a round compares, where the disk can seek. -/
theorem look_bytes (seeks : d.seek (d.blockPos (u32 (p.partStart + offset / p.blocksize))) = true)
    (magic : CStr) (k : Nat) :
    (lookFor d heap p magic offset buffer).1.bytes k =
      if offset % p.blocksize + k < d.delivered
          (d.blockPos (u32 (p.partStart + offset / p.blocksize))) (d.blockBytes blkcount) then
        some (d.blockPos (u32 (p.partStart + offset / p.blocksize)) + (offset % p.blocksize + k))
      else buffer (offset % p.blocksize + k) := by
  unfold lookFor ByteDisk.readblocks
  dsimp only
  rw [seeks, if_neg (by decide)]

/-- Where the disk cannot seek, a round compares what was there before. -/
theorem look_bytes_old (fails : d.seek (d.blockPos (u32 (p.partStart + offset / p.blocksize))) = false)
    (magic : CStr) (k : Nat) :
    (lookFor d heap p magic offset buffer).1.bytes k = buffer (offset % p.blocksize + k) := by
  unfold lookFor ByteDisk.readblocks
  dsimp only
  rw [fails]
  rfl

/-- The block asked for begins where the partition table has it. -/
theorem Reaches.place (reaches : Reaches d p offset) (room : d.blksize ≤ p.blocksize) :
    d.blockPos (u32 (p.partStart + offset / p.blocksize)) =
        (p.partStart + offset / p.blocksize) * p.blocksize ∧
      d.blockPos (u32 (p.partStart + offset / p.blocksize)) =
        (p.partStart + offset / p.blocksize) * d.blksize := by
  have same := (position_eq_iff (blksize_pos d) room).mpr ⟨reaches.blocks, reaches.narrow⟩
  exact ⟨same, blockPos_eq same reaches.blocks⟩

/-- Bytes that were not there before come from the device. -/
theorem look_delivered (magic : CStr)
    (stale : ∀ k < 10, buffer (offset % p.blocksize + k) ≠
      some (p.partStart * p.blocksize + offset + k))
    (right : (lookFor d heap p magic offset buffer).1.Right p) (less : k < 10) :
    d.seek (d.blockPos (u32 (p.partStart + offset / p.blocksize))) = true ∧
      offset % p.blocksize + k < d.delivered
        (d.blockPos (u32 (p.partStart + offset / p.blocksize))) (d.blockBytes blkcount) ∧
      d.blockPos (u32 (p.partStart + offset / p.blocksize)) + (offset % p.blocksize + k) =
        p.partStart * p.blocksize + offset + k := by
  have byte := right.bytes k less
  cases seeks : d.seek (d.blockPos (u32 (p.partStart + offset / p.blocksize))) with
  | false =>
    rw [look_bytes_old seeks] at byte
    exact absurd byte (stale k less)
  | true =>
    rw [look_bytes seeks] at byte
    split at byte
    · rename_i below
      exact ⟨rfl, below, Option.some.inj byte⟩
    · exact absurd byte (stale k less)

/-- A round whose bytes were not there before is right exactly when the device
gives them and its blocks fit. -/
theorem look_right_iff (small : d.blksize ≤ 2048) (magic : CStr)
    (stale : ∀ k < 10, buffer (offset % p.blocksize + k) ≠
      some (p.partStart * p.blocksize + offset + k)) :
    (lookFor d heap p magic offset buffer).1.Right p ↔
      d.blksize ≤ p.blocksize ∧ Reaches d p offset := by
  have place := offset_eq p offset
  have extent (seeks : d.seek (d.blockPos (u32 (p.partStart + offset / p.blocksize))) = true) :
      (lookFor d heap p magic offset buffer).1.extent = d.blockBytes blkcount := if_pos seeks
  have fits : d.blockBytes blkcount ≤ p.blocksize * blkcount ↔ d.blksize ≤ p.blocksize := by
    rw [blockBytes_of_small small]
    unfold blkcount
    omega
  constructor
  · intro right
    obtain ⟨seeks, -, first⟩ := look_delivered magic stale right (k := 0) (by omega)
    obtain ⟨-, last, -⟩ := look_delivered magic stale right (k := 9) (by omega)
    have room := right.room
    rw [extent seeks, fits] at room
    have same : d.blockPos (u32 (p.partStart + offset / p.blocksize)) =
        (p.partStart + offset / p.blocksize) * p.blocksize := by omega
    obtain ⟨blocks, narrow⟩ := (position_eq_iff (blksize_pos d) room).mp same
    have exact_ := blockPos_eq same blocks
    rw [exact_] at seeks last
    exact ⟨room, blocks, narrow, seeks, by omega⟩
  · rintro ⟨room, reaches⟩
    obtain ⟨same, exact_⟩ := reaches.place room
    have seeks : d.seek (d.blockPos (u32 (p.partStart + offset / p.blocksize))) = true := by
      rw [exact_]
      exact reaches.seeks
    refine ⟨by rw [extent seeks, fits]; exact room, fun k less => ?_⟩
    have reads := reaches.reads
    rw [look_bytes seeks, if_pos (by rw [exact_]; omega), same]
    exact congrArg some (by show _ = p.partStart * p.blocksize + offset + k; omega)

/-- The other signature at an offset is looked for in the same bytes. -/
theorem look_again (d : ByteDisk) (heap : Bytes) (p : Partition) (magic magic' : CStr)
    (offset : Nat) (buffer : Origins) :
    lookFor d heap p magic' offset (lookFor d heap p magic offset buffer).2 =
      (⟨offset, (lookFor d heap p magic offset buffer).1.extent,
        (lookFor d heap p magic offset buffer).1.bytes,
        (lookFor d heap p magic' offset buffer).1.found⟩,
        (lookFor d heap p magic offset buffer).2) := by
  unfold lookFor
  dsimp only
  rw [readblocks_again]

/-- A round that is right finds what the partition has. -/
theorem look_found (right : (lookFor d heap p magic offset buffer).1.Right p)
    (length : magic.length = 10) :
    (lookFor d heap p magic offset buffer).1.found = true ↔
      (List.range 10).map (fun k => d.content (p.partStart * p.blocksize + offset + k)) =
        magic := by
  have bytes : (List.range 10).map (fun k => d.values heap (lookFor d heap p magic offset buffer).2
      (offset % p.blocksize + k)) =
        (List.range 10).map fun k => d.content (p.partStart * p.blocksize + offset + k) := by
    apply List.map_congr_left
    intro k member
    have byte : (lookFor d heap p magic offset buffer).2 (offset % p.blocksize + k) =
        some (p.partStart * p.blocksize + offset + k) := right.bytes k (List.mem_range.mp member)
    unfold ByteDisk.values
    rw [byte]
  have compared : (lookFor d heap p magic offset buffer).1.found =
      memcmpEq (d.values heap (lookFor d heap p magic offset buffer).2)
        (offset % p.blocksize) magic := rfl
  rw [compared]
  unfold memcmpEq
  rw [length, bytes, beq_iff_eq]

/-! ### The loop -/

/-- Whether a round is right does not depend on the signature. -/
theorem look_right_other (right : (lookFor d heap p magic offset buffer).1.Right p)
    (magic' : CStr) : (lookFor d heap p magic' offset buffer).1.Right p :=
  ⟨right.room, right.bytes⟩

/-- The two rounds at an offset: the second one is made when the first finds nothing,
and the next offset is tried when the partition has no signature there. -/
theorem looks_pair (rest : List (CStr × Nat)) :
    (∀ look ∈ looks d heap p
        ((cstr "SWAP-SPACE", offset) :: (cstr "SWAPSPACE2", offset) :: rest) buffer, look.Right p) ↔
      (lookFor d heap p (cstr "SWAP-SPACE") offset buffer).1.Right p ∧
        (¬ Signed d p offset → ∀ look ∈ looks d heap p rest
          (lookFor d heap p (cstr "SWAP-SPACE") offset buffer).2, look.Right p) := by
  simp only [looks, look_again, List.forall_mem_cons]
  apply and_congr_right
  intro right
  have other := look_right_other right (cstr "SWAPSPACE2")
  have old := look_found right (by decide)
  have new := look_found other (by decide)
  by_cases first : (lookFor d heap p (cstr "SWAP-SPACE") offset buffer).1.found = true
  · have signed : Signed d p offset := ⟨_, List.mem_cons_self, old.mp first⟩
    rw [if_pos first]
    exact iff_of_true (fun _ member => absurd member List.not_mem_nil) fun none => absurd signed none
  · rw [if_neg first, List.forall_mem_cons]
    by_cases second : (lookFor d heap p (cstr "SWAPSPACE2") offset buffer).1.found = true
    · have signed : Signed d p offset := ⟨_, by simp, new.mp second⟩
      rw [if_pos second]
      exact iff_of_true ⟨⟨right.room, right.bytes⟩, fun _ member => absurd member List.not_mem_nil⟩
        fun none => absurd signed none
    · have unsigned : ¬ Signed d p offset := by
        rintro ⟨magic, member, content⟩
        rcases List.mem_pair.mp member with rfl | rfl
        · exact first (old.mpr content)
        · exact second (new.mpr content)
      rw [if_neg second]
      exact ⟨fun both _ => both.2, fun later => ⟨⟨right.room, right.bytes⟩, later unsigned⟩⟩

/-- What the first offset left in the buffer is not what the second asks for. -/
theorem small_stale (small : d.blksize ≤ 2048) (room : d.blksize ≤ p.blocksize)
    (reaches : Reaches d p 0xff6) (heap : Bytes) (magic : CStr) :
    ∀ k < 10, (lookFor d heap p magic 0xff6 fun _ => none).2 (0xfff6 % p.blocksize + k) ≠
      some (p.partStart * p.blocksize + 0xfff6 + k) := by
  intro k less same
  have place := offset_eq p 0xff6
  have block : d.blockPos (u32 (p.partStart + 0xff6 / p.blocksize)) =
      (p.partStart + 0xff6 / p.blocksize) * p.blocksize :=
    (position_eq_iff (blksize_pos d) room).mpr ⟨reaches.blocks, reaches.narrow⟩
  have most : d.delivered (d.blockPos (u32 (p.partStart + 0xff6 / p.blocksize)))
      (d.blockBytes blkcount) ≤ d.blockBytes blkcount := Nat.min_le_right _ _
  rw [blockBytes_of_small small] at most
  unfold lookFor ByteDisk.readblocks at same
  dsimp only at same
  split at same
  · cases same
  · dsimp only at same
    split at same
    · have equal := Option.some.inj same
      rw [blockBytes_of_small small] at *
      omega
    · cases same

/-- The probe for swap space reads the signature of each page size where it would stand, exactly
when the device gives the bytes at each offset that is tried. -/
theorem swap_probe_iff (d : ByteDisk) (heap : Bytes) (p : Partition) (small : d.blksize ≤ 2048) :
    ProbeSound d heap p ↔
      p.blocksize ≠ 0 ∧ d.blksize ≤ p.blocksize ∧ Reaches d p 0xff6 ∧
        (¬ Signed d p 0xff6 → Reaches d p 0xfff6) := by
  have fresh : ∀ k < 10, (fun _ => none : Origins) (0xff6 % p.blocksize + k) ≠
      some (p.partStart * p.blocksize + 0xff6 + k) := fun _ _ => Option.some_ne_none _ |>.symm
  have first : (lookFor d heap p (cstr "SWAP-SPACE") 0xff6 fun _ => none).1.Right p ↔
      d.blksize ≤ p.blocksize ∧ Reaches d p 0xff6 :=
    look_right_iff small _ fresh
  have split : (∀ look ∈ swapLooks d heap p, look.Right p) ↔
      d.blksize ≤ p.blocksize ∧ Reaches d p 0xff6 ∧
        (¬ Signed d p 0xff6 → Reaches d p 0xfff6) := by
    unfold swapLooks signatures
    rw [looks_pair, looks_pair, first, and_assoc]
    apply and_congr_right
    intro room
    apply and_congr_right
    intro reaches
    have stale := small_stale small room reaches heap (cstr "SWAP-SPACE")
    rw [look_right_iff small _ stale]
    constructor
    · exact fun later unsigned => (later unsigned).1.2
    · exact fun later unsigned => ⟨⟨room, later unsigned⟩, fun _ _ member => absurd member List.not_mem_nil⟩
  constructor
  · rintro ⟨divides, right⟩
    exact ⟨divides, split.mp right⟩
  · rintro ⟨divides, right⟩
    exact ⟨divides, split.mpr right⟩

/-- A disk of zeros with the given block size. -/
def zeroDisk (blksize : Nat) : ByteDisk where
  getblksize := blksize
  seek _ := true
  read _ n := n
  content _ := 0

/-- A disk of zeros with blocks of the size the partition is counted in. -/
theorem zeroDisk_sound : ProbeSound (zeroDisk 512) (fun _ => 0) ⟨1, 64, 1024, 512, 0x83⟩ := by
  refine (swap_probe_iff _ _ _ (by decide)).mpr ⟨by decide, by decide, ?_, fun _ => ?_⟩
  · exact ⟨.inl rfl, by decide, rfl, by decide⟩
  · exact ⟨.inl rfl, by decide, rfl, by decide⟩

/-- A partition counted in blocks of 512 bytes, on a device of blocks of 2048. -/
theorem mixed_blocks_probe :
    ¬ ∀ (d : ByteDisk) (heap : Bytes) (p : Partition), d.blksize ≤ 2048 → ProbeSound d heap p := by
  intro sound
  have right := (sound (zeroDisk 2048) (fun _ => 0) ⟨1, 64, 1024, 512, 0⟩ (by decide)).right
  have first := right (lookFor (zeroDisk 2048) (fun _ => 0) ⟨1, 64, 1024, 512, 0⟩
    (cstr "SWAP-SPACE") 0xff6 fun _ => none).1 List.mem_cons_self
  exact absurd first.room (by decide)

end Yaboot.Fs
