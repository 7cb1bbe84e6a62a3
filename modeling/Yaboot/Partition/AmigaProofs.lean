import Yaboot.Partition.Amiga

/-! The Amiga checksum counts longs where its callers count bytes, and the bitmap
of the walk is sized by one field of the disk and indexed by others. -/
namespace Yaboot.Partition
open Buffer CString Word Fs

variable {d : Disk} {mem m : Bytes} {used : Used}

/-! ### The checksum -/

/-- Adding up with overflow is adding up. -/
theorem foldl_sum (f : Nat → Nat) (l : List Nat) (a : Nat) :
    l.foldl (fun sum i => u32 (sum + f i)) (u32 a) = (a + (l.map f).sum) % 2 ^ 32 := by
  induction l generalizing a with
  | nil => rfl
  | cons i l ih =>
    have step : u32 (u32 a + f i) = u32 (a + f i) := by
      unfold u32
      omega
    rw [List.foldl_cons, step, ih, List.map_cons, List.sum_cons, Nat.add_assoc]

theorem amigaChecksum_eq (mem : Bytes) (blkSize : Nat) :
    amigaChecksum mem blkSize =
      ((List.range (max 1 (min (amigaBlock mem 1) blkSize))).map (amigaBlock mem)).sum % 2 ^ 32 := by
  have first : amigaBlock mem 0 = u32 (amigaBlock mem 0) := (u32_of_lt (word32_lt mem _)).symm
  have words : List.range (max 1 (min (amigaBlock mem 1) blkSize)) =
      0 :: List.range' 1 (min (amigaBlock mem 1) blkSize - 1) := by
    obtain ⟨n, count⟩ : ∃ n, max 1 (min (amigaBlock mem 1) blkSize) = n + 1 :=
      ⟨max 1 (min (amigaBlock mem 1) blkSize) - 1, by omega⟩
    have rest : min (amigaBlock mem 1) blkSize - 1 = n := by omega
    rw [count, rest, List.range_eq_range', List.range'_succ]
  unfold amigaChecksum
  dsimp only
  rw [first, foldl_sum, words, List.map_cons, List.sum_cons]

/-- Only the words that are read make a difference. -/
theorem amigaChecksum_congr (same : ∀ i ∈ checksumReads mem blkSize,
      amigaBlock before i = amigaBlock mem i) :
    amigaChecksum before blkSize = amigaChecksum mem blkSize := by
  have first := same 0 (by simp [checksumReads])
  have second := same 1 (by simp [checksumReads])
  have words : ∀ i ∈ List.range (max 1 (min (amigaBlock mem 1) blkSize)),
      amigaBlock before i = amigaBlock mem i := by
    intro i member
    rw [List.mem_range] at member
    by_cases zero : i = 0
    · rw [zero, first]
    · apply same
      unfold checksumReads
      rw [List.mem_cons, List.mem_cons, List.mem_range'_1]
      omega
  rw [amigaChecksum_eq, amigaChecksum_eq, second, List.map_congr_left words]

/-- `_amiga_checksum` adds up the longs that a block says it has, and no byte behind it, exactly for
blocks that have a length, and one that they have room for. -/
theorem checksum_right_iff (mem : Bytes) (blkSize : Nat) :
    ChecksumRight mem blkSize ↔ 8 ≤ blkSize ∧ amigaBlock mem 1 ≤ blkSize / 4 := by
  constructor
  · intro right
    have length := right.inside 1 (by simp [checksumReads])
    refine ⟨length, ?_⟩
    by_contra long
    have read : blkSize / 4 ∈ checksumReads mem blkSize := by
      unfold checksumReads
      rw [List.mem_cons, List.mem_cons, List.mem_range'_1]
      omega
    have outside := right.inside _ read
    omega
  · rintro ⟨room, short⟩
    have inside : ∀ i ∈ checksumReads mem blkSize, 4 * i + 4 ≤ blkSize := by
      intro i member
      unfold checksumReads at member
      rw [List.mem_cons, List.mem_cons, List.mem_range'_1] at member
      omega
    refine ⟨inside, fun before same => ?_, ?_⟩
    · apply amigaChecksum_congr
      intro i member
      have below := inside i member
      apply word32_congr
      intro k _ high
      exact same k (by omega)
    · have length : min (amigaBlock mem 1) blkSize = min (amigaBlock mem 1) (blkSize / 4) := by
        omega
      rw [amigaChecksum_eq, length]

/-- A block of 512 bytes that says it has one long too many. -/
theorem longBlock_read : ¬ ChecksumRight (ofWords fun i => if i = 1 then 129 else 0) 512 := by
  intro right
  have read : 128 ∈ checksumReads (ofWords fun i => if i = 1 then 129 else 0) 512 := by
    decide +kernel
  exact absurd (right.inside 128 read) (by decide)

/-! ### The bitmap -/

theorem usedWord_of_lt (small : p < 2 ^ 31) : usedWord p = (p / 32 : Nat) := by
  unfold usedWord
  rw [s32_of_lt small]
  exact (Int.ofNat_tdiv p 32).symm

theorem tmod_of_lt (small : p < 2 ^ 31) : (s32 p).tmod 32 = (p % 32 : Nat) := by
  rw [s32_of_lt small]
  exact (Int.ofNat_tmod p 32).symm

theorem usedBit_of_lt (small : p < 2 ^ 31) : usedBit p = p % 32 := by
  unfold usedBit
  rw [tmod_of_lt small]
  omega

/-- A mark is for one block, among those that are no negative numbers. -/
theorem has_mark_iff (used : Used) (small : p < 2 ^ 31) (small' : q < 2 ^ 31) :
    (used.mark p).has q = true ↔ q = p ∨ used.has q = true := by
  constructor
  · intro has
    by_cases same : q = p
    · exact .inl same
    right
    unfold Used.has Used.mark at *
    by_cases word : usedWord q = usedWord p
    · rw [word, Function.update_self, Nat.testBit_or, Nat.testBit_two_pow] at has
      rw [word]
      have bits : usedBit p ≠ usedBit q := by
        rw [usedWord_of_lt small, usedWord_of_lt small'] at word
        rw [usedBit_of_lt small, usedBit_of_lt small']
        omega
      simpa [bits] using has
    · rwa [Function.update_of_ne word] at has
  · rintro (rfl | has)
    · exact used.has_mark_self q
    · exact used.has_mark p has

theorem left_le (used : Used) : used.left ≤ 2 ^ 32 := by
  unfold Used.left
  exact (Finset.card_filter_le _ _).trans (Finset.card_range _).le

/-! ### The walk -/

/-- A block is looked up no more than once before the last. -/
theorem amigaWalk_length (d : Disk) (part : Nat) (used : Used) (mem : Bytes) :
    (amigaWalk d part used mem).length ≤ used.left + 1 := by
  fun_induction amigaWalk d part used mem with
  | case1 => exact Nat.zero_le _
  | case2 => exact Nat.zero_le _
  | case3 part used mem more read success valid new ih =>
    have less := used.left_mark new
    rw [List.length_cons]
    omega
  | case4 part used mem more read success valid old => simp
  | case5 part used mem more read success invalid => simp

/-- The walk gives the list an entry for every block it looks up, but for one that
ends it. -/
theorem amigaLoop_length (d : Disk) (blockspercyl part partition : Nat) (used : Used)
    (mem : Bytes) (list : List Partition) :
    (amigaLoop d blockspercyl part partition used mem list).length ≤
        list.length + (amigaWalk d part used mem).length ∧
      list.length + (amigaWalk d part used mem).length ≤
        (amigaLoop d blockspercyl part partition used mem list).length + 1 := by
  fun_induction amigaLoop d blockspercyl part partition used mem list with
  | case1 partition used mem list =>
    have walk : amigaWalk d amigaEnd used mem = [] := by
      unfold amigaWalk
      exact if_pos rfl
    rw [walk, List.length_nil]
    omega
  | case2 part partition used mem list more read failed =>
    have walk : amigaWalk d part used mem = [] := by
      unfold amigaWalk
      rw [if_neg more]
      exact if_pos failed
    rw [walk, List.length_nil]
    omega
  | case3 part partition used mem list more read success valid new ih =>
    have walk : amigaWalk d part used mem =
        part :: amigaWalk d (amigaBlock read.2 4) (used.mark part) read.2 := by
      conv_lhs => unfold amigaWalk
      rw [if_neg more]
      dsimp only
      rw [if_neg success, if_pos valid, if_pos new]
    rw [List.length_cons] at ih
    rw [walk, List.length_cons]
    omega
  | case4 part partition used mem list more read success valid old =>
    have walk : amigaWalk d part used mem = [part] := by
      unfold amigaWalk
      rw [if_neg more]
      dsimp only
      rw [if_neg success, if_pos valid, if_neg old]
    rw [walk, List.length_singleton]
    omega
  | case5 part partition used mem list more read success invalid =>
    have walk : amigaWalk d part used mem = [part] := by
      unfold amigaWalk
      rw [if_neg more]
      dsimp only
      rw [if_neg success, if_neg invalid]
    rw [walk, List.length_singleton]
    omega

/-- A block that could be read is in the buffer. -/
theorem Disk.Over.success (over_ : d.Over mem m) (success : ¬ (!(d.readblock part m).1) = true) :
    ∃ b, d.block part = some b ∧ (d.readblock part m).2 = d.put mem b := by
  cases given : d.block part with
  | none => simp [Disk.readblock_none given] at success
  | some b => exact ⟨b, rfl, by rw [Disk.readblock_some given, over_.put]⟩

/-- What is looked up is a block of the chain that can be read. -/
theorem amigaWalk_reached (over_ : d.Over mem m) (reached : Reached d mem part)
    (member : p ∈ amigaWalk d part used m) :
    Reached d mem p ∧ p ≠ amigaEnd ∧ (d.block p).isSome := by
  fun_induction amigaWalk d part used m with
  | case1 => cases member
  | case2 => cases member
  | case3 part used m more read success valid new ih =>
    obtain ⟨b, given, buffer⟩ := over_.success success
    rcases List.mem_cons.mp member with rfl | later
    · exact ⟨reached, more, by rw [given]; rfl⟩
    · have there : read.2 = d.put mem b := buffer
      rw [there] at valid ih later
      exact ih ⟨b, rfl⟩ (.next reached more given valid) later
  | case4 part used m more read success valid old =>
    obtain ⟨b, given, _⟩ := over_.success success
    obtain rfl := List.mem_singleton.mp member
    exact ⟨reached, more, by rw [given]; rfl⟩
  | case5 part used m more read success invalid =>
    obtain ⟨b, given, _⟩ := over_.success success
    obtain rfl := List.mem_singleton.mp member
    exact ⟨reached, more, by rw [given]; rfl⟩

/-- The bitmap has marks only for blocks that were looked up. -/
def Used.Only (used : Used) (done : Nat → Prop) : Prop :=
  ∀ q < 2 ^ 31, used.has q = true → done q

/-- A walk whose blocks are inside the bitmap starts with the block it is at. -/
theorem amigaWalk_head (more : part ≠ amigaEnd) (given : (d.block part).isSome) :
    part ∈ amigaWalk d part used m := by
  obtain ⟨b, given⟩ := Option.isSome_iff_exists.mp given
  unfold amigaWalk
  rw [if_neg more, Disk.readblock_some given]
  dsimp only
  rw [if_neg (by decide)]
  split
  · split <;> simp
  · simp

/-- The next block of every block that is looked up is looked up as well, or was
before. -/
theorem amigaWalk_next (over_ : d.Over mem m)
    (small : ∀ p ∈ amigaWalk d part used m, p < 2 ^ 31)
    (member : p ∈ amigaWalk d part used m) (given : d.block p = some b)
    (valid : amigaValid d amigaIdPart (d.put mem b)) (more : amigaBlock (d.put mem b) 4 ≠ amigaEnd)
    (readable : (d.block (amigaBlock (d.put mem b) 4)).isSome) :
    ∀ done, used.Only done → amigaBlock (d.put mem b) 4 ∈ amigaWalk d part used m ∨ done p := by
  fun_induction amigaWalk d part used m with
  | case1 => cases member
  | case2 => cases member
  | case3 part used m more' read success valid' new ih =>
    obtain ⟨b', given', buffer⟩ := over_.success success
    have there : read.2 = d.put mem b' := buffer
    rw [there] at ih small member ⊢
    intro done only
    have here : p = part → amigaBlock (d.put mem b) 4 ∈
        amigaWalk d (amigaBlock (d.put mem b') 4) (used.mark part) (d.put mem b') := by
      rintro rfl
      obtain rfl := Option.some.inj (given'.symm.trans given)
      exact amigaWalk_head more readable
    rcases List.mem_cons.mp member with same | later
    · exact .inl (List.mem_cons_of_mem _ (here same))
    · have marked : (used.mark part).Only fun q => q = part ∨ done q := by
        intro q low has
        exact ((has_mark_iff used (small part (by simp)) low).mp has).imp_right (only q low)
      rcases ih ⟨b', rfl⟩ (fun q member => small q (by simp [member])) later _ marked with
        next | same | before
      · exact .inl (List.mem_cons_of_mem _ next)
      · exact .inl (List.mem_cons_of_mem _ (here same))
      · exact .inr before
  | case4 part used m more' read success valid' old =>
    intro done only
    obtain rfl := List.mem_singleton.mp member
    exact .inr (only p (small p member) (by simpa using old))
  | case5 part used m more' read success invalid =>
    obtain rfl := List.mem_singleton.mp member
    obtain ⟨b', given', buffer⟩ := over_.success success
    have there : read.2 = d.put mem b' := buffer
    obtain rfl := Option.some.inj (given'.symm.trans given)
    rw [there] at invalid
    exact absurd valid invalid

/-- The disk with other memory around the bitmap. -/
def Disk.around (d : Disk) (heap : Int → Nat) : Disk := { d with heap }

theorem Reached.around (reached : Reached d mem p) (heap : Int → Nat) :
    Reached (d.around heap) mem p := by
  induction reached with
  | first => exact .first
  | next _ more given valid ih => exact .next ih more given valid

theorem Disk.put_self (d : Disk) (mem : Bytes) : d.put mem mem = mem := by
  funext k
  by_cases inside : k < 0 + d.blksize
  · exact blit_inside _ _ (Nat.zero_le k) inside
  · exact blit_outside _ _ (.inr (by omega))

/-- Where nothing but zeros is around the bitmap, every readable block of the
chain is looked up, as long as all that are looked up are inside. -/
theorem reached_visited (small : ∀ p ∈ amigaVisits (d.around fun _ => 0) mem, p < 2 ^ 31)
    (reached : Reached d mem p) (more : p ≠ amigaEnd) (readable : (d.block p).isSome) :
    p ∈ amigaVisits (d.around fun _ => 0) mem := by
  have zero : (cleared (d.around fun _ => 0) (possible mem)).Only fun _ => False := by
    intro q _ has
    unfold Used.has cleared at has
    have nothing : (if 0 ≤ usedWord q ∧ usedWord q < possible mem then 0
        else (d.around fun _ => 0).heap (usedWord q)) = 0 := ite_self 0
    rw [nothing, Nat.zero_testBit] at has
    cases has
  have walk : ∀ q, Reached d mem q → q ≠ amigaEnd → (d.block q).isSome →
      q ∈ amigaVisits (d.around fun _ => 0) mem := by
    intro q reached
    induction reached with
    | first => exact fun more readable => amigaWalk_head more readable
    | next _ more given valid ih =>
      intro more' readable
      have before := ih more (by rw [given]; rfl)
      rcases amigaWalk_next (d := d.around fun _ => 0) ⟨mem, (Disk.put_self _ _).symm⟩ small before given
        valid more' readable _ zero with next | none
      · exact next
      · exact none.elim
  exact walk p reached more readable

theorem Reached.lt (reached : Reached d mem p) : p < 2 ^ 32 := by
  cases reached <;> exact word32_lt _ _

/-- A negative number has its place in front of the bitmap, or its bit in front of
the word. -/
theorem lt_of_place (size : p < 2 ^ 32) (word : 0 ≤ usedWord p) (bit : 0 ≤ (s32 p).tmod 32) :
    p < 2 ^ 31 := by
  by_contra large
  have negative : s32 p < 0 := by
    unfold s32
    rw [Nat.mod_eq_of_lt size, if_neg large]
    omega
  have parts := Int.mul_tdiv_add_tmod (s32 p) 32
  unfold usedWord at word
  omega

/-- The walk of `partition_amiga_lookup` stays inside its bitmap and ends, whatever lies around the
bitmap, exactly when every readable block of the chain has a place in it. -/
theorem walk_sound_iff (d : Disk) (mem : Bytes) :
    (∀ heap, WalkSound (d.around heap) mem) ↔
      ∀ p, Reached d mem p → p ≠ amigaEnd → (d.block p).isSome →
        p < 2 ^ 31 ∧ p < 32 * (possible mem + 1) := by
  constructor
  · intro sound p reached more readable
    have quiet := sound fun _ => 0
    have small : ∀ p ∈ amigaVisits (d.around fun _ => 0) mem, p < 2 ^ 31 := by
      intro q member
      have over_ : (d.around fun _ => 0).Over mem mem := ⟨mem, (Disk.put_self _ _).symm⟩
      have met := (amigaWalk_reached over_ .first member).1
      exact lt_of_place met.lt (quiet.index q member).1 (quiet.shift q member).1
    have visited := reached_visited small reached more readable
    have index := quiet.index p visited
    rw [usedWord_of_lt (small p visited)] at index
    exact ⟨small p visited, by omega⟩
  · intro inside heap
    have place : ∀ p ∈ amigaVisits (d.around heap) mem,
        p < 2 ^ 31 ∧ p < 32 * (possible mem + 1) := by
      intro p member
      have over_ : (d.around heap).Over mem mem := ⟨mem, (Disk.put_self _ _).symm⟩
      obtain ⟨reached, more, readable⟩ := amigaWalk_reached over_ .first member
      exact inside p (reached.around d.heap) more readable
    refine ⟨fun p member => ?_, fun p member => ?_, ?_⟩
    · have room := place p member
      rw [usedWord_of_lt room.1]
      omega
    · rw [tmod_of_lt (place p member).1]
      omega
    · exact (amigaWalk_length _ _ _ _).trans (Nat.add_le_add_right (left_le _) 1)

/-- A rigid disk block that names a block behind those its bitmap is for. -/
def farBlock : Bytes := ofWords fun
  | 0 => amigaIdRdb
  | 1 => 3
  | 2 => 0xadbbacb2
  | 7 => 64
  | _ => 0

/-- Block 64 is beyond the limit in the rigid disk block, and its bit behind the bitmap. -/
theorem farBlock_outside :
    ¬ ∀ (d : Disk) (mem : Bytes), d.Accepted → ¬ OtherTable d mem →
      ∀ heap, WalkSound (d.around heap) (amigaFindRdb d (front d mem)).2 := by
  intro sound
  have other : ¬ OtherTable (oneBlock farBlock) (fun _ => 0) := by
    rintro (mac | fdisk | iso)
    · exact absurd (show word16 _ 0 = _ from mac) (by decide +kernel)
    · exact absurd fdisk.1 (by decide +kernel)
    · exact absurd iso.1 (by decide)
  have walk := sound (oneBlock farBlock) (fun _ => 0) ⟨rfl, by decide, rfl⟩ other fun _ => 0
  obtain ⟨m, start⟩ : ∃ m, m = (amigaFindRdb (oneBlock farBlock)
    (front (oneBlock farBlock) fun _ => 0)).2 := ⟨_, rfl⟩
  have named : amigaBlock m 7 = 64 := by rw [start]; decide +kernel
  have words : possible m = 1 := by rw [start]; decide +kernel
  rw [← start] at walk
  have visited : 64 ∈ amigaVisits ((oneBlock farBlock).around fun _ => 0) m := by
    unfold amigaVisits
    rw [named]
    exact amigaWalk_head (by decide) rfl
  have index := (walk.index 64 visited).2
  rw [words] at index
  exact absurd index (by decide)

end Yaboot.Partition
