import Mathlib.Data.Int.ModEq
import Yaboot.Partition.AmigaProofs

/-! The Amiga partitions of a disk are those of the longest run of good and
different blocks its chain begins with. -/
namespace Yaboot.Partition
open Buffer CString Word Fs

variable {d : Disk} {mem m : Bytes} {used : Used} {n i : Nat}

/-! ### Entries -/

/-- The loop's entry, with sectors and heads of the rigid disk block. -/
theorem amigaEntry_eq (d : Disk) (mem m : Bytes) (partition : Nat) :
    amigaEntry d (u32 (amigaBlock mem 17 * amigaBlock mem 18)) partition m =
      chainEntry d mem m partition := by
  have start : u32 (u32 (amigaBlock mem 17 * amigaBlock mem 18) * amigaBlock m 41) =
      amigaBlock mem 17 * amigaBlock mem 18 * amigaBlock m 41 % 2 ^ 32 := by
    unfold u32
    exact Nat.mod_mul_mod _ _ _
  have cylinders : ((u32 (sub32 (amigaBlock m 42) (amigaBlock m 41) + 1) : Nat) : Int) ≡
      amigaBlock m 42 - amigaBlock m 41 + 1 [ZMOD 2 ^ 32] := by
    unfold Int.ModEq u32 sub32
    omega
  have blocks : ((u32 (amigaBlock mem 17 * amigaBlock mem 18) : Nat) : Int) ≡
      amigaBlock mem 17 * amigaBlock mem 18 [ZMOD 2 ^ 32] := by
    unfold Int.ModEq u32
    push_cast
    exact Int.emod_emod_of_dvd _ (Int.dvd_refl _)
  have size : u32 (u32 (amigaBlock mem 17 * amigaBlock mem 18) *
      u32 (sub32 (amigaBlock m 42) (amigaBlock m 41) + 1)) =
        ((amigaBlock mem 17 * amigaBlock mem 18 *
          (amigaBlock m 42 - amigaBlock m 41 + 1) : Int) % 2 ^ 32).toNat := by
    rw [← blocks.mul cylinders]
    generalize u32 (amigaBlock mem 17 * amigaBlock mem 18) = a
    generalize u32 (sub32 (amigaBlock m 42) (amigaBlock m 41) + 1) = b
    unfold u32
    omega
  unfold amigaEntry chainEntry
  rw [start, size]

theorem chainEntries_succ (d : Disk) (mem : Bytes) (n : Nat) :
    chainEntries d mem (n + 1) =
      chainEntry d mem (chainBuffer d mem n) (n + 1) :: chainEntries d mem n := by
  unfold chainEntries
  rw [List.range_succ, List.map_append, List.reverse_append]
  rfl

theorem chainBuffer_of (here : chain d mem i = some p) (given : d.block p = some b) :
    chainBuffer d mem i = d.put mem b := by
  unfold chainBuffer
  rw [here, Option.bind_some, given]

/-! ### The longest prefix -/

theorem Prefix.zero (d : Disk) (mem : Bytes) : Prefix d mem 0 :=
  ⟨fun _ less => absurd less (Nat.not_lt_zero _), fun _ less => absurd less (Nat.not_lt_zero _)⟩

theorem Prefix.shorter (run : Prefix d mem n) (le : i ≤ n) : Prefix d mem i :=
  ⟨fun k less => run.blocks k (by omega), fun k less => run.distinct k (by omega)⟩

/-- A run that cannot be made longer by one block is the longest. -/
theorem Prefix.longest (run : Prefix d mem n) (stops : ¬ Prefix d mem (n + 1)) :
    Longest d mem n := by
  refine ⟨run, fun k other => ?_⟩
  by_contra longer
  exact stops (other.shorter (by omega))

theorem Prefix.succ (run : Prefix d mem n) (here : chain d mem n = some p)
    (block : PartBlock d mem p m) (new : ∀ j < n, chain d mem j ≠ some p) :
    Prefix d mem (n + 1) := by
  refine ⟨fun i less => ?_, fun i less j earlier => ?_⟩
  · by_cases last : i = n
    · exact ⟨p, m, last ▸ here, block⟩
    · exact run.blocks i (by omega)
  · by_cases last : i = n
    · rw [last] at earlier ⊢
      rw [here]
      exact new j earlier
    · exact run.distinct i (by omega) j earlier

/-- A block that is no partition block ends the run in front of it. -/
theorem Prefix.longest_of_block (run : Prefix d mem n) (here : chain d mem n = some p)
    (bad : ∀ m, ¬ PartBlock d mem p m) : Longest d mem n := by
  apply run.longest
  intro longer
  obtain ⟨q, m, there, block⟩ := longer.blocks n (by omega)
  obtain rfl := Option.some.inj (here.symm.trans there)
  exact bad m block

/-- The next block is the one the buffer names. -/
theorem chain_succ (here : chain d mem i = some p) (more : p ≠ amigaEnd)
    (given : d.block p = some b) (valid : amigaValid d amigaIdPart (d.put mem b)) :
    chain d mem (i + 1) = some (amigaBlock (d.put mem b) 4) := by
  rw [chain, here, Option.bind_some, if_neg more, given, Option.bind_some, if_pos valid]

/-! ### The loop -/

/-- The bitmap has the first `n` blocks of the chain, and no others a partition may
be in. -/
def Used.Marks (used : Used) (d : Disk) (mem : Bytes) (n : Nat) : Prop :=
  ∀ q ≤ amigaBlock mem 33, used.has q = true ↔ ∃ j < n, chain d mem j = some q

theorem Used.Marks.succ (marks : used.Marks d mem n) (limit : amigaBlock mem 33 < 2 ^ 31)
    (here : chain d mem n = some p) (le : p ≤ amigaBlock mem 33) :
    (used.mark p).Marks d mem (n + 1) := by
  intro q low
  rw [has_mark_iff used (by omega) (by omega), marks q low]
  constructor
  · rintro (rfl | ⟨j, less, there⟩)
    · exact ⟨n, by omega, here⟩
    · exact ⟨j, by omega, there⟩
  · rintro ⟨j, less, there⟩
    by_cases last : j = n
    · rw [last, here] at there
      exact .inl (Option.some.inj there).symm
    · exact .inr ⟨j, by omega, there⟩

/-- All words the limit needs are cleared. -/
theorem cleared_marks (d : Disk) (mem : Bytes) (limit : amigaBlock mem 33 < 2 ^ 31) :
    (cleared d (possible mem)).Marks d mem 0 := by
  intro q low
  have word : (cleared d (possible mem)) (usedWord q) = 0 := by
    unfold cleared
    rw [usedWord_of_lt (by omega)]
    apply if_pos
    unfold possible
    omega
  unfold Used.has
  rw [word, Nat.zero_testBit]
  constructor
  · intro has
    cases has
  · rintro ⟨j, less, _⟩
    exact absurd less (Nat.not_lt_zero j)

/-- From any block of the chain on the loop goes to the end of the longest run. -/
theorem amigaLoop_chain {blockspercyl part partition : Nat} {list : List Partition}
    (limit : amigaBlock mem 33 < 2 ^ 31)
    (within : ∀ i p m, chain d mem i = some p → PartBlock d mem p m → p ≤ amigaBlock mem 33)
    (cylinder : blockspercyl = u32 (amigaBlock mem 17 * amigaBlock mem 18)) (over_ : d.Over mem m) :
    ∀ n, partition = n + 1 → list = chainEntries d mem n → chain d mem n = some part →
      Prefix d mem n → used.Marks d mem n →
      ∃ k, Longest d mem k ∧
        amigaLoop d blockspercyl part partition used m list = chainEntries d mem k := by
  fun_induction amigaLoop d blockspercyl part partition used m list with
  | case1 partition used m list =>
    intro n _ entries here run _
    exact ⟨n, run.longest_of_block here fun _ block => block.1 rfl, entries⟩
  | case2 part partition used m list more read failed =>
    intro n _ entries here run _
    refine ⟨n, run.longest_of_block here fun x block => ?_, entries⟩
    obtain ⟨_, b, given, _⟩ := block
    have success : read.1 = true := by
      rw [show read = (true, d.put m b) from Disk.readblock_some given m]
    rw [success] at failed
    cases failed
  | case3 part partition used m list more read success valid new ih =>
    intro n number entries here run marks
    obtain ⟨b, given, buffer⟩ := over_.success success
    have there : read.2 = d.put mem b := buffer
    rw [there] at valid ih ⊢
    have block : PartBlock d mem part (d.put mem b) := ⟨more, b, given, rfl, valid⟩
    have low := within n part _ here block
    have unseen : ∀ j < n, chain d mem j ≠ some part := by
      intro j less again
      rw [(marks part low).mpr ⟨j, less, again⟩] at new
      cases new
    apply ih ⟨b, rfl⟩ (n + 1)
    · rw [number]
    · rw [cylinder, amigaEntry_eq, number, entries, chainEntries_succ, chainBuffer_of here given]
    · exact chain_succ here more given valid
    · exact run.succ here block unseen
    · exact marks.succ limit here low
  | case4 part partition used m list more read success valid old =>
    intro n _ entries here run marks
    obtain ⟨b, given, buffer⟩ := over_.success success
    have there : read.2 = d.put mem b := buffer
    rw [there] at valid
    have low := within n part _ here ⟨more, b, given, rfl, valid⟩
    obtain ⟨j, less, again⟩ := (marks part low).mp (by simpa using old)
    refine ⟨n, run.longest fun longer => ?_, entries⟩
    exact longer.distinct n (by omega) j less (again.trans here.symm)
  | case5 part partition used m list more read success invalid =>
    intro n _ entries here run _
    obtain ⟨b, given, buffer⟩ := over_.success success
    have there : read.2 = d.put mem b := buffer
    refine ⟨n, run.longest_of_block here fun x block => ?_, entries⟩
    obtain ⟨_, c, given', rfl, valid⟩ := block
    obtain rfl := Option.some.inj (given.symm.trans given')
    rw [there] at invalid
    exact invalid valid

/-- `partition_amiga_lookup` lists the longest run of different partition blocks that the chain
starts with, numbered from 1, the last of it in front, with the start and the length that their
cylinders and the sectors and heads of the disk make. -/
theorem partitionAmigaLookup_chain (d : Disk) (mem : Bytes)
    (granted : d.malloc (4 * (possible mem + 1)) = true) (limit : amigaBlock mem 33 < 2 ^ 31)
    (within : ∀ i p m, chain d mem i = some p → PartBlock d mem p m → p ≤ amigaBlock mem 33) :
    ∃ n, Longest d mem n ∧ partitionAmigaLookup d mem = chainEntries d mem n := by
  have over_ : d.Over mem mem := ⟨mem, (Disk.put_self d mem).symm⟩
  have lookup : partitionAmigaLookup d mem =
      amigaLoop d (u32 (amigaBlock mem 17 * amigaBlock mem 18)) (amigaBlock mem 7) 1
        (cleared d (possible mem)) mem [] := by
    unfold possible at granted ⊢
    unfold partitionAmigaLookup
    dsimp only
    rw [granted, if_neg (by decide)]
  rw [lookup]
  exact amigaLoop_chain limit within rfl over_ 0 rfl rfl rfl (.zero d mem)
    (cleared_marks d mem limit)

/-- A rigid disk block with 32 sectors, 4 heads, a limit of 40000 blocks, and partitions
from block 2 on. -/
def rigidBuffer : Bytes := ofWords fun
  | 0 => amigaIdRdb
  | 7 => 2
  | 17 => 32
  | 18 => 4
  | 33 => 40000
  | _ => 0

/-- The cylinders 2 to 65, with block 5 as the next. -/
def bootBlock : Bytes := ofWords fun
  | 0 => amigaIdPart
  | 1 => 64
  | 2 => 0xafbead24
  | 4 => 5
  | 41 => 2
  | 42 => 65
  | _ => 0

/-- The cylinders 66 to 257, with block 2 as the next. -/
def rootBlock : Bytes := ofWords fun
  | 0 => amigaIdPart
  | 1 => 64
  | 2 => 0xafbeac27
  | 4 => 2
  | 41 => 66
  | 42 => 257
  | _ => 0

/-- A disk with two partition blocks, each of which names the other. -/
def twoPartitions : Disk where
  opened := true
  getblksize := 512
  block n := some (if n = 2 then bootBlock else if n = 5 then rootBlock else fun _ => 0)
  wreck _ mem := mem
  malloc _ := true
  heap _ := 0

theorem twoPartitions_part (block : PartBlock twoPartitions mem p m) : p = 2 ∨ p = 5 := by
  obtain ⟨_, c, given, rfl, valid⟩ := block
  by_contra other
  obtain ⟨first, second⟩ := not_or.mp other
  have id : amigaBlock (twoPartitions.put mem c) 0 = word32 c 0 := by
    apply word32_congr
    intro k _ high
    have size : twoPartitions.blksize = 512 := rfl
    exact blit_inside _ _ (Nat.zero_le k) (by omega)
  simp only [twoPartitions, if_neg first, if_neg second] at given
  cases given
  have zero : word32 (fun _ => 0) 0 = 0 := by decide
  unfold amigaValid at valid
  rw [id, zero] at valid
  cases valid

theorem twoPartitions_longest : Longest twoPartitions rigidBuffer 2 := by
  have first : chain twoPartitions rigidBuffer 0 = some 2 := by decide +kernel
  have second : chain twoPartitions rigidBuffer 1 = some 5 := by decide +kernel
  have third : chain twoPartitions rigidBuffer 2 = some 2 := by decide +kernel
  have boot : PartBlock twoPartitions rigidBuffer 2 (twoPartitions.put rigidBuffer bootBlock) :=
    ⟨by decide, bootBlock, rfl, rfl, by decide +kernel⟩
  have root : PartBlock twoPartitions rigidBuffer 5 (twoPartitions.put rigidBuffer rootBlock) :=
    ⟨by decide, rootBlock, rfl, rfl, by decide +kernel⟩
  have one : Prefix twoPartitions rigidBuffer 1 :=
    (Prefix.zero _ _).succ first boot fun j less => absurd less (Nat.not_lt_zero j)
  have two : Prefix twoPartitions rigidBuffer 2 := by
    refine one.succ second root fun j less => ?_
    obtain rfl : j = 0 := by omega
    rw [first]
    decide
  apply two.longest
  intro longer
  exact longer.distinct 2 (by omega) 0 (by omega) (first.trans third.symm)

/-- A disk with 32 sectors and 4 heads whose chain comes back to its first block: two partitions. -/
theorem twoPartitions_chain : partitionAmigaLookup twoPartitions rigidBuffer =
    [⟨2, 128 * 66, 128 * 192, 512, 0⟩, ⟨1, 128 * 2, 128 * 64, 512, 0⟩] := by
  have limit : amigaBlock rigidBuffer 33 = 40000 := by decide +kernel
  obtain ⟨n, longest, list⟩ := partitionAmigaLookup_chain twoPartitions rigidBuffer rfl
    (by rw [limit]; decide) fun i p m _ block => by
      rw [limit]
      rcases twoPartitions_part block with rfl | rfl <;> decide
  have count : n = 2 :=
    Nat.le_antisymm (twoPartitions_longest.2 n longest.1) (longest.2 2 twoPartitions_longest.1)
  rw [list, count]
  decide +kernel

end Yaboot.Partition
