import Mathlib.Data.Nat.Bitwise
import Yaboot.Reiserfs.RecognitionProofs
import Yaboot.Reiserfs.TraversalProofs

/-! What the checks of `reiserfs_read_super` are worth: the size of the journal
ends the scan of it, and the block size decides whether the cache fits. -/
namespace Yaboot.Reiserfs
open Buffer CString Word

/-! ### Powers of two -/

/-- The check holds for zero as well. -/
theorem isPowerOfTwo_iff (fits : word < 2 ^ 32) :
    isPowerOfTwo word = true ↔ word = 0 ∨ ∃ k, word = 2 ^ k := by
  by_cases zero : word = 0
  · subst zero
    exact ⟨fun _ => .inl rfl, fun _ => rfl⟩
  have negated : sub32 0 word = 2 ^ 32 - (word - 1 + 1) := by
    unfold sub32
    omega
  have bits : isPowerOfTwo word = true ↔ word &&& (word - 1) = 0 := by
    unfold isPowerOfTwo
    rw [beq_iff_eq, negated]
    constructor
    · intro same
      apply Nat.eq_of_testBit_eq
      intro i
      have bit := congrArg (·.testBit i) same
      simp only [Nat.testBit_and, Nat.testBit_two_pow_sub_succ (show word - 1 < 2 ^ 32 by omega)]
        at bit
      rw [Nat.testBit_and, Nat.zero_testBit]
      cases set : word.testBit i with
      | false => rfl
      | true =>
        rw [set] at bit
        simp only [Bool.true_and, Bool.and_eq_true, Bool.not_eq_true'] at bit
        rw [bit.2, Bool.and_false]
    · intro clear
      apply Nat.eq_of_testBit_eq
      intro i
      have bit := congrArg (·.testBit i) clear
      simp only [Nat.testBit_and, Nat.zero_testBit] at bit
      rw [Nat.testBit_and, Nat.testBit_two_pow_sub_succ (show word - 1 < 2 ^ 32 by omega)]
      cases set : word.testBit i with
      | false => rfl
      | true =>
        have below : i < 32 := by
          by_contra high
          have large := Nat.pow_le_pow_right (show 0 < 2 by decide) (show 32 ≤ i by omega)
          rw [Nat.testBit_lt_two_pow (by omega)] at set
          cases set
        rw [set] at bit
        simp only [Bool.true_and] at bit
        simp [bit, below]
  rw [bits, Nat.and_sub_one_eq_zero_iff_isPowerOfTwo zero]
  simp only [zero, false_or]
  rfl

/-! ### The scan of the journal -/

/-- The state in which the scan starts. -/
def Info.scanStart (disk : Bytes) (info : Info) (mem : Bytes) : Init :=
  ⟨firstUnflushed (info.journalHeader disk), u32 (lastFlushed (info.journalHeader disk) + 1),
    journalStart, mem⟩

/-- The scan accepts the transaction at hand. -/
def Init.Accepted (disk : Bytes) (info : Info) (s : Init) : Prop :=
  valid disk info (info.journalHeader disk) s.descBlock s.nextTransId = true

/-- What accepting a transaction makes of the state. -/
def Init.accept (disk : Bytes) (info : Info) (s : Init) : Init :=
  let desc := journalRead disk info s.descBlock
  let commitAt := commitBlock info s.descBlock (jLen desc)
  { cacheTransaction desc (journalRead disk info commitAt)
      { s with nextTransId := u32 (s.nextTransId + 1) } with
    descBlock := u32 (commitAt + 1) &&& info.journalMask }

theorem journalLoop_accept (fuel : Nat) (accepted : s.Accepted disk info) :
    journalLoop disk info (info.journalHeader disk) (fuel + 1) s =
      journalLoop disk info (info.journalHeader disk) fuel (s.accept disk info) := by
  unfold Init.Accepted at accepted
  rw [journalLoop, if_pos accepted]
  rfl

theorem journalLoop_stop (fuel : Nat) (stop : ¬ s.Accepted disk info) :
    journalLoop disk info (info.journalHeader disk) (fuel + 1) s = some s := by
  unfold Init.Accepted at stop
  rw [journalLoop, if_neg stop]

theorem journalLoop_run
    (run : LongestRun (fun i => ((Init.accept disk info)^[i] s).Accepted disk info) n)
    (enough : n < fuel) :
    journalLoop disk info (info.journalHeader disk) fuel s = some ((Init.accept disk info)^[n] s) := by
  induction n generalizing fuel s with
  | zero =>
    obtain ⟨fuel, rfl⟩ : ∃ k, fuel = k + 1 := ⟨fuel - 1, by omega⟩
    exact journalLoop_stop fuel run.stop
  | succ n ih =>
    obtain ⟨fuel, rfl⟩ : ∃ k, fuel = k + 1 := ⟨fuel - 1, by omega⟩
    have first : s.Accepted disk info := run.all 0 (by omega)
    rw [journalLoop_accept fuel first]
    exact ih ⟨fun i less => run.all (i + 1) (by omega), run.stop⟩ (by omega)

/-- The states of the scan are those the lengths of the transactions lead to. -/
theorem Ring.scan (ring : Ring info) (disk mem : Bytes) (i : Nat) :
    ((Init.accept disk info)^[i] (info.scanStart disk mem)).descBlock = position disk info i ∧
      ((Init.accept disk info)^[i] (info.scanStart disk mem)).nextTransId =
        u32 (lastFlushed (info.journalHeader disk) + 1 + i) := by
  induction i with
  | zero => exact ⟨rfl, rfl⟩
  | succ i ih =>
    rw [Function.iterate_succ_apply']
    generalize (Init.accept disk info)^[i] (info.scanStart disk mem) = s at ih
    obtain ⟨pos, next⟩ := ih
    constructor
    · unfold Init.accept
      dsimp only
      rw [ring.commitBlock, ring.next, pos]
      rfl
    · have count : u32 (u32 (lastFlushed (info.journalHeader disk) + 1 + i) + 1) =
          u32 (lastFlushed (info.journalHeader disk) + 1 + (i + 1)) := by
        unfold u32
        omega
      unfold Init.accept
      rw [← cacheTransactionIn_zero]
      exact (cacheTransactionIn_nextTransId _ _ _ _).trans (by rw [next, count])

/-- The scan accepts so many transactions and ends. -/
structure EndsAfter (disk : Bytes) (info : Info) (mem : Bytes) (n : Nat) : Prop where
  run : LongestRun
    (fun i => ((Init.accept disk info)^[i] (info.scanStart disk mem)).Accepted disk info) n
  ends : ∀ fuel > n, journalLoop disk info (info.journalHeader disk) fuel (info.scanStart disk mem) =
    some ((Init.accept disk info)^[n] (info.scanStart disk mem))

theorem Ring.endsAfter (ring : Ring info) (mem : Bytes)
    (inside : firstUnflushed (info.journalHeader disk) < info.journalBlockCount) :
    ∃ n ≤ info.journalBlockCount, EndsAfter disk info mem n := by
  obtain ⟨i, le, stop⟩ := ring.run_le inside transId
  have rejected : ¬ ((Init.accept disk info)^[i] (info.scanStart disk mem)).Accepted disk info := by
    intro accepted
    obtain ⟨pos, next⟩ := ring.scan disk mem i
    unfold Init.Accepted at accepted
    rw [pos, next] at accepted
    exact stop ((ring.valid_iff _ _ _).mp accepted)
  have stops : ∃ i ≤ info.journalBlockCount,
      ¬ (fun i => ((Init.accept disk info)^[i] (info.scanStart disk mem)).Accepted disk info) i :=
    ⟨i, le, rejected⟩
  obtain ⟨n, small, run⟩ := LongestRun.exists_of_not stops
  exact ⟨n, small, run, fun fuel enough => journalLoop_run run enough⟩

/-- The scan of `journal_init` ends, on every disk with an admitted journal, within as many
transactions as the journal has blocks: a block that comes round again has the identifier it had,
and that is no longer the one expected. -/
theorem journalInit_terminates (disk : Bytes) (info : Info) (mem : Bytes)
    (fits : info.journalBlockCount < 2 ^ 32) (checked : isPowerOfTwo info.journalBlockCount = true) :
    (firstUnflushed (info.journalHeader disk) < info.journalBlockCount →
      ∃ n ≤ info.journalBlockCount, EndsAfter disk info mem n) ∧
    ∃ r, ∀ fuel > info.journalBlockCount, journalInit disk info fuel mem = some r := by
  have scanned : firstUnflushed (info.journalHeader disk) < info.journalBlockCount →
      ∃ n ≤ info.journalBlockCount, EndsAfter disk info mem n := by
    intro inside
    have ring : Ring info := by
      refine ⟨?_, fits⟩
      rcases (isPowerOfTwo_iff fits).mp checked with zero | power
      · omega
      · exact power
    exact ring.endsAfter mem inside
  refine ⟨scanned, ?_⟩
  unfold journalInit
  by_cases outside : info.journalBlockCount ≤ le (journalRead disk info info.journalBlockCount) 4 4
  · simp only [outside, if_true]
    exact ⟨_, fun _ _ => rfl⟩
  · obtain ⟨n, small, -, ends⟩ := scanned (Nat.not_le.mp outside)
    unfold Info.scanStart Info.journalHeader firstUnflushed lastFlushed at ends
    simp only [outside, if_false]
    exact ⟨_, fun fuel enough => congrArg (Option.map _) (ends fuel (by omega))⟩

/-- The scan of the sample journal. -/
theorem journalInit_terminates_crashed : ∃ n ≤ 8, EndsAfter crashed crashedInfo (fun _ => 0) n :=
  (journalInit_terminates crashed crashedInfo (fun _ => 0) (by decide) (by decide)).1
    (by decide +kernel)

/-! ### The cache -/

/-- The shift goes with the block size, and every slot a walk of the tree uses is
inside `FSYS_BUF`. -/
structure Geometry (info : Info) : Prop where
  shift : info.blocksize = 1 <<< info.blocksizeShift
  depth : info.treeDepth < maxTreeHeight
  slots : ∀ i, i ≤ 1 ∨ i ≤ info.cachedSlots ∧ i < maxTreeHeight →
    info.cache i + info.blocksize ≤ fsysBufSize

/-- What the checks leave of the superblock. -/
structure Admitted (info : Info) : Prop where
  blocksize_ge : 512 ≤ info.blocksize
  blocksize_le : info.blocksize ≤ fsysreiserCacheSize / 3
  shift : info.blocksizeShift = reiserfsLog2 info.blocksize
  slots : info.cachedSlots = u16 (sub32 (fsysreiserCacheSize >>> reiserfsLog2 info.blocksize) 1)

theorem readRoot_admitted (admitted : Admitted info) (read : readRoot disk info mem root = some m) :
    Admitted m.info ∧ m.info.treeDepth < maxTreeHeight := by
  unfold readRoot at read
  dsimp only at read
  split at read
  · cases read
  · cases read
    exact ⟨⟨admitted.blocksize_ge, admitted.blocksize_le, admitted.shift, admitted.slots⟩,
      Nat.not_le.mp ‹_›⟩

theorem journalInit_admitted (admitted : Admitted info)
    (ends : journalInit disk info fuel mem = some (info', mem')) : Admitted info' := by
  unfold journalInit at ends
  dsimp only at ends
  split at ends
  · cases ends
    exact admitted
  · obtain ⟨s, -, same⟩ := Option.map_eq_some_iff.mp ends
    cases same
    exact ⟨admitted.blocksize_ge, admitted.blocksize_le, admitted.shift, admitted.slots⟩

/-- A superblock that is accepted is admitted, and its tree is not too high. -/
theorem readSuper_admitted (mounted : reiserfsReadSuper disk offset fuel mem = some m) :
    Admitted m.info ∧ m.info.treeDepth < maxTreeHeight := by
  unfold reiserfsReadSuper at mounted
  split at mounted
  · cases mounted
  · rename_i superblock super found
    dsimp only at mounted
    split at mounted
    · cases mounted
    · rename_i checks
      rw [not_or, not_or, Nat.not_lt, Nat.not_lt, Nat.not_lt] at checks
      have admitted : Admitted (superInfo offset super) := ⟨checks.2.1, checks.2.2, rfl, rfl⟩
      split at mounted
      · exact readRoot_admitted admitted mounted
      · split at mounted
        · cases mounted
        · split at mounted
          · cases mounted
          · exact readRoot_admitted (journalInit_admitted admitted ‹_›) mounted

theorem Admitted.power_cases (admitted : Admitted info) (power : ∃ k, info.blocksize = 2 ^ k) :
    info.blocksize ∈ [512, 1024, 2048, 4096, 8192] := by
  obtain ⟨k, size⟩ := power
  have ge := admitted.blocksize_ge
  have le := admitted.blocksize_le
  rw [size] at ge le ⊢
  have low : 9 ≤ k := by
    by_contra small
    have less := Nat.pow_le_pow_right (show 0 < 2 by decide) (show k ≤ 8 by omega)
    omega
  have high : k ≤ 13 := by
    by_contra large
    have more := Nat.pow_le_pow_right (show 0 < 2 by decide) (show 14 ≤ k by omega)
    have bound : fsysreiserCacheSize / 3 < 2 ^ 14 := by decide
    omega
  interval_cases k <;> decide

/-- The cache is as it should be exactly when the block size is a power of two,
which is checked of the journal and not of the blocks. -/
theorem geometry_iff (mounted : reiserfsReadSuper disk offset fuel mem = some m) :
    Geometry m.info ↔ isPowerOfTwo m.info.blocksize = true := by
  obtain ⟨admitted, depth⟩ := readSuper_admitted mounted
  have ge := admitted.blocksize_ge
  have le := admitted.blocksize_le
  have small : fsysreiserCacheSize / 3 < 2 ^ 32 := by decide
  rw [isPowerOfTwo_iff (by omega)]
  constructor
  · intro geometry
    refine .inr ⟨m.info.blocksizeShift, ?_⟩
    rw [geometry.shift, Nat.one_shiftLeft]
  · intro power
    have member := admitted.power_cases (power.resolve_left (by omega))
    refine ⟨?_, depth, ?_⟩
    · rw [admitted.shift]
      generalize m.info.blocksize = size at member
      revert size
      decide
    · intro i used
      have slots := admitted.slots
      unfold Info.cache
      generalize m.info.blocksize = size at member slots
      simp only [List.mem_cons, List.not_mem_nil, or_false] at member
      have buffer : fsysBufSize = 28672 := rfl
      have height : maxTreeHeight = 7 := rfl
      rw [height] at used
      rw [buffer]
      rcases member with rfl | rfl | rfl | rfl | rfl
      · omega
      · omega
      · omega
      · omega
      · have two : m.info.cachedSlots = 2 := slots.trans (by decide)
        omega

/-- The sample volume has blocks of 8192 bytes. -/
theorem geometry_deep : ∃ m, reiserfsReadSuper deep.disk 0 0 (fun _ => 0) = some m ∧
    Geometry m.info := by
  obtain ⟨m, mounted, info, -⟩ := deep_mounts
  exact ⟨m, mounted, (geometry_iff mounted).mpr (by rw [info]; decide)⟩

/-- A superblock that gives 9472 as the block size, and a root of level 4. -/
def oddDisk : Bytes := fun a =>
  if 65536 + 52 ≤ a ∧ a < 65536 + 60 then (cstr "ReIsErFs").getD (a - (65536 + 52)) 0
  else if a = 65536 + 45 then 37
  else if a = 65536 + 8 then 1
  else if a = 9472 then 4
  else 0

/-- It is mounted with 111 slots of which the fourth ends behind the cache. -/
theorem odd_geometry : ¬ ∀ disk offset fuel mem m,
    reiserfsReadSuper disk offset fuel mem = some m → Geometry m.info := by
  intro right
  have opens : (reiserfsReadSuper oddDisk 0 0 (fun _ => 0)).map (fun m => m.info) =
      some { treeDepth := 4, blocksize := 9472, blocksizeShift := 8, cachedSlots := 111 } := by
    decide +kernel
  obtain ⟨m, mounted, info⟩ := Option.map_eq_some_iff.mp opens
  have slot := (right oddDisk 0 0 (fun _ => 0) m mounted).slots 3
    (.inr (by rw [info]; decide))
  rw [info] at slot
  exact absurd slot (by decide)

end Yaboot.Reiserfs
