import Yaboot.Reiserfs.JournalProofs

/-! The table of cached transactions with room in it. `JOURNAL_START` stays where
it is, and the region up to `JOURNAL_END` has a number of words of its own; with
none it is the table of `journal_init` as it is compiled. -/
namespace Yaboot.Reiserfs
open Buffer CString Word

/-! ### Writing it -/

/-- `JOURNAL_END`. -/
def tableEnd (words : Nat) : Nat := journalStart + 4 * words

/-- Entering a valid transaction into the table. -/
def cacheTransactionIn (words : Nat) (desc commit : Bytes) (s : Init) : Init :=
  if s.journalTable < tableEnd words then
    if tableEnd words ≤ s.journalTable + 4 * (1 + jLen desc) then
      { s with
        mem := storeRaw32 s.mem s.journalTable (2 ^ 32 - 1)
        journalTable := tableEnd words }
    else
      let blocks := (List.range (jLen desc)).map fun i =>
        if i < journalTransHalf then raw32 desc (12 + 4 * i)
        else raw32 commit (8 + 4 * (i - journalTransHalf))
      { s with
        mem := storeAll s.mem s.journalTable (raw32 desc 4 :: blocks)
        journalTable := s.journalTable + 4 * (1 + jLen desc) }
  else s

/-- The loop of `journal_init`, given up after `fuel` rounds. -/
def journalLoopIn (words : Nat) (disk : Bytes) (info : Info) (header : Bytes) :
    Nat → Init → Option Init
  | 0, _ => none
  | fuel + 1, s =>
    if valid disk info header s.descBlock s.nextTransId then
      let desc := journalRead disk info s.descBlock
      let commitAt := commitBlock info s.descBlock (jLen desc)
      let s := cacheTransactionIn words desc (journalRead disk info commitAt)
        { s with nextTransId := u32 (s.nextTransId + 1) }
      journalLoopIn words disk info header fuel
        { s with descBlock := u32 (commitAt + 1) &&& info.journalMask }
    else some s

/-- `journal_init`. -/
def journalInitIn (words : Nat) (disk : Bytes) (info : Info) (fuel : Nat) (mem : Bytes) :
    Option (Info × Bytes) :=
  let header := journalRead disk info info.journalBlockCount
  let descBlock := le header 4 4
  let lastFlushed := le header 0 4
  if info.journalBlockCount ≤ descBlock then some (info, mem)
  else
    (journalLoopIn words disk info header fuel
        ⟨descBlock, u32 (lastFlushed + 1), journalStart, mem⟩).map
      fun s => ({ info with
        journalFirstDesc := descBlock
        journalTransactions := u16 (sub32 (sub32 s.nextTransId lastFlushed) 1) }, s.mem)

/-- The table of the program has no words. -/
theorem cacheTransactionIn_zero : cacheTransactionIn 0 = cacheTransaction := rfl

theorem journalLoopIn_zero : journalLoopIn 0 disk info header fuel = journalLoop disk info header fuel := by
  induction fuel with
  | zero => rfl
  | succ fuel ih =>
    funext s
    unfold journalLoopIn journalLoop
    rw [cacheTransactionIn_zero, ih]

theorem journalInitIn_zero : journalInitIn 0 = journalInit := by
  funext disk info fuel mem
  unfold journalInitIn journalInit
  dsimp only
  rw [journalLoopIn_zero]

/-! ### Reading it -/

/-- Where a round of `block_read` takes a transaction from: the blocks it finds
in the table, or a descriptor block of the volume. -/
inductive Round where
  | table (blocks : List Nat)
  | disk (descBlock : Nat)
  deriving DecidableEq, Repr

/-- The words of a cached transaction as `block_read` compares them. -/
def cachedBlocks (mem : Bytes) (table len : Nat) : List Nat :=
  (List.range len).map fun i => le32Next (fun k => raw32 mem (table + 16 * i + 4 * k)) 0

/-- The round that starts in this state. -/
def Lookup.round (l : Lookup) : Round :=
  let word := raw32 l.mem l.journalTable
  if word ≠ 2 ^ 32 - 1 then
    .table (cachedBlocks (storeRaw32 l.mem l.journalTable (u32 (word + 4))) l.journalTable
      (s32 (le32Next (fun k => u32 (word + k)) 0)).toNat)
  else .disk l.descBlock

/-- The rounds of the search for a block. -/
def lookupRounds (disk : Bytes) (info : Info) (blockNr : Nat) : Nat → Lookup → List Round
  | 0, _ => []
  | transactions + 1, l =>
    l.round :: lookupRounds disk info blockNr transactions (lookupStep disk info blockNr l)

/-- The state the search starts in. -/
def Lookup.start (info : Info) (mem : Bytes) (blockNr : Nat) : Lookup :=
  ⟨journalStart, info.journalFirstDesc, blockNr, mem, []⟩

/-- The count of blocks up to the one looked for, in a round. -/
def Round.found (disk : Bytes) (info : Info) (blockNr : Nat) : Round → Option Nat
  | .table blocks => (blocks.findIdx? (· == blockNr)).map (· + 1)
  | .disk descBlock => scanDisk disk info blockNr descBlock

theorem cachedBlocks_succ (mem : Bytes) (table len : Nat) :
    cachedBlocks mem table (len + 1) =
      le32Next (fun k => raw32 mem (table + 4 * k)) 0 :: cachedBlocks mem (table + 16) len := by
  unfold cachedBlocks
  rw [List.range_succ_eq_map, List.map_cons, List.map_map]
  refine congrArg₂ List.cons rfl (List.map_congr_left fun i _ => ?_)
  dsimp only [Function.comp]
  rw [show table + 16 * (i + 1) = table + 16 + 16 * i by omega]

theorem scanCached_found (mem : Bytes) (blockNr left i table : Nat) :
    (scanCached mem blockNr left i table).2.1 =
      ((cachedBlocks mem table left).findIdx? (· == blockNr)).map (i + · + 1) := by
  induction left generalizing i table with
  | zero => rfl
  | succ left ih =>
    rw [cachedBlocks_succ, List.findIdx?_cons]
    unfold scanCached
    dsimp only
    by_cases hit : le32Next (fun k => raw32 mem (table + 4 * k)) 0 = blockNr
    · rw [if_pos hit, if_pos (beq_iff_eq.mpr hit)]
      rfl
    · rw [if_neg hit, if_neg (mt beq_iff_eq.mp hit), ih, Option.map_map]
      congr 1
      funext k
      dsimp only [Function.comp]
      omega

/-- The translation found in a round is that of the blocks the round is about. -/
theorem lookupStep_translated (disk : Bytes) (info : Info) (blockNr : Nat) (l : Lookup) :
    (lookupStep disk info blockNr l).translatedNr =
      (l.round.found disk info blockNr).elim l.translatedNr fun i =>
        u32 (info.journalBlock + (u32 (l.descBlock + i) &&& info.journalMask)) := by
  unfold lookupStep Lookup.round
  dsimp only
  split
  · unfold Lookup.advance Round.found
    dsimp only
    rw [scanCached_found]
    simp only [Nat.zero_add]
    cases List.findIdx? _ _ <;> rfl
  · unfold Lookup.advance Round.found
    dsimp only
    cases scanDisk disk info blockNr l.descBlock <;> rfl

/-- A call of `block_read` with a buffer in front of the table. -/
structure BlockRead where
  blockNr : Nat
  start : Nat
  len : Nat
  dest : Nat
  inside : dest + len ≤ journalStart

/-- The memory after some calls. -/
def afterCalls (disk : Bytes) (info : Info) (mem : Bytes) (calls : List BlockRead) : Bytes :=
  calls.foldl (fun mem call =>
    blockReadInto disk info mem call.blockNr call.start call.len call.dest) mem

end Yaboot.Reiserfs
