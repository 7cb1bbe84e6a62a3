import Yaboot.Reiserfs.Journal

/-! What a block read owes its caller while transactions of the journal wait to
be replayed, and when `block_read` gives it. The table of cached transactions
starts where `FSYS_BUF` ends, so it has no room at all. -/
namespace Yaboot.Reiserfs
open Buffer CString Word

/-- The blocks a transaction holds copies of. -/
def realblocks (disk : Bytes) (info : Info) (descBlock : Nat) : List Nat :=
  let desc := journalRead disk info descBlock
  let commit := journalRead disk info (commitBlock info descBlock (jLen desc))
  (List.range (jLen desc)).map fun i =>
    if i < journalTransHalf then le desc (12 + 4 * i) 4
    else le commit (8 + 4 * (i - journalTransHalf)) 4

/-- The descriptor blocks of that many transactions in a row. -/
def descriptors (disk : Bytes) (info : Info) : Nat → Nat → List Nat
  | 0, _ => []
  | n + 1, descBlock =>
    let len := jLen (journalRead disk info descBlock)
    descBlock :: descriptors disk info n
      (u32 (commitBlock info descBlock len + 1) &&& info.journalMask)

/-- The copy of a block in a transaction: the blocks follow the descriptor. -/
def copyOf (disk : Bytes) (info : Info) (b descBlock : Nat) : Option Nat :=
  ((realblocks disk info descBlock).findIdx? (· == b)).map fun i =>
    u32 (info.journalBlock + (u32 (descBlock + 1 + i) &&& info.journalMask))

/-- Where the current contents of a block are: in the latest transaction that
lists it, or in the block itself. -/
def home (disk : Bytes) (info : Info) (b : Nat) : Nat :=
  let latest := (descriptors disk info info.journalTransactions info.journalFirstDesc).reverse
  (latest.findSome? (copyOf disk info b)).getD b

/-- What is asked of `block_read`. -/
structure ReadsRight (disk : Bytes) (info : Info) (mem : Bytes) (b : Nat) : Prop where
  source : (lookup disk info mem b).translatedNr = home disk info b
  inside : ∀ a ∈ (lookup disk info mem b).touched, a + 4 ≤ fsysBufSize
  unchanged : (lookup disk info mem b).mem = mem

theorem lookup_empty (empty : info.journalTransactions = 0) (disk mem : Bytes) (b : Nat) :
    lookup disk info mem b = ⟨journalStart, info.journalFirstDesc, b, mem, []⟩ := by
  rw [lookup, empty]
  rfl

theorem home_empty (empty : info.journalTransactions = 0) (disk : Bytes) (b : Nat) :
    home disk info b = b := by
  rw [home, empty]
  rfl

theorem blockRead_empty (empty : info.journalTransactions = 0) (disk mem : Bytes)
    (b start : Nat) : blockRead disk info mem b start = readDiskBlock disk info b start := by
  rw [blockRead, lookup_empty empty]

theorem blockReadInto_empty (empty : info.journalTransactions = 0) (disk mem : Bytes)
    (b start len dest : Nat) :
    blockReadInto disk info mem b start len dest =
      blit mem dest len (readDiskBlock disk info b start) := by
  rw [blockReadInto, blockRead_empty empty, lookup_empty empty]

theorem advance_touched (info : Info) (l : Lookup) (len : Nat) (found : Option Nat) :
    (l.advance info len found).touched = l.touched := rfl

theorem lookupStep_touched (disk : Bytes) (info : Info) (b : Nat) (l : Lookup) :
    l.touched ++ [l.journalTable] <+: (lookupStep disk info b l).touched := by
  unfold lookupStep
  dsimp only
  split
  · rw [advance_touched]
    exact List.prefix_append _ _
  · exact List.prefix_rfl

theorem lookupLoop_touched (disk : Bytes) (info : Info) (b n : Nat) (l : Lookup) :
    l.touched <+: (lookupLoop disk info b n l).touched := by
  induction n generalizing l with
  | zero => exact List.prefix_rfl
  | succ n ih =>
    have step := lookupStep_touched disk info b l
    exact ((List.prefix_append _ _).trans step).trans (ih _)

/-- The first word of the table is read as soon as there is a transaction. -/
theorem lookup_touches (waiting : info.journalTransactions ≠ 0) (disk mem : Bytes) (b : Nat) :
    journalStart ∈ (lookup disk info mem b).touched := by
  obtain ⟨n, count⟩ := Nat.exists_eq_succ_of_ne_zero waiting
  rw [lookup, count]
  have first := lookupStep_touched disk info b ⟨journalStart, info.journalFirstDesc, b, mem, []⟩
  have rest := lookupLoop_touched disk info b n
    (lookupStep disk info b ⟨journalStart, info.journalFirstDesc, b, mem, []⟩)
  exact (first.trans rest).subset (by simp)

/-- `block_read` delivers what the journal says a block holds, for every place of the memory,
exactly when no transaction waits: the table it would look in has no room, as the buffer for it ends
where it starts. -/
theorem blockRead_right_iff (disk : Bytes) (info : Info) (mem : Bytes) (b : Nat) :
    ReadsRight disk info mem b ↔ info.journalTransactions = 0 := by
  constructor
  · intro right
    by_contra waiting
    have outside := right.inside _ (lookup_touches waiting disk mem b)
    exact absurd outside (by decide)
  · intro empty
    refine ⟨?_, ?_, ?_⟩
    · rw [lookup_empty empty, home_empty empty]
    · rw [lookup_empty empty]
      nofun
    · rw [lookup_empty empty]

/-! ### A volume that was not unmounted -/

/-- Nothing is ever entered into the table. -/
theorem cacheTransaction_full (desc commit : Bytes) (s : Init) (full : s.journalTable = journalStart) :
    cacheTransaction desc commit s = s := by
  apply if_neg
  rw [full]
  decide

theorem journalLoop_mem {header : Bytes} (full : s.journalTable = journalStart)
    (ends : journalLoop disk info header fuel s = some t) : t.mem = s.mem := by
  induction fuel generalizing s with
  | zero => cases ends
  | succ fuel ih =>
    unfold journalLoop at ends
    split at ends
    · have skipped := fun desc commit => cacheTransaction_full desc commit
        { s with nextTransId := u32 (s.nextTransId + 1) } full
      simp only [skipped] at ends
      have rest := ih (by exact full) ends
      exact rest
    · cases ends
      rfl

/-- `journal_init` leaves the memory as it was. -/
theorem journalInit_mem (ends : journalInit disk info fuel mem = some (info', mem')) :
    mem' = mem := by
  unfold journalInit at ends
  dsimp only at ends
  split at ends
  · cases ends
    rfl
  · obtain ⟨t, loop, same⟩ := Option.map_eq_some_iff.mp ends
    cases same
    exact journalLoop_mem rfl loop

/-- One transaction, with a copy of block 40, waits in a journal of eight blocks
from block 18 on. Its identifier reads the same in both byte orders. -/
def crashed : Bytes := fun a =>
  if a = 26 * 4096 + 3 ∨ a ∈ [18 * 4096, 18 * 4096 + 3, 18 * 4096 + 4] ∨
    a ∈ [20 * 4096, 20 * 4096 + 3, 20 * 4096 + 4] then 1
  else if a = 18 * 4096 + 12 then 40
  else if 18 * 4096 + 4084 ≤ a then (cstr "ReIsErLB").getD (a - (18 * 4096 + 4084)) 0
  else 0

/-- The fields `reiserfs_read_super` has set when it calls `journal_init`. -/
def crashedInfo : Info :=
  { journalBlock := 18, journalBlockCount := 8, blocksize := 4096, blocksizeShift := 12,
    cachedSlots := 6, version := 2 }

/-- The copy of block 40 is in block 19; `block_read` looks for it behind
`FSYS_BUF` and reads block 40. -/
theorem crashed_read_stale : ∃ info,
    journalInit crashed crashedInfo 8 (fun _ => 0) = some (info, fun _ => 0) ∧
    info.journalTransactions = 1 ∧ home crashed info 40 = 19 ∧
    (lookup crashed info (fun _ => 0) 40).translatedNr = 40 ∧
    fsysBufSize ∈ (lookup crashed info (fun _ => 0) 40).touched ∧
    ¬ ReadsRight crashed info (fun _ => 0) 40 := by
  have accepted : (journalInit crashed crashedInfo 8 (fun _ => 0)).map Prod.fst =
      some { crashedInfo with journalTransactions := 1 } := by decide +kernel
  obtain ⟨⟨info, mem⟩, ends, same⟩ := Option.map_eq_some_iff.mp accepted
  obtain rfl := journalInit_mem ends
  dsimp only at same
  subst same
  have waits : home crashed { crashedInfo with journalTransactions := 1 } 40 = 19 := by
    decide +kernel
  have missed : (lookup crashed { crashedInfo with journalTransactions := 1 } (fun _ => 0) 40
      ).translatedNr = 40 := by decide +kernel
  refine ⟨_, ends, rfl, waits, missed, lookup_touches (by decide) _ _ _, ?_⟩
  intro right
  have source := right.source
  rw [waits, missed] at source
  exact absurd source (by decide)

end Yaboot.Reiserfs
