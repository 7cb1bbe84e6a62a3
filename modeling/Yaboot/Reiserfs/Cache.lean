import Yaboot.Reiserfs.Tree

/-! `read_tree_node` of `second/fs_reiserfs.c` on a device that may fail, and
what the cache ought to remember of a sequence of calls. -/
namespace Yaboot.Reiserfs
open Buffer Word

/-- What becomes of the device reads of one `block_read`. -/
inductive Answer where
  /-- A `journal_read` fails after so many rounds of the search. -/
  | unsearched (rounds : Nat)
  /-- `prom_lseek` fails. -/
  | unseekable
  /-- `prom_read` moves that many bytes and returns a result. -/
  | read (moved : Nat) (result : Int)
  deriving DecidableEq, Repr

/-- `block_read` into `FSYS_BUF`: its result and the memory it leaves. -/
def tryBlockRead (disk : Bytes) (info : Info) (mem : Bytes) (blockNr start len dest : Nat) :
    Answer → Int × Bytes
  | .unsearched rounds =>
    (0, (lookupLoop disk info blockNr (min rounds info.journalTransactions)
      ⟨journalStart, info.journalFirstDesc, blockNr, mem, []⟩).mem)
  | .unseekable => (0, (lookup disk info mem blockNr).mem)
  | .read moved result =>
    (result, blit (lookup disk info mem blockNr).mem dest (min moved len)
      (blockRead disk info mem blockNr start))

/-- A call of `read_tree_node`. -/
structure Call where
  blockNr : Nat
  depth : Nat
  answer : Answer
  deriving DecidableEq, Repr

/-- `read_tree_node`, whatever the device answers. -/
def tryReadTreeNode (disk : Bytes) (info : Info) (c : Call) (s : State) : Option Nat × State :=
  let s := { s with errnum := .ok }
  if c.depth < info.cachedSlots ∧ c.blockNr = s.blocks c.depth then
    (some (info.cache c.depth), s)
  else
    let cache := info.cache (min c.depth info.cachedSlots)
    let (result, mem) := tryBlockRead disk info s.mem c.blockNr 0 info.blocksize cache c.answer
    let s := { s with mem := mem }
    if result = 0 then (none, s)
    else if blkhLevel s.mem cache ≠ c.depth then (none, { s with errnum := .badFsys })
    else (some cache, { s with blocks := Function.update s.blocks c.depth c.blockNr })

/-- The state after a sequence of calls. -/
def runCalls (disk : Bytes) (info : Info) (s : State) (calls : List Call) : State :=
  calls.foldl (fun s c => (tryReadTreeNode disk info c s).2) s

/-- What a place in the cache returned for a call ought to hold. -/
structure HoldsBlock (disk : Bytes) (info : Info) (before mem : Bytes) (cache : Nat) (c : Call) :
    Prop where
  contents : ∀ i < info.blocksize, mem (cache + i) = blockRead disk info before c.blockNr 0 i
  level : blkhLevel mem cache = c.depth

/-- Every place returned in a sequence of calls holds the block asked for. -/
def Coherent (disk : Bytes) (info : Info) (s : State) (calls : List Call) : Prop :=
  ∀ done c rest, calls = done ++ c :: rest → ∀ cache t,
    tryReadTreeNode disk info c (runCalls disk info s done) = (some cache, t) →
    HoldsBlock disk info (runCalls disk info s done).mem t.mem cache c

/-! ### What the calls leave in a slot -/

/-- The block number recorded for a slot, and whether the slot holds that block. -/
structure Slot where
  recorded : Nat
  intact : Bool
  deriving DecidableEq, Repr

/-- A result other than zero comes with a whole block. -/
def Answer.Honest (info : Info) : Answer → Prop
  | .read moved result => result = 0 ∨ info.blocksize ≤ moved
  | _ => True

/-- What a read into the slot makes of it. -/
def Slot.load (disk : Bytes) (info : Info) (c : Call) (slot : Slot) : Slot :=
  match c.answer with
  | .unsearched _ => slot
  | .unseekable => slot
  | .read moved result =>
    if result = 0 then { slot with intact := slot.intact && moved == 0 }
    else if blkhLevel (readDiskBlock disk info c.blockNr 0) 0 = c.depth then ⟨c.blockNr, true⟩
    else { slot with intact := false }

/-- The slot of the given depth after one more call. -/
def Slot.after (disk : Bytes) (info : Info) (depth : Nat) (slot : Slot) (c : Call) : Slot :=
  if c.depth = depth ∧ c.blockNr ≠ slot.recorded then slot.load disk info c else slot

/-- The slot of the given depth after a sequence of calls. No slot holds a block
at first, though block 0 is recorded for all of them. -/
def slotOf (disk : Bytes) (info : Info) (depth : Nat) (calls : List Call) : Slot :=
  calls.foldl (Slot.after disk info depth) ⟨0, false⟩

/-- No call asks for the block recorded for a slot that does not hold it. -/
def NoStaleHit (disk : Bytes) (info : Info) (calls : List Call) : Prop :=
  ∀ done c rest, calls = done ++ c :: rest → c.depth < info.cachedSlots →
    c.blockNr = (slotOf disk info c.depth done).recorded → (slotOf disk info c.depth done).intact

end Yaboot.Reiserfs
