import Mathlib.Data.Fintype.Pigeonhole
import Yaboot.Reiserfs.JournalTable

/-! Which transactions of a journal `journal_init` recognises. The identifiers
are little-endian on the volume. The header's is converted before it is counted
on; those of the descriptors are compared as the processor loads them. -/
namespace Yaboot.Reiserfs
open Buffer CString Word

/-! ### Runs -/

/-- The first `n` steps are accepted, and the next one is not. -/
structure LongestRun (accepts : Nat → Prop) (n : Nat) : Prop where
  all : ∀ i < n, accepts i
  stop : ¬ accepts n

theorem LongestRun.le {accepts : Nat → Prop} (run : LongestRun accepts n)
    (all : ∀ i < m, accepts i) : m ≤ n := by
  by_contra longer
  exact run.stop (all n (by omega))

theorem LongestRun.unique {accepts : Nat → Prop} (first : LongestRun accepts n)
    (second : LongestRun accepts m) : n = m :=
  Nat.le_antisymm (second.le first.all) (first.le second.all)

theorem LongestRun.exists_of_not {accepts : Nat → Prop} (stops : ∃ i ≤ bound, ¬ accepts i) :
    ∃ n ≤ bound, LongestRun accepts n := by
  classical
  have found : ∃ i, ¬ accepts i := by
    obtain ⟨i, -, stop⟩ := stops
    exact ⟨i, stop⟩
  refine ⟨Nat.find found, ?_, fun i less => ?_, Nat.find_spec found⟩
  · obtain ⟨i, le, stop⟩ := stops
    exact (Nat.find_min' found stop).trans le
  · by_contra other
    exact Nat.find_min found less other

/-! ### Transactions on the ring -/

/-- The commit block of a transaction, and the descriptor block of the next. -/
def commitAt (info : Info) (pos len : Nat) : Nat := (pos + len + 1) % info.journalBlockCount
def nextAt (info : Info) (pos len : Nat) : Nat := (pos + len + 2) % info.journalBlockCount

/-- At `pos` there is a transaction of the mount in the header that has the
given identifier, read by `ident`, and was committed. -/
structure Committed (ident : Bytes → Nat) (disk : Bytes) (info : Info) (header : Bytes)
    (id pos : Nat) : Prop where
  magic : descMagic (journalRead disk info pos) = true
  number : ident (journalRead disk info pos) = id
  mount : le (journalRead disk info pos) 8 4 = le header 8 4
  same : le (journalRead disk info (commitAt info pos (jLen (journalRead disk info pos)))) 0 4 =
    le (journalRead disk info pos) 0 4
  length : jLen (journalRead disk info (commitAt info pos (jLen (journalRead disk info pos)))) =
    jLen (journalRead disk info pos)

instance (ident : Bytes → Nat) (disk : Bytes) (info : Info) (header : Bytes) (id pos : Nat) :
    Decidable (Committed ident disk info header id pos) :=
  decidable_of_iff
    (descMagic (journalRead disk info pos) = true ∧ ident (journalRead disk info pos) = id ∧
      le (journalRead disk info pos) 8 4 = le header 8 4 ∧
      le (journalRead disk info (commitAt info pos (jLen (journalRead disk info pos)))) 0 4 =
        le (journalRead disk info pos) 0 4 ∧
      jLen (journalRead disk info (commitAt info pos (jLen (journalRead disk info pos)))) =
        jLen (journalRead disk info pos))
    ⟨fun ⟨magic, number, mount, same, length⟩ => ⟨magic, number, mount, same, length⟩,
      fun ⟨magic, number, mount, same, length⟩ => ⟨magic, number, mount, same, length⟩⟩

/-- The identifier of a descriptor. -/
def diskId (desc : Bytes) : Nat := le desc 0 4

def Info.journalHeader (disk : Bytes) (info : Info) : Bytes :=
  journalRead disk info info.journalBlockCount

/-- `j_first_unflushed_offset` and `j_last_flush_trans_id`. -/
def firstUnflushed (header : Bytes) : Nat := le header 4 4
def lastFlushed (header : Bytes) : Nat := le header 0 4

/-- Where the transactions from the first unflushed one on start, as their
lengths say. -/
def position (disk : Bytes) (info : Info) : Nat → Nat
  | 0 => firstUnflushed (info.journalHeader disk)
  | i + 1 =>
    let pos := position disk info i
    nextAt info pos (jLen (journalRead disk info pos))

/-- The `i`th of them, counted from zero, goes on where the last flush ended. -/
def Waiting (ident : Bytes → Nat) (disk : Bytes) (info : Info) (i : Nat) : Prop :=
  Committed ident disk info (info.journalHeader disk)
    (u32 (lastFlushed (info.journalHeader disk) + 1 + i)) (position disk info i)

instance (ident : Bytes → Nat) (disk : Bytes) (info : Info) (i : Nat) :
    Decidable (Waiting ident disk info i) :=
  inferInstanceAs (Decidable (Committed _ _ _ _ _ _))

/-- `journal_init` ends and leaves this behind. -/
def Initialised (disk : Bytes) (info : Info) (mem : Bytes) (info' : Info) : Prop :=
  ∃ bound mem', ∀ fuel ≥ bound, journalInit disk info fuel mem = some (info', mem')

/-- What `journal_init` is to find. -/
def Recognised (disk : Bytes) (info : Info) (mem : Bytes) : Prop :=
  ∃ info', Initialised disk info mem info' ∧
    info'.journalFirstDesc = firstUnflushed (info.journalHeader disk) ∧
    LongestRun (Waiting diskId disk info) info'.journalTransactions

/-- The identifiers of the run read the same in both byte orders, and those that
go on behind it, as they are loaded, are none or a multiple of 65536. -/
def ReadsAlike (disk : Bytes) (info : Info) : Prop :=
  ∃ n more, LongestRun (Waiting diskId disk info) n ∧
    (∀ i < n, transId (journalRead disk info (position disk info i)) =
      diskId (journalRead disk info (position disk info i))) ∧
    LongestRun (fun i => Waiting transId disk info (n + i)) more ∧ 65536 ∣ more

/-! ### The tests of `journal_init` -/

theorem le_bytes (b : Bytes) (k : Nat) :
    le b k 4 = (((b (k + 3)).toNat * 256 + (b (k + 2)).toNat) * 256 + (b (k + 1)).toNat) * 256 +
      (b k).toNat := by
  simp only [le, Nat.add_assoc, Nat.reduceAdd]
  omega

theorem le_lt (b : Bytes) (k : Nat) : le b k 4 < 2 ^ 32 := by
  rw [le_bytes]
  have first := (b k).toNat_lt
  have second := (b (k + 1)).toNat_lt
  have third := (b (k + 2)).toNat_lt
  have fourth := (b (k + 3)).toNat_lt
  omega

/-- Words that are equal as loaded are equal. -/
theorem raw32_eq_iff (b c : Bytes) (k j : Nat) : raw32 b k = raw32 c j ↔ le b k 4 = le c j 4 := by
  rw [le_bytes, le_bytes]
  unfold raw32
  have first := (b k).toNat_lt
  have second := (b (k + 1)).toNat_lt
  have third := (b (k + 2)).toNat_lt
  have fourth := (b (k + 3)).toNat_lt
  have first' := (c j).toNat_lt
  have second' := (c (j + 1)).toNat_lt
  have third' := (c (j + 2)).toNat_lt
  have fourth' := (c (j + 3)).toNat_lt
  omega

/-- A journal whose size is a power of two. -/
structure Ring (info : Info) : Prop where
  size : ∃ k, info.journalBlockCount = 2 ^ k
  small : info.journalBlockCount < 2 ^ 32

variable {disk : Bytes} {info : Info}

theorem Ring.mask (ring : Ring info) (n : Nat) :
    u32 n &&& info.journalMask = n % info.journalBlockCount := by
  obtain ⟨k, size⟩ := ring.size
  have small := ring.small
  have pos : 0 < 2 ^ k := Nat.two_pow_pos k
  have below : k ≤ 32 := by
    by_contra larger
    have huge := Nat.pow_le_pow_right (show 0 < 2 by decide) (show 32 ≤ k by omega)
    omega
  unfold Info.journalMask
  rw [size] at small ⊢
  rw [sub32_of_le small pos, Nat.and_two_pow_sub_one_eq_mod, u32,
    Nat.mod_mod_of_dvd _ (Nat.pow_dvd_pow 2 below)]

theorem Ring.pos (ring : Ring info) : 0 < info.journalBlockCount := by
  obtain ⟨k, size⟩ := ring.size
  rw [size]
  exact Nat.two_pow_pos k

theorem Ring.commitBlock (ring : Ring info) (pos len : Nat) :
    commitBlock info pos len = commitAt info pos len := by
  unfold Reiserfs.commitBlock commitAt
  rw [ring.mask, Nat.add_right_comm]

theorem Ring.next (ring : Ring info) (pos len : Nat) :
    u32 (commitAt info pos len + 1) &&& info.journalMask = nextAt info pos len := by
  unfold commitAt nextAt
  rw [ring.mask, Nat.mod_add_mod]

theorem Ring.position_lt (ring : Ring info)
    (inside : firstUnflushed (info.journalHeader disk) < info.journalBlockCount) (i : Nat) :
    position disk info i < info.journalBlockCount := by
  cases i with
  | zero => exact inside
  | succ i => exact Nat.mod_lt _ ring.pos

/-- The test of a descriptor compares its identifier as it is loaded. -/
theorem Ring.valid_iff (ring : Ring info) (header : Bytes) (pos id : Nat) :
    valid disk info header pos id = true ↔ Committed transId disk info header id pos := by
  unfold valid
  dsimp only
  rw [ring.commitBlock]
  simp only [Bool.and_eq_true, beq_iff_eq]
  constructor
  · rintro ⟨⟨⟨⟨magic, number⟩, mount⟩, same⟩, length⟩
    exact ⟨magic, number, (raw32_eq_iff _ _ _ _).mp mount, ((raw32_eq_iff _ _ _ _).mp same).symm,
      ((raw32_eq_iff _ _ _ _).mp length).symm⟩
  · intro committed
    exact ⟨⟨⟨⟨committed.magic, committed.number⟩, (raw32_eq_iff _ _ _ _).mpr committed.mount⟩,
      (raw32_eq_iff _ _ _ _).mpr committed.same.symm⟩,
      (raw32_eq_iff _ _ _ _).mpr committed.length.symm⟩

/-- A block is the descriptor of one identifier only, so a run is no longer than
the journal. -/
theorem Ring.run_le (ring : Ring info)
    (inside : firstUnflushed (info.journalHeader disk) < info.journalBlockCount)
    (ident : Bytes → Nat) : ∃ i ≤ info.journalBlockCount, ¬ Waiting ident disk info i := by
  by_contra endless
  push Not at endless
  let block : Fin (info.journalBlockCount + 1) → Fin info.journalBlockCount :=
    fun i => ⟨position disk info i, ring.position_lt inside i⟩
  obtain ⟨i, j, different, same⟩ := Fintype.exists_ne_map_eq_of_card_lt block (by simp)
  have place : position disk info i = position disk info j := Fin.mk.inj_iff.mp same
  have first := (endless i (by omega)).number
  have second := (endless j (by omega)).number
  rw [place, second] at first
  have small := ring.small
  have apart : (i : Nat) ≠ j := fun equal => different (Fin.ext equal)
  unfold u32 at first
  omega

theorem cacheTransactionIn_nextTransId (words : Nat) (desc commit : Bytes) (s : Init) :
    (cacheTransactionIn words desc commit s).nextTransId = s.nextTransId := by
  unfold cacheTransactionIn
  dsimp only
  split_ifs <;> rfl

/-- The loop ends behind the transactions that pass its test, whatever the room
of the table. -/
theorem Ring.journalLoopIn (ring : Ring info) (run : LongestRun (Waiting transId disk info) n)
    (words : Nat) (enough : n < fuel + i) (before : i ≤ n) {s : Init}
    (at_ : s.descBlock = position disk info i)
    (next : s.nextTransId = u32 (lastFlushed (info.journalHeader disk) + 1 + i)) :
    ∃ t, journalLoopIn words disk info (info.journalHeader disk) fuel s = some t ∧
      t.nextTransId = u32 (lastFlushed (info.journalHeader disk) + 1 + n) := by
  induction fuel generalizing i s with
  | zero => omega
  | succ fuel ih =>
    unfold Reiserfs.journalLoopIn
    rw [at_, next]
    by_cases ended : i = n
    · subst ended
      have stop := run.stop
      unfold Waiting at stop
      rw [← ring.valid_iff] at stop
      rw [if_neg stop]
      exact ⟨s, rfl, next⟩
    · have accepted := run.all i (by omega)
      unfold Waiting at accepted
      rw [← ring.valid_iff] at accepted
      rw [if_pos accepted]
      dsimp only
      apply ih (i := i + 1) (by omega) (by omega)
      · dsimp only
        rw [ring.commitBlock, ring.next]
        rfl
      · have count : u32 (u32 (lastFlushed (info.journalHeader disk) + 1 + i) + 1) =
            u32 (lastFlushed (info.journalHeader disk) + 1 + (i + 1)) := by
          unfold u32
          omega
        exact (cacheTransactionIn_nextTransId _ _ _ _).trans count

/-- What `journal_init` counts. -/
theorem counted (disk : Bytes) (info : Info) (n : Nat) :
    u16 (sub32 (sub32 (u32 (lastFlushed (info.journalHeader disk) + 1 + n))
      (lastFlushed (info.journalHeader disk))) 1) = u16 n := by
  have small := le_lt (info.journalHeader disk) 0
  unfold lastFlushed u16 sub32 u32
  omega

/-- What `journal_init` finds: the count of the transactions that pass its test,
in 16 bits. -/
theorem Ring.journalInit (ring : Ring info)
    (inside : firstUnflushed (info.journalHeader disk) < info.journalBlockCount)
    (run : LongestRun (Waiting transId disk info) n) (mem : Bytes) :
    ∃ info', Initialised disk info mem info' ∧
      info'.journalFirstDesc = firstUnflushed (info.journalHeader disk) ∧
      info'.journalTransactions = u16 n := by
  refine ⟨{ info with
    journalFirstDesc := firstUnflushed (info.journalHeader disk)
    journalTransactions := u16 n }, ⟨n + 1, mem, fun fuel enough => ?_⟩, rfl, rfl⟩
  obtain ⟨t, loop, count⟩ : ∃ t, Reiserfs.journalLoop disk info (info.journalHeader disk) fuel
      ⟨firstUnflushed (info.journalHeader disk), u32 (lastFlushed (info.journalHeader disk) + 1),
        journalStart, mem⟩ = some t ∧
      t.nextTransId = u32 (lastFlushed (info.journalHeader disk) + 1 + n) := by
    rw [← journalLoopIn_zero]
    apply ring.journalLoopIn run 0 (i := 0) (by omega) (Nat.zero_le n)
    · rw [position]
    · rw [Nat.add_zero]
  have kept : t.mem = mem := journalLoop_mem rfl loop
  have total := counted disk info n
  rw [← count] at total
  unfold firstUnflushed lastFlushed Info.journalHeader at *
  unfold Reiserfs.journalInit
  dsimp only
  rw [if_neg (Nat.not_le.mpr inside), loop, Option.map_some, kept, total]

theorem palindrome (second : b < 256) (third : c < 256)
    (alike : ((a * 256 + b) * 256 + c) * 256 + d = ((d * 256 + c) * 256 + b) * 256 + a) :
    a = d ∧ b = c := by omega

/-- A palindrome and the next number are both palindromes only where they wrap
around. -/
theorem palindrome_next (first : a < 256) (second : b < 256) (first' : c < 256) (second' : d < 256)
    (next : ((c * 256 + d) * 256 + d) * 256 + c =
      (((a * 256 + b) * 256 + b) * 256 + a + 1) % 4294967296) : c = 0 ∧ d = 0 := by
  by_cases wraps : ((a * 256 + b) * 256 + b) * 256 + a + 1 = 4294967296
  · rw [wraps, Nat.mod_self] at next
    omega
  · have small : ((a * 256 + b) * 256 + b) * 256 + a + 1 < 4294967296 := by omega
    rw [Nat.mod_eq_of_lt small] at next
    by_cases carry : a = 255
    · subst carry
      omega
    · obtain rfl : c = a + 1 := by omega
      omega

/-- An identifier and the next one read the same in both byte orders only where
they wrap around. -/
theorem alike_next (alike : transId b = diskId b) (alike' : transId c = diskId c)
    (next : diskId c = u32 (diskId b + 1)) : diskId c = 0 := by
  unfold transId raw32 diskId at alike alike'
  unfold diskId u32 at next
  unfold diskId
  rw [le_bytes] at alike alike' ⊢
  rw [le_bytes, le_bytes] at next
  obtain ⟨outer, inner⟩ := palindrome (b _).toNat_lt (b _).toNat_lt alike
  obtain ⟨outer', inner'⟩ := palindrome (c _).toNat_lt (c _).toNat_lt alike'
  rw [← outer, ← inner, ← outer', ← inner'] at next
  obtain ⟨low, high⟩ :=
    palindrome_next (b _).toNat_lt (b _).toNat_lt (c _).toNat_lt (c _).toNat_lt next
  rw [← outer', ← inner', low, high]

/-- No more than two identifiers in a row read the same in both byte orders. -/
theorem alike_le (all : ∀ i < n, Waiting diskId disk info i)
    (alike : ∀ i < n, transId (journalRead disk info (position disk info i)) =
      diskId (journalRead disk info (position disk info i))) : n ≤ 2 := by
  by_contra longer
  have next : ∀ i < 2, diskId (journalRead disk info (position disk info (i + 1))) = 0 := by
    intro i less
    apply alike_next (alike i (by omega)) (alike (i + 1) (by omega))
    rw [(all i (by omega)).number, (all (i + 1) (by omega)).number]
    unfold u32
    omega
  have first := next 0 (by omega)
  have second := next 1 (by omega)
  rw [(all 1 (by omega)).number] at first
  rw [(all 2 (by omega)).number] at second
  unfold u32 at first second
  omega

/-- A transaction whose identifier reads the same in both byte orders. -/
theorem Waiting.other (waiting : Waiting ident disk info i)
    (alike : ident' (journalRead disk info (position disk info i)) =
      ident (journalRead disk info (position disk info i))) : Waiting ident' disk info i :=
  { waiting with number := alike.trans waiting.number }

/-- Two runs of which one goes on behind the other. -/
theorem LongestRun.append {accepts : Nat → Prop} (all : ∀ i < n, accepts i)
    (more : LongestRun (fun i => accepts (n + i)) m) : LongestRun accepts (n + m) := by
  refine ⟨fun i less => ?_, more.stop⟩
  by_cases early : i < n
  · exact all i early
  · have later := more.all (i - n) (by omega)
    rwa [Nat.add_sub_cancel' (Nat.not_lt.mp early)] at later

theorem LongestRun.behind {accepts : Nat → Prop} (run : LongestRun accepts m) (le : n ≤ m) :
    LongestRun (fun i => accepts (n + i)) (m - n) := by
  refine ⟨fun i less => run.all (n + i) (by omega), ?_⟩
  rw [Nat.add_sub_cancel' le]
  exact run.stop

/-- `journal_init` recognises the journal of a volume, the transactions that wait and where the
first is, exactly when no transaction waits or its identifier is the same in both byte orders: the
code compares it unconverted. -/
theorem journal_recognised_iff (ring : Ring info)
    (inside : firstUnflushed (info.journalHeader disk) < info.journalBlockCount) (mem : Bytes) :
    Recognised disk info mem ↔ ReadsAlike disk info := by
  obtain ⟨m, -, run⟩ := LongestRun.exists_of_not (ring.run_le inside transId)
  obtain ⟨found, ends, first, count⟩ := ring.journalInit inside run mem
  constructor
  · rintro ⟨info', ends', -, listed⟩
    have same : info' = found := by
      obtain ⟨bound, mem₁, result⟩ := ends
      obtain ⟨bound', mem₂, result'⟩ := ends'
      have left := result (max bound bound') (le_max_left _ _)
      have right := result' (max bound bound') (le_max_right _ _)
      rw [left] at right
      exact (congrArg Prod.fst (Option.some.inj right)).symm
    rw [same, count] at listed
    have low : u16 m ≤ m := Nat.mod_le _ _
    refine ⟨u16 m, m - u16 m, listed, fun i less => ?_, run.behind low, ?_⟩
    · rw [(listed.all i less).number, (run.all i (less.trans_le low)).number]
    · unfold u16
      exact Nat.dvd_sub_mod m
  · rintro ⟨n, more, listed, alike, behind, multiple⟩
    have loaded : ∀ i < n, Waiting transId disk info i := fun i less =>
      (listed.all i less).other (alike i less)
    have total : m = n + more := run.unique (LongestRun.append loaded behind)
    have small := alike_le listed.all alike
    have counted : found.journalTransactions = n := by
      rw [count, total]
      unfold u16
      omega
    exact ⟨found, ends, first, counted ▸ listed⟩

theorem crashed_ring : Ring crashedInfo := ⟨⟨3, rfl⟩, by decide⟩

/-- The identifier of the transaction on this volume reads the same in both byte
orders. -/
theorem crashed_recognised : Recognised crashed crashedInfo fun _ => 0 := by
  refine (journal_recognised_iff crashed_ring (by decide +kernel) _).mpr
    ⟨1, 0, ⟨by decide +kernel, by decide +kernel⟩, by decide +kernel, ⟨by decide, ?_⟩, by decide⟩
  decide +kernel

/-- The same volume with an identifier of 1. -/
def unflushed : Bytes := fun a =>
  if a ∈ [18 * 4096, 18 * 4096 + 4, 20 * 4096, 20 * 4096 + 4] then 1
  else if 18 * 4096 + 4084 ≤ a then (cstr "ReIsErLB").getD (a - (18 * 4096 + 4084)) 0
  else 0

/-- A transaction waits on it, and `journal_init` finds none. -/
theorem unflushed_unrecognised : ¬ Recognised unflushed crashedInfo fun _ => 0 := by
  rintro ⟨info', ⟨bound, mem', result⟩, -, run⟩
  have waiting : Waiting diskId unflushed crashedInfo 0 := by decide +kernel
  have first : le (journalRead unflushed crashedInfo crashedInfo.journalBlockCount) 4 4 = 0 := by
    decide +kernel
  have last : le (journalRead unflushed crashedInfo crashedInfo.journalBlockCount) 0 4 = 0 := by
    decide +kernel
  have refused : valid unflushed crashedInfo
      (journalRead unflushed crashedInfo crashedInfo.journalBlockCount) 0 (u32 (0 + 1)) = false := by
    decide +kernel
  have found : journalInit unflushed crashedInfo (bound + 1) (fun _ => 0) =
      some (crashedInfo, fun _ => 0) := by
    unfold journalInit
    dsimp only
    rw [first, last, if_neg (by decide)]
    unfold journalLoop
    dsimp only
    rw [refused]
    rfl
  rw [result (bound + 1) (Nat.le_succ bound)] at found
  cases found
  exact run.stop waiting

end Yaboot.Reiserfs
