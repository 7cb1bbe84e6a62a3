import Yaboot.Reiserfs.JournalTable
import Yaboot.Reiserfs.RecognitionProofs

/-! Whether `block_read` reads back from the table what `journal_init` wrote. -/
namespace Yaboot.Reiserfs
open Buffer CString Word

/-! ### Words in memory -/

theorem raw32_storeRaw32 (mem : Bytes) (at_ : Nat) (fits : n < 2 ^ 32) :
    raw32 (storeRaw32 mem at_ n) at_ = n := by
  unfold raw32 storeRaw32
  rw [blit_inside _ _ (by omega) (by omega), blit_inside _ _ (by omega) (by omega),
    blit_inside _ _ (by omega) (by omega), blit_inside _ _ (by omega) (by omega)]
  rw [show at_ - at_ = 0 by omega, show at_ + 1 - at_ = 1 by omega,
    show at_ + 2 - at_ = 2 by omega, show at_ + 3 - at_ = 3 by omega]
  simp only [UInt8.toNat_ofNat', Nat.reduceSub, Nat.reducePow]
  omega

theorem raw32_lt (b : Bytes) (k : Nat) : raw32 b k < 2 ^ 32 := by
  unfold raw32
  have first := (b k).toNat_lt
  have second := (b (k + 1)).toNat_lt
  have third := (b (k + 2)).toNat_lt
  have fourth := (b (k + 3)).toNat_lt
  omega

/-- A word is not touched by what is written elsewhere. -/
theorem raw32_blit (mem src : Bytes) (apart : k + 4 ≤ at_ ∨ at_ + n ≤ k) :
    raw32 (blit mem at_ n src) k = raw32 mem k := by
  unfold raw32
  rw [blit_outside _ _ (by omega), blit_outside _ _ (by omega), blit_outside _ _ (by omega),
    blit_outside _ _ (by omega)]

theorem raw32_storeAll (words : List Nat) (mem : Bytes) (before : k + 4 ≤ at_) :
    raw32 (storeAll mem at_ words) k = raw32 mem k := by
  induction words generalizing mem at_ with
  | nil => rfl
  | cons word words ih =>
    unfold storeAll
    rw [ih _ (by omega)]
    exact raw32_blit mem _ (.inl before)

/-! ### What is asked of the table -/

/-- `journal_init` ends and leaves this behind. -/
def TableInitialised (words : Nat) (disk : Bytes) (info : Info) (mem : Bytes) (info' : Info)
    (mem' : Bytes) : Prop :=
  ∃ bound, ∀ fuel ≥ bound, journalInitIn words disk info fuel mem = some (info', mem')

/-- The words that the first transactions take. -/
def used (disk : Bytes) (info : Info) : Nat → Nat
  | 0 => 0
  | i + 1 => used disk info i + 1 + jLen (journalRead disk info (position disk info i))

/-- Where the `i`th transaction is to be taken from: from the table as long as
there is room behind it, and from the volume after that. -/
def roundOf (words : Nat) (disk : Bytes) (info : Info) (i : Nat) : Round :=
  if used disk info (i + 1) < words then .table (realblocks disk info (position disk info i))
  else .disk (position disk info i)

/-- After any calls `block_read` goes through the transactions that were
accepted, the first ones as the table was made of them, and it finds the block it
would find without a table. -/
def TableAgrees (words : Nat) (disk : Bytes) (info : Info) (mem : Bytes) : Prop :=
  ∃ info' mem' mem₁ n, TableInitialised words disk info mem info' mem' ∧
    TableInitialised 1 disk info mem info' mem₁ ∧ LongestRun (Waiting transId disk info) n ∧
    ∀ calls b,
      lookupRounds disk info' b info'.journalTransactions
          (.start info' (afterCalls disk info' mem' calls) b) =
        (List.range n).map (roundOf words disk info) ∧
      (lookup disk info' (afterCalls disk info' mem' calls) b).translatedNr =
        (lookup disk info' mem₁ b).translatedNr

/-! ### Writing it -/

variable {disk : Bytes} {info : Info} {words : Nat}

theorem journalLoopIn_mono {header : Bytes} (more : fuel ≤ fuel')
    (ends : journalLoopIn words disk info header fuel s = some t) :
    journalLoopIn words disk info header fuel' s = some t := by
  induction fuel generalizing fuel' s with
  | zero => cases ends
  | succ fuel ih =>
    obtain ⟨fuel', rfl⟩ : ∃ k, fuel' = k + 1 := ⟨fuel' - 1, by omega⟩
    unfold journalLoopIn at ends ⊢
    split at ends
    · rename_i accepted
      rw [if_pos accepted]
      exact ih (by omega) ends
    · rename_i refused
      rw [if_neg refused]
      exact ends

/-- The first word of the table stays what it is once something is stored there. -/
theorem cacheTransactionIn_first (desc commit : Bytes) (s : Init)
    (behind : journalStart + 4 ≤ s.journalTable ∧ raw32 s.mem journalStart = word) :
    journalStart + 4 ≤ (cacheTransactionIn words desc commit s).journalTable ∧
      raw32 (cacheTransactionIn words desc commit s).mem journalStart = word := by
  obtain ⟨after, same⟩ := behind
  unfold cacheTransactionIn tableEnd
  dsimp only
  split_ifs with inside full
  · refine ⟨by dsimp only; omega, ?_⟩
    exact (raw32_blit s.mem _ (.inl after)).trans same
  · refine ⟨by dsimp only; omega, ?_⟩
    exact (raw32_storeAll _ s.mem after).trans same
  · exact ⟨after, same⟩

theorem journalLoopIn_first {header : Bytes}
    (behind : journalStart + 4 ≤ s.journalTable ∧ raw32 s.mem journalStart = word)
    (ends : journalLoopIn words disk info header fuel s = some t) :
    raw32 t.mem journalStart = word := by
  induction fuel generalizing s with
  | zero => cases ends
  | succ fuel ih =>
    unfold journalLoopIn at ends
    split at ends
    · dsimp only at ends
      refine ih ?_ ends
      exact cacheTransactionIn_first _ _ { s with nextTransId := u32 (s.nextTransId + 1) } behind
    · cases ends
      exact behind.2

/-- What the first accepted transaction leaves in the first word: its length, or
the mark that ends the table. -/
theorem cacheTransactionIn_start (room : 1 ≤ words) (desc commit : Bytes) (s : Init)
    (start : s.journalTable = journalStart) :
    journalStart + 4 ≤ (cacheTransactionIn words desc commit s).journalTable ∧
      raw32 (cacheTransactionIn words desc commit s).mem journalStart =
        if words ≤ 1 + jLen desc then 2 ^ 32 - 1 else raw32 desc 4 := by
  unfold cacheTransactionIn tableEnd
  rw [start, if_pos (by omega)]
  by_cases full : words ≤ 1 + jLen desc
  · rw [if_pos (by omega), if_pos full]
    exact ⟨by dsimp only; omega, raw32_storeRaw32 _ _ (by decide)⟩
  · rw [if_neg (by omega), if_neg full]
    refine ⟨by dsimp only; omega, ?_⟩
    dsimp only
    unfold storeAll
    rw [raw32_storeAll _ _ (Nat.le_refl _)]
    exact raw32_storeRaw32 _ _ (raw32_lt _ _)

/-- What `journal_init` leaves behind. -/
def Info.recognised (disk : Bytes) (info : Info) (n : Nat) : Info :=
  { info with
    journalFirstDesc := firstUnflushed (info.journalHeader disk)
    journalTransactions := u16 n }

/-- `journal_init` ends, and the first word of the table tells whether the first
transaction was entered. -/
theorem Ring.tableInitialised (ring : Ring info)
    (inside : firstUnflushed (info.journalHeader disk) < info.journalBlockCount)
    (run : LongestRun (Waiting transId disk info) n) (room : 1 ≤ words) (mem : Bytes) :
    ∃ mem', TableInitialised words disk info mem (info.recognised disk n) mem' ∧
      (n ≠ 0 → raw32 mem' journalStart =
        if words ≤ used disk info 1 then 2 ^ 32 - 1
        else raw32 (journalRead disk info (position disk info 0)) 4) := by
  obtain ⟨t, loop, count⟩ : ∃ t, Reiserfs.journalLoopIn words disk info (info.journalHeader disk) (n + 1)
      ⟨firstUnflushed (info.journalHeader disk), u32 (lastFlushed (info.journalHeader disk) + 1),
        journalStart, mem⟩ = some t ∧
      t.nextTransId = u32 (lastFlushed (info.journalHeader disk) + 1 + n) := by
    apply ring.journalLoopIn run words (i := 0) (by omega) (Nat.zero_le n)
    · rw [position]
    · rw [Nat.add_zero]
  refine ⟨t.mem, ⟨n + 1, fun fuel enough => ?_⟩, fun some_ => ?_⟩
  · have ends := journalLoopIn_mono enough loop
    have total := counted disk info n
    rw [← count] at total
    unfold Info.recognised
    unfold firstUnflushed lastFlushed Info.journalHeader at *
    unfold journalInitIn
    dsimp only
    rw [if_neg (Nat.not_le.mpr inside), ends, Option.map_some, total]
  · have accepted := run.all 0 (Nat.pos_of_ne_zero some_)
    unfold Waiting at accepted
    rw [← ring.valid_iff] at accepted
    rw [position, Nat.add_zero] at accepted
    unfold Reiserfs.journalLoopIn at loop
    rw [if_pos accepted] at loop
    dsimp only at loop
    have first := cacheTransactionIn_start room
      (journalRead disk info (firstUnflushed (info.journalHeader disk)))
      (journalRead disk info (Reiserfs.commitBlock info (firstUnflushed (info.journalHeader disk))
        (jLen (journalRead disk info (firstUnflushed (info.journalHeader disk))))))
      ⟨firstUnflushed (info.journalHeader disk),
        u32 (u32 (lastFlushed (info.journalHeader disk) + 1) + 1), journalStart, mem⟩ rfl
    have kept : raw32 t.mem journalStart =
        if words ≤ 1 + jLen (journalRead disk info (firstUnflushed (info.journalHeader disk))) then
          2 ^ 32 - 1
        else raw32 (journalRead disk info (firstUnflushed (info.journalHeader disk))) 4 := by
      refine journalLoopIn_first ?_ loop
      exact first
    rw [kept, used, used, position, Nat.zero_add]

/-! ### Reading it -/

theorem TableInitialised.unique (first : TableInitialised words disk info mem info' mem')
    (second : TableInitialised words disk info mem info'' mem'') : info' = info'' ∧ mem' = mem'' := by
  obtain ⟨bound, result⟩ := first
  obtain ⟨bound', result'⟩ := second
  have left := result (max bound bound') (le_max_left _ _)
  have right := result' (max bound bound') (le_max_right _ _)
  rw [left] at right
  exact Prod.mk.inj (Option.some.inj right)

theorem rounds_length (disk : Bytes) (info : Info) (b n : Nat) (l : Lookup) :
    (lookupRounds disk info b n l).length = n := by
  induction n generalizing l with
  | zero => rfl
  | succ n ih => rw [lookupRounds, List.length_cons, ih]

/-- A round on the mark leaves the table alone. -/
theorem lookupStep_marked (disk : Bytes) (info : Info) (b : Nat) {l : Lookup}
    (marked : raw32 l.mem l.journalTable = 2 ^ 32 - 1) :
    (lookupStep disk info b l).mem = l.mem ∧
      (lookupStep disk info b l).journalTable = l.journalTable ∧
      (lookupStep disk info b l).descBlock =
        u32 (l.descBlock + 2 + jLen (journalRead disk info l.descBlock)) &&& info.journalMask := by
  unfold lookupStep
  dsimp only
  rw [if_neg (not_not_intro marked)]
  exact ⟨rfl, rfl, rfl⟩

/-- Where the table is marked at its start, every transaction is taken from the
volume. -/
theorem Ring.rounds_marked (ring : Ring info) (b n : Nat) {l : Lookup}
    (marked : raw32 l.mem l.journalTable = 2 ^ 32 - 1) (at_ : l.descBlock = position disk info i) :
    lookupRounds disk info b n l = (List.range' i n).map fun i => .disk (position disk info i) := by
  induction n generalizing l i with
  | zero => rfl
  | succ n ih =>
    obtain ⟨mem, table, desc⟩ := lookupStep_marked disk info b marked
    have taken : l.round = .disk (position disk info i) := by
      unfold Lookup.round
      dsimp only
      rw [if_neg (not_not_intro marked), at_]
    have next : (lookupStep disk info b l).descBlock = position disk info (i + 1) := by
      rw [desc, at_, ring.mask, position]
      unfold nextAt
      rw [Nat.add_right_comm]
    rw [lookupRounds, List.range'_succ, List.map_cons, taken, ih (by rw [mem, table]; exact marked) next]

/-- And what is found does not depend on the table. -/
theorem lookupLoop_marked (disk : Bytes) (info : Info) (b n : Nat) {l l' : Lookup}
    (marked : raw32 l.mem l.journalTable = 2 ^ 32 - 1)
    (marked' : raw32 l'.mem l'.journalTable = 2 ^ 32 - 1) (at_ : l.descBlock = l'.descBlock)
    (same : l.translatedNr = l'.translatedNr) :
    (lookupLoop disk info b n l).translatedNr = (lookupLoop disk info b n l').translatedNr := by
  induction n generalizing l l' with
  | zero => exact same
  | succ n ih =>
    obtain ⟨mem, table, desc⟩ := lookupStep_marked disk info b marked
    obtain ⟨mem', table', desc'⟩ := lookupStep_marked disk info b marked'
    refine ih (by rw [mem, table]; exact marked) (by rw [mem', table']; exact marked') ?_ ?_
    · rw [desc, desc', at_]
    · rw [lookupStep_translated, lookupStep_translated]
      unfold Lookup.round
      dsimp only
      rw [if_neg (not_not_intro marked), if_neg (not_not_intro marked'), at_, same]

/-- A search that starts on the mark leaves the memory alone. -/
theorem lookupLoop_unchanged (disk : Bytes) (info : Info) (b n : Nat) {l : Lookup}
    (marked : raw32 l.mem l.journalTable = 2 ^ 32 - 1) : (lookupLoop disk info b n l).mem = l.mem := by
  induction n generalizing l with
  | zero => rfl
  | succ n ih =>
    obtain ⟨mem, table, -⟩ := lookupStep_marked disk info b marked
    exact (ih (by rw [mem, table]; exact marked)).trans mem

/-- The mark stays in place. -/
theorem afterCalls_marked (disk : Bytes) (info : Info) (calls : List BlockRead)
    (marked : raw32 mem journalStart = 2 ^ 32 - 1) :
    raw32 (afterCalls disk info mem calls) journalStart = 2 ^ 32 - 1 := by
  induction calls generalizing mem with
  | nil => exact marked
  | cons call calls ih =>
    apply ih
    unfold blockReadInto
    rw [raw32_blit _ _ (.inr call.inside)]
    have unchanged : (lookup disk info mem call.blockNr).mem = mem :=
      lookupLoop_unchanged disk info call.blockNr info.journalTransactions marked
    rw [unchanged, marked]

/-! ### A transaction in the table -/

/-- A word that was counted up stands for a length that no transaction has. -/
theorem swab32_range (low : a % 256 = 4) :
    2 ^ 26 ≤ swab32 a b c d ∧ swab32 a b c d < 2 ^ 31 := by
  have first : (a &&& 0xff) <<< 24 = 2 ^ 26 := by
    rw [show 0xff = 2 ^ 8 - 1 by rfl, Nat.and_two_pow_sub_one_eq_mod, Nat.shiftLeft_eq]
    omega
  have second : (b &&& 0xff00) <<< 8 < 2 ^ 31 := by
    have small : b &&& 0xff00 ≤ 0xff00 := Nat.and_le_right
    rw [Nat.shiftLeft_eq]
    omega
  have third : (c &&& 0xff0000) >>> 8 < 2 ^ 31 := by
    have small : c &&& 0xff0000 ≤ 0xff0000 := Nat.and_le_right
    rw [Nat.shiftRight_eq_div_pow]
    omega
  have fourth : (d &&& 0xff000000) >>> 24 < 2 ^ 31 := by
    have small : d &&& 0xff000000 ≤ 0xff000000 := Nat.and_le_right
    rw [Nat.shiftRight_eq_div_pow]
    omega
  unfold swab32
  rw [first]
  refine ⟨?_, Nat.or_lt_two_pow (Nat.or_lt_two_pow (Nat.or_lt_two_pow (by decide) second) third)
    fourth⟩
  exact (Nat.left_le_or.trans Nat.left_le_or).trans Nat.left_le_or

theorem Lookup.round_spoiled {l : Lookup} (spoiled : raw32 l.mem l.journalTable % 256 = 4) :
    ∃ blocks, l.round = .table blocks ∧ 2 ^ 26 ≤ blocks.length := by
  have word := raw32_lt l.mem l.journalTable
  obtain ⟨low, high⟩ : 2 ^ 26 ≤ le32Next (fun k => u32 (raw32 l.mem l.journalTable + k)) 0 ∧
      le32Next (fun k => u32 (raw32 l.mem l.journalTable + k)) 0 < 2 ^ 31 := by
    apply swab32_range
    unfold u32
    dsimp only
    omega
  unfold Lookup.round
  dsimp only
  rw [if_pos (by omega)]
  refine ⟨_, rfl, ?_⟩
  unfold cachedBlocks
  rw [List.length_map, List.length_range, s32_of_lt high]
  omega

theorem scanCached_pointer (mem : Bytes) (b left i table : Nat) :
    (scanCached mem b left i table).1 = table ∨ table + 16 ≤ (scanCached mem b left i table).1 := by
  induction left generalizing i table with
  | zero => exact .inl rfl
  | succ left ih =>
    unfold scanCached
    dsimp only
    split_ifs
    · dsimp only
      omega
    · dsimp only
      rcases ih (i + 1) (table + 16) with same | behind <;> omega

/-- The round on a cached transaction counts its first word up, and may stay on
it. -/
theorem lookupStep_cached (disk : Bytes) (info : Info) (b : Nat) {l : Lookup}
    (cached : raw32 l.mem l.journalTable % 256 = 0) :
    raw32 (lookupStep disk info b l).mem l.journalTable % 256 = 4 ∧
      ((lookupStep disk info b l).journalTable = l.journalTable ∨
        l.journalTable + 16 ≤ (lookupStep disk info b l).journalTable) := by
  have word := raw32_lt l.mem l.journalTable
  unfold lookupStep
  dsimp only
  rw [if_pos (by omega)]
  unfold Lookup.advance
  dsimp only
  refine ⟨?_, scanCached_pointer _ _ _ _ _⟩
  rw [raw32_storeRaw32 _ _ (u32_lt _)]
  unfold u32
  omega

theorem lookupStep_pointer (disk : Bytes) (info : Info) (b : Nat) (l : Lookup) :
    l.journalTable ≤ (lookupStep disk info b l).journalTable := by
  unfold lookupStep Lookup.advance
  dsimp only
  split_ifs
  · dsimp only
    have pointer := scanCached_pointer (storeRaw32 l.mem l.journalTable
      (u32 (raw32 l.mem l.journalTable + 4))) b
      (s32 (le32Next (fun k => u32 (raw32 l.mem l.journalTable + k)) 0)).toNat 0 l.journalTable
    omega
  · exact Nat.le_refl _

/-- Rounds further on leave a word before them alone. -/
theorem lookupLoop_behind (disk : Bytes) (info : Info) (b n : Nat) {l : Lookup}
    (behind : k + 4 ≤ l.journalTable) :
    raw32 (lookupLoop disk info b n l).mem k = raw32 l.mem k := by
  induction n generalizing l with
  | zero => rfl
  | succ n ih =>
    have pointer := lookupStep_pointer disk info b l
    unfold lookupLoop
    rw [ih (by omega)]
    unfold lookupStep Lookup.advance
    dsimp only
    split_ifs
    · exact raw32_blit l.mem _ (.inl behind)
    · rfl

/-! ### Agreement -/

theorem used_le (disk : Bytes) (info : Info) (le : i ≤ j) : used disk info i ≤ used disk info j := by
  induction j with
  | zero =>
    obtain rfl : i = 0 := by omega
    exact Nat.le_refl _
  | succ j ih =>
    by_cases last : i = j + 1
    · rw [last]
    · have before := ih (by omega)
      rw [used]
      omega

theorem roundOf_length (round : roundOf words disk info i = .table blocks) :
    blocks.length = jLen (journalRead disk info (position disk info i)) := by
  unfold roundOf at round
  split_ifs at round
  cases round
  unfold realblocks
  rw [List.length_map, List.length_range]

theorem recognised_position (disk : Bytes) (info : Info) (n i : Nat) :
    position disk (info.recognised disk n) i = position disk info i := by
  induction i with
  | zero => rfl
  | succ i ih =>
    unfold position
    rw [ih]
    rfl

/-- The first rounds of a search that goes as it should. -/
theorem first_rounds (same : lookupRounds disk info' b m l = (List.range n).map (roundOf words disk info)) :
    (0 < n → l.round = roundOf words disk info 0) ∧
      (1 < n → (lookupStep disk info' b l).round = roundOf words disk info 1) := by
  have count : m = n := by
    have lengths := congrArg List.length same
    rwa [rounds_length, List.length_map, List.length_range] at lengths
  subst count
  refine ⟨fun some_ => ?_, fun more => ?_⟩
  · obtain ⟨m, rfl⟩ : ∃ k, m = k + 1 := ⟨m - 1, by omega⟩
    rw [lookupRounds, List.range_succ_eq_map] at same
    exact (List.cons.inj same).1
  · obtain ⟨m, rfl⟩ : ∃ k, m = k + 2 := ⟨m - 2, by omega⟩
    rw [lookupRounds, lookupRounds, List.range_succ_eq_map, List.range_succ_eq_map] at same
    exact (List.cons.inj (List.cons.inj same).2).1

theorem raw32_short (short : le b k 4 ≤ 2 * journalTransHalf) : raw32 b k % 256 = 0 := by
  rw [le_bytes] at short
  have first := (b k).toNat_lt
  have second := (b (k + 1)).toNat_lt
  unfold journalTransHalf at short
  have last : (b (k + 3)).toNat = 0 := by omega
  unfold raw32
  omega

/-- A transaction in the table: the search for any block goes wrong, at the latest
when it is made a second time. -/
theorem not_agree_of_cached (some_ : 0 < n)
    (short : ∀ i < n, jLen (journalRead disk info (position disk info i)) ≤ 2 * journalTransHalf)
    (cached : raw32 mem journalStart % 256 = 0) (count : info'.journalTransactions = n) :
    ¬ ∀ calls b, lookupRounds disk info' b info'.journalTransactions
        (.start info' (afterCalls disk info' mem calls) b) =
      (List.range n).map (roundOf words disk info) := by
  intro agree
  have wrong : ∀ l : Lookup, ∀ i < n, raw32 l.mem l.journalTable % 256 = 4 →
      l.round ≠ roundOf words disk info i := by
    intro l i less spoiled same
    obtain ⟨blocks, round, long⟩ := l.round_spoiled spoiled
    have length := roundOf_length (same.symm.trans round)
    have small := short i less
    unfold journalTransHalf at small
    omega
  obtain ⟨spoiled, pointer⟩ := lookupStep_cached disk info' 0 (l := .start info' mem 0) cached
  obtain ⟨n, rfl⟩ : ∃ k, n = k + 1 := ⟨n - 1, by omega⟩
  have again : raw32 (lookup disk info' mem 0).mem journalStart % 256 = 4 := by
    have unfolded : lookup disk info' mem 0 =
        lookupLoop disk info' 0 n (lookupStep disk info' 0 (.start info' mem 0)) := by
      unfold lookup
      rw [count]
      rfl
    rw [unfolded]
    rcases pointer with same | behind
    · cases n with
      | zero => exact spoiled
      | succ n =>
        have second : (lookupStep disk info' 0 (.start info' mem 0)).round =
            roundOf words disk info 1 := (first_rounds (agree [] 0)).2 (by omega)
        refine absurd second (wrong _ 1 (by omega) ?_)
        rw [same]
        exact spoiled
    · have after : journalStart + 16 ≤
          (lookupStep disk info' 0 (.start info' mem 0)).journalTable := behind
      rw [lookupLoop_behind disk info' 0 n (by omega)]
      exact spoiled
  let call : BlockRead := ⟨0, 0, 0, 0, by decide⟩
  have left : afterCalls disk info' mem [call] = (lookup disk info' mem 0).mem := by
    unfold afterCalls
    exact blit_zero (lookup disk info' mem 0).mem (blockRead disk info' mem 0 0) 0
  have first := (first_rounds (agree [call] 0)).1 (by omega)
  refine wrong _ 0 (by omega) ?_ first
  rw [left]
  exact again

/-- What `journal_init` enters into the table of a transaction is read back by `block_read` exactly
when nothing was entered and the transactions can be counted in 16 bits: in any room of at least a
word, the marker behind the last entry takes the place of its number. -/
theorem journal_table_iff (ring : Ring info)
    (inside : firstUnflushed (info.journalHeader disk) < info.journalBlockCount)
    (run : LongestRun (Waiting transId disk info) n)
    (short : ∀ i < n, jLen (journalRead disk info (position disk info i)) ≤ 2 * journalTransHalf)
    (room : 1 ≤ words) (mem : Bytes) :
    TableAgrees words disk info mem ↔ n < 65536 ∧ (n = 0 ∨ words ≤ used disk info 1) := by
  obtain ⟨mem', ends, word⟩ := ring.tableInitialised inside run room mem
  constructor
  · rintro ⟨info', left, mem₁, n', ends', -, run', agree⟩
    obtain ⟨rfl, rfl⟩ := ends'.unique ends
    obtain rfl := run'.unique run
    have total : (info.recognised disk n').journalTransactions = n' := by
      have lengths := congrArg List.length (agree [] 0).1
      rwa [rounds_length, List.length_map, List.length_range] at lengths
    refine ⟨?_, ?_⟩
    · rw [← total]
      exact Nat.mod_lt _ (by decide)
    · by_contra entered
      obtain ⟨some_, fits⟩ := not_or.mp entered
      have first := word some_
      rw [if_neg fits] at first
      refine not_agree_of_cached (Nat.pos_of_ne_zero some_) short ?_ total
        fun calls b => (agree calls b).1
      rw [first]
      exact raw32_short (short 0 (Nat.pos_of_ne_zero some_))
  · rintro ⟨narrow, nothing⟩
    obtain ⟨mem₁, ends₁, word₁⟩ := ring.tableInitialised inside run (Nat.le_refl 1) mem
    refine ⟨info.recognised disk n, mem', mem₁, n, ends, ends₁, run, fun calls b => ?_⟩
    have count : (info.recognised disk n).journalTransactions = n := Nat.mod_eq_of_lt narrow
    have ring' : Ring (info.recognised disk n) := ⟨ring.size, ring.small⟩
    by_cases none : n = 0
    · subst none
      unfold lookup
      rw [count]
      exact ⟨rfl, rfl⟩
    · have full := nothing.resolve_left none
      have marked := word none
      rw [if_pos full] at marked
      have marked₁ := word₁ none
      rw [if_pos (by rw [used]; omega)] at marked₁
      have still := afterCalls_marked disk (info.recognised disk n) calls marked
      have taken : lookupRounds disk (info.recognised disk n) b n (.start (info.recognised disk n)
          (afterCalls disk (info.recognised disk n) mem' calls) b) =
          (List.range' 0 n).map fun i => .disk (position disk (info.recognised disk n) i) :=
        ring'.rounds_marked b n still rfl
      have translated : (lookup disk (info.recognised disk n)
          (afterCalls disk (info.recognised disk n) mem' calls) b).translatedNr =
          (lookup disk (info.recognised disk n) mem₁ b).translatedNr :=
        lookupLoop_marked disk _ b _ still marked₁ rfl rfl
      refine ⟨?_, translated⟩
      rw [count, taken, ← List.range_eq_range']
      refine List.map_congr_left fun i _ => ?_
      unfold roundOf
      have later := used_le disk info (show 1 ≤ i + 1 by omega)
      rw [if_neg (by omega), recognised_position]

theorem crashed_run : LongestRun (Waiting transId crashed crashedInfo) 1 :=
  ⟨by decide +kernel, by decide +kernel⟩

/-- Two words are no room for the one transaction of this volume. -/
theorem crashed_agrees : TableAgrees 2 crashed crashedInfo fun _ => 0 :=
  (journal_table_iff crashed_ring (by decide +kernel) crashed_run (by decide +kernel) (by decide)
    _).mpr ⟨by decide, .inr (by decide +kernel)⟩

/-- Three words are. -/
theorem crashed_disagrees : ¬ TableAgrees 3 crashed crashedInfo fun _ => 0 := by
  rintro ⟨info', left, mem₁, n, ends, -, run, agree⟩
  obtain ⟨mem', ends', word⟩ : ∃ mem', TableInitialised 3 crashed crashedInfo (fun _ => 0)
      (crashedInfo.recognised crashed 1) mem' ∧ (1 ≠ 0 → raw32 mem' journalStart =
        if 3 ≤ used crashed crashedInfo 1 then 2 ^ 32 - 1
        else raw32 (journalRead crashed crashedInfo (position crashed crashedInfo 0)) 4) :=
    crashed_ring.tableInitialised (by decide +kernel) crashed_run (by decide) _
  obtain ⟨rfl, rfl⟩ := ends.unique ends'
  obtain rfl := run.unique crashed_run
  refine not_agree_of_cached (by decide) (by decide +kernel) ?_ rfl fun calls b => (agree calls b).1
  rw [word (by decide)]
  decide +kernel

end Yaboot.Reiserfs
