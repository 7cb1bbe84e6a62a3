import Yaboot.Reiserfs.Cache
import Yaboot.Reiserfs.TreeProofs

/-! When the places `read_tree_node` returns hold the blocks asked for. The slots
of `FSYS_BUF` do not overlap, so every depth can be followed on its own. -/
namespace Yaboot.Reiserfs
open Buffer Word

variable {disk mem : Bytes} {info : Info} {s : State} {c : Call} {calls : List Call}

/-- Without failures the call is the one of the tree walks. -/
theorem tryReadTreeNode_complete (disk : Bytes) (info : Info) (b depth : Nat) (s : State)
    (some_ : n ≠ 0) :
    tryReadTreeNode disk info ⟨b, depth, .read info.blocksize n⟩ s =
      readTreeNode disk info b depth s := by
  unfold tryReadTreeNode readTreeNode
  simp only [tryBlockRead, min_self, if_neg some_]
  rfl

/-- The bytes of a slot are those of a block. -/
def SlotHolds (disk : Bytes) (info : Info) (mem : Bytes) (slot b : Nat) : Prop :=
  ∀ i < info.blocksize, mem (info.cache slot + i) = readDiskBlock disk info b 0 i

/-- A store into one slot leaves the others alone. -/
theorem SlotHolds.elsewhere (holds : SlotHolds disk info mem d b) (other : d ≠ slot)
    (short : n ≤ info.blocksize) (src : Bytes) :
    SlotHolds disk info (blit mem (info.cache slot) n src) d b := by
  intro i inside
  rw [blit_outside, holds i inside]
  unfold Info.cache
  rcases Nat.lt_or_gt_of_ne other with below | above
  · have room : (d + 1) * info.blocksize ≤ slot * info.blocksize := Nat.mul_le_mul_right _ below
    rw [Nat.add_mul] at room
    omega
  · have room : (slot + 1) * info.blocksize ≤ d * info.blocksize := Nat.mul_le_mul_right _ above
    rw [Nat.add_mul] at room
    omega

theorem slotHolds_blit (mem : Bytes) (slot b : Nat) :
    SlotHolds disk info (blit mem (info.cache slot) info.blocksize (readDiskBlock disk info b 0))
      slot b := by
  intro i inside
  rw [blit_inside _ _ (by omega) (by omega)]
  congr 1
  omega

theorem SlotHolds.level (holds : SlotHolds disk info mem slot b) (large : 2 ≤ info.blocksize) :
    blkhLevel mem (info.cache slot) = blkhLevel (readDiskBlock disk info b 0) 0 := by
  apply le_congr
  intro i less
  rw [holds i (by omega), Nat.zero_add]

/-- A slot as the driver keeps it, against what the calls should have left in it. -/
structure Slot.Kept (disk : Bytes) (info : Info) (s : State) (depth : Nat) (slot : Slot) : Prop where
  recorded : s.blocks depth = slot.recorded
  holds : slot.intact → SlotHolds disk info s.mem depth slot.recorded
  level : slot.intact → blkhLevel (readDiskBlock disk info slot.recorded 0) 0 = depth

/-- The call is answered from the cache. -/
def Call.Hit (info : Info) (s : State) (c : Call) : Prop :=
  c.depth < info.cachedSlots ∧ c.blockNr = s.blocks c.depth

theorem tryReadTreeNode_hit (hit : c.Hit info s) :
    tryReadTreeNode disk info c s = (some (info.cache c.depth), { s with errnum := .ok }) :=
  if_pos hit

/-- The place a call reads a block into. -/
def Call.place (info : Info) (c : Call) : Nat := info.cache (min c.depth info.cachedSlots)

/-- The memory once `prom_read` has moved some bytes of the block. -/
def Call.moved (disk : Bytes) (info : Info) (c : Call) (mem : Bytes) (n : Nat) : Bytes :=
  blit mem (c.place info) (min n info.blocksize) (readDiskBlock disk info c.blockNr 0)

section Miss

variable (empty : info.journalTransactions = 0) (miss : ¬ c.Hit info s)
include empty miss

theorem tryReadTreeNode_unsearched (given : c.answer = .unsearched rounds) :
    tryReadTreeNode disk info c s = (none, { s with errnum := .ok }) := by
  unfold tryReadTreeNode
  dsimp only
  rw [if_neg (show ¬ (_ ∧ _) from miss), given]
  simp only [tryBlockRead, empty, Nat.min_zero, lookupLoop, if_pos]

theorem tryReadTreeNode_unseekable (given : c.answer = .unseekable) :
    tryReadTreeNode disk info c s = (none, { s with errnum := .ok }) := by
  unfold tryReadTreeNode
  dsimp only
  rw [if_neg (show ¬ (_ ∧ _) from miss), given]
  simp only [tryBlockRead, lookup_empty empty, if_pos]

theorem tryReadTreeNode_failed (given : c.answer = .read n 0) :
    tryReadTreeNode disk info c s =
      (none, { s with errnum := .ok, mem := c.moved disk info s.mem n }) := by
  unfold tryReadTreeNode
  dsimp only
  rw [if_neg (show ¬ (_ ∧ _) from miss), given]
  simp only [tryBlockRead, lookup_empty empty, blockRead_empty empty, if_pos]
  rfl

/-- A block that is read whole is returned exactly if it has the level that was asked for, and
only then the slot is marked with its number. -/
theorem tryReadTreeNode_whole (given : c.answer = .read n result) (some_ : result ≠ 0)
    (whole : info.blocksize ≤ n) (large : 2 ≤ info.blocksize) :
    tryReadTreeNode disk info c s =
      if blkhLevel (readDiskBlock disk info c.blockNr 0) 0 ≠ c.depth then
        (none, { s with errnum := .badFsys, mem := c.moved disk info s.mem info.blocksize })
      else
        (some (c.place info), { s with
          errnum := .ok
          mem := c.moved disk info s.mem info.blocksize
          blocks := Function.update s.blocks c.depth c.blockNr }) := by
  have level : blkhLevel (c.moved disk info s.mem info.blocksize) (c.place info) =
      blkhLevel (readDiskBlock disk info c.blockNr 0) 0 := by
    rw [Call.moved, min_self, Call.place]
    exact (slotHolds_blit s.mem _ c.blockNr).level large
  rw [← level]
  unfold tryReadTreeNode
  dsimp only
  rw [if_neg (show ¬ (_ ∧ _) from miss), given]
  simp only [tryBlockRead, lookup_empty empty, blockRead_empty empty, if_neg some_,
    Nat.min_eq_right whole, Call.moved, min_self]
  rfl

end Miss

/-! ### One call -/

variable {slot : Slot} {d : Nat} {t : State}

theorem Slot.Kept.congr (kept : slot.Kept disk info s d) (blocks : t.blocks = s.blocks)
    (mem : t.mem = s.mem) : slot.Kept disk info t d :=
  ⟨by rw [blocks]; exact kept.recorded, by rw [mem]; exact kept.holds, kept.level⟩

/-- A read into the slot of another depth. -/
theorem Slot.Kept.elsewhere (kept : slot.Kept disk info s d) (low : d < info.cachedSlots)
    (other : c.depth ≠ d) (blocks : t.blocks d = s.blocks d)
    (mem : t.mem = c.moved disk info s.mem n) : slot.Kept disk info t d := by
  refine ⟨blocks.trans kept.recorded, fun intact => ?_, kept.level⟩
  rw [mem]
  exact (kept.holds intact).elsewhere (by omega) (Nat.min_le_right _ _) _

/-- A read that moves nothing, or spoils the slot. -/
theorem Slot.Kept.spoiled (kept : slot.Kept disk info s d) (blocks : t.blocks = s.blocks)
    (mem : t.mem = c.moved disk info s.mem n) :
    Slot.Kept disk info t d { slot with intact := slot.intact && n == 0 } := by
  have nothing : n = 0 → t.mem = s.mem := by
    intro zero
    rw [mem, Call.moved, zero, Nat.zero_min, blit_zero]
  refine ⟨by rw [blocks]; exact kept.recorded, fun intact => ?_, fun intact => ?_⟩
  · obtain ⟨intact, zero⟩ := Bool.and_eq_true_iff.mp intact
    rw [nothing (beq_iff_eq.mp zero)]
    exact kept.holds intact
  · exact kept.level (Bool.and_eq_true_iff.mp intact).1

theorem Slot.Kept.broken (kept : slot.Kept disk info s d) (blocks : t.blocks = s.blocks) :
    Slot.Kept disk info t d { slot with intact := false } :=
  ⟨by rw [blocks]; exact kept.recorded, nofun, nofun⟩

/-- The slot a whole block was read into. -/
theorem Slot.Kept.filled (low : c.depth < info.cachedSlots)
    (level : blkhLevel (readDiskBlock disk info c.blockNr 0) 0 = c.depth)
    (blocks : t.blocks = Function.update s.blocks c.depth c.blockNr)
    (mem : t.mem = c.moved disk info s.mem info.blocksize) :
    Slot.Kept disk info t c.depth ⟨c.blockNr, true⟩ := by
  refine ⟨by rw [blocks, Function.update_self], fun _ => ?_, fun _ => level⟩
  rw [mem, Call.moved, Call.place, min_self, Nat.min_eq_left low.le]
  exact slotHolds_blit s.mem c.depth c.blockNr

/-- A call for another depth leaves the slot as it was. -/
theorem Slot.Kept.passed (kept : slot.Kept disk info s d) (empty : info.journalTransactions = 0)
    (large : 2 ≤ info.blocksize) (low : d < info.cachedSlots) (honest : c.answer.Honest info)
    (hit : ¬ c.Hit info s) (other : c.depth ≠ d) :
    slot.Kept disk info (tryReadTreeNode disk info c s).2 d := by
  cases given : c.answer with
  | unsearched rounds =>
    rw [tryReadTreeNode_unsearched empty hit given]
    exact kept.congr rfl rfl
  | unseekable =>
    rw [tryReadTreeNode_unseekable empty hit given]
    exact kept.congr rfl rfl
  | read n result =>
    by_cases none : result = 0
    · subst none
      rw [tryReadTreeNode_failed empty hit given]
      exact kept.elsewhere low other rfl rfl
    · rw [given] at honest
      rw [tryReadTreeNode_whole empty hit given none (honest.resolve_left none) large]
      by_cases level : blkhLevel (readDiskBlock disk info c.blockNr 0) 0 = c.depth
      · rw [if_neg (not_not_intro level)]
        exact kept.elsewhere low other (Function.update_of_ne (Ne.symm other) _ _) rfl
      · rw [if_pos level]
        exact kept.elsewhere low other rfl rfl

/-- A call for the slot's own depth loads it. -/
theorem Slot.Kept.loaded (kept : slot.Kept disk info s c.depth)
    (empty : info.journalTransactions = 0) (large : 2 ≤ info.blocksize)
    (low : c.depth < info.cachedSlots) (honest : c.answer.Honest info) (hit : ¬ c.Hit info s) :
    (slot.load disk info c).Kept disk info (tryReadTreeNode disk info c s).2 c.depth := by
  rw [Slot.load]
  cases given : c.answer with
  | unsearched rounds =>
    rw [tryReadTreeNode_unsearched empty hit given]
    exact kept.congr rfl rfl
  | unseekable =>
    rw [tryReadTreeNode_unseekable empty hit given]
    exact kept.congr rfl rfl
  | read n result =>
    dsimp only
    by_cases none : result = 0
    · subst none
      rw [tryReadTreeNode_failed empty hit given, if_pos rfl]
      exact kept.spoiled rfl rfl
    · rw [given] at honest
      rw [tryReadTreeNode_whole empty hit given none (honest.resolve_left none) large,
        if_neg none]
      by_cases level : blkhLevel (readDiskBlock disk info c.blockNr 0) 0 = c.depth
      · rw [if_neg (not_not_intro level), if_pos level]
        exact .filled low level rfl rfl
      · rw [if_pos level, if_neg level]
        exact kept.broken rfl

/-- A call makes of each slot what it should. -/
theorem Slot.Kept.step (kept : slot.Kept disk info s d) (empty : info.journalTransactions = 0)
    (large : 2 ≤ info.blocksize) (low : d < info.cachedSlots) (honest : c.answer.Honest info) :
    (slot.after disk info d c).Kept disk info (tryReadTreeNode disk info c s).2 d := by
  unfold Slot.after
  by_cases hit : c.Hit info s
  · rw [tryReadTreeNode_hit hit, if_neg]
    · exact kept.congr rfl rfl
    · rintro ⟨rfl, differs⟩
      exact differs (hit.2.trans kept.recorded)
  by_cases same : c.depth = d
  · subst same
    have differs : c.blockNr ≠ slot.recorded := by
      intro equal
      exact hit ⟨low, equal.trans kept.recorded.symm⟩
    rw [if_pos ⟨rfl, differs⟩]
    exact kept.loaded empty large low honest hit
  · rw [if_neg (fun both => same both.1)]
    exact kept.passed empty large low honest hit same

/-- What a call returns holds the block, unless it was answered from a slot that
does not. -/
theorem Slot.Kept.returned (kept : c.depth < info.cachedSlots → slot.Kept disk info s c.depth)
    (empty : info.journalTransactions = 0) (large : 2 ≤ info.blocksize)
    (honest : c.answer.Honest info)
    (fresh : c.depth < info.cachedSlots → c.blockNr = slot.recorded → slot.intact)
    (call : tryReadTreeNode disk info c s = (some cache, t)) :
    HoldsBlock disk info s.mem t.mem cache c := by
  suffices found : ∃ k, cache = info.cache k ∧ SlotHolds disk info t.mem k c.blockNr ∧
      blkhLevel (readDiskBlock disk info c.blockNr 0) 0 = c.depth by
    obtain ⟨k, rfl, holds, level⟩ := found
    refine ⟨fun i inside => ?_, (holds.level large).trans level⟩
    rw [blockRead_empty empty]
    exact holds i inside
  by_cases hit : c.Hit info s
  · rw [tryReadTreeNode_hit hit] at call
    cases call
    have kept := kept hit.1
    have recorded := hit.2.trans kept.recorded
    have intact := fresh hit.1 recorded
    refine ⟨c.depth, rfl, ?_, ?_⟩
    · rw [recorded]
      exact kept.holds intact
    · rw [recorded]
      exact kept.level intact
  · cases given : c.answer with
    | unsearched rounds =>
      rw [tryReadTreeNode_unsearched empty hit given] at call
      cases call
    | unseekable =>
      rw [tryReadTreeNode_unseekable empty hit given] at call
      cases call
    | read n result =>
      by_cases none : result = 0
      · subst none
        rw [tryReadTreeNode_failed empty hit given] at call
        cases call
      · rw [given] at honest
        rw [tryReadTreeNode_whole empty hit given none (honest.resolve_left none) large] at call
        by_cases level : blkhLevel (readDiskBlock disk info c.blockNr 0) 0 = c.depth
        · rw [if_neg (not_not_intro level)] at call
          cases call
          refine ⟨_, rfl, ?_, level⟩
          rw [Call.moved, min_self]
          exact slotHolds_blit s.mem _ c.blockNr
        · rw [if_pos level] at call
          cases call

/-! ### Sequences of calls -/

theorem slotOf_kept (empty : info.journalTransactions = 0) (large : 2 ≤ info.blocksize)
    (zero : s.blocks = fun _ => 0) (low : d < info.cachedSlots)
    (honest : ∀ c ∈ calls, c.answer.Honest info) :
    (slotOf disk info d calls).Kept disk info (runCalls disk info s calls) d := by
  suffices run : ∀ slot s, Slot.Kept disk info s d slot →
      Slot.Kept disk info (runCalls disk info s calls) d
        (calls.foldl (Slot.after disk info d) slot) by
    exact run _ s ⟨by rw [zero], nofun, nofun⟩
  induction calls with
  | nil => exact fun slot s kept => kept
  | cons c calls ih =>
    intro slot s kept
    exact ih (fun c member => honest c (List.mem_cons_of_mem _ member)) _ _
      (kept.step empty large low (honest c List.mem_cons_self))

/-- With an empty journal and a device whose results tell whether a block was
read, every place returned holds its block as long as no call asks for the block
recorded for a slot that does not hold it. -/
theorem readTreeNode_coherent (disk : Bytes) (info : Info) (s : State) (calls : List Call)
    (large : 512 ≤ info.blocksize) (empty : info.journalTransactions = 0)
    (zero : s.blocks = fun _ => 0) (honest : ∀ c ∈ calls, c.answer.Honest info)
    (fresh : NoStaleHit disk info calls) : Coherent disk info s calls := by
  intro done c rest whole cache t call
  have honest : ∀ k ∈ done ++ [c], k.answer.Honest info := by
    intro k member
    apply honest
    rw [whole]
    simp only [List.mem_append, List.mem_cons] at member ⊢
    tauto
  refine Slot.Kept.returned (fun low => ?_) empty (by omega) (honest c (by simp))
    (fresh done c rest whole) call
  exact slotOf_kept empty (by omega) zero low fun k member =>
    honest k (List.mem_append_left _ member)

/-- A volume of 4096-byte blocks on which block 5 is a leaf and no other is. -/
def leafDisk : Bytes := fun i => if i = 5 * 4096 then 1 else 0

def leafInfo : Info := superInfo 0 ⟨5, 0, 0, 4096, 0⟩

def leafState : State := (Mounted.mk leafInfo (fun _ => 0) 5).state

/-- The leaf is read once and found again after a read of another depth failed. -/
theorem leaf_found_again :
    Coherent leafDisk leafInfo leafState
      [⟨5, 1, .read 4096 4096⟩, ⟨6, 2, .read 100 0⟩, ⟨5, 1, .unseekable⟩] := by
  refine readTreeNode_coherent _ _ _ _ (by decide) rfl rfl ?_ ?_
  · intro c member
    simp only [List.mem_cons, List.not_mem_nil, or_false] at member
    rcases member with rfl | rfl | rfl
    · exact .inr (by decide)
    · exact .inl rfl
    · trivial
  · intro done c rest whole low asked
    rcases done with _ | ⟨_, _ | ⟨_, _ | ⟨_, done⟩⟩⟩ <;>
      simp only [List.nil_append, List.cons_append, List.cons.injEq] at whole
    · obtain ⟨rfl, -⟩ := whole
      exact absurd asked (by decide)
    · obtain ⟨rfl, rfl, -⟩ := whole
      exact absurd asked (by decide)
    · obtain ⟨rfl, rfl, rfl, -⟩ := whole
      decide
    · simp at whole

/-- Block 6 has the wrong level. Reading it at depth 1 fails, but it stays in the
slot recorded for block 5. -/
theorem wrong_level_returned :
    ¬ Coherent leafDisk leafInfo leafState
      [⟨5, 1, .read 4096 4096⟩, ⟨6, 1, .read 4096 4096⟩, ⟨5, 1, .read 4096 4096⟩] := by
  intro coherent
  have hit : Call.Hit leafInfo (runCalls leafDisk leafInfo leafState
      [⟨5, 1, .read 4096 4096⟩, ⟨6, 1, .read 4096 4096⟩]) ⟨5, 1, .read 4096 4096⟩ :=
    ⟨by decide, by decide⟩
  have level := (coherent _ _ [] rfl _ _ (tryReadTreeNode_hit hit)).level
  exact absurd level (by decide)

end Yaboot.Reiserfs
