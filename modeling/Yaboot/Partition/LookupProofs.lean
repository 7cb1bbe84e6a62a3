import Yaboot.Partition.Lookup

/-! Which block the partition tables are read from. All probes leave their last
block in the buffer, and the branch for Amiga disks is taken by every disk that
has none of the other tables. -/
namespace Yaboot.Partition
open Buffer CString Word Fs

variable {d : Disk} {mem m : Bytes} {i : Nat}

/-- The buffer with a block in it. -/
def Disk.put (d : Disk) (mem b : Bytes) : Bytes := blit mem 0 d.blksize b

theorem blit_again (mem x y : Bytes) (start n : Nat) :
    blit (blit mem start n x) start n y = blit mem start n y := by
  funext k
  by_cases inside : start ≤ k ∧ k < start + n
  · rw [blit_inside _ _ inside.1 inside.2, blit_inside _ _ inside.1 inside.2]
  · have outside : k < start ∨ start + n ≤ k := by omega
    rw [blit_outside _ _ outside, blit_outside _ _ outside, blit_outside _ _ outside]

theorem Disk.put_put (d : Disk) (mem x y : Bytes) : d.put (d.put mem x) y = d.put mem y :=
  blit_again mem x y 0 _

/-- The buffer holds some block, or what is left of one, over the given memory. -/
def Disk.Over (d : Disk) (mem m : Bytes) : Prop := ∃ b, m = d.put mem b

theorem Disk.readblock_some (given : d.block i = some b) (mem : Bytes) :
    d.readblock i mem = (true, d.put mem b) := by
  unfold Disk.readblock
  rw [given]
  rfl

theorem Disk.readblock_none (unreadable : d.block i = none) (mem : Bytes) :
    d.readblock i mem = (false, d.put mem (d.wreck i mem)) := by
  unfold Disk.readblock
  rw [unreadable]
  rfl

theorem Disk.Over.put (over_ : d.Over mem m) (b : Bytes) : d.put m b = d.put mem b := by
  obtain ⟨x, rfl⟩ := over_
  exact d.put_put mem x b

theorem Disk.Over.readblock (over_ : d.Over mem m) (n : Nat) : d.Over mem (d.readblock n m).2 := by
  cases given : d.block n with
  | some b => exact ⟨b, by rw [Disk.readblock_some given, over_.put]⟩
  | none => exact ⟨d.wreck n m, by rw [Disk.readblock_none given, over_.put]⟩

/-! ### What is asked of it -/

/-- `partitions_lookup` gets as far as looking at block 0. -/
structure Disk.Accepted (d : Disk) : Prop where
  opened : d.opened = true
  blksize : d.blksize ≤ maxBlockSize
  readable : (d.block 0).isSome

/-- The buffer with block 0 in it. -/
def Disk.zero (d : Disk) (mem : Bytes) : Bytes := (d.readblock 0 mem).2

def MacDisk (d : Disk) (mem : Bytes) : Prop := word16 (d.zero mem) 0 = macDriverMagic

def FdiskDisk (d : Disk) (mem : Bytes) : Prop :=
  d.zero mem 510 = 0x55 ∧ d.zero mem 511 = 0xaa

def IsoDisk (d : Disk) (mem : Bytes) : Prop :=
  d.blksize = 2048 ∧ (identifyIsoFs d (d.zero mem)).1.isSome

/-- One of the tables other than the Amiga's is found. -/
def OtherTable (d : Disk) (mem : Bytes) : Prop :=
  MacDisk d mem ∨ FdiskDisk d mem ∨ IsoDisk d mem

/-- The buffer when the search for a rigid disk block begins: block 0, or what
the search for a volume descriptor has left. -/
def front (d : Disk) (mem : Bytes) : Bytes :=
  if d.blksize = 2048 then (identifyIsoFs d (d.zero mem)).2 else d.zero mem

/-- A block is a rigid disk block. -/
def Rdb (d : Disk) (mem : Bytes) (i : Nat) : Prop :=
  ∃ b, d.block i = some b ∧ amigaValid d amigaIdRdb (d.put mem b)

/-- The buffer with the first rigid disk block of the disk in it. -/
def FirstRdb (d : Disk) (mem m : Bytes) : Prop :=
  ∃ i b, i < amigaRdbMax ∧ d.block i = some b ∧ amigaValid d amigaIdRdb (d.put mem b) ∧
    (∀ j < i, ¬ Rdb d mem j) ∧ m = d.put mem b

/-- What is asked of the dispatch: a list of partitions is warranted by one of
the tables, and the walk over Amiga partitions starts from the rigid disk block. -/
structure Dispatched (d : Disk) (mem : Bytes) : Prop where
  warranted : partitionsLookup d mem ≠ [] →
    OtherTable d mem ∨ ∃ i < amigaRdbMax, Rdb d mem i
  start : ¬ OtherTable d mem → ∀ m, FirstRdb d mem m → (amigaFindRdb d (front d mem)).2 = m

/-! ### The search for a rigid disk block -/

/-- The buffer in round `i` of the search. -/
def sought (d : Disk) (mem : Bytes) (i : Nat) : Option Bytes :=
  if i = 0 then some (front d mem) else (d.block i).map (d.put mem)

/-- The search looks at the blocks up to `i` and takes the last one. -/
def StopsAt (d : Disk) (mem : Bytes) (i : Nat) (m : Bytes) : Prop :=
  i < amigaRdbMax ∧ sought d mem i = some m ∧ amigaValid d amigaIdRdb m ∧
    ∀ j < i, ∃ x, sought d mem j = some x ∧ ¬ amigaValid d amigaIdRdb x

/-- Where the walk over the partitions starts: the block the search stops at, or
else block 0. -/
def Starts (d : Disk) (mem m : Bytes) : Prop :=
  (∃ i, StopsAt d mem i m) ∨ ((∀ i x, ¬ StopsAt d mem i x) ∧ m = d.zero mem)

theorem isoLoop_over (over_ : d.Over mem m) (left block : Nat) :
    d.Over mem (isoLoop d left block m).2 := by
  induction left generalizing block m with
  | zero => exact over_
  | succ left ih =>
    have next := over_.readblock block
    unfold isoLoop
    dsimp only
    split_ifs
    · exact next
    · exact next
    · exact ih next _

theorem zero_over (d : Disk) (mem : Bytes) : d.Over mem (d.zero mem) := by
  have start : d.Over mem (d.put mem mem) := ⟨mem, rfl⟩
  cases given : d.block 0 with
  | some b => exact ⟨b, by rw [Disk.zero, Disk.readblock_some given]⟩
  | none => exact ⟨d.wreck 0 mem, by rw [Disk.zero, Disk.readblock_none given]⟩

theorem front_over (d : Disk) (mem : Bytes) : d.Over mem (front d mem) := by
  unfold front identifyIsoFs
  split_ifs
  · exact isoLoop_over (zero_over d mem) _ _
  · exact zero_over d mem

/-- The rounds of the search from a later block on. -/
theorem rdbLoop_later (over_ : d.Over mem m) (left : Nat) (later : i ≠ 0) :
    (∃ j x, i ≤ j ∧ j < i + left ∧ rdbLoop d left i m = (true, x) ∧ sought d mem j = some x ∧
      amigaValid d amigaIdRdb x ∧
      ∀ k, i ≤ k → k < j → ∃ y, sought d mem k = some y ∧ ¬ amigaValid d amigaIdRdb y) ∨
    (∃ x, rdbLoop d left i m = (false, x) ∧ d.Over mem x ∧
      ∀ j, i ≤ j → j < i + left → (∀ k, i ≤ k → k ≤ j → (sought d mem k).isSome) →
        ∀ y, sought d mem j = some y → ¬ amigaValid d amigaIdRdb y) := by
  induction left generalizing i m with
  | zero => exact .inr ⟨m, rfl, over_, fun j low high => by omega⟩
  | succ left ih =>
    rw [rdbLoop, if_pos later]
    cases given : d.block i with
    | none =>
      have unsought : sought d mem i = none := by rw [sought, if_neg later, given]; rfl
      rw [Disk.readblock_none given]
      refine .inr ⟨_, rfl, ⟨_, over_.put _⟩, fun j low high readable => ?_⟩
      have here := readable i le_rfl low
      rw [unsought] at here
      cases here
    | some b =>
      have here : sought d mem i = some (d.put mem b) := by rw [sought, if_neg later, given]; rfl
      rw [Disk.readblock_some given, over_.put]
      dsimp only
      rw [if_neg (by decide)]
      by_cases valid : amigaValid d amigaIdRdb (d.put mem b) = true
      · rw [if_pos valid]
        exact .inl ⟨i, _, le_rfl, by omega, rfl, here, valid, fun k low high => by omega⟩
      · rw [if_neg valid]
        have next : d.Over mem (d.put mem b) := ⟨b, rfl⟩
        rcases ih next (i := i + 1) (by omega) with
          ⟨j, x, low, high, run, found, good, before⟩ | ⟨x, run, kept, none⟩
        · refine .inl ⟨j, x, by omega, by omega, run, found, good, fun k low high => ?_⟩
          rcases Nat.eq_or_lt_of_le low with rfl | above
          · exact ⟨_, here, valid⟩
          · exact before k above high
        · refine .inr ⟨x, run, kept, fun j low high readable y given => ?_⟩
          rcases Nat.eq_or_lt_of_le low with rfl | above
          · rw [here] at given
            cases given
            exact valid
          · exact none j above (by omega) (fun k low => readable k (by omega)) y given

theorem StopsAt.unique (first : StopsAt d mem i m) (second : StopsAt d mem j x) : m = x := by
  obtain ⟨-, here, valid, before⟩ := first
  obtain ⟨-, here', valid', before'⟩ := second
  rcases Nat.lt_trichotomy i j with less | rfl | more
  · obtain ⟨y, given, bad⟩ := before' i less
    rw [here] at given
    cases given
    exact absurd valid bad
  · rw [here] at here'
    exact Option.some.inj here'
  · obtain ⟨y, given, bad⟩ := before j more
    rw [here'] at given
    cases given
    exact absurd valid' bad

theorem Starts.unique (first : Starts d mem m) (second : Starts d mem x) : m = x := by
  rcases first with ⟨i, stops⟩ | ⟨none, rfl⟩
  · rcases second with ⟨j, stops'⟩ | ⟨none, -⟩
    · exact stops.unique stops'
    · exact absurd stops (none i m)
  · rcases second with ⟨j, stops'⟩ | ⟨-, rfl⟩
    · exact absurd stops' (none j x)
    · rfl

theorem sought_zero (d : Disk) (mem : Bytes) : sought d mem 0 = some (front d mem) := if_pos rfl

theorem rdbLoop_first (d : Disk) (left : Nat) (m : Bytes) :
    rdbLoop d (left + 1) 0 m =
      if amigaValid d amigaIdRdb m = true then (true, m) else rdbLoop d left 1 m := by
  rw [rdbLoop, if_neg (not_not_intro rfl), Nat.zero_add]
  dsimp only
  rw [if_neg (by decide)]

theorem amigaFindRdb_found (run : rdbLoop d amigaRdbMax 0 m = (true, x)) :
    amigaFindRdb d m = (1, x) := by
  unfold amigaFindRdb
  dsimp only
  rw [run]
  rfl

theorem amigaFindRdb_missed (run : rdbLoop d amigaRdbMax 0 m = (false, x)) :
    amigaFindRdb d m = (0, (d.readblock 0 x).2) := by
  unfold amigaFindRdb
  dsimp only
  rw [run]
  rfl

/-- The search leaves the buffer as described. -/
theorem amigaFindRdb_starts (given : d.block 0 = some b) :
    Starts d mem (amigaFindRdb d (front d mem)).2 := by
  have first := sought_zero d mem
  have zero : d.zero mem = d.put mem b := by rw [Disk.zero, Disk.readblock_some given]
  obtain ⟨left, rounds⟩ : ∃ left, amigaRdbMax = left + 1 := ⟨15, rfl⟩
  have run := rdbLoop_first d left (front d mem)
  rw [← rounds] at run
  by_cases valid : amigaValid d amigaIdRdb (front d mem) = true
  · rw [if_pos valid] at run
    rw [amigaFindRdb_found run]
    exact .inl ⟨0, by decide, first, valid, fun j less => absurd less (Nat.not_lt_zero j)⟩
  rw [if_neg valid] at run
  rcases rdbLoop_later (front_over d mem) left (i := 1) (by decide) with
    ⟨j, x, low, high, later, found, good, before⟩ | ⟨x, later, kept, none⟩
  · rw [amigaFindRdb_found (run.trans later)]
    refine .inl ⟨j, by omega, found, good, fun k less => ?_⟩
    by_cases start : k = 0
    · subst start
      exact ⟨_, first, valid⟩
    · exact before k (by omega) less
  · rw [amigaFindRdb_missed (run.trans later), Disk.readblock_some given, kept.put]
    refine .inr ⟨?_, zero.symm⟩
    rintro j y ⟨less, here, good, before⟩
    by_cases start : j = 0
    · subst start
      rw [first] at here
      cases here
      exact valid good
    · refine none j (by omega) (by omega) ?_ y here good
      intro k low high
      rcases Nat.eq_or_lt_of_le high with rfl | below
      · rw [here]
        rfl
      · obtain ⟨z, given, -⟩ := before k below
        rw [given]
        rfl

/-! ### The walk over the partitions -/

/-- The list of partitions that starts in the buffer names no valid partition. -/
def Unchained (d : Disk) (mem : Bytes) : Prop :=
  d.malloc (4 * (amigaBlock mem 33 / 32 + 1 + 1)) = true → amigaBlock mem 7 ≠ amigaEnd →
    ∀ b, d.block (amigaBlock mem 7) = some b → amigaValid d amigaIdPart (d.put mem b) →
      (cleared d (amigaBlock mem 33 / 32 + 1)).has (amigaBlock mem 7) = true

theorem amigaLoop_ne_nil {blockspercyl part partition : Nat} {used : Used}
    {list : List Partition} (some_ : list ≠ []) :
    amigaLoop d blockspercyl part partition used mem list ≠ [] := by
  fun_induction amigaLoop d blockspercyl part partition used mem list with
  | case1 => exact some_
  | case2 => exact some_
  | case3 part partition used mem list more read success valid new ih =>
    exact ih (List.cons_ne_nil _ _)
  | case4 => exact some_
  | case5 => exact some_

/-- No Amiga partition is listed exactly if the list in the rigid disk block names no valid one.
-/
theorem partitionAmigaLookup_nil_iff :
    partitionAmigaLookup d mem = [] ↔ Unchained d mem := by
  unfold partitionAmigaLookup Unchained
  dsimp only
  by_cases room : d.malloc (4 * (amigaBlock mem 33 / 32 + 1 + 1)) = true
  · rw [if_neg (by simp [room])]
    unfold amigaLoop
    by_cases ends : amigaBlock mem 7 = amigaEnd
    · simp [ends]
    rw [if_neg ends]
    cases given : d.block (amigaBlock mem 7) with
    | none => simp [Disk.readblock_none given]
    | some b =>
      rw [Disk.readblock_some given]
      dsimp only
      rw [if_neg (by decide)]
      by_cases valid : amigaValid d amigaIdPart (d.put mem b) = true
      · rw [if_pos valid]
        by_cases new : (cleared d (amigaBlock mem 33 / 32 + 1)).has (amigaBlock mem 7) = false
        · rw [dif_pos new]
          refine ⟨fun empty => absurd empty (amigaLoop_ne_nil (List.cons_ne_nil _ _)),
            fun unchained => ?_⟩
          have old := unchained room ends b rfl valid
          rw [new] at old
          cases old
        · rw [dif_neg new]
          simp only [Bool.not_eq_false] at new
          simp [new]
      · rw [if_neg valid]
        refine iff_of_true rfl ?_
        intro _ _ c same good
        cases same
        exact absurd good valid
  · rw [if_pos (by simp [room])]
    exact iff_of_true rfl fun success => absurd success room

/-! ### The dispatch -/

/-- The result of the search is never minus one. -/
theorem lookupAmiga_eq (d : Disk) (mem : Bytes) :
    lookupAmiga d mem = partitionAmigaLookup d (amigaFindRdb d mem).2 := by
  unfold lookupAmiga
  dsimp only
  rw [if_pos (by omega)]

/-- With none of the other tables, the result is what the walk from the place
left by the search gives. -/
theorem partitionsLookup_amiga (accepted : d.Accepted) (other : ¬ OtherTable d mem) :
    partitionsLookup d mem = partitionAmigaLookup d (amigaFindRdb d (front d mem)).2 := by
  obtain ⟨b, given⟩ := Option.isSome_iff_exists.mp accepted.readable
  simp only [OtherTable, not_or] at other
  obtain ⟨mac, fdisk, iso⟩ := other
  unfold MacDisk at mac
  unfold FdiskDisk at fdisk
  unfold partitionsLookup
  rw [if_neg (by simp [accepted.opened]), if_neg (Nat.not_lt.mpr accepted.blksize)]
  have zero : d.readblock 0 mem = (true, d.zero mem) := by
    rw [Disk.zero, Disk.readblock_some given]
  rw [zero]
  dsimp only
  rw [if_neg (by decide), lookupIn, if_neg mac, if_neg fdisk]
  unfold front
  split_ifs with large
  · rcases found : identifyIsoFs d (d.zero mem) with ⟨_ | n, left⟩
    · exact lookupAmiga_eq d left
    · exact absurd ⟨large, by rw [found]; rfl⟩ iso
  · exact lookupAmiga_eq d (d.zero mem)

/-- The condition on the disk under which the dispatch is right. -/
def Warranted (d : Disk) (mem : Bytes) : Prop :=
  OtherTable d mem ∨
    ∃ m, Starts d mem m ∧
      (FirstRdb d mem m ∨ (∀ i < amigaRdbMax, ¬ Rdb d mem i) ∧ Unchained d m)

theorem FirstRdb.unique (first : FirstRdb d mem m) (second : FirstRdb d mem x) : m = x := by
  obtain ⟨i, b, -, given, valid, before, rfl⟩ := first
  obtain ⟨j, c, -, given', valid', before', rfl⟩ := second
  rcases Nat.lt_trichotomy i j with less | rfl | more
  · exact absurd ⟨b, given, valid⟩ (before' i less)
  · rw [given] at given'
    cases given'
    rfl
  · exact absurd ⟨c, given', valid'⟩ (before j more)

theorem exists_firstRdb (less : i < amigaRdbMax) (rdb : Rdb d mem i) : ∃ m, FirstRdb d mem m := by
  induction i using Nat.strong_induction_on with
  | _ i ih =>
    by_cases earlier : ∃ j < i, Rdb d mem j
    · obtain ⟨j, before, found⟩ := earlier
      exact ih j before (before.trans less) found
    · obtain ⟨b, given, valid⟩ := rdb
      exact ⟨_, i, b, less, given, valid, fun j before found => earlier ⟨j, before, found⟩, rfl⟩

/-- The dispatch is right exactly when one of the other tables is found, or the
walk starts from the first rigid disk block, or there is none and the block the
walk starts from names no valid partition. -/
theorem partitionsLookup_dispatched_iff (d : Disk) (mem : Bytes) (accepted : d.Accepted) :
    Dispatched d mem ↔ Warranted d mem := by
  obtain ⟨b, given⟩ := Option.isSome_iff_exists.mp accepted.readable
  have starts : Starts d mem (amigaFindRdb d (front d mem)).2 := amigaFindRdb_starts given
  by_cases other : OtherTable d mem
  · exact iff_of_true ⟨fun _ => .inl other, fun none => absurd other none⟩ (.inl other)
  have list := partitionsLookup_amiga accepted other
  constructor
  · intro right
    refine .inr ⟨_, starts, ?_⟩
    by_cases rdb : ∃ i < amigaRdbMax, Rdb d mem i
    · obtain ⟨i, less, found⟩ := rdb
      obtain ⟨m, first⟩ := exists_firstRdb less found
      rw [right.start other m first]
      exact .inl first
    · refine .inr ⟨fun i less found => rdb ⟨i, less, found⟩, ?_⟩
      rw [← partitionAmigaLookup_nil_iff, ← list]
      by_contra some_
      exact (right.warranted some_).elim other rdb
  · rintro (found | ⟨m, start, good⟩)
    · exact absurd found other
    cases start.unique starts
    refine ⟨fun some_ => .inr ?_, fun _ m first => ?_⟩
    · rcases good with ⟨i, c, less, given, valid, -⟩ | ⟨-, unchained⟩
      · exact ⟨i, less, c, given, valid⟩
      · rw [list, partitionAmigaLookup_nil_iff.mpr unchained] at some_
        exact absurd rfl some_
    · rcases good with here | ⟨none, -⟩
      · exact here.unique first
      · obtain ⟨i, c, less, given, valid, -⟩ := first
        exact absurd ⟨c, given, valid⟩ (none i less)

theorem StopsAt.rdb (blocks : sought d mem i = (d.block i).map (d.put mem))
    (stops : StopsAt d mem i m) : ∃ b, d.block i = some b ∧ m = d.put mem b := by
  obtain ⟨-, here, -⟩ := stops
  rw [blocks, Option.map_eq_some_iff] at here
  obtain ⟨b, given, same⟩ := here
  exact ⟨b, given, same.symm⟩

/-- On a disk with blocks of another size than a CD the first rigid disk block is
found if the blocks before it can be read; a disk without one must name no
partition in block 0. -/
theorem warranted_iff_of_ne (accepted : d.Accepted) (size : d.blksize ≠ 2048) :
    Warranted d mem ↔ OtherTable d mem ∨
      (∃ i < amigaRdbMax, Rdb d mem i ∧ ∀ j < i, ¬ Rdb d mem j ∧ (d.block j).isSome) ∨
      (∀ i < amigaRdbMax, ¬ Rdb d mem i) ∧ Unchained d (d.zero mem) := by
  obtain ⟨b, given⟩ := Option.isSome_iff_exists.mp accepted.readable
  have zero : d.zero mem = d.put mem b := by rw [Disk.zero, Disk.readblock_some given]
  have blocks : ∀ j, sought d mem j = (d.block j).map (d.put mem) := by
    intro j
    by_cases first : j = 0
    · subst first
      rw [sought_zero, front, if_neg size, zero, given]
      rfl
    · rw [sought, if_neg first]
  refine or_congr_right ⟨?_, ?_⟩
  · rintro ⟨m, start, ⟨i, c, less, here, valid, before, rfl⟩ | ⟨none, unchained⟩⟩
    · refine .inl ⟨i, less, ⟨c, here, valid⟩, fun j earlier => ⟨before j earlier, ?_⟩⟩
      rcases start with ⟨k, stops⟩ | ⟨-, same⟩
      · obtain ⟨x, there, same⟩ := stops.rdb (blocks k)
        have late : ¬ k < i := fun early => before k early ⟨x, there, by rw [← same]; exact valid⟩
        obtain ⟨-, -, -, readable⟩ := stops
        obtain ⟨y, found, -⟩ := readable j (by omega)
        rw [blocks, Option.map_eq_some_iff] at found
        obtain ⟨z, read, -⟩ := found
        rw [read]
        rfl
      · have early : Rdb d mem 0 := ⟨b, given, by rw [← zero, ← same]; exact valid⟩
        exact absurd early (before 0 (by omega))
    · refine .inr ⟨none, ?_⟩
      rcases start with ⟨k, stops⟩ | ⟨-, rfl⟩
      · obtain ⟨x, there, rfl⟩ := stops.rdb (blocks k)
        obtain ⟨less, -, valid, -⟩ := stops
        exact absurd ⟨x, there, valid⟩ (none k less)
      · exact unchained
  · rintro (⟨i, less, ⟨c, here, valid⟩, before⟩ | ⟨none, unchained⟩)
    · have first : FirstRdb d mem (d.put mem c) :=
        ⟨i, c, less, here, valid, fun j earlier => (before j earlier).1, rfl⟩
      refine ⟨d.put mem c, .inl ⟨i, less, by rw [blocks, here]; rfl, valid, ?_⟩, .inl first⟩
      intro j earlier
      obtain ⟨other, readable⟩ := before j earlier
      obtain ⟨x, there⟩ := Option.isSome_iff_exists.mp readable
      refine ⟨d.put mem x, by rw [blocks, there]; rfl, fun good => other ⟨x, there, good⟩⟩
    · refine ⟨d.zero mem, .inr ⟨?_, rfl⟩, .inr ⟨none, unchained⟩⟩
      intro k x stops
      obtain ⟨y, there, rfl⟩ := stops.rdb (blocks k)
      obtain ⟨less, -, valid, -⟩ := stops
      exact none k less ⟨y, there, valid⟩

/-- A block given by its words. -/
def ofWords (w : Nat → Nat) : Bytes := fun i => UInt8.ofNat (w (i / 4) / 256 ^ (3 - i % 4))

/-- A disk of 512-byte blocks that holds the given block 1 and is empty otherwise,
except that block 0 names block 1 where a rigid disk block names its partitions. -/
def oneBlock (b : Bytes) : Disk where
  opened := true
  getblksize := 512
  block n := some (if n = 0 then ofWords fun i => if i = 7 then 1 else 0
    else if n = 1 then b else fun _ => 0)
  wreck _ mem := mem
  malloc _ := true
  heap _ := 0

/-- A rigid disk block without partitions. -/
def rigidBlock : Bytes := ofWords fun
  | 0 => amigaIdRdb
  | 1 => 3
  | 2 => 0xadbbacb2
  | 7 => amigaEnd
  | _ => 0

/-- A partition block, the last of its list. -/
def partitionBlock : Bytes := ofWords fun
  | 0 => amigaIdPart
  | 1 => 3
  | 2 => 0xafbeada9
  | 4 => amigaEnd
  | _ => 0

/-- A rigid disk block in block 1, which names no partitions, is the only table of the disk. -/
theorem rigid_disk_dispatched : Dispatched (oneBlock rigidBlock) (fun _ => 0) := by
  refine (partitionsLookup_dispatched_iff _ _ ⟨rfl, by decide, rfl⟩).mpr (.inr ?_)
  refine ⟨_, .inl ⟨1, by decide, rfl, by decide +kernel, ?_⟩, .inl ?_⟩
  · intro j less
    obtain rfl : j = 0 := by omega
    exact ⟨_, rfl, by decide +kernel⟩
  · refine ⟨1, rigidBlock, by decide, rfl, by decide +kernel, ?_, rfl⟩
    rintro j less ⟨b, given, valid⟩
    obtain rfl : j = 0 := by omega
    cases given
    exact absurd valid (by decide +kernel)

/-- A disk without any table, on which block 0 happens to name a partition block. -/
theorem no_table_partitions : ¬ Dispatched (oneBlock partitionBlock) (fun _ => 0) := by
  intro right
  have accepted : (oneBlock partitionBlock).Accepted := ⟨rfl, by decide, rfl⟩
  have other : ¬ OtherTable (oneBlock partitionBlock) (fun _ => 0) := by
    rintro (mac | fdisk | iso)
    · exact absurd (show word16 _ 0 = _ from mac) (by decide +kernel)
    · exact absurd fdisk.1 (by decide +kernel)
    · exact absurd iso.1 (by decide)
  have some_ : partitionsLookup (oneBlock partitionBlock) (fun _ => 0) ≠ [] := by
    rw [partitionsLookup_amiga accepted other, Ne, partitionAmigaLookup_nil_iff]
    intro unchained
    obtain ⟨m, start⟩ : ∃ m, m = (amigaFindRdb (oneBlock partitionBlock)
      (front (oneBlock partitionBlock) fun _ => 0)).2 := ⟨_, rfl⟩
    have named : amigaBlock m 7 = 1 := by rw [start]; decide +kernel
    rw [← start] at unchained
    have marked := unchained rfl (by rw [named]; decide) partitionBlock (by rw [named]; rfl)
      (by rw [start]; decide +kernel)
    rw [named, start] at marked
    exact absurd marked (by decide +kernel)
  rcases right.warranted some_ with found | ⟨i, less, b, given, valid⟩
  · exact other found
  · by_cases first : i = 0
    · subst first
      cases given
      exact absurd valid (by decide +kernel)
    by_cases second : i = 1
    · subst second
      cases given
      exact absurd valid (by decide +kernel)
    · simp only [oneBlock, if_neg first, if_neg second] at given
      cases given
      exact absurd valid (by decide +kernel)

end Yaboot.Partition
