import Mathlib.Algebra.BigOperators.Group.List.Basic
import Yaboot.Base.Word

/-! The ramdisk of `yaboot_text_ui`: memory is claimed and filled chunk by chunk,
until a read is no longer as long as the chunk. -/
namespace Yaboot.Elf.Ramdisk
open Word

/-! ### Loading -/

def initrdChunksize : Nat := 0x100000

/-- How much is read at a time: a bit more than the file has, if its size is known. -/
def chunkLen (inoSize : Option Nat) : Nat :=
  match inoSize with
  | some size => if 0 < size then u32 (size + 0x1000) else initrdChunksize
  | none => initrdChunksize

/-- An `int` stored in an `unsigned long`. -/
def ofInt32 (i : Int) : Nat := (i % 2 ^ 32).toNat

/-- A round of the loop: what `prom_claim` and the read return. -/
structure Round where
  claimed : Nat
  read : Int

/-- `initrd_base` and `initrd_size`, with the memory that was claimed and the reads
that were made: their addresses, and what they returned. -/
structure Initrd where
  base : Nat
  size : Nat
  claims : List (Nat × Nat)
  reads : List (Nat × Int)
  deriving DecidableEq, Repr

def Initrd.add (i : Initrd) (len want : Nat) (read : Int) : Initrd where
  base := i.base
  size := u32 (i.size + ofInt32 read)
  claims := i.claims ++ [(want, len)]
  reads := i.reads ++ [(want, read)]

/-- The loop, `initrd_more` being the last chunk and `initrd_read` what was read
there. The rounds are those the firmware and the file system make of it; there is
no result when they are not enough. -/
def chunkLoop (len more initrdRead : Nat) (i : Initrd) : List Round → Option Initrd
  | [] => if initrdRead = len then none else some i
  | r :: rest =>
    if initrdRead = len then
      let initrdWant := u32 (more + len)
      if r.claimed ≠ initrdWant then some i
      else chunkLoop len initrdWant (ofInt32 r.read) (i.add len initrdWant r.read) rest
    else some i

/-- Loading from an open file: `chunk` is the memory `prom_claim_chunk` has found,
and `first` what the first read returns. -/
def loadRamdisk (len : Nat) (chunk : Option Nat) (first : Int) (rounds : List Round) :
    Option Initrd :=
  match chunk with
  | none => some ⟨0, 0, [], []⟩
  | some found =>
    let initrdSize := ofInt32 first
    let initrdBase := if initrdSize = 0 then 0 else found
    chunkLoop len initrdBase initrdSize ⟨initrdBase, initrdSize, [(found, len)], [(found, first)]⟩
      rounds

/-- The ramdisk code of `yaboot_text_ui`, `inoSize` being what the file system says of
the size of the file. -/
def textUiRamdisk (inoSize : Option Nat) : Option Nat → Int → List Round → Option Initrd :=
  loadRamdisk (chunkLen inoSize)

/-! ### What is asked of it -/

/-- How many bytes the reads delivered. -/
def total (reads : List (Nat × Int)) : Nat := (reads.map fun r => r.2.toNat).sum

/-- The reads follow one another in memory. -/
def Contiguous : Nat → List (Nat × Int) → Prop
  | _, [] => True
  | at_, r :: rest => r.1 = at_ ∧ Contiguous (at_ + r.2.toNat) rest

/-- Everything that was read is in memory that was claimed. -/
def Claimed (i : Initrd) : Prop :=
  ∀ r ∈ i.reads, ∃ c ∈ i.claims, c.1 ≤ r.1 ∧ r.1 + r.2.toNat ≤ c.1 + c.2

/-- What is asked of a ramdisk with an address, and of one that could not be read. -/
structure Assembled (first : Int) (i : Initrd) : Prop where
  size : i.base ≠ 0 → i.size = total i.reads
  contiguous : i.base ≠ 0 → Contiguous i.base i.reads
  claimed : i.base ≠ 0 → Claimed i
  errors : i.base ≠ 0 → ∀ r ∈ i.reads, 0 ≤ r.2
  nothing : first ≤ 0 → i.base = 0 ∧ i.size = 0

/-- What a read of `len` bytes can return: a count, or a negative error. -/
def IsResult (len : Nat) (read : Int) : Prop := -2 ^ 31 ≤ read ∧ read < 2 ^ 31 ∧ read ≤ len

/-- Memory that is granted behind a chunk lies in the address space. -/
def Room (len : Nat) : Nat → List Round → Prop
  | _, [] => True
  | more, r :: rest =>
    r.claimed = u32 (more + len) → more + 2 * len ≤ 2 ^ 32 ∧ Room len (more + len) rest

/-- What the firmware and the file system answer. -/
structure Answers (len : Nat) (chunk : Option Nat) (first : Int) (rounds : List Round) : Prop where
  first : IsResult len first
  reads : ∀ r ∈ rounds, IsResult len r.read
  room : ∀ found, chunk = some found →
    found ≠ 0 ∧ found < 2 ^ 32 ∧ found + len ≤ 2 ^ 32 ∧ Room len found rounds

/-- A result the loop comes to. -/
inductive Reached (len : Nat) : Nat → Int → List Round → Int → Prop
  | here {more : Nat} {read : Int} {r : Round} {rest : List Round} (full : ofInt32 read = len)
      (granted : r.claimed = u32 (more + len)) : Reached len more read (r :: rest) r.read
  | later {more : Nat} {read result : Int} {r : Round} {rest : List Round}
      (full : ofInt32 read = len) (granted : r.claimed = u32 (more + len))
      (behind : Reached len (u32 (more + len)) r.read rest result) :
      Reached len more read (r :: rest) result

/-! ### The loop -/

variable {len more found : Nat} {first read : Int} {rounds : List Round} {i out : Initrd}

theorem ofInt32_of_nonneg (count : 0 ≤ read) (result : IsResult len read) :
    ofInt32 read = read.toNat := by
  obtain ⟨-, high, -⟩ := result
  unfold ofInt32
  omega

theorem ofInt32_ne_zero (error : read < 0) (result : IsResult len read) : ofInt32 read ≠ 0 := by
  obtain ⟨low, -, -⟩ := result
  unfold ofInt32
  omega

theorem total_append (reads : List (Nat × Int)) (at_ : Nat) (read : Int) :
    total (reads ++ [(at_, read)]) = total reads + read.toNat := by
  simp [total]

theorem contiguous_append (reads : List (Nat × Int)) (start at_ : Nat) (read : Int) :
    Contiguous start (reads ++ [(at_, read)]) ↔
      Contiguous start reads ∧ at_ = start + total reads := by
  induction reads generalizing start with
  | nil => simp [Contiguous, total]
  | cons r rest ih =>
    rw [List.cons_append, Contiguous, Contiguous, ih, and_assoc]
    have sum : total (r :: rest) = r.2.toNat + total rest := by simp [total]
    rw [sum, Nat.add_assoc]

theorem Claimed.add (claimed : Claimed i) (le : read ≤ len) : Claimed (i.add len want read) := by
  intro r member
  rcases List.mem_append.mp member with old | new
  · obtain ⟨c, there, inside⟩ := claimed r old
    exact ⟨c, List.mem_append_left _ there, inside⟩
  · obtain rfl := List.mem_singleton.mp new
    refine ⟨(want, len), List.mem_append_right _ List.mem_cons_self, Nat.le_refl _, ?_⟩
    dsimp only
    omega

/-- What holds when the loop asks for more. -/
structure Filled (len more : Nat) (read : Int) (i : Initrd) : Prop where
  base : i.base ≠ 0
  size : i.size = total i.reads
  contiguous : Contiguous i.base i.reads
  claimed : Claimed i
  errors : ∀ r ∈ i.reads, 0 ≤ r.2
  low : more < 2 ^ 32
  full : ofInt32 read = len → more + len = i.base + total i.reads

/-- A chunk read in full is added behind the ones before it, and the ramdisk stays in one piece.
-/
theorem Filled.add (filled : Filled len more read i) (full : ofInt32 read = len)
    (room : more + 2 * len ≤ 2 ^ 32) (count : 0 ≤ next) (result : IsResult len next) :
    Filled len (u32 (more + len)) next (i.add len (u32 (more + len)) next) := by
  have place := filled.full full
  have small := filled.low
  have some_ := filled.base
  obtain ⟨-, high, le⟩ := result
  have want : u32 (more + len) = more + len := u32_of_lt (by omega)
  have amount : ofInt32 next = next.toNat := ofInt32_of_nonneg count ⟨by omega, high, le⟩
  rw [want]
  refine ⟨some_, ?_, ?_, filled.claimed.add le, ?_, by omega, fun whole => ?_⟩
  · unfold Initrd.add
    dsimp only
    rw [total_append, amount, filled.size, u32_of_lt (by omega)]
  · exact (contiguous_append _ _ _ _).mpr ⟨filled.contiguous, place⟩
  · intro r member
    rcases List.mem_append.mp member with old | new
    · exact filled.errors r old
    · rw [List.mem_singleton.mp new]
      exact count
  · rw [amount] at whole
    unfold Initrd.add
    dsimp only
    rw [total_append]
    omega

/-- The loop stops where it is, or claims the next chunk, reads into it and goes on
from there. -/
theorem chunkLoop_cases (finished : chunkLoop len more (ofInt32 read) i rounds = some out) :
    (out = i ∧ ∀ result, ¬ Reached len more read rounds result) ∨
      ∃ r rest, rounds = r :: rest ∧ ofInt32 read = len ∧ r.claimed = u32 (more + len) ∧
        chunkLoop len (u32 (more + len)) (ofInt32 r.read) (i.add len (u32 (more + len)) r.read)
          rest = some out := by
  cases rounds with
  | nil =>
    unfold chunkLoop at finished
    split at finished
    · cases finished
    · exact .inl ⟨(Option.some.inj finished).symm, fun result reached => nomatch reached⟩
  | cons r rest =>
    unfold chunkLoop at finished
    dsimp only at finished
    split at finished
    · rename_i full
      split at finished
      · rename_i other
        refine .inl ⟨(Option.some.inj finished).symm, fun result reached => ?_⟩
        cases reached with
        | here _ granted => exact other granted
        | later _ granted _ => exact other granted
      · rename_i granted
        exact .inr ⟨r, rest, rfl, full, Decidable.not_not.mp granted, finished⟩
    · rename_i short
      refine .inl ⟨(Option.some.inj finished).symm, fun result reached => ?_⟩
      cases reached with
      | here full _ => exact short full
      | later full _ _ => exact short full

/-- The results behind a full chunk are those of the next round and of the loop from
there. -/
theorem reached_cons (full : ofInt32 read = len) (granted : r.claimed = u32 (more + len)) :
    Reached len more read (r :: rest) result ↔
      result = r.read ∨ Reached len (u32 (more + len)) r.read rest result := by
  constructor
  · intro reached
    cases reached with
    | here _ _ => exact .inl rfl
    | later _ _ behind => exact .inr behind
  · rintro (rfl | behind)
    · exact .here full granted
    · exact .later full granted behind

/-- A loop whose reads do not fail ends with all that they delivered. -/
theorem chunkLoop_filled (filled : Filled len more read i) (room : Room len more rounds)
    (results : ∀ r ∈ rounds, IsResult len r.read)
    (counts : ∀ result, Reached len more read rounds result → 0 ≤ result)
    (finished : chunkLoop len more (ofInt32 read) i rounds = some out) :
    ∃ more' read', Filled len more' read' out := by
  induction rounds generalizing more read i with
  | nil =>
    rcases chunkLoop_cases finished with ⟨rfl, -⟩ | ⟨r, rest, none, -⟩
    · exact ⟨more, read, filled⟩
    · cases none
  | cons r rest ih =>
    rcases chunkLoop_cases finished with ⟨rfl, -⟩ | ⟨_, _, same, full, granted, finished⟩
    · exact ⟨more, read, filled⟩
    obtain ⟨rfl, rfl⟩ := List.cons.inj same
    obtain ⟨space, behind⟩ := room granted
    have count := counts r.read (.here full granted)
    have next := filled.add full space count (results r List.mem_cons_self)
    have small := filled.low
    have want : u32 (more + len) = more + len := u32_of_lt (by omega)
    refine ih next (by rw [want]; exact behind)
      (fun q member => results q (List.mem_cons_of_mem _ member))
      (fun result reached => counts result (.later full granted reached)) finished

/-- The loop keeps the address, and every result it comes to. -/
theorem chunkLoop_keeps (finished : chunkLoop len more (ofInt32 read) i rounds = some out) :
    out.base = i.base ∧ (∀ r ∈ i.reads, r ∈ out.reads) ∧
      ∀ result, Reached len more read rounds result → ∃ at_, (at_, result) ∈ out.reads := by
  induction rounds generalizing more read i with
  | nil =>
    rcases chunkLoop_cases finished with ⟨rfl, none⟩ | ⟨r, rest, none, -⟩
    · exact ⟨rfl, fun _ member => member, fun result reached => absurd reached (none result)⟩
    · cases none
  | cons r rest ih =>
    rcases chunkLoop_cases finished with ⟨rfl, none⟩ | ⟨_, _, same, full, granted, finished⟩
    · exact ⟨rfl, fun _ member => member, fun result reached => absurd reached (none result)⟩
    obtain ⟨rfl, rfl⟩ := List.cons.inj same
    obtain ⟨base, old, new⟩ := ih finished
    refine ⟨base, fun q member => old q (List.mem_append_left _ member), fun result reached => ?_⟩
    rcases (reached_cons full granted).mp reached with rfl | behind
    · exact ⟨_, old _ (List.mem_append_right _ List.mem_cons_self)⟩
    · exact new result behind

theorem chunkLoop_stop (short : initrdRead ≠ len) :
    chunkLoop len more initrdRead i rounds = some i := by
  cases rounds <;> exact if_neg short

/-- Chunks of no bytes leave a size of zero, unless one of their reads fails. -/
theorem chunkLoop_empty (results : ∀ r ∈ rounds, IsResult 0 r.read) (start : i.size = 0)
    (finished : chunkLoop 0 more (ofInt32 read) i rounds = some out) :
    out.size = 0 ↔ ∀ result, Reached 0 more read rounds result → 0 ≤ result := by
  induction rounds generalizing more read i with
  | nil =>
    rcases chunkLoop_cases finished with ⟨rfl, none⟩ | ⟨r, rest, none, -⟩
    · exact iff_of_true start fun result reached => absurd reached (none result)
    · cases none
  | cons r rest ih =>
    rcases chunkLoop_cases finished with ⟨rfl, none⟩ | ⟨_, _, same, full, granted, finished⟩
    · exact iff_of_true start fun result reached => absurd reached (none result)
    obtain ⟨rfl, rfl⟩ := List.cons.inj same
    have result := results r List.mem_cons_self
    have size : (i.add 0 (u32 (more + 0)) r.read).size = u32 (0 + ofInt32 r.read) := by
      unfold Initrd.add
      rw [start]
    simp only [reached_cons full granted, forall_eq_or_imp]
    by_cases error : r.read < 0
    · rw [chunkLoop_stop (ofInt32_ne_zero error result)] at finished
      obtain rfl := Option.some.inj finished
      refine iff_of_false ?_ fun counts => absurd counts.1 (by omega)
      rw [size]
      unfold u32 ofInt32 at *
      obtain ⟨low, -, -⟩ := result
      omega
    · have none : r.read = 0 := by
        obtain ⟨-, -, le⟩ := result
        omega
      have zero : (i.add 0 (u32 (more + 0)) r.read).size = 0 := by
        rw [size, none]
        rfl
      rw [ih (fun q member => results q (List.mem_cons_of_mem _ member)) zero finished]
      exact ⟨fun counts => ⟨by omega, counts⟩, fun counts => counts.2⟩

/-! ### When what was read lies in one piece -/

/-- The first chunk, where some of it was read. -/
theorem Filled.start (answers : Answers len (some found) first rounds) (some_ : 0 < first) :
    Filled len found first ⟨found, ofInt32 first, [(found, len)], [(found, first)]⟩ := by
  obtain ⟨nonzero, low, -, -⟩ := answers.room found rfl
  have amount : ofInt32 first = first.toNat := ofInt32_of_nonneg (by omega) answers.first
  have sum : total [(found, first)] = first.toNat := by simp [total]
  refine ⟨nonzero, amount.trans sum.symm, ⟨rfl, trivial⟩, ?_, ?_, low, fun full => ?_⟩
  · intro r member
    obtain rfl := List.mem_singleton.mp member
    obtain ⟨-, -, le⟩ := answers.first
    exact ⟨(found, len), List.mem_cons_self, Nat.le_refl _, by dsimp only; omega⟩
  · intro r member
    rw [List.mem_singleton.mp member]
    exact Int.le_of_lt some_
  · dsimp only
    rw [sum]
    omega

/-- With chunks of any length. -/
theorem loadRamdisk_iff (answers : Answers len chunk first rounds)
    (finished : loadRamdisk len chunk first rounds = some i) :
    Assembled first i ↔
      ∀ found, chunk = some found →
        0 ≤ first ∧ ∀ result, Reached len (if first = 0 then 0 else found) first rounds result →
          0 ≤ result := by
  cases chunk with
  | none =>
    obtain rfl := Option.some.inj finished
    refine iff_of_true ⟨fun base => absurd rfl base, fun base => absurd rfl base,
      fun base => absurd rfl base, fun base => absurd rfl base, fun _ => ⟨rfl, rfl⟩⟩ ?_
    exact fun _ none => nomatch none
  | some found =>
    obtain ⟨nonzero, low, -, room⟩ := answers.room found rfl
    have single : (∀ found', some found = some found' → 0 ≤ first ∧
        ∀ result, Reached len (if first = 0 then 0 else found') first rounds result → 0 ≤ result) ↔
        0 ≤ first ∧ ∀ result, Reached len (if first = 0 then 0 else found) first rounds result →
          0 ≤ result :=
      ⟨fun all => all found rfl, fun one found' same => Option.some.inj same ▸ one⟩
    rw [single]
    have run : chunkLoop len (if ofInt32 first = 0 then 0 else found) (ofInt32 first)
        ⟨if ofInt32 first = 0 then 0 else found, ofInt32 first, [(found, len)], [(found, first)]⟩
        rounds = some i := finished
    by_cases empty : first = 0
    · have zero : ofInt32 first = 0 := by rw [empty]; rfl
      rw [if_pos zero] at run
      rw [if_pos empty]
      have base : i.base = 0 := (chunkLoop_keeps run).1
      have size : i.size = 0 ↔ ∀ result, Reached len 0 first rounds result → 0 ≤ result := by
        by_cases some_ : len = 0
        · subst some_
          exact chunkLoop_empty answers.reads zero run
        · rw [chunkLoop_stop (by rw [zero]; exact Ne.symm some_)] at run
          obtain rfl := Option.some.inj run
          refine iff_of_true zero fun result reached => ?_
          cases reached with
          | here full _ => exact absurd (full.symm.trans zero) some_
          | later full _ _ => exact absurd (full.symm.trans zero) some_
      constructor
      · exact fun right => ⟨by omega, size.mp (right.nothing (by omega)).2⟩
      · rintro ⟨-, counts⟩
        exact ⟨fun some_ => absurd base some_, fun some_ => absurd base some_,
          fun some_ => absurd base some_, fun some_ => absurd base some_,
          fun _ => ⟨base, size.mpr counts⟩⟩
    · have full : ofInt32 first ≠ 0 := by
        obtain ⟨least, most, -⟩ := answers.first
        unfold ofInt32
        omega
      rw [if_neg full] at run
      rw [if_neg empty]
      obtain ⟨base, -, new⟩ := chunkLoop_keeps run
      have some_ : i.base ≠ 0 := fun zero => nonzero (base.symm.trans zero)
      constructor
      · intro right
        have count : 0 ≤ first := by
          by_contra error
          exact some_ (right.nothing (by omega)).1
        refine ⟨count, fun result reached => ?_⟩
        obtain ⟨at_, member⟩ := new result reached
        exact right.errors some_ _ member
      · rintro ⟨count, counts⟩
        have start := Filled.start answers (by omega)
        obtain ⟨more', read', filled⟩ := chunkLoop_filled start room answers.reads counts run
        exact ⟨fun _ => filled.size, fun _ => filled.contiguous, fun _ => filled.claimed,
          fun _ => filled.errors, fun none => by omega⟩

/-- A ramdisk is assembled in one piece, with the size that was read and inside the memory claimed,
exactly when no memory was found for it or no read the code comes to fails. -/
theorem assembled_iff (answers : Answers (chunkLen inoSize) chunk first rounds)
    (finished : textUiRamdisk inoSize chunk first rounds = some i) :
    Assembled first i ↔
      ∀ found, chunk = some found →
        0 ≤ first ∧ ∀ result,
          Reached (chunkLen inoSize) (if first = 0 then 0 else found) first rounds result →
            0 ≤ result :=
  loadRamdisk_iff answers finished

/-- A ramdisk of a chunk and 16 bytes. -/
theorem twoChunks_assembled :
    Assembled 0x100000 ⟨0x1000000, 0x100010, [(0x1000000, 0x100000), (0x1100000, 0x100000)],
      [(0x1000000, 0x100000), (0x1100000, 0x10)]⟩ := by
  have answers : Answers (chunkLen none) (some 0x1000000) 0x100000 [⟨0x1100000, 0x10⟩] := by
    refine ⟨?_, ?_, ?_⟩
    · unfold IsResult
      decide
    · intro r member
      rw [List.mem_singleton.mp member]
      unfold IsResult
      decide
    · intro found same
      obtain rfl := Option.some.inj same
      exact ⟨by decide, by decide, by decide, fun _ => ⟨by decide, trivial⟩⟩
  have finished : textUiRamdisk none (some 0x1000000) 0x100000 [⟨0x1100000, 0x10⟩] =
      some ⟨0x1000000, 0x100010, [(0x1000000, 0x100000), (0x1100000, 0x100000)],
        [(0x1000000, 0x100000), (0x1100000, 0x10)]⟩ := by
    decide
  refine (assembled_iff answers finished).mpr fun found same => ?_
  obtain rfl := Option.some.inj same
  refine ⟨by decide, fun result reached => ?_⟩
  cases reached with
  | here _ _ => decide
  | later _ _ behind => cases behind

/-- A file system that cannot read the ramdisk. -/
theorem failed_read_passed :
    ¬ ∀ (inoSize chunk : Option Nat) (first : Int) (rounds : List Round) (i : Initrd),
      Answers (chunkLen inoSize) chunk first rounds →
        textUiRamdisk inoSize chunk first rounds = some i → Assembled first i := by
  intro right
  have assembled := right none (some 0x1000000) (-4) [] ⟨0x1000000, 0xfffffffc,
    [(0x1000000, 0x100000)], [(0x1000000, -4)]⟩
    ⟨by unfold IsResult; decide, fun _ member => absurd member List.not_mem_nil, fun found same => by
      obtain rfl := Option.some.inj same
      exact ⟨by decide, by decide, by decide, trivial⟩⟩ rfl
  exact absurd (assembled.nothing (by decide)).1 (by decide)

end Yaboot.Elf.Ramdisk
