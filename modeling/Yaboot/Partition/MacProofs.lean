import Mathlib.Data.Nat.Find
import Yaboot.Partition.Mac

/-! The type of a partition is copied without its terminator when it fills its
field, and is then read on into the name that stands behind it. -/
namespace Yaboot.Partition
open Buffer CString Word Fs

variable {d : Disk} {h : Heap} {mem m : Bytes} {k n : Nat}

/-! ### Strings in memory -/

theorem strncpy_outside (outside : k < at_ ∨ at_ + n ≤ k) :
    strncpy mem at_ src from_ n k = mem k := by
  induction n generalizing mem at_ from_ with
  | zero => rfl
  | succ n ih =>
    have other : Function.update mem at_ (src from_) k = mem k :=
      Function.update_of_ne (by omega) _ _
    unfold strncpy
    dsimp only
    split
    · exact other
    · rw [ih (by omega), other]

/-- Up to its terminator the copy is the string. -/
theorem strncpy_inside (less : k < n) (nonzero : ∀ j < k, src (from_ + j) ≠ 0) :
    strncpy mem at_ src from_ n (at_ + k) = src (from_ + k) := by
  induction n generalizing mem at_ from_ k with
  | zero => exact absurd less (Nat.not_lt_zero k)
  | succ n ih =>
    unfold strncpy
    dsimp only
    cases k with
    | zero =>
      split
      · exact Function.update_self _ _ _
      · rw [strncpy_outside (by omega)]
        exact Function.update_self _ _ _
    | succ k =>
      have first : src from_ ≠ 0 := nonzero 0 (Nat.succ_pos k)
      rw [if_neg first, Nat.add_comm k 1, ← Nat.add_assoc, ← Nat.add_assoc]
      apply ih (by omega)
      intro j below
      rw [Nat.add_assoc, Nat.add_comm 1]
      exact nonzero (j + 1) (by omega)

theorem strdup_cons (b : UInt8) (l : List UInt8) :
    strdup (b :: l) = if b = 0 then [] else b :: strdup l := by
  unfold strdup
  rw [List.takeWhile_cons]
  split <;> simp_all

/-- A string ends at its first zero byte. -/
theorem strdup_first (less : n < len) (zero : mem (start + n) = 0)
    (nonzero : ∀ j < n, mem (start + j) ≠ 0) :
    strdup ((List.range' start len).map mem) = (List.range' start n).map mem := by
  induction n generalizing start len with
  | zero =>
    obtain ⟨len, rfl⟩ : ∃ k, len = k + 1 := ⟨len - 1, by omega⟩
    have first : mem start = 0 := zero
    rw [List.range'_succ, List.map_cons, strdup_cons, if_pos first]
    rfl
  | succ n ih =>
    obtain ⟨len, rfl⟩ : ∃ k, len = k + 1 := ⟨len - 1, by omega⟩
    have rest : strdup ((List.range' (start + 1) len).map mem) =
        (List.range' (start + 1) n).map mem := ih (by omega)
      (by rw [Nat.add_assoc, Nat.add_comm 1]; exact zero)
      fun j below => by rw [Nat.add_assoc, Nat.add_comm 1]; exact nonzero (j + 1) (by omega)
    have first : mem start ≠ 0 := nonzero 0 (Nat.succ_pos n)
    rw [List.range'_succ, List.map_cons, strdup_cons, if_neg first, rest, List.range'_succ,
      List.map_cons]

theorem strdup_full (nonzero : ∀ j < n, mem (start + j) ≠ 0) :
    strdup ((List.range' start n).map mem) = (List.range' start n).map mem := by
  apply List.takeWhile_eq_self_iff.mpr
  intro b member
  obtain ⟨i, there, rfl⟩ := List.mem_map.mp member
  rw [List.mem_range'_1] at there
  have byte := nonzero (i - start) (by omega)
  rw [show start + (i - start) = i by omega] at byte
  simpa using byte

/-- A string is longer than any run of bytes it begins with. -/
theorem strdup_longer (less : n ≤ len) (nonzero : ∀ j < n, mem (start + j) ≠ 0) :
    n ≤ (strdup ((List.range' start len).map mem)).length := by
  obtain ⟨rest, rfl⟩ : ∃ rest, len = n + rest := ⟨len - n, by omega⟩
  have bytes := strdup_full nonzero
  unfold strdup at bytes ⊢
  have passes := List.takeWhile_eq_self_iff.mp bytes
  rw [← List.range'_append_1, List.map_append, List.takeWhile_append_of_pos passes,
    List.length_append, List.length_map, List.length_range']
  exact Nat.le_add_right n _

/-- The first zero byte among `n`, or none. -/
theorem first_zero (mem : Bytes) (start n : Nat) :
    (∃ i < n, mem (start + i) = 0 ∧ ∀ j < i, mem (start + j) ≠ 0) ∨
      ∀ j < n, mem (start + j) ≠ 0 := by
  by_cases some_ : ∃ i, i < n ∧ mem (start + i) = 0
  · obtain ⟨less, zero⟩ := Nat.find_spec some_
    refine .inl ⟨Nat.find some_, less, zero, fun j below zero => ?_⟩
    exact Nat.find_min some_ below ⟨by omega, zero⟩
  · exact .inr fun j less zero => some_ ⟨j, less, zero⟩

/-! ### The structure of an entry -/

theorem addNewPartition_type (less : k < 32) (nonzero : ∀ j < k, type (t + j) ≠ 0) :
    addNewPartition part entry type t name s (8 + k) = type (t + k) := by
  unfold addNewPartition store32 store16 maxPartName
  rw [blit_outside _ _ (.inl (by omega)), blit_outside _ _ (.inl (by omega)),
    blit_outside _ _ (.inl (by omega)), blit_outside _ _ (.inl (by omega)),
    strncpy_outside (.inl (by omega)), strncpy_inside less nonzero]

theorem addNewPartition_name (part : Bytes) (entry : Partition) (type name : Bytes) (t s : Nat) :
    addNewPartition part entry type t name s 40 = name s := by
  unfold addNewPartition store32 store16 maxPartName
  rw [blit_outside _ _ (.inl (by omega)), blit_outside _ _ (.inl (by omega)),
    blit_outside _ _ (.inl (by omega)), blit_outside _ _ (.inl (by omega))]
  exact strncpy_inside (k := 0) (by omega) fun j less => absurd less (Nat.not_lt_zero j)

theorem map_range'_congr (same : ∀ j < n, mem (s + j) = m (t + j)) :
    (List.range' s n).map mem = (List.range' t n).map m := by
  apply List.ext_getElem
  · simp
  · intro i less _
    rw [List.length_map, List.length_range'] at less
    simpa using same i less

/-- A type that fills its field is read with the name behind it, if there is one. -/
theorem partType_eq_iff (part : Bytes) (entry : Partition) (m : Bytes) :
    partType (addNewPartition part entry m 48 m 16) = typeField m ↔
      (∃ i < 32, m (48 + i) = 0) ∨ m 16 = 0 := by
  obtain ⟨p, filled⟩ : ∃ p, p = addNewPartition part entry m 48 m 16 := ⟨_, rfl⟩
  have byte : ∀ k < 32, (∀ j < k, m (48 + j) ≠ 0) → p (8 + k) = m (48 + k) :=
    fun k less nonzero => filled ▸ addNewPartition_type less nonzero
  have name : p 40 = m 16 := filled ▸ addNewPartition_name part entry m m 48 16
  rw [← filled]
  unfold partType typeField
  rcases first_zero m 48 32 with ⟨i, less, zero, nonzero⟩ | nonzero
  · have same : ∀ j < i, p (8 + j) = m (48 + j) := fun j below =>
      byte j (by omega) fun k lower => nonzero k (by omega)
    have read : strdup ((List.range' 8 80).map p) = (List.range' 8 i).map p := by
      apply strdup_first (by omega)
      · rw [byte i less nonzero, zero]
      · intro j below
        rw [same j below]
        exact nonzero j below
    rw [read, strdup_first less zero nonzero, map_range'_congr same]
    exact iff_of_true rfl (.inl ⟨i, less, zero⟩)
  · have same : ∀ j < 32, p (8 + j) = m (48 + j) := fun j below =>
      byte j below fun k lower => nonzero k (by omega)
    have kept : ∀ j < 32, p (8 + j) ≠ 0 := fun j below => by
      rw [same j below]
      exact nonzero j below
    rw [strdup_full nonzero]
    constructor
    · intro read
      right
      by_contra named
      have longer : 33 ≤ (strdup ((List.range' 8 80).map p)).length := by
        apply strdup_longer (by omega)
        intro j below
        by_cases last : j = 32
        · rw [last, name]
          exact named
        · exact kept j (by omega)
      rw [read, List.length_map, List.length_range'] at longer
      omega
    · rintro (⟨i, less, zero⟩ | empty)
      · exact absurd zero (nonzero i less)
      · have read : strdup ((List.range' 8 80).map p) = (List.range' 8 32).map p :=
          strdup_first (by omega) (name.trans empty) kept
        rw [read, map_range'_congr same]

/-! ### The lists and their structures -/

theorem macRecords_entries (d : Disk) (h : Heap) (size left block : Nat) (mem : Bytes)
    (list : List Record) :
    (macRecords d h size left block mem list).map Record.entry =
      macLoop d size left block mem (list.map Record.entry) := by
  induction left generalizing block mem list with
  | zero => rfl
  | succ left ih =>
    unfold macRecords macLoop
    dsimp only
    split
    · rfl
    · split
      · rfl
      · exact ih _ _ _

theorem otherRecord_entries (h : Heap) (type : Bytes) (list : List Partition) :
    (list.map (otherRecord h type)).map Record.entry = list := by
  rw [List.map_map]
  exact List.map_id list

/-- The structures are those of the entries. -/
theorem recordsLookup_entries (d : Disk) (h : Heap) (mem : Bytes) :
    (recordsLookup d h mem).map Record.entry = partitionsLookup d mem := by
  have mac : ∀ m, (macLookupRecords d h m).map Record.entry = partitionMacLookup d m := by
    intro m
    unfold macLookupRecords partitionMacLookup
    dsimp only
    split
    · rfl
    · split
      · rfl
      · exact macRecords_entries _ _ _ _ _ _ _
  have table : ∀ m, (recordsIn d h m).map Record.entry = lookupIn d m := by
    intro m
    unfold recordsIn lookupIn
    split
    · exact mac m
    · split
      · exact otherRecord_entries _ _ _
      · split
        · generalize identifyIsoFs d m = iso
          obtain ⟨_ | block, rest⟩ := iso
          · exact otherRecord_entries _ _ _
          · rfl
        · exact otherRecord_entries _ _ _
  unfold recordsLookup partitionsLookup
  dsimp only
  split
  · rfl
  · split
    · rfl
    · split
      · rfl
      · exact table _

/-! ### The map -/

theorem takeWhile_range' (p : Nat → Bool) (s n : Nat) :
    (List.range' s n).takeWhile p =
      List.range' s ((List.range' s n).takeWhile p).length := by
  have start := List.takeWhile_prefix p (l := List.range' s n)
  have shorter := start.length_le
  rw [List.length_range'] at shorter
  have taken := List.prefix_iff_eq_take.mp start
  rwa [List.take_range'_of_length_ge shorter] at taken

/-- Block `k` of the map, in the structure made from it. -/
def mapRecord (d : Disk) (h : Heap) (mem : Bytes) (size k : Nat) : Record :=
  macRecord h size k (macBuffer d mem k)

/-- The loop makes structures from the good blocks it meets first. -/
theorem macRecords_eq (over_ : d.Over mem m) (h : Heap) (size left block : Nat)
    (list : List Record) :
    macRecords d h size left block m list =
      (((List.range' block left).takeWhile (macGood d mem)).map (mapRecord d h mem size)).reverse ++
        list := by
  induction left generalizing block m list with
  | zero => rfl
  | succ left ih =>
    unfold macRecords
    rw [List.range'_succ, List.takeWhile_cons]
    cases given : d.block block with
    | none =>
      have bad : macGood d mem block = false := by
        unfold macGood
        rw [given]
      rw [Disk.readblock_none given, bad]
      rfl
    | some b =>
      have buffer : macBuffer d mem block = d.put mem b := by
        unfold macBuffer
        rw [given]
      rw [Disk.readblock_some given, over_.put]
      by_cases magic : word16 (d.put mem b) 0 = macPartitionMagic
      · have good : macGood d mem block = true := by
          unfold macGood
          rw [given]
          exact beq_iff_eq.mpr magic
        have rest := ih ⟨b, rfl⟩ (block + 1) (macRecord h size block (d.put mem b) :: list)
        rw [good, if_pos rfl, List.map_cons, List.reverse_cons, List.append_assoc,
          List.singleton_append, mapRecord, buffer, ← rest]
        dsimp only
        rw [if_neg (by decide), if_neg (not_not_intro magic)]
      · have bad : macGood d mem block = false := by
          unfold macGood
          rw [given]
          exact beq_eq_false_iff_ne.mpr magic
        rw [bad]
        dsimp only
        rw [if_neg (by decide), if_pos magic]
        rfl

/-- The whole map. -/
theorem macLookupRecords_eq (over_ : d.Over mem m) (h : Heap) (few : mapCount d mem < 2 ^ 31 - 1) :
    macLookupRecords d h m =
      ((List.range' 1 (mapLength d mem)).map (mapRecord d h mem (word16 m 2))).reverse := by
  unfold mapLength
  rw [← takeWhile_range']
  obtain ⟨n, length⟩ : ∃ n, max 1 (mapCount d mem) = n + 1 := ⟨max 1 (mapCount d mem) - 1, by omega⟩
  rw [length, List.range'_succ, List.takeWhile_cons]
  unfold macLookupRecords
  cases given : d.block 1 with
  | none =>
    have bad : macGood d mem 1 = false := by
      unfold macGood
      rw [given]
    rw [Disk.readblock_none given, bad]
    rfl
  | some b =>
    have buffer : macBuffer d mem 1 = d.put mem b := by
      unfold macBuffer
      rw [given]
    rw [Disk.readblock_some given, over_.put]
    by_cases magic : word16 (d.put mem b) 0 = macPartitionMagic
    · have good : macGood d mem 1 = true := by
        unfold macGood
        rw [given]
        exact beq_iff_eq.mpr magic
      have count : (s32 (word32 (d.put mem b) 4 + 1) - 2).toNat = n := by
        unfold mapCount at few length
        rw [buffer] at few length
        rw [s32_of_lt (by omega)]
        omega
      have holds : d.Over mem (d.put mem b) := ⟨b, rfl⟩
      have rest := macRecords_eq holds h (word16 m 2) n 2 [macRecord h (word16 m 2) 1 (d.put mem b)]
      rw [good, if_pos rfl, List.map_cons, List.reverse_cons, mapRecord, buffer, ← rest]
      dsimp only
      rw [if_neg (by decide), if_neg (not_not_intro magic), count]
    · have bad : macGood d mem 1 = false := by
        unfold macGood
        rw [given]
        exact beq_eq_false_iff_ne.mpr magic
      rw [bad]
      dsimp only
      rw [if_neg (by decide), if_pos magic]
      rfl

/-- An Apple disk, of a kind of device that has partitions. -/
structure MacMap (deviceKind : Except FileErr DeviceKind) (d : Disk) (mem : Bytes) : Prop where
  kind : deviceKind = .ok .block ∨ deviceKind = .ok .iscsi
  accepted : d.Accepted
  signature : MacDisk d mem
  few : mapCount d mem < 2 ^ 31 - 1

theorem MacMap.records (map : MacMap deviceKind d mem) (h : Heap) :
    recordsLookup d h mem =
      ((List.range' 1 (mapLength d mem)).map
        (mapRecord d h mem (word16 (d.zero mem) 2))).reverse := by
  obtain ⟨b, zero⟩ := Option.isSome_iff_exists.mp map.accepted.readable
  have small : ¬ maxBlockSize < d.blksize := Nat.not_lt.mpr map.accepted.blksize
  have buffer : (d.readblock 0 mem).2 = d.zero mem := rfl
  have read : (d.readblock 0 mem).1 = true := by rw [Disk.readblock_some zero]
  have signature : word16 (d.zero mem) 0 = macDriverMagic := map.signature
  unfold recordsLookup recordsIn
  dsimp only
  rw [map.accepted.opened, read, buffer, if_neg (by decide), if_neg small, if_neg (by decide),
    if_pos signature]
  exact macLookupRecords_eq (zero_over d mem) h map.few

theorem MacMap.entries (map : MacMap deviceKind d mem) : partitionsLookup d mem =
    ((List.range' 1 (mapLength d mem)).map fun k =>
      macEntry (word16 (d.zero mem) 2) k (macBuffer d mem k)).reverse := by
  let h : Heap := ⟨fun _ _ => 0, fun _ => 0⟩
  rw [← recordsLookup_entries d h mem, map.records, List.map_reverse, List.map_map]
  rfl

/-- Block `k` of the map is listed under the number `k`. -/
theorem MacMap.listed (map : MacMap deviceKind d mem) (first : 1 ≤ k) (last : k ≤ mapLength d mem) :
    macEntry (word16 (d.zero mem) 2) k (macBuffer d mem k) ∈ partitionsLookup d mem := by
  rw [map.entries, List.mem_reverse]
  exact List.mem_map_of_mem (List.mem_range'_1.mpr ⟨first, by omega⟩)

/-- The numbers of a map are positive and fit in an `int`. -/
theorem MacMap.number (map : MacMap deviceKind d mem) (listed : p ∈ partitionsLookup d mem) :
    1 ≤ p.partNumber ∧ p.partNumber ≤ max 1 (mapCount d mem) ∧ p.partNumber < 2 ^ 31 := by
  have few := map.few
  have length : mapLength d mem ≤ max 1 (mapCount d mem) := by
    have prefix_le := (List.takeWhile_prefix (macGood d mem)
      (l := List.range' 1 (max 1 (mapCount d mem)))).length_le
    rwa [List.length_range'] at prefix_le
  rw [map.entries, List.mem_reverse] at listed
  obtain ⟨k, inside, rfl⟩ := List.mem_map.mp listed
  obtain ⟨first, last⟩ := List.mem_range'_1.mp inside
  have number : (macEntry (word16 (d.zero mem) 2) k (macBuffer d mem k)).partNumber = k := rfl
  omega

/-- Numbers from 1 on tell the structures apart. -/
theorem find_record {f : Nat → Record} (number : ∀ k, (f k).entry.partNumber = k) (n k : Nat) :
    ((List.range' 1 n).map f).reverse.find?
        (fun p => (0 : Int) ≤ k ∧ (k : Int) = p.entry.partNumber) =
      if 1 ≤ k ∧ k ≤ n then some (f k) else none := by
  induction n with
  | zero =>
    rw [if_neg (by omega)]
    rfl
  | succ n ih =>
    rw [List.range'_1_concat, List.map_append, List.reverse_append, List.map_singleton,
      List.reverse_singleton, List.singleton_append, List.find?_cons, ih, number]
    by_cases last : k = 1 + n
    · have here : (decide ((0 : Int) ≤ k ∧ (k : Int) = (1 + n : Nat))) = true :=
        decide_eq_true ⟨by omega, by omega⟩
      have inside : 1 ≤ 1 + n ∧ 1 + n ≤ n + 1 := by omega
      rw [here, last, if_pos inside]
    · have other : (decide ((0 : Int) ≤ k ∧ (k : Int) = (1 + n : Nat))) = false :=
        decide_eq_false (by omega)
      rw [other]
      by_cases inside : 1 ≤ k ∧ k ≤ n
      · rw [if_pos inside, if_pos (by omega)]
      · rw [if_neg inside, if_neg (by omega)]

theorem MacMap.type (map : MacMap deviceKind d mem) (h : Heap) (k : Nat) :
    getPartType deviceKind d h mem k =
      if 1 ≤ k ∧ k ≤ mapLength d mem then
        some (partType (mapRecord d h mem (word16 (d.zero mem) 2) k).part)
      else none := by
  have kind : getPartType deviceKind d h mem k =
      ((recordsLookup d h mem).find? fun p => (0 : Int) ≤ k ∧ (k : Int) = p.entry.partNumber).map
        fun p => partType p.part := by
    unfold getPartType
    rcases map.kind with rfl | rfl <;> rfl
  rw [kind, map.records, find_record fun _ => rfl]
  split <;> rfl

/-- An Apple partition map is read right, its entries and the type of every partition, exactly when
every type that fills its field belongs to a partition without a name: the field is read as a string
and goes on into the next. -/
theorem map_read_iff (map : MacMap deviceKind d mem) (h : Heap) :
    MapRead deviceKind d h mem ↔
      ∀ k, 1 ≤ k → k ≤ mapLength d mem →
        (∃ i < 32, macBuffer d mem k (48 + i) = 0) ∨ macBuffer d mem k 16 = 0 := by
  constructor
  · intro right k first last
    have read := right.types k
    rw [map.type, if_pos ⟨first, last⟩, if_pos ⟨first, last⟩] at read
    exact (partType_eq_iff _ _ _).mp (Option.some.inj read)
  · intro ends
    refine ⟨?_, fun k => ?_⟩
    · exact map.entries
    · rw [map.type]
      by_cases inside : 1 ≤ k ∧ k ≤ mapLength d mem
      · rw [if_pos inside, if_pos inside]
        exact congrArg some ((partType_eq_iff _ _ _).mpr (ends k inside.1 inside.2))
      · rw [if_neg inside, if_neg inside]

/-- An Apple disk with a map of one block, given by its words. -/
def oneEntry (w : Nat → Nat) : Disk where
  opened := true
  getblksize := 512
  block n := some (ofWords fun i =>
    if n = 0 then (if i = 0 then 0x45520200 else 0)
    else if i = 0 then 0x504d0000 else if i = 1 then 1 else w i)
  wreck _ mem := mem
  malloc _ := true
  heap _ := 0

/-- An entry of a map of three blocks, with its first block, its length, name and type. -/
def entryBlock (start size : Nat) (name type : CStr) : Bytes := fun i =>
  if 16 ≤ i ∧ i < 48 then name.getD (i - 16) 0
  else if 48 ≤ i ∧ i < 80 then type.getD (i - 48) 0
  else
    ofWords (fun
      | 0 => 0x504d0000
      | 1 => 3
      | 2 => start
      | 21 => size
      | _ => 0) i

/-- An Apple disk with the map itself, a partition to boot from, and one that has no name
but a type that fills its field. -/
def namedMap : Disk where
  opened := true
  getblksize := 512
  block n := some (
    if n = 0 then ofWords fun i => if i = 0 then 0x45520200 else 0
    else if n = 1 then entryBlock 1 63 (cstr "Apple") (cstr "Apple_partition_map")
    else if n = 2 then entryBlock 64 1600 (cstr "bootstrap") (cstr "Apple_Bootstrap")
    else entryBlock 1664 98336 [] (List.replicate 32 65))
  wreck _ mem := mem
  malloc _ := true
  heap _ := 0

/-- The map of three entries, two of them named, is read right, and the second can be booted from.
-/
theorem namedMap_read :
    MapRead (.ok .block) namedMap ⟨fun _ _ => 0, fun _ => 0⟩ (fun _ => 0) ∧
      getPartType (.ok .block) namedMap ⟨fun _ _ => 0, fun _ => 0⟩ (fun _ => 0) 2 =
        some (cstr "Apple_Bootstrap") := by
  refine ⟨(map_read_iff ⟨.inl rfl, ⟨rfl, by decide, rfl⟩, ?_, ?_⟩ _).mpr fun k first last => ?_, ?_⟩
  · exact (by decide +kernel : word16 (namedMap.zero fun _ => 0) 0 = macDriverMagic)
  · decide +kernel
  · have length : mapLength namedMap (fun _ => 0) = 3 := by decide +kernel
    obtain rfl | rfl | rfl : k = 1 ∨ k = 2 ∨ k = 3 := by omega
    · exact .inl ⟨31, by decide, by decide +kernel⟩
    · exact .inl ⟨31, by decide, by decide +kernel⟩
    · exact .inr (by decide +kernel)
  · decide +kernel

/-- A partition whose name and type have no zero byte. -/
theorem filled_entry_type :
    ¬ MapRead (.ok .block) (oneEntry fun _ => 0x41414141) ⟨fun _ _ => 0, fun _ => 0⟩
      (fun _ => 0) := by
  intro right
  have read := right.types 1
  exact absurd read (by decide +kernel)

end Yaboot.Partition
