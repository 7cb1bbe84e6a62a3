import Yaboot.Base.StringBuffer
import Yaboot.Lib.Vsprintf
import Yaboot.Partition.MacProofs

/-! The path `of_open` builds: in a buffer that still holds the path before it, and with
the number of the partition through three bytes of the stack. -/
namespace Yaboot.Fs.OfPath
open Buffer CString StringBuffer Vsprintf Word
open Yaboot.Partition (strncpy strncpy_inside strncpy_outside Disk partitionsLookup MacMap mapLength
  macDriverMagic ofWords)

def bufferSize : Nat := 1024
def pnSize : Nat := 3

/-- `buffer` and `pn` of `of_open`. -/
structure Buffers where
  buffer : Bytes
  pn : Bytes

def skipped (p : Partition) : Bool := p.sysInd == linuxRaid || p.sysInd == linuxNative

/-- The device, copied as far as `strncpy` does, and the colon. -/
def appendDev (fspec : Fspec) (buffer : Bytes) : Bytes :=
  let buffer := strncpy buffer 0 (fun k => fspec.dev.getD k 0) 0 768
  strcat buffer 0 (cstr ":")

/-- The number of the partition, by way of `pn`. -/
def appendNumber : Option Partition → Buffers → Option Buffers
  | none, m => some m
  | some p, m =>
    (vsprintf (cstr "%02d") [.word p.partNumber]).map fun text =>
      let pn := strcpy m.pn 0 text
      ⟨strcat m.buffer 0 (stringAt pn 0), pn⟩

/-- The copy of a file name, after the loop over it. -/
def backslashes (file : CStr) : CStr := file.map fun c => if c = 47 then 92 else c

def appendFile (part : Option Partition) (fspec : Fspec) (buffer : Bytes) : Bytes :=
  match fspec.file with
  | none => buffer
  | some file =>
    if file.length = 0 then buffer
    else
      let buffer := if part.isSome then strcat buffer 0 (cstr ",") else buffer
      strcat buffer 0 (backslashes file)

/-- `of_open`: what `prom_open` is called with, if it is, and the buffers. There is memory
for the copy of the file name. -/
def ofOpenIn (part : Option Partition) (fspec : Fspec) (m : Buffers) :
    Option (Option CStr × Buffers) :=
  let m : Buffers := ⟨appendDev fspec m.buffer, m.pn⟩
  if part.any skipped then some (none, m)
  else
    (appendNumber part m).map fun m =>
      let buffer := appendFile part fspec m.buffer
      (some (stringAt buffer 0), ⟨buffer, m.pn⟩)

/-! ### What is asked of it -/

/-- The number, where a partition is given. -/
def numberOf (part : Option Partition) : CStr := (part.map fun p => twoDigits p.partNumber).getD []

/-- The file, where it is not empty. -/
def fileOf (part : Option Partition) (fspec : Fspec) : CStr :=
  if fspec.file.getD [] = [] then []
  else (if part.isSome then cstr "," else []) ++ backslashes (fspec.file.getD [])

/-- The path for a file of a device or of a partition on it. -/
def pathOf (part : Option Partition) (fspec : Fspec) : CStr :=
  fspec.dev ++ cstr ":" ++ numberOf part ++ fileOf part fspec

/-- Nothing behind the buffers is written, and the firmware is asked for the path unless
the partition is one of Linux. -/
def OpensRight (part : Option Partition) (fspec : Fspec) : Prop :=
  ∀ m, ∃ path m', ofOpenIn part fspec m = some (path, m') ∧
    (∀ i, bufferSize ≤ i → m'.buffer i = m.buffer i) ∧ (∀ i, pnSize ≤ i → m'.pn i = m.pn i) ∧
    path = if part.any skipped then none else some (pathOf part fspec)

/-- The names are strings of at most 510 characters. -/
structure Short (fspec : Fspec) : Prop where
  dev : fspec.dev.length ≤ 510
  devClean : 0 ∉ fspec.dev
  file : (fspec.file.getD []).length ≤ 510
  fileClean : 0 ∉ fspec.file.getD []

variable {part : Option Partition} {fspec : Fspec} {p : Partition} {mem old : Bytes} {s t : CStr}

/-! ### Names and numbers -/

theorem backslashes_clean (clean : 0 ∉ s) : 0 ∉ backslashes s := fun member => by
  obtain ⟨c, inside, zero⟩ := List.mem_map.mp member
  split at zero
  · exact absurd zero (by decide)
  · exact clean (zero ▸ inside)

theorem twoDigits_clean (n : Nat) : 0 ∉ twoDigits n := fun member => by
  rcases List.mem_append.mp member with padding | digit
  · exact absurd (List.eq_of_mem_replicate padding) (by decide)
  · obtain ⟨c, inside, zero⟩ := List.mem_map.mp digit
    have decimal := Nat.isDigit_of_mem_toDigits (by decide) (by decide) inside
    have range : 48 ≤ c.toNat ∧ c.toNat ≤ 57 := by
      simpa [Char.isDigit, UInt32.le_iff_toNat_le] using decimal
    have value := congrArg UInt8.toNat zero
    rw [UInt8.toNat_ofNat'] at value
    have none : (0 : UInt8).toNat = 0 := rfl
    omega

theorem twoDigits_length (n : Nat) :
    (twoDigits n).length = max 2 (Nat.toDigits 10 n).length := by
  simp only [twoDigits, List.length_append, List.length_replicate, List.length_map]
  omega

theorem twoDigits_short_iff (n : Nat) : (twoDigits n).length < pnSize ↔ n ≤ 99 := by
  have digits := Nat.length_toDigits_le_iff (n := n) (b := 10) (k := 2) (by decide) (by decide)
  have size : pnSize = 3 := rfl
  rw [twoDigits_length]
  omega

theorem twoDigits_two (few : n ≤ 99) : (twoDigits n).length = 2 := by
  have less := (twoDigits_short_iff n).mpr few
  have size : pnSize = 3 := rfl
  rw [twoDigits_length] at less ⊢
  omega

theorem twoDigits_le (small : n < 2 ^ 31) : (twoDigits n).length ≤ 10 := by
  have digits := (Nat.length_toDigits_le_iff (n := n) (b := 10) (k := 10)
    (by decide) (by decide)).mpr (by omega)
  rw [twoDigits_length]
  omega

/-- `vsprintf` writes the number the way the path names it. -/
theorem vsprintf_number (small : n < 2 ^ 31) :
    vsprintf (cstr "%02d") [.word n] = some (twoDigits n) := by
  rw [vsprintf_twoDigits small]
  rfl

/-- What the driver hands over in `ofOpen` is the path. -/
theorem ofPath_eq (short : Short fspec) : ofPath part fspec = pathOf part fspec := by
  have dev := short.dev
  unfold ofPath pathOf numberOf fileOf
  rw [List.take_of_length_le (by omega), List.append_assoc _ _ (List.map _ _)]
  congr 1
  by_cases empty : fspec.file.getD [] = []
  · simp [empty]
  · simp [empty, backslashes]

/-! ### The buffers -/

/-- A path so far: nothing is written behind it and behind what `strncpy` may write. -/
structure Built (old mem : Bytes) (s : CStr) : Prop where
  holds : Holds mem 0 s
  kept : ∀ i, 768 ≤ i → s.length < i → mem i = old i

theorem Built.strcat (built : Built old mem s) (short : s.length < 2 ^ 32) (clean : 0 ∉ t) :
    Built old (strcat mem 0 t) (s ++ t) := by
  refine ⟨built.holds.strcat short clean, fun i copied behind => ?_⟩
  rw [List.length_append] at behind
  rw [built.holds.strcat_outside short t (.inr (by omega)), built.kept i copied (by omega)]

/-- A path that fits stays inside the buffer. -/
theorem Built.inside (built : Built old mem s) (fits : s.length < bufferSize) :
    ∀ i, bufferSize ≤ i → mem i = old i := by
  have size : bufferSize = 1024 := rfl
  exact fun i behind => built.kept i (by omega) (by omega)

/-- The terminator of a string shows where it ends. -/
theorem fits_of_ended {size : Nat} (ended : Holds mem 0 s) (inside : ∀ i, size ≤ i → mem i = 1) :
    s.length < size := by
  by_contra long
  have zero := ended.bytes s.length le_rfl
  rw [Nat.zero_add, inside _ (Nat.le_of_not_lt long), List.getD_eq_default _ _ le_rfl] at zero
  exact absurd zero (by decide)

theorem copyDev_built (short : Short fspec) (old : Bytes) :
    Built old (strncpy old 0 (fun k => fspec.dev.getD k 0) 0 768) fspec.dev := by
  have dev := short.dev
  refine ⟨⟨fun i le => ?_, short.devClean⟩, fun i copied _ => strncpy_outside (.inr (by omega))⟩
  rw [strncpy_inside (by omega), Nat.zero_add]
  intro j less
  rw [Nat.zero_add, List.getD_eq_getElem _ _ (by omega)]
  exact fun zero => short.devClean (zero ▸ List.getElem_mem _)

theorem appendDev_built (short : Short fspec) (old : Bytes) :
    Built old (appendDev fspec old) (fspec.dev ++ cstr ":") := by
  have dev := short.dev
  exact (copyDev_built short old).strcat (by omega) (by decide)

theorem appendNumber_some (m : Buffers) (small : p.partNumber < 2 ^ 31) :
    appendNumber (some p) m = some ⟨strcat m.buffer 0 (twoDigits p.partNumber),
      strcpy m.pn 0 (twoDigits p.partNumber)⟩ := by
  have few := twoDigits_le small
  have text : stringAt (strcpy m.pn 0 (twoDigits p.partNumber)) 0 = twoDigits p.partNumber :=
    (strcpy_holds m.pn 0 (twoDigits_clean _)).stringAt_eq (by omega)
  rw [appendNumber, vsprintf_number small, Option.map_some]
  dsimp only
  rw [text]

/-- The file is appended behind a comma, its slashes turned round. -/
theorem appendFile_built (built : Built old mem s) (short : Short fspec) (small : s.length ≤ 600) :
    Built old (appendFile part fspec mem) (s ++ fileOf part fspec) := by
  have clean := backslashes_clean short.fileClean
  unfold appendFile fileOf
  cases given : fspec.file with
  | none => simpa using built
  | some file =>
    rw [given, Option.getD_some] at clean
    dsimp only [Option.getD_some]
    by_cases empty : file = []
    · rw [if_pos (List.length_eq_zero_iff.mpr empty), if_pos empty, List.append_nil]
      exact built
    rw [if_neg (mt List.length_eq_zero_iff.mp empty), if_neg empty, ← List.append_assoc]
    cases part.isSome with
    | false =>
      rw [if_neg Bool.false_ne_true, if_neg Bool.false_ne_true, List.append_nil]
      exact built.strcat (by omega) clean
    | true =>
      rw [if_pos rfl, if_pos rfl]
      have comma : (s ++ cstr ",").length = s.length + 1 := List.length_append
      exact (built.strcat (by omega) (by decide)).strcat (by omega) clean

/-! ### The path -/

theorem ofOpenIn_skipped (m : Buffers) (short : Short fspec) (skip : part.any skipped) :
    ∃ buffer, ofOpenIn part fspec m = some (none, ⟨buffer, m.pn⟩) ∧
      Built m.buffer buffer (fspec.dev ++ cstr ":") := by
  refine ⟨_, ?_, appendDev_built short m.buffer⟩
  unfold ofOpenIn
  rw [if_pos skip]

theorem numberOf_le (small : ∀ p, part = some p → p.partNumber < 2 ^ 31) :
    (numberOf part).length ≤ 10 := by
  cases part with
  | none => exact Nat.zero_le _
  | some p => exact twoDigits_le (small p rfl)

theorem fileOf_length (part : Option Partition) (fspec : Fspec) : (fileOf part fspec).length =
    if fspec.file.getD [] = [] then 0
    else (if part.isSome then 1 else 0) + (fspec.file.getD []).length := by
  unfold fileOf
  split
  · rfl
  · rw [List.length_append, backslashes, List.length_map, apply_ite List.length]
    rfl

theorem pathOf_length (part : Option Partition) (fspec : Fspec) : (pathOf part fspec).length =
    fspec.dev.length + 1 + (numberOf part).length + (fileOf part fspec).length := by
  unfold pathOf
  rw [List.length_append, List.length_append, List.length_append]
  rfl

theorem pathOf_le (short : Short fspec) (small : ∀ p, part = some p → p.partNumber < 2 ^ 31) :
    (pathOf part fspec).length ≤ 1032 := by
  have dev := short.dev
  have file := short.file
  have number := numberOf_le small
  have rest : (fileOf part fspec).length ≤ 1 + (fspec.file.getD []).length := by
    rw [fileOf_length]
    split_ifs <;> omega
  rw [pathOf_length]
  omega

/-- The device, the colon and the number. -/
theorem appendNumber_built (m : Buffers) (short : Short fspec)
    (small : ∀ p, part = some p → p.partNumber < 2 ^ 31)
    (device : Built old m.buffer (fspec.dev ++ cstr ":")) :
    ∃ m', appendNumber part m = some m' ∧
      Built old m'.buffer (fspec.dev ++ cstr ":" ++ numberOf part) ∧
      m'.pn = (part.map fun p => strcpy m.pn 0 (twoDigits p.partNumber)).getD m.pn := by
  have dev := short.dev
  have head : (fspec.dev ++ cstr ":").length = fspec.dev.length + 1 := List.length_append
  cases part with
  | none => exact ⟨m, rfl, by simpa [numberOf] using device, rfl⟩
  | some p =>
    exact ⟨_, appendNumber_some m (small p rfl), device.strcat (by omega) (twoDigits_clean _), rfl⟩

/-- The path is built whether or not it fits. -/
theorem ofOpenIn_opened (m : Buffers) (short : Short fspec)
    (small : ∀ p, part = some p → p.partNumber < 2 ^ 31) (opened : ¬ part.any skipped) :
    ∃ m', ofOpenIn part fspec m = some (some (pathOf part fspec), m') ∧
      Built m.buffer m'.buffer (pathOf part fspec) ∧
      m'.pn = (part.map fun p => strcpy m.pn 0 (twoDigits p.partNumber)).getD m.pn := by
  have dev := short.dev
  have number := numberOf_le small
  have head : (fspec.dev ++ cstr ":" ++ numberOf part).length =
      fspec.dev.length + 1 + (numberOf part).length := by
    rw [List.length_append, List.length_append]
    rfl
  obtain ⟨numbered, appended, built, pn⟩ :=
    appendNumber_built ⟨appendDev fspec m.buffer, m.pn⟩ short small (appendDev_built short m.buffer)
  have whole : Built m.buffer (appendFile part fspec numbered.buffer) (pathOf part fspec) :=
    appendFile_built built short (by omega)
  have length := pathOf_le short small
  have path : stringAt (appendFile part fspec numbered.buffer) 0 = pathOf part fspec :=
    whole.holds.stringAt_eq (by omega)
  refine ⟨⟨appendFile part fspec numbered.buffer, numbered.pn⟩, ?_, whole, pn⟩
  unfold ofOpenIn
  rw [if_neg opened, appended, Option.map_some]
  dsimp only
  rw [path]

/-! ### Both buffers -/

/-- A path that is opened is the one asked for, so only its length matters, and that of the
number. -/
theorem opensRight_iff_lengths (short : Short fspec)
    (small : ∀ p, part = some p → p.partNumber < 2 ^ 31) (opened : ¬ part.any skipped) :
    OpensRight part fspec ↔ (pathOf part fspec).length < bufferSize ∧
      ∀ p, part = some p → (twoDigits p.partNumber).length < pnSize := by
  constructor
  · intro right
    obtain ⟨path, m', run, buffer, pn, -⟩ := right ⟨fun _ => 1, fun _ => 1⟩
    obtain ⟨_, same, built, written⟩ := ofOpenIn_opened ⟨fun _ => 1, fun _ => 1⟩ short small opened
    rw [run, Option.some.injEq, Prod.mk.injEq] at same
    obtain ⟨-, rfl⟩ := same
    refine ⟨fits_of_ended built.holds buffer, ?_⟩
    rintro p rfl
    rw [Option.map_some, Option.getD_some] at written
    rw [written] at pn
    exact fits_of_ended (strcpy_holds _ 0 (twoDigits_clean _)) pn
  · rintro ⟨fits, digits⟩ m
    obtain ⟨m', run, built, written⟩ := ofOpenIn_opened m short small opened
    refine ⟨_, m', run, built.inside fits, fun i behind => ?_, (if_neg opened).symm⟩
    rw [written]
    cases part with
    | none => rfl
    | some p => exact strcpy_outside _ _ (.inr (by have less := digits p rfl; omega))

theorem opensRight_skipped (short : Short fspec) (skip : part.any skipped) :
    OpensRight part fspec := by
  have dev := short.dev
  have head : (fspec.dev ++ cstr ":").length = fspec.dev.length + 1 := List.length_append
  have size : bufferSize = 1024 := rfl
  intro m
  obtain ⟨buffer, run, built⟩ := ofOpenIn_skipped m short skip
  exact ⟨none, _, run, built.inside (by omega), fun _ _ => rfl, (if_pos skip).symm⟩

/-- With a number of two digits, only names that are both as long as they may be are
too long. -/
theorem pathOf_fits_iff (short : Short fspec) (digits : (twoDigits p.partNumber).length = 2) :
    (pathOf (some p) fspec).length < bufferSize ↔
      fspec.dev.length + (fspec.file.getD []).length ≤ 1019 := by
  have dev := short.dev
  have size : bufferSize = 1024 := rfl
  have number : (numberOf (some p)).length = 2 := digits
  rw [pathOf_length, fileOf_length, number]
  by_cases empty : fspec.file.getD [] = []
  · rw [if_pos empty, empty, List.length_nil]
    omega
  · rw [if_neg empty, Option.isSome_some, if_pos rfl]
    omega

/-- The path comes to the firmware, and nothing behind the buffers is written, exactly
when no partition is given, or it is one of Linux, or its number has at most two digits and
the names are not both of 510 characters. -/
theorem ofOpen_right_iff (short : Short fspec)
    (small : ∀ p, part = some p → p.partNumber < 2 ^ 31) : OpensRight part fspec ↔
      ∀ p, part = some p → skipped p ∨ (p.partNumber ≤ 99 ∧
        fspec.dev.length + (fspec.file.getD []).length ≤ 1019) := by
  by_cases skip : part.any skipped
  · refine iff_of_true (opensRight_skipped short skip) fun p given => .inl ?_
    rwa [given, Option.any_some] at skip
  rw [opensRight_iff_lengths short small skip]
  cases part with
  | none =>
    have dev := short.dev
    have file := short.file
    have size : bufferSize = 1024 := rfl
    have length : (pathOf none fspec).length < bufferSize := by
      have rest : (fileOf none fspec).length ≤ (fspec.file.getD []).length := by
        rw [fileOf_length]
        split_ifs with empty opened
        · exact Nat.zero_le _
        · cases opened
        · omega
      have number : (numberOf none).length = 0 := rfl
      rw [pathOf_length, number]
      omega
    exact iff_of_true ⟨length, nofun⟩ nofun
  | some p =>
    rw [Option.any_some] at skip
    simp only [Option.some.injEq, forall_eq', twoDigits_short_iff, skip]
    constructor
    · rintro ⟨fits, few⟩
      exact .inr ⟨few, (pathOf_fits_iff short (twoDigits_two few)).mp fits⟩
    · rintro (linux | ⟨few, names⟩)
      · cases linux
      · exact ⟨(pathOf_fits_iff short (twoDigits_two few)).mpr names, few⟩

/-- A kernel on the third partition. -/
theorem third_partition_right :
    OpensRight (some ⟨3, 0, 0, 512, 0⟩) ⟨cstr "hd", 3, some (cstr "/boot/vmlinux")⟩ := by
  refine (ofOpen_right_iff ⟨by decide, by decide, by decide, by decide⟩ ?_).mpr ?_
  · rintro p ⟨⟩
    decide
  · rintro p ⟨⟩
    exact .inr (by decide)

/-- An Apple disk with a map of `count` blocks. -/
def mapOf (count : Nat) : Disk where
  opened := true
  getblksize := 512
  block n := some (ofWords fun i =>
    if n = 0 then (if i = 0 then 0x45520200 else 0)
    else if i = 0 then 0x504d0000 else if i = 1 then count else 0)
  wreck _ mem := mem
  malloc _ := true
  heap _ := 0

/-- A partition with three digits. -/
theorem hundredth_partition_wrong :
    ¬ ∀ (d : Disk) (mem : Bytes) (p : Partition) (fspec : Fspec),
      p ∈ partitionsLookup d mem → Short fspec → OpensRight (some p) fspec := by
  intro right
  have map : MacMap (.ok .block) (mapOf 100) fun _ => 0 :=
    ⟨.inl rfl, ⟨rfl, by decide, rfl⟩,
      (by decide +kernel : word16 ((mapOf 100).zero fun _ => 0) 0 = macDriverMagic),
      by decide +kernel⟩
  have length : mapLength (mapOf 100) (fun _ => 0) = 100 := by decide +kernel
  obtain ⟨p, listed, number, other⟩ : ∃ p ∈ partitionsLookup (mapOf 100) fun _ => 0,
      p.partNumber = 100 ∧ p.sysInd = 0 :=
    ⟨_, map.listed (k := 100) (by decide) (by omega), rfl, rfl⟩
  have opened : ¬ (some p).any skipped := by simp [skipped, other, linuxRaid, linuxNative]
  have short : Short ⟨cstr "hd", 100, none⟩ := ⟨by decide, by decide, by decide, by decide⟩
  have lengths := (opensRight_iff_lengths short (by rintro _ ⟨⟩; omega) opened).mp
    (right _ _ p _ listed short)
  have few := (twoDigits_short_iff _).mp (lengths.2 p rfl)
  omega

end Yaboot.Fs.OfPath
