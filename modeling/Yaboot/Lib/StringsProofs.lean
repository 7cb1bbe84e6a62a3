import Yaboot.Base.StringBuffer
import Yaboot.Lib.MemmoveProofs
import Yaboot.Lib.Strings
import Yaboot.Partition.Mac

/-! What the string routines leave, against strings as lists of bytes. Each loop stands one
byte before the next, and ends since a terminator is ahead of it. -/
namespace Yaboot.Lib.Strings
open Buffer CString Loop PowerPC Word
open StringBuffer (Holds)

variable {mem : Bytes} {s t : State} {str : CStr} {at_ dst src i left : Nat} {p : Reg}

/-! ### Strings ahead of a pointer -/

theorem holds_cons {c : UInt8} (holds : Holds mem at_ (c :: str)) :
    mem at_ = c ∧ c ≠ 0 ∧ Holds mem (at_ + 1) str := by
  have clean := not_or.mp (List.mem_cons.not.mp holds.clean)
  refine ⟨holds.bytes 0 (Nat.zero_le _), Ne.symm clean.1, fun i le => ?_, clean.2⟩
  have next := holds.bytes (i + 1) (Nat.succ_le_succ le)
  rwa [List.getD_cons_succ, Nat.add_comm i, ← Nat.add_assoc] at next

theorem holds_nil (holds : Holds mem at_ []) : mem at_ = 0 := holds.bytes 0 le_rfl

/-- The register stands one byte before `at_`. -/
def Before (p : Reg) (at_ : Nat) (s : State) : Prop := s.reg p = add32 at_ (-1)

theorem Before.next (before : Before p at_ s) (fits : at_ < 2 ^ 32) :
    add32 (s.reg p) 1 = at_ := by
  rw [before, add32_add32]
  exact add32_of_eq (by omega) fits

theorem Before.step (before : Before p at_ s) (fits : at_ < 2 ^ 32)
    (moved : t.reg p = add32 (s.reg p) 1) : Before p (at_ + 1) t := by
  rw [Before, moved, before.next fits]
  exact (add32_of_eq (by omega) fits).symm

theorem Before.of_reg (before : Before p at_ s) (same : t.reg p = s.reg p) : Before p at_ t :=
  same.trans before

theorem toNat_eq_zero_iff (c : UInt8) : c.toNat = 0 ↔ c = 0 := by
  rw [← UInt8.toNat_inj]
  rfl

/-- A loop that takes one byte of a string in each round. -/
theorem string_rule {body : State → Turn} (inv : Nat → CStr → State → Prop)
    (post : State → Prop) (holds : Holds mem at_ str) (fits : at_ + str.length < 2 ^ 32)
    (step : ∀ at_ c rest t, at_ < 2 ^ 32 → mem at_ = c → c ≠ 0 → inv at_ (c :: rest) t →
      (body t).Meets (inv (at_ + 1) rest) post)
    (last : ∀ at_ t, at_ < 2 ^ 32 → mem at_ = 0 → inv at_ [] t →
      (body t).Meets (fun _ => False) post)
    (start : inv at_ str s) : Returns (loop body s) post := by
  refine @loop_rule str.length _ _ (fun left t => ∃ at_ rest, rest.length = left ∧
    at_ + left < 2 ^ 32 ∧ Holds mem at_ rest ∧ inv at_ rest t) post ?_
    ⟨at_, str, rfl, fits, holds, start⟩ (by omega)
  rintro left t ⟨at_, rest, length, fits, holds, keeps⟩
  cases rest with
  | nil =>
    refine (last at_ t (by omega) (holds_nil holds) keeps).mono ?_ fun _ done => done
    intro u none
    exact none.elim
  | cons c rest =>
    obtain ⟨first, nonzero, holds⟩ := holds_cons holds
    rw [List.length_cons] at length
    refine (step at_ c rest t (by omega) first nonzero keeps).mono ?_ fun _ done => done
    intro u keeps
    exact ⟨rest.length, by omega, at_ + 1, rest, rfl, by omega, holds, keeps⟩

/-! ### Length -/

/-- The string behind a pointer is run through, and nothing else changes. -/
theorem scan_end (address : p ≠ .r0) (string : Holds s.mem at_ str)
    (fits : at_ + str.length < 2 ^ 32) (before : Before p at_ s) :
    Returns (loop (scan p) s) fun t => t.reg p = at_ + str.length ∧
      (∀ r, r ≠ .r0 → r ≠ p → t.reg r = s.reg r) ∧ t.mem = s.mem := by
  have line (t : State) : (cmpwi .r0 0 (lbzu .r0 1 p t)).reg p = add32 (t.reg p) 1 ∧
      (∀ r, r ≠ .r0 → r ≠ p → (cmpwi .r0 0 (lbzu .r0 1 p t)).reg r = t.reg r) ∧
      (cmpwi .r0 0 (lbzu .r0 1 p t)).mem = t.mem ∧
      ((cmpwi .r0 0 (lbzu .r0 1 p t)).cr0 = .eq ↔ t.mem (add32 (t.reg p) 1) = 0) := by
    refine ⟨?_, fun r other moved => ?_, ?_, ?_⟩
    · simp [cmpwi, lbzu, lbz, State.address, State.base, address]
    · simp [cmpwi, lbzu, lbz, State.address, State.base, other, moved]
    · simp [cmpwi, lbzu, lbz]
    · rw [cmpwi_zero]
      simp [lbzu, lbz, State.address, State.base, address.symm, address, toNat_eq_zero_iff]
  refine string_rule (fun here rest t => here + rest.length = at_ + str.length ∧ Before p here t ∧
    (∀ r, r ≠ .r0 → r ≠ p → t.reg r = s.reg r) ∧ t.mem = s.mem) _ string fits ?_ ?_
    ⟨rfl, before, fun _ _ _ => rfl, rfl⟩
  · rintro here c rest t word first nonzero ⟨sum, before, same, kept⟩
    obtain ⟨moved, frame, mem, ends⟩ := line t
    rw [before.next word, kept, first] at ends
    refine bneBack_meets (fun _ => ?_) fun done => absurd (ends.mp done) nonzero
    rw [List.length_cons] at sum
    exact ⟨by omega, before.step word moved,
      fun r other away => (frame r other away).trans (same r other away), mem.trans kept⟩
  · rintro here t word zero ⟨sum, before, same, kept⟩
    obtain ⟨moved, frame, mem, ends⟩ := line t
    rw [before.next word, kept, zero] at ends
    refine bneBack_meets (fun more => absurd (ends.mpr rfl) more) fun _ => ?_
    rw [List.length_nil] at sum
    exact ⟨by rw [moved, before.next word]; omega,
      fun r other away => (frame r other away).trans (same r other away), mem.trans kept⟩

theorem strlen_length (string : Holds s.mem (s.reg .r3) str)
    (fits : s.reg .r3 + str.length < 2 ^ 32) :
    Returns (strlen s) fun t => t.reg .r3 = str.length ∧ t.mem = s.mem := by
  have enter : Before .r4 (s.reg .r3) (addi .r4 .r3 (-1) s) := by
    simp [Before, addi, State.address, State.base]
  have found := scan_end (s := addi .r4 .r3 (-1) s) (by decide) (by simpa [addi] using string)
    fits enter
  refine Returns.map found fun t done => ?_
  obtain ⟨last, frame, kept⟩ := done
  have start : t.reg .r3 = s.reg .r3 := by
    rw [frame .r3 (by decide) (by decide)]
    simp [addi]
  refine ⟨?_, by simpa [subf, addi] using kept⟩
  rw [subf, State.set_reg, if_pos rfl, last, start, sub32_of_le fits (by omega),
    Nat.add_sub_cancel_left, u32_of_lt (by omega)]

/-! ### Copying -/

/-- The first `i` bytes are moved, and the pointers stand before the next. -/
structure Copying (mem : Bytes) (dst src i : Nat) (p : Reg) (t : State) : Prop where
  source : Before .r4 (src + i) t
  target : Before p (dst + i) t
  mem : t.mem = moved mem dst src 0 i

theorem Copying.start (source : Before .r4 src s) (target : Before p dst s) :
    Copying s.mem dst src 0 p s := ⟨source, target, (moved_none _ _ _ _).symm⟩

theorem Copying.of_reg (copying : Copying mem dst src i p s) (source : t.reg .r4 = s.reg .r4)
    (target : t.reg p = s.reg p) (same : t.mem = s.mem) : Copying mem dst src i p t :=
  ⟨copying.source.of_reg source, copying.target.of_reg target, same.trans copying.mem⟩

theorem copyByte_source (other : p ≠ .r4) (t : State) :
    (copyByte p t).reg .r4 = add32 (t.reg .r4) 1 := by
  simp [copyByte, stbu, stb, cmpwi, lbzu, lbz, State.address, State.base, other.symm]

section CopyByte
variable (address : p ≠ .r0) (other : p ≠ .r4) (t : State)
include address other

theorem copyByte_target : (copyByte p t).reg p = add32 (t.reg p) 1 := by
  simp [copyByte, stbu, stb, cmpwi, lbzu, lbz, State.address, State.base, address, other]

theorem copyByte_mem : (copyByte p t).mem =
    blit t.mem (add32 (t.reg p) 1) 1 fun _ => t.mem (add32 (t.reg .r4) 1) := by
  simp [copyByte, stbu, stb, cmpwi, lbzu, lbz, State.address, State.base, address, other]

end CopyByte

theorem copyByte_ctr (t : State) : (copyByte p t).ctr = t.ctr := by
  simp [copyByte, stbu, stb, cmpwi, lbzu, lbz]

theorem copyByte_frame (t : State) (r : Reg) (zero : r ≠ .r0) (source : r ≠ .r4) (target : r ≠ p) :
    (copyByte p t).reg r = t.reg r := by
  simp [copyByte, stbu, stb, cmpwi, lbzu, lbz, zero, source, target]

theorem copyByte_eq (t : State) :
    (copyByte p t).cr0 = .eq ↔ t.mem (add32 (t.reg .r4) 1) = 0 := by
  have zero := cmpwi_zero .r0 (lbzu .r0 1 .r4 t)
  simp only [copyByte, stbu, stb, State.set_cr0, State.setMem_cr0, zero]
  simp [lbzu, lbz, State.address, State.base, toNat_eq_zero_iff]

/-- The `n` bytes to copy lie at or above the target, or end before it. -/
def Apart (dst src n : Nat) : Prop := dst ≤ src ∨ src + n ≤ dst

theorem Copying.step (copying : Copying mem dst src i p t) (address : p ≠ .r0) (other : p ≠ .r4)
    (apart : Apart dst src (i + 1)) (fits : src + i < 2 ^ 32) (room : dst + i < 2 ^ 32) :
    Copying mem dst src (i + 1) p (copyByte p t) ∧
      ((copyByte p t).cr0 = .eq ↔ mem (src + i) = 0) := by
  have byte : t.mem (src + i) = mem (src + i) := by
    rw [copying.mem]
    exact moved_outside (by unfold Apart at apart; omega)
  refine ⟨⟨copying.source.step fits (copyByte_source other t),
    copying.target.step room (copyByte_target address other t), ?_⟩, ?_⟩
  · rw [copyByte_mem address other, copying.source.next fits, copying.target.next room, byte,
      copying.mem, moved_up_byte (Nat.zero_le i)]
  · rw [copyByte_eq, copying.source.next fits, byte]

/-- A string that was moved with its terminator is a copy. -/
theorem moved_string (string : Holds mem src str) :
    moved mem dst src 0 (str.length + 1) = StringBuffer.strcpy mem dst str := by
  rw [moved, StringBuffer.strcpy]
  refine blit_congr fun k inside => ?_
  rw [Nat.add_zero]
  exact string.bytes k (Nat.le_of_lt_succ inside)

/-- The loop of `strcpy` copies a string with its terminator. -/
theorem strcpy1_copies (string : Holds mem src str) (apart : Apart dst src (str.length + 1))
    (fits : src + str.length < 2 ^ 32) (room : dst + str.length < 2 ^ 32)
    (start : Copying mem dst src 0 .r5 s) :
    Returns (loop strcpy1 s) fun t => t.mem = StringBuffer.strcpy mem dst str ∧
      t.reg .r3 = s.reg .r3 := by
  refine string_rule (fun here rest t => ∃ i, here = src + i ∧ i + rest.length = str.length ∧
    Copying mem dst src i .r5 t ∧ t.reg .r3 = s.reg .r3) _ string fits ?_ ?_
    ⟨0, rfl, Nat.zero_add _, start, rfl⟩
  · rintro here c rest t word first nonzero ⟨i, place, sum, copying, same⟩
    subst place
    rw [List.length_cons] at sum
    obtain ⟨next, ends⟩ := copying.step (by decide) (by decide)
      (by unfold Apart at apart ⊢; omega) word (by omega)
    rw [first] at ends
    refine bneBack_meets (fun _ => ⟨i + 1, rfl, by omega, next, ?_⟩)
      fun done => absurd (ends.mp done) nonzero
    rw [copyByte_frame t .r3 (by decide) (by decide) (by decide), same]
  · rintro here t word zero ⟨i, place, sum, copying, same⟩
    subst place
    rw [List.length_nil, Nat.add_zero] at sum
    subst sum
    obtain ⟨next, ends⟩ := copying.step (by decide) (by decide) apart word room
    refine bneBack_meets (fun more => absurd (ends.mpr zero) more) fun _ => ⟨?_, ?_⟩
    · rw [next.mem, moved_string string]
    · rw [copyByte_frame t .r3 (by decide) (by decide) (by decide), same]

/-- `strcpy` is the copy, and returns its target. -/
theorem strcpy_refines (string : Holds s.mem (s.reg .r4) str)
    (apart : Apart (s.reg .r3) (s.reg .r4) (str.length + 1))
    (fits : s.reg .r4 + str.length < 2 ^ 32) (room : s.reg .r3 + str.length < 2 ^ 32) :
    Returns (strcpy s) fun t => t.mem = StringBuffer.strcpy s.mem (s.reg .r3) str ∧
      t.reg .r3 = s.reg .r3 := by
  have start : Copying s.mem (s.reg .r3) (s.reg .r4) 0 .r5
      (addi .r4 .r4 (-1) (addi .r5 .r3 (-1) s)) := by
    refine ⟨?_, ?_, ?_⟩
    · simp [Before, addi, State.address, State.base]
    · simp [Before, addi, State.address, State.base]
    · simp [addi, moved_none]
  refine (strcpy1_copies string apart fits room start).mono fun t done => ?_
  simpa [addi] using done

/-- `bcopy` is `memcpy` with the source first. -/
theorem bcopy_moved (order : s.reg .r4 ≤ s.reg .r3) (fits : s.reg .r3 + s.reg .r5 ≤ 2 ^ 32) :
    (bcopy s).mem = moved s.mem (s.reg .r4) (s.reg .r3) 0 (s.reg .r5) := by
  have copied := memcpy_moved (s := mr .r4 .r6 (mr .r3 .r4 (mr .r6 .r3 s)))
    (by simpa [mr] using order) (by simpa [mr] using fits)
  rw [bcopy, copied]
  simp [mr]

/-! A call, for the examples. -/

/-- The arguments are in the first registers. -/
def called (first second third : Nat) (mem : Bytes) : State :=
  ((State.mk (fun _ => 0) (fun _ => by decide) 0 .eq mem).set .r3 first |>.set .r4 second).set
    .r5 third

/-- Two strings, the one behind the other. -/
def twoWords : Bytes := fun a => ([116, 111, 0, 116, 111, 109] : List UInt8).getD (a - 16) 0

theorem twoWords_first : Holds twoWords 16 (cstr "to") := ⟨by decide, by decide⟩

theorem twoWords_second : Holds twoWords 19 (cstr "tom") := ⟨by decide, by decide⟩

/-- `strcat` appends the second string where the terminator of the first is, its own terminator
included, and returns its target; the source may be overwritten behind what is still to be read. -/
theorem strcat_refines {first : CStr} (target : Holds s.mem (s.reg .r3) first)
    (string : Holds s.mem (s.reg .r4) str)
    (apart : Apart (s.reg .r3 + first.length) (s.reg .r4) (str.length + 1))
    (fits : s.reg .r4 + str.length < 2 ^ 32)
    (room : s.reg .r3 + first.length + str.length < 2 ^ 32) :
    Returns (strcat s) fun t => t.mem = StringBuffer.strcat s.mem (s.reg .r3) str ∧
      t.reg .r3 = s.reg .r3 := by
  have enter : Before .r5 (s.reg .r3) (addi .r4 .r4 (-1) (addi .r5 .r3 (-1) s)) := by
    simp [Before, addi, State.address, State.base]
  have found := scan_end (by decide) (by simpa [addi] using target) (by omega) enter
  refine found.bind fun t done => ?_
  obtain ⟨last, frame, kept⟩ := done
  have kept : t.mem = s.mem := by simpa [addi] using kept
  have return_ : t.reg .r3 = s.reg .r3 := by
    rw [frame .r3 (by decide) (by decide)]
    simp [addi]
  have start : Copying s.mem (s.reg .r3 + first.length) (s.reg .r4) 0 .r5
      (addi .r5 .r5 (-1) t) := by
    refine ⟨?_, ?_, ?_⟩
    · rw [Before, addi, State.set_reg, if_neg (by decide), frame .r4 (by decide) (by decide)]
      simp [addi, State.address, State.base]
    · simp [Before, addi, State.address, State.base, last]
    · simp [addi, moved_none, kept]
  refine (strcpy1_copies string apart fits room start).mono fun u done => ?_
  obtain ⟨copied, same⟩ := done
  refine ⟨?_, ?_⟩
  · rw [copied, StringBuffer.strcat, target.stringAt_eq (by omega)]
  · rw [same, addi, State.set_reg, if_neg (by decide), return_]

/-- What is appended may be overwritten as it is read. -/
theorem twoWords_appended : Returns (strcat (called 16 19 0 twoWords)) fun t =>
    t.mem = StringBuffer.strcat twoWords 16 (cstr "tom") ∧ t.reg .r3 = 16 :=
  strcat_refines (s := called 16 19 0 twoWords) twoWords_first twoWords_second
    (.inl (by decide)) (by decide) (by decide)

theorem update_eq_blit (mem : Bytes) (at_ : Nat) (c : UInt8) :
    Function.update mem at_ c = blit mem at_ 1 fun _ => c := by
  funext i
  by_cases same : i = at_
  · rw [same, Function.update_self, blit_inside _ _ le_rfl (Nat.lt_succ_self at_)]
  · rw [Function.update_of_ne same, blit_outside _ _ (by omega)]

/-- `strncpy` copies no more than the count and stops behind a terminator, and does not pad as that
of the C library does; it returns its target. -/
theorem strncpy_refines (apart : Apart (s.reg .r3) (s.reg .r4) (s.reg .r5))
    (fits : s.reg .r4 + s.reg .r5 ≤ 2 ^ 32) (room : s.reg .r3 + s.reg .r5 ≤ 2 ^ 32) :
    Returns (strncpy s) fun t =>
      t.mem = Partition.strncpy s.mem (s.reg .r3) s.mem (s.reg .r4) (s.reg .r5) ∧
      t.reg .r3 = s.reg .r3 := by
  generalize result : Partition.strncpy s.mem (s.reg .r3) s.mem (s.reg .r4) (s.reg .r5) = copied
  rw [strncpy]
  split
  case isTrue none =>
    rw [cmpwi_zero] at none
    rw [none, Partition.strncpy] at result
    exact .of_some (by simp [cmpwi, result])
  case isFalse some =>
    rw [cmpwi_zero] at some
    have word := s.word .r5
    refine @loop_rule (s.reg .r5) _ _ (fun left t => ∃ i, i + left = s.reg .r5 ∧ 0 < left ∧
      t.ctr = left ∧ Copying s.mem (s.reg .r3) (s.reg .r4) i .r6 t ∧ t.reg .r3 = s.reg .r3 ∧
      Partition.strncpy (moved s.mem (s.reg .r3) (s.reg .r4) 0 i) (s.reg .r3 + i) s.mem
        (s.reg .r4 + i) left = copied) _ ?_ ?_ word
    · rintro left t ⟨i, sum, positive, count, copying, same, rest⟩
      obtain ⟨left, rfl⟩ := Nat.exists_eq_succ_of_ne_zero positive.ne'
      obtain ⟨next, ends⟩ := copying.step (by decide) (by decide)
        (by unfold Apart at apart ⊢; omega) (by omega) (by omega)
      have frame := copyByte_frame (p := .r6) t .r3 (by decide) (by decide) (by decide)
      rw [Partition.strncpy, update_eq_blit, moved_up_byte (Nat.zero_le i)] at rest
      have fewer : (copyByte .r6 t).countDown.ctr = left := by
        rw [State.countDown_ctr, copyByte_ctr, count, sub32_of_le (by omega) (by omega),
          Nat.succ_sub_one]
      refine bdnzf_meets (fun more other => ?_) fun done => ⟨?_, frame.trans same⟩
      · rw [if_neg (ends.not.mp other)] at rest
        exact ⟨left, Nat.lt_succ_self left, i + 1, by omega,
          Nat.pos_of_ne_zero (fewer.symm.trans_ne more), fewer, next.of_reg rfl rfl rfl,
          frame.trans same, rest⟩
      · rw [fewer, ends] at done
        rw [State.countDown_mem, next.mem, ← rest]
        split
        case isTrue zero => rfl
        case isFalse nonzero => rw [done.resolve_right nonzero, Partition.strncpy]
    · refine ⟨0, Nat.zero_add _, Nat.pos_of_ne_zero some, by simp [addi, mtctr, cmpwi],
        ⟨?_, ?_, ?_⟩, by simp [addi, mtctr, cmpwi], ?_⟩
      · simp [Before, addi, mtctr, cmpwi, State.address, State.base]
      · simp [Before, addi, mtctr, cmpwi, State.address, State.base]
      · simp [addi, mtctr, cmpwi, moved_none]
      · rw [moved_none]
        exact result

/-- Two characters of `tom` go to another place, without a terminator. -/
theorem twoWords_begun : Returns (strncpy (called 32 19 2 twoWords)) fun t =>
    t.mem = Partition.strncpy twoWords 32 twoWords 19 2 ∧ t.reg .r3 = 32 :=
  strncpy_refines (s := called 32 19 2 twoWords) (.inr (by decide)) (by decide) (by decide)

end Yaboot.Lib.Strings
