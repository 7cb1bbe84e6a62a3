import Mathlib.Algebra.Order.Ring.Nat
import Mathlib.Data.List.GetD
import Yaboot.Base.Buffer
import Yaboot.Base.CString

/-! Strings in memory: a string with its terminator, what reading finds, and what copying
and appending leave, wherever they write to. -/
namespace Yaboot.StringBuffer
open Buffer CString

/-- The bytes from `at_` on in front of the first zero byte, among `n`. -/
def stringWithin (mem : Bytes) : Nat → Nat → CStr
  | 0, _ => []
  | n + 1, at_ => if mem at_ = 0 then [] else mem at_ :: stringWithin mem n (at_ + 1)

/-- The string at `at_`. No string is longer than the address space. -/
def stringAt (mem : Bytes) (at_ : Nat) : CStr := stringWithin mem (2 ^ 32) at_

/-- `strcpy(mem + at_, s)`. -/
def strcpy (mem : Bytes) (at_ : Nat) (s : CStr) : Bytes :=
  blit mem at_ (s.length + 1) fun k => s.getD k 0

/-- `strcat(mem + at_, s)`. -/
def strcat (mem : Bytes) (at_ : Nat) (s : CStr) : Bytes :=
  strcpy mem (at_ + (stringAt mem at_).length) s

/-- A string and its terminator lie at `at_`. -/
structure Holds (mem : Bytes) (at_ : Nat) (s : CStr) : Prop where
  bytes : ∀ i ≤ s.length, mem (at_ + i) = s.getD i 0
  clean : 0 ∉ s

variable {mem : Bytes} {at_ n i : Nat} {s t : CStr}

theorem Holds.within (holds : Holds mem at_ s) (short : s.length < n) :
    stringWithin mem n at_ = s := by
  induction s generalizing at_ n with
  | nil =>
    obtain ⟨n, rfl⟩ := Nat.exists_eq_succ_of_ne_zero (Nat.ne_of_gt short)
    have first : mem at_ = 0 := holds.bytes 0 le_rfl
    rw [stringWithin, if_pos first]
  | cons c s ih =>
    obtain ⟨n, rfl⟩ := Nat.exists_eq_succ_of_ne_zero (Nat.ne_zero_of_lt short)
    have clean := not_or.mp (List.mem_cons.not.mp holds.clean)
    have first : mem at_ = c := holds.bytes 0 (Nat.zero_le _)
    have rest : Holds mem (at_ + 1) s := by
      refine ⟨fun i le => ?_, clean.2⟩
      have next := holds.bytes (i + 1) (Nat.succ_le_succ le)
      rwa [List.getD_cons_succ, Nat.add_comm i, ← Nat.add_assoc] at next
    rw [stringWithin, first, if_neg (Ne.symm clean.1), ih rest (Nat.lt_of_succ_lt_succ short)]

theorem Holds.stringAt_eq (holds : Holds mem at_ s) (short : s.length < 2 ^ 32) :
    stringAt mem at_ = s := holds.within short

theorem strcpy_holds (mem : Bytes) (at_ : Nat) (clean : 0 ∉ s) :
    Holds (strcpy mem at_ s) at_ s := by
  refine ⟨fun i le => ?_, clean⟩
  rw [strcpy, blit_inside _ _ (by omega) (by omega), Nat.add_sub_cancel_left]

theorem strcpy_outside (mem : Bytes) (s : CStr) (outside : i < at_ ∨ at_ + s.length + 1 ≤ i) :
    strcpy mem at_ s i = mem i := blit_outside mem _ (by omega)

/-- What is appended comes where the terminator was. -/
theorem Holds.strcat (holds : Holds mem at_ s) (short : s.length < 2 ^ 32) (clean : 0 ∉ t) :
    Holds (strcat mem at_ t) at_ (s ++ t) := by
  refine ⟨fun i le => ?_, by simp [holds.clean, clean]⟩
  rw [List.length_append] at le
  rw [StringBuffer.strcat, holds.stringAt_eq short]
  by_cases old : i < s.length
  · rw [strcpy_outside _ _ (.inl (by omega)), holds.bytes i (Nat.le_of_lt old),
      List.getD_append _ _ _ _ old]
  · have new := (strcpy_holds mem (at_ + s.length) clean).bytes (i - s.length) (by omega)
    rw [Nat.add_assoc, Nat.add_sub_cancel' (Nat.le_of_not_lt old)] at new
    rw [new, List.getD_append_right _ _ _ _ (Nat.le_of_not_lt old)]

theorem Holds.strcat_outside (holds : Holds mem at_ s) (short : s.length < 2 ^ 32) (t : CStr)
    (outside : i < at_ ∨ at_ + s.length + t.length + 1 ≤ i) :
    StringBuffer.strcat mem at_ t i = mem i := by
  rw [StringBuffer.strcat, holds.stringAt_eq short, strcpy_outside _ _ (by omega)]

end Yaboot.StringBuffer
