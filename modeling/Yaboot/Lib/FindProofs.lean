import Yaboot.Fs.DevicePathProofs
import Yaboot.Lib.StringsProofs

/-! Where `strchr` and `strrchr` find a character: the first and the last of a string. -/
namespace Yaboot.Lib.Strings
open Buffer CString Loop PowerPC Word
open StringBuffer (Holds)

variable {mem : Bytes} {s t : State} {str : CStr} {at_ : Nat} {c : UInt8}

/-- The suffix behind a part of a string. -/
theorem holds_append {a b : CStr} (holds : Holds mem at_ (a ++ b)) :
    Holds mem (at_ + a.length) b := by
  induction a generalizing at_ with
  | nil => exact holds
  | cons d a ih =>
    have rest := ih (holds_cons holds).2.2
    rwa [Nat.add_assoc, Nat.add_comm 1] at rest

/-- Bytes are the same where the words they are extended to are. -/
theorem compare_byte (b c : UInt8) : compare (s32 b.toNat) (s32 c.toNat) = .eq ↔ b = c := by
  have first := b.toNat_lt
  have second := c.toNat_lt
  rw [compare_eq_iff_eq, s32_of_lt (by omega), s32_of_lt (by omega), Int.natCast_inj,
    UInt8.toNat_inj]

/-! ### The first one -/

/-- The first `c` of a string at `at_`, whose terminator is one of its characters. -/
inductive FirstAt (c : UInt8) (str : CStr) (at_ : Nat) (address : Nat) : Prop
  | inside (a b : CStr) (shape : str = a ++ c :: b) (first : c ∉ a)
      (place : address = at_ + a.length)
  | terminator (zero : c = 0) (place : address = at_ + str.length)
  | absent (nowhere : c ∉ str) (nonzero : c ≠ 0) (null : address = 0)

theorem FirstAt.cons {b : UInt8} {address : Nat} (other : b ≠ c)
    (found : FirstAt c str (at_ + 1) address) : FirstAt c (b :: str) at_ address := by
  cases found with
  | inside a rest shape first place =>
    refine .inside (b :: a) rest (by rw [shape, List.cons_append]) ?_ ?_
    · simpa using ⟨other.symm, first⟩
    · rw [place, List.length_cons]
      omega
  | terminator zero place =>
    refine .terminator zero ?_
    rw [place, List.length_cons]
    omega
  | absent nowhere nonzero null => exact .absent (by simpa using ⟨other.symm, nowhere⟩) nonzero null

/-- `strchr` returns where the byte is first, or a null pointer, and stores nothing. -/
theorem strchr_first (string : Holds s.mem (s.reg .r3) str)
    (fits : s.reg .r3 + str.length < 2 ^ 32) (asked : s.reg .r4 = c.toNat) :
    Returns (strchr s) fun t => FirstAt c str (s.reg .r3) (t.reg .r3) ∧ t.mem = s.mem := by
  have line (t : State) (keeps : t.reg .r4 = c.toNat) :
      (cmpw .r0 .r4 (lbzu .r0 1 .r3 t)).reg .r3 = add32 (t.reg .r3) 1 ∧
      (cmpw .r0 .r4 (lbzu .r0 1 .r3 t)).reg .r4 = c.toNat ∧
      (cmpw .r0 .r4 (lbzu .r0 1 .r3 t)).mem = t.mem ∧
      ((cmpw .r0 .r4 (lbzu .r0 1 .r3 t)).cr0 = .eq ↔ t.mem (add32 (t.reg .r3) 1) = c) ∧
      (compare (s32 ((cmpw .r0 .r4 (lbzu .r0 1 .r3 t)).reg .r0)) 0 = .eq ↔
        t.mem (add32 (t.reg .r3) 1) = 0) := by
    refine ⟨?_, ?_, ?_, ?_, ?_⟩
    · simp [cmpw, lbzu, lbz, State.address, State.base]
    · simp [cmpw, lbzu, lbz, keeps]
    · simp [cmpw, lbzu, lbz]
    · rw [← compare_byte]
      simp [cmpw, lbzu, lbz, State.address, State.base, keeps]
    · rw [← compare_byte]
      simp [cmpw, lbzu, lbz, State.address, State.base]
      rfl
  refine string_rule (fun here rest t => Before .r3 here t ∧ t.reg .r4 = c.toNat ∧
    t.mem = s.mem ∧ ∀ address, FirstAt c rest here address → FirstAt c str (s.reg .r3) address) _
    string fits ?_ ?_ ⟨?_, ?_, ?_, fun _ found => found⟩
  · rintro here b rest t word byte nonzero ⟨before, keeps, same, whole⟩
    obtain ⟨moved, keeps', mem, hit, ends⟩ := line t keeps
    rw [before.next word, same, byte] at hit ends
    unfold strchr1
    dsimp only
    split
    case isTrue found =>
      rw [hit] at found
      refine .out ⟨whole _ (.inside [] rest ?_ List.not_mem_nil ?_), mem.trans same⟩
      · rw [found, List.nil_append]
      · rw [moved, before.next word, List.length_nil, Nat.add_zero]
    case isFalse other =>
      rw [hit] at other
      rw [if_pos (ends.not.mpr nonzero)]
      exact .again ⟨before.step word moved, keeps', mem.trans same,
        fun address found => whole _ (found.cons other)⟩
  · rintro here t word zero ⟨before, keeps, same, whole⟩
    obtain ⟨moved, keeps', mem, hit, ends⟩ := line t keeps
    rw [before.next word, same, zero] at hit ends
    unfold strchr1
    dsimp only
    split
    case isTrue found =>
      rw [hit] at found
      refine .out ⟨whole _ (.terminator found.symm ?_), mem.trans same⟩
      rw [moved, before.next word, List.length_nil, Nat.add_zero]
    case isFalse other =>
      rw [hit] at other
      rw [if_neg (not_not.mpr (ends.mpr rfl))]
      refine .out ⟨whole _ (.absent List.not_mem_nil (Ne.symm other) ?_), ?_⟩
      · simp [li, u32]
      · exact mem.trans same
  · simp [Before, addi, State.address, State.base]
  · simp [addi, asked]
  · simp [addi]

theorem strchr_eq {a b : CStr} (first : c ∉ a) : CString.strchr (a ++ c :: b) c = some (c :: b) := by
  rw [CString.strchr, if_pos (by simp)]
  congr 1
  rw [List.dropWhile_append_of_pos fun d inside => by
    rw [bne_iff_ne]
    exact fun same => first (same ▸ inside)]
  exact List.dropWhile_cons_of_neg (by simp)

/-- The pointer `strchr` returns designates what the rest of the program takes it for: the string
from the first occurrence on, or nothing. -/
theorem strchr_refines (string : Holds s.mem (s.reg .r3) str)
    (fits : s.reg .r3 + str.length < 2 ^ 32) (asked : s.reg .r4 = c.toNat) (nonzero : c ≠ 0) :
    Returns (strchr s) fun t => t.mem = s.mem ∧
      match CString.strchr str c with
      | some tail => Holds s.mem (t.reg .r3) tail ∧
          t.reg .r3 + tail.length = s.reg .r3 + str.length
      | none => t.reg .r3 = 0 := by
  refine (strchr_first string fits asked).mono fun t done => ⟨done.2, ?_⟩
  cases done.1 with
  | inside a b shape first place =>
    rw [shape, strchr_eq first, place]
    refine ⟨holds_append (shape ▸ string), ?_⟩
    rw [List.length_append, Nat.add_assoc]
  | terminator zero _ => exact absurd zero nonzero
  | absent nowhere _ null =>
    rw [CString.strchr, if_neg nowhere]
    exact null

/-- The first `o` of `tom`, with what comes behind it. -/
theorem twoWords_found : Returns (strchr (called 19 111 0 twoWords)) fun t =>
    t.mem = twoWords ∧ Holds twoWords (t.reg .r3) (cstr "om") ∧ t.reg .r3 + 2 = 19 + 3 :=
  strchr_refines (s := called 19 111 0 twoWords) (c := 111) twoWords_second (by decide) rfl
    (by decide)

/-! ### The last one -/

/-- The last `c` of a string at `at_`. The terminator is never looked at. -/
inductive LastAt (c : UInt8) (str : CStr) (at_ : Nat) (address : Nat) : Prop
  | inside (a b : CStr) (shape : str = a ++ c :: b) (last : c ∉ b)
      (place : address = at_ + a.length)
  | absent (nowhere : c ∉ str) (null : address = 0)

theorem LastAt.behind {b : UInt8} {address : Nat} (found : LastAt c str at_ address)
    (other : b ≠ c) : LastAt c (str ++ [b]) at_ address := by
  cases found with
  | inside a rest shape last place =>
    refine .inside a (rest ++ [b]) (by rw [shape]; simp) ?_ place
    simpa using ⟨last, other.symm⟩
  | absent nowhere null => exact .absent (by simpa using ⟨nowhere, other.symm⟩) null

/-- `strrchr` returns where the byte is last, or a null pointer, and stores nothing. -/
theorem strrchr_last (string : Holds s.mem (s.reg .r3) str)
    (fits : s.reg .r3 + str.length < 2 ^ 32) (asked : s.reg .r4 = c.toNat) :
    Returns (strrchr s) fun t => LastAt c str (s.reg .r3) (t.reg .r3) ∧ t.mem = s.mem := by
  have line (t : State) (keeps : t.reg .r4 = c.toNat) :
      (cmpwi .r0 0 (lbzu .r0 1 .r5 t)).reg .r5 = add32 (t.reg .r5) 1 ∧
      (cmpwi .r0 0 (lbzu .r0 1 .r5 t)).reg .r4 = c.toNat ∧
      (cmpwi .r0 0 (lbzu .r0 1 .r5 t)).reg .r3 = t.reg .r3 ∧
      (cmpwi .r0 0 (lbzu .r0 1 .r5 t)).mem = t.mem ∧
      ((cmpwi .r0 0 (lbzu .r0 1 .r5 t)).cr0 = .eq ↔ t.mem (add32 (t.reg .r5) 1) = 0) ∧
      (compare (s32 ((cmpwi .r0 0 (lbzu .r0 1 .r5 t)).reg .r0))
        (s32 ((cmpwi .r0 0 (lbzu .r0 1 .r5 t)).reg .r4)) = .eq ↔
        t.mem (add32 (t.reg .r5) 1) = c) := by
    refine ⟨?_, ?_, ?_, ?_, ?_, ?_⟩
    · simp [cmpwi, lbzu, lbz, State.address, State.base]
    · simp [cmpwi, lbzu, lbz, keeps]
    · simp [cmpwi, lbzu, lbz]
    · simp [cmpwi, lbzu, lbz]
    · rw [cmpwi_zero]
      simp [lbzu, lbz, State.address, State.base, toNat_eq_zero_iff]
    · rw [← compare_byte]
      simp [cmpwi, lbzu, lbz, State.address, State.base, keeps]
  refine string_rule (fun here rest t => ∃ done, str = done ++ rest ∧
    here = s.reg .r3 + done.length ∧ Before .r5 here t ∧ t.reg .r4 = c.toNat ∧ t.mem = s.mem ∧
    LastAt c done (s.reg .r3) (t.reg .r3)) _ string fits ?_ ?_
    ⟨[], rfl, rfl, ?_, ?_, ?_, .absent List.not_mem_nil ?_⟩
  · rintro here b rest t word byte nonzero ⟨done, shape, place, before, keeps, same, found⟩
    obtain ⟨moved, keeps', kept, mem, ends, hit⟩ := line t keeps
    rw [before.next word, same, byte] at hit ends
    have shape : str = done ++ [b] ++ rest := by rw [shape, List.append_assoc]; rfl
    have place : here + 1 = s.reg .r3 + (done ++ [b]).length := by
      rw [place, List.length_append, List.length_singleton, Nat.add_assoc]
    unfold strrchr1
    dsimp only
    rw [if_neg (ends.not.mpr nonzero)]
    split
    case isTrue other =>
      rw [ne_eq, hit] at other
      refine .again ⟨done ++ [b], shape, place, before.step word moved, keeps', mem.trans same, ?_⟩
      rw [kept]
      exact found.behind other
    case isFalse equal =>
      rw [ne_eq, not_not, hit] at equal
      refine .again ⟨done ++ [b], shape, place, before.step word ?_, ?_, ?_,
        .inside done [] (by rw [equal]) List.not_mem_nil ?_⟩
      · simpa [mr] using moved
      · simpa [mr] using keeps'
      · simpa [mr] using mem.trans same
      · have here_ : here = s.reg .r3 + done.length := by
          rw [List.length_append, List.length_singleton] at place
          omega
        rw [mr, State.set_reg, if_pos rfl, moved, before.next word, u32_of_lt word, here_]
  · rintro here t word zero ⟨done, shape, place, before, keeps, same, found⟩
    obtain ⟨moved, keeps', kept, mem, ends, hit⟩ := line t keeps
    rw [before.next word, same, zero] at hit ends
    unfold strrchr1
    dsimp only
    rw [if_pos (ends.mpr rfl)]
    refine .out ⟨?_, mem.trans same⟩
    rw [kept, shape, List.append_nil]
    exact found
  · simp [Before, li, addi, State.address, State.base]
  · simp [li, addi, asked]
  · simp [li, addi]
  · simp [li, u32]

/-- Cutting at the pointer `strrchr` returns leaves the parts in front of the last occurrence and
behind it, as the rest of the program takes them. -/
theorem strrchr_refines (string : Holds s.mem (s.reg .r3) str)
    (fits : s.reg .r3 + str.length < 2 ^ 32) (asked : s.reg .r4 = c.toNat) :
    Returns (strrchr s) fun t => t.mem = s.mem ∧
      if c ∈ str then t.reg .r3 = s.reg .r3 + (beforeLast str c).length ∧
        Holds s.mem (t.reg .r3 + 1) (afterLast str c)
      else t.reg .r3 = 0 := by
  refine (strrchr_last string fits asked).mono fun t done => ⟨done.2, ?_⟩
  cases done.1 with
  | inside a b shape last place =>
    rw [if_pos (by rw [shape]; simp), shape, Fs.beforeLast_eq last, Fs.afterLast_eq last, place]
    exact ⟨rfl, (holds_cons (holds_append (shape ▸ string))).2.2⟩
  | absent nowhere null =>
    rw [if_neg nowhere]
    exact null

/-- The last `t` of `tom` is its first character. -/
theorem twoWords_found_last : Returns (strrchr (called 19 116 0 twoWords)) fun t =>
    t.mem = twoWords ∧ t.reg .r3 = 19 ∧ Holds twoWords (t.reg .r3 + 1) (cstr "om") :=
  strrchr_refines (s := called 19 116 0 twoWords) (c := 116) twoWords_second (by decide) rfl

end Yaboot.Lib.Strings
