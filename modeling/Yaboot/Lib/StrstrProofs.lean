import Mathlib.Data.List.GetD
import Yaboot.Lib.Strstr
import Yaboot.Netboot.ArgsProofs

/-! `strstr` finds the first place of its needle, and reads nothing behind a terminator. -/
namespace Yaboot.Lib.Strstr
open CString Loop
open Netboot (strstrAt)

variable {hay needle : CStr} {a b c : UInt8} {h n i : Nat}

/-! ### Characters -/

theorem char_eq {s : CStr} (within : i ≤ s.length) : char s i = some (s.getD i 0) := by
  unfold char
  rcases Nat.lt_or_eq_of_le within with inside | last
  · rw [List.getElem?_append_left inside, List.getD_eq_getElem _ _ inside,
      List.getElem?_eq_getElem inside]
  · rw [last, List.getElem?_append_right le_rfl, Nat.sub_self,
      List.getD_eq_default _ _ le_rfl]
    rfl

/-- Only the terminator of a string is zero. -/
theorem getD_eq_zero_iff {s : CStr} (clean : 0 ∉ s) (within : i ≤ s.length) :
    s.getD i 0 = 0 ↔ i = s.length := by
  constructor
  · intro zero
    by_contra other
    have inside : i < s.length := Nat.lt_of_le_of_ne within other
    rw [List.getD_eq_getElem _ _ inside] at zero
    exact clean (zero ▸ List.getElem_mem inside)
  · rintro rfl
    exact List.getD_eq_default _ _ le_rfl

/-- A string starts at a position with its first character, and goes on behind it. -/
theorem prefix_drop_iff (nonzero : b ≠ 0) (rest : CStr) (h : Nat) :
    b :: rest <+: hay.drop h ↔ hay.getD h 0 = b ∧ rest <+: hay.drop (h + 1) := by
  by_cases inside : h < hay.length
  · rw [List.drop_eq_getElem_cons inside, List.cons_prefix_cons, List.getD_eq_getElem _ _ inside,
      eq_comm]
  · have behind := Nat.le_of_not_lt inside
    rw [List.drop_eq_nil_of_le behind, List.getD_eq_default _ _ behind]
    exact iff_of_false (by simp) fun both => nonzero both.1.symm

/-! ### Agreement -/

/-- How a round of the inner loop stands: the two characters are the same, and whether the
needle goes on there is still open. -/
structure Open (hay needle : CStr) (target : Prop) (h n : Nat) (a : UInt8) : Prop where
  first : hay.getD h 0 = a
  second : needle.getD n 0 = a
  inHay : h ≤ hay.length
  inNeedle : n ≤ needle.length
  same : needle.drop n <+: hay.drop h ↔ target

section Agree
variable {target : Prop}

/-- A character that is not zero is followed by one in both strings. -/
theorem Open.next (o : Open hay needle target h n a) (clean : 0 ∉ hay) (clean' : 0 ∉ needle)
    (nonzero : a ≠ 0) :
    h + 1 ≤ hay.length ∧ n + 1 ≤ needle.length ∧
      (needle.drop (n + 1) <+: hay.drop (h + 1) ↔ target) := by
  have inside : n < needle.length := by
    refine Nat.lt_of_le_of_ne o.inNeedle fun last => nonzero ?_
    rw [← o.second, (getD_eq_zero_iff clean' o.inNeedle).mpr last]
  have within : h < hay.length := by
    refine Nat.lt_of_le_of_ne o.inHay fun last => nonzero ?_
    rw [← o.first, (getD_eq_zero_iff clean o.inHay).mpr last]
  refine ⟨within, inside, ?_⟩
  have second := o.second
  rw [List.getD_eq_getElem _ _ inside] at second
  rw [← o.same, List.drop_eq_getElem_cons inside, second, prefix_drop_iff nonzero,
    and_iff_right o.first]

/-- Where the needle has come to its end, it is there. -/
theorem Open.ends (o : Open hay needle target h n a) (clean' : 0 ∉ needle) (zero : a = 0) : target := by
  have last := (getD_eq_zero_iff clean' o.inNeedle).mp (o.second.trans zero)
  rw [← o.same, last, List.drop_length]
  exact List.nil_prefix

/-- Where the two differ, the needle is there only if it has ended. -/
theorem differ (clean' : 0 ∉ needle) (inNeedle : n ≤ needle.length)
    (same : needle.drop n <+: hay.drop h ↔ target) (other : hay.getD h 0 ≠ needle.getD n 0) :
    (needle.getD n 0 == 0) = true ↔ target := by
  rw [beq_iff_eq, ← same]
  constructor
  · intro zero
    rw [(getD_eq_zero_iff clean' inNeedle).mp zero, List.drop_length]
    exact List.nil_prefix
  · intro starts
    by_contra nonzero
    have inside : n < needle.length := Nat.lt_of_le_of_ne inNeedle fun last =>
      nonzero ((getD_eq_zero_iff clean' inNeedle).mpr last)
    rw [List.drop_eq_getElem_cons inside, ← List.getD_eq_getElem _ 0 inside,
      prefix_drop_iff nonzero] at starts
    exact other starts.1

/-- One round of the comparison goes a character on, or tells whether the needle is there. -/
theorem agreeing_meets (clean : 0 ∉ hay) (clean' : 0 ∉ needle)
    (o : Open hay needle target h n a) :
    (Round.ofOption (agreeing hay needle (h, n, a))).Meets
      (fun s => n < s.2.1 ∧ Open hay needle target s.1 s.2.1 s.2.2)
      (fun r => ∃ found, r = some found ∧ (found = true ↔ target)) := by
  by_cases zero : a = 0
  · simp only [agreeing, zero, if_true]
    exact .out ⟨true, rfl, iff_of_true rfl (o.ends clean' zero)⟩
  obtain ⟨inHay, inNeedle, same⟩ := o.next clean clean' zero
  simp only [agreeing, if_neg zero, char_eq inHay, char_eq inNeedle, bind, Option.bind]
  by_cases other : hay.getD (h + 1) 0 ≠ needle.getD (n + 1) 0
  · rw [if_pos other]
    exact .out ⟨_, rfl, differ clean' inNeedle same other⟩
  rw [if_neg other]
  rw [not_not] at other
  have o : Open hay needle target (h + 1) (n + 1) (needle.getD (n + 1) 0) :=
    ⟨other, rfl, inHay, inNeedle, same⟩
  by_cases zero : needle.getD (n + 1) 0 = 0
  · rw [if_pos zero]
    exact .out ⟨true, rfl, iff_of_true rfl (o.ends clean' zero)⟩
  rw [if_neg zero]
  obtain ⟨inHay, inNeedle, same⟩ := o.next clean clean' zero
  rw [char_eq inNeedle, char_eq inHay]
  by_cases other : hay.getD (h + 2) 0 = needle.getD (n + 2) 0
  · dsimp only
    rw [if_pos other]
    exact .again ⟨Nat.lt_add_of_pos_right (by decide), other, rfl, inHay, inNeedle, same⟩
  · dsimp only
    rw [if_neg other]
    exact .out ⟨_, rfl, differ clean' inNeedle same other⟩

/-- The comparison tells whether the rest of the needle begins the rest of the text. -/
theorem agree_iff (clean : 0 ∉ hay) (clean' : 0 ∉ needle) (inHay : h ≤ hay.length)
    (inNeedle : n ≤ needle.length) (enough : needle.length < fuel) :
    Returns (agree fuel hay needle h n) fun found =>
      (found = true ↔ needle.drop n <+: hay.drop h) := by
  simp only [agree, char_eq inHay, char_eq inNeedle, bind, Option.bind]
  by_cases other : hay.getD h 0 = needle.getD n 0
  · rw [if_pos other]
    have run := @spin_rule _ _ (needle.length - n) (h, n, needle.getD n 0) _
      (fun s => Round.ofOption (agreeing hay needle s))
      (fun left s => left = needle.length - s.2.1 ∧
        Open hay needle (needle.drop n <+: hay.drop h) s.1 s.2.1 s.2.2)
      (fun r => ∃ found, r = some found ∧ (found = true ↔ needle.drop n <+: hay.drop h))
      (by
        rintro left s ⟨left_eq, o⟩
        refine (agreeing_meets clean clean' o).mono ?_ fun _ done => done
        rintro next ⟨further, o⟩
        have within := o.inNeedle
        exact ⟨_, by omega, rfl, o⟩)
      ⟨rfl, other, rfl, inHay, inNeedle, Iff.rfl⟩ (Nat.lt_of_le_of_lt (Nat.sub_le _ _) enough)
    obtain ⟨_, result, found, rfl, iff⟩ := run
    rw [result]
    exact .of_some iff
  · rw [if_neg other]
    exact .of_some (differ clean' inNeedle Iff.rfl other)

end Agree

/-! ### The search -/

/-- The needle is at none of the positions in front of `h`. -/
def NoneBefore (hay needle : CStr) (h : Nat) : Prop := ∀ i < h, ¬ needle <+: hay.drop i

theorem NoneBefore.succ (none : NoneBefore hay needle h) (here : ¬ needle <+: hay.drop h) :
    NoneBefore hay needle (h + 1) := by
  intro i before
  rcases Nat.lt_or_eq_of_le (Nat.le_of_lt_succ before) with earlier | same
  · exact none i earlier
  · exact same ▸ here

/-- What the position returned says about the two strings. -/
def Answer (hay needle : CStr) : Option Nat → Prop
  | some h => NoneBefore hay needle h ∧ needle <+: hay.drop h
  | none => ∀ i, ¬ needle <+: hay.drop i

/-- A needle that is not empty is not at the terminator. -/
theorem NoneBefore.answer (before : NoneBefore hay needle hay.length) (nonempty : needle ≠ []) :
    Answer hay needle none := by
  intro i starts
  by_cases inside : i < hay.length
  · exact before i inside starts
  · rw [List.drop_eq_nil_of_le (Nat.le_of_not_lt inside), List.prefix_nil] at starts
    exact nonempty starts

/-- Where the outer loop is: what it has read, and that the needle is not before. -/
def At (hay needle : CStr) (b : UInt8) : Place → Prop
  | .again h => h < hay.length ∧ NoneBefore hay needle (h + 1)
  | .shloop h a => h < hay.length ∧ hay.getD h 0 = a ∧ NoneBefore hay needle h
  | .jin h => h < hay.length ∧ hay.getD h 0 = b ∧ NoneBefore hay needle h

/-- Each jump comes nearer to the end, or to the head of the loop. -/
def left (hay : CStr) : Place → Nat
  | .again h => 3 * (hay.length - h)
  | .jin h => 3 * (hay.length - h) + 1
  | .shloop h _ => 3 * (hay.length - h) + 2

section Search
variable {rest : CStr} (clean : 0 ∉ hay) (clean' : 0 ∉ b :: c :: rest)
include clean clean'

/-- One round of the search passes over places that do not begin with the needle, or returns the
first that does. -/
theorem search_meets {place : Place} (enough : (b :: c :: rest).length < fuel)
    (at_ : At hay (b :: c :: rest) b place) :
    (Round.ofOption (search fuel hay (b :: c :: rest) b c place)).Meets
      (fun next => left hay next < left hay place ∧ At hay (b :: c :: rest) b next)
      (fun r => ∃ answer, r = some answer ∧ Answer hay (b :: c :: rest) answer) := by
  have nonzero : b ≠ 0 := fun zero => clean' (by simp [zero])
  have nonzero' : c ≠ 0 := fun zero => clean' (by simp [zero])
  have starts (h : Nat) : b :: c :: rest <+: hay.drop h ↔
      hay.getD h 0 = b ∧ hay.getD (h + 1) 0 = c ∧ rest <+: hay.drop (h + 2) := by
    rw [prefix_drop_iff nonzero, prefix_drop_iff nonzero']
  cases place with
  | again h =>
    obtain ⟨inside, before⟩ := at_
    simp only [search, char_eq (show h + 1 ≤ hay.length from inside), bind, Option.bind]
    by_cases zero : hay.getD (h + 1) 0 = 0
    · rw [if_pos zero]
      have last := (getD_eq_zero_iff clean inside).mp zero
      exact .out ⟨none, rfl, NoneBefore.answer (last ▸ before) (List.cons_ne_nil _ _)⟩
    rw [if_neg zero]
    have inside : h + 1 < hay.length := Nat.lt_of_le_of_ne inside fun last =>
      zero ((getD_eq_zero_iff clean inside).mpr last)
    by_cases found : hay.getD (h + 1) 0 = b
    · rw [if_pos found]
      refine .again ⟨?_, inside, found, before⟩
      simp only [left]
      omega
    rw [if_neg found, char_eq (show h + 2 ≤ hay.length from inside)]
    have before := before.succ fun here => found ((starts _).mp here).1
    dsimp only
    by_cases zero : hay.getD (h + 2) 0 = 0
    · rw [if_pos zero]
      have last := (getD_eq_zero_iff clean inside).mp zero
      exact .out ⟨none, rfl, NoneBefore.answer (last ▸ before) (List.cons_ne_nil _ _)⟩
    · rw [if_neg zero]
      have inside : h + 2 < hay.length := Nat.lt_of_le_of_ne inside fun last =>
        zero ((getD_eq_zero_iff clean inside).mpr last)
      refine .again ⟨?_, inside, rfl, before⟩
      simp only [left]
      omega
  | shloop h a =>
    obtain ⟨inside, byte, before⟩ := at_
    simp only [search]
    refine .again ?_
    split
    case isTrue other =>
      refine ⟨by simp [left], inside, before.succ fun here => ?_⟩
      exact other (byte.symm.trans ((starts h).mp here).1)
    case isFalse same =>
      rw [not_not] at same
      exact ⟨by simp [left], inside, byte.trans same, before⟩
  | jin h =>
    obtain ⟨inside, byte, before⟩ := at_
    simp only [search, char_eq (show h + 1 ≤ hay.length from inside), bind, Option.bind]
    by_cases zero : hay.getD (h + 1) 0 = 0
    · rw [if_pos zero]
      have last := (getD_eq_zero_iff clean inside).mp zero
      have before := before.succ fun here => by
        have second := ((starts h).mp here).2.1
        exact nonzero' (second.symm.trans zero)
      exact .out ⟨none, rfl, NoneBefore.answer (last ▸ before) (List.cons_ne_nil _ _)⟩
    rw [if_neg zero]
    have next : h + 1 < hay.length := Nat.lt_of_le_of_ne inside fun last =>
      zero ((getD_eq_zero_iff clean inside).mpr last)
    by_cases other : hay.getD (h + 1) 0 ≠ c
    · rw [if_pos other]
      refine .again ⟨?_, next, rfl, before.succ fun here => other ((starts h).mp here).2.1⟩
      simp only [left]
      omega
    rw [if_neg other]
    rw [not_not] at other
    obtain ⟨found, result, iff⟩ := agree_iff (h := h + 2) (n := 2) clean clean' next
      (by simp) enough
    have iff : found = true ↔ b :: c :: rest <+: hay.drop h := by
      rw [iff, starts, and_iff_right byte, and_iff_right other]
      rfl
    rw [result]
    dsimp only
    by_cases there : found = true
    · rw [if_pos there]
      exact .out ⟨some h, rfl, before, iff.mp there⟩
    · rw [if_neg there]
      refine .again ⟨?_, inside, before.succ (iff.not.mp there)⟩
      simp [left]

end Search

/-- The search for a single character goes one place on, or returns the first. -/
theorem first_meets (clean : 0 ∉ hay) (within : h ≤ hay.length)
    (before : NoneBefore hay [b] h) :
    (Round.ofOption (first hay b h)).Meets
      (fun next => next = h + 1 ∧ next ≤ hay.length ∧ NoneBefore hay [b] next)
      (fun r => ∃ found, r = some found ∧ Answer hay [b] found) := by
  simp only [first, char_eq within, bind, Option.bind]
  by_cases zero : hay.getD h 0 = 0
  · rw [if_pos zero]
    have last := (getD_eq_zero_iff clean within).mp zero
    exact .out ⟨none, rfl, NoneBefore.answer (last ▸ before) (List.cons_ne_nil _ _)⟩
  rw [if_neg zero]
  have inside : h < hay.length := Nat.lt_of_le_of_ne within fun last =>
    zero ((getD_eq_zero_iff clean within).mpr last)
  by_cases found : hay.getD h 0 = b
  · rw [if_pos found]
    refine .out ⟨some h, rfl, before, ?_⟩
    rw [List.drop_eq_getElem_cons inside, ← List.getD_eq_getElem _ 0 inside, found]
    simp
  · rw [if_neg found]
    refine .again ⟨rfl, inside, before.succ fun here => found ?_⟩
    rw [List.drop_eq_getElem_cons inside, ← List.getD_eq_getElem _ 0 inside,
      List.cons_prefix_cons] at here
    exact here.1.symm

/-! ### The first place -/

theorem strstrAt_of_first (before : NoneBefore hay needle h) (within : h ≤ hay.length)
    (here : needle <+: hay.drop h) : strstrAt needle hay = some (hay.drop h) := by
  induction hay generalizing h with
  | nil =>
    obtain rfl : h = 0 := Nat.le_zero.mp within
    rw [strstrAt, if_pos (List.prefix_nil.mp here), List.drop_nil]
  | cons d hay ih =>
    rw [strstrAt]
    cases h with
    | zero =>
      rw [List.drop_zero] at here ⊢
      rw [if_pos here]
    | succ h =>
      have other : ¬ needle <+: d :: hay := before 0 (Nat.succ_pos h)
      rw [if_neg other, List.drop_succ_cons]
      exact ih (fun i less => before (i + 1) (Nat.succ_lt_succ less))
        (Nat.le_of_succ_le_succ within) here

/-- An answer of the search is the first place where the needle begins, as the rest of the program
has it. -/
theorem Answer.strstrAt_eq {answer : Option Nat} (nonempty : needle ≠ [])
    (right : Answer hay needle answer) :
    answer = (strstrAt needle hay).map fun tail => hay.length - tail.length := by
  cases answer with
  | some h =>
    have inside : h < hay.length := by
      by_contra behind
      have here := right.2
      rw [List.drop_eq_nil_of_le (Nat.le_of_not_lt behind), List.prefix_nil] at here
      exact nonempty here
    rw [strstrAt_of_first right.1 (Nat.le_of_lt inside) right.2, Option.map_some,
      List.length_drop, Nat.sub_sub_self (Nat.le_of_lt inside)]
  | none =>
    have absent : strstrAt needle hay = none := by
      rw [Netboot.strstrAt_none_iff nonempty, List.infix_iff_prefix_suffix]
      rintro ⟨tail, starts, ends⟩
      rw [List.suffix_iff_eq_drop.mp ends] at starts
      exact right _ starts
    rw [absent, Option.map_none]

/-- What `strstr` returns is the first place of the needle, as the rest of the program
takes it. The loops end, and no character behind a terminator is read. -/
theorem strstr_refines (clean : 0 ∉ hay) (clean' : 0 ∉ needle)
    (enough : 3 * hay.length + needle.length + 2 < fuel) :
    strstr fuel hay needle =
      some ((strstrAt needle hay).map fun tail => hay.length - tail.length) := by
  cases needle with
  | nil =>
    have here : strstrAt [] hay = some hay :=
      strstrAt_of_first (h := 0) (fun _ less => absurd less (Nat.not_lt_zero _)) (Nat.zero_le _)
        List.nil_prefix
    rw [here, Option.map_some, Nat.sub_self]
    rfl
  | cons b needle =>
    have nonzero : b ≠ 0 := fun zero => clean' (by simp [zero])
    obtain ⟨_, result, found, rfl, right⟩ := @spin_rule _ _ (hay.length - 0) 0 fuel
      (fun s => Round.ofOption (first hay b s))
      (fun left h => left = hay.length - h ∧ h ≤ hay.length ∧ NoneBefore hay [b] h)
      (fun r => ∃ found, r = some found ∧ Answer hay [b] found)
      (by
        rintro left h ⟨left_eq, within, before⟩
        refine (first_meets clean within before).mono ?_ fun _ done => done
        rintro next ⟨further, within, before⟩
        exact ⟨_, by omega, rfl, within, before⟩)
      ⟨rfl, Nat.zero_le _, fun _ less => absurd less (Nat.not_lt_zero _)⟩ (by omega)
    have head : char (b :: needle) 0 = some b := rfl
    simp only [strstr, head, if_neg nonzero, result, Option.join_some, bind, Option.bind]
    cases found with
    | none =>
      have right : Answer hay (b :: needle) none := fun i starts =>
        right i ((List.prefix_append [b] needle).trans starts)
      rw [← right.strstrAt_eq (List.cons_ne_nil _ _)]
      rfl
    | some h =>
      cases needle with
      | nil =>
        rw [← right.strstrAt_eq (List.cons_ne_nil _ _)]
        rfl
      | cons c rest =>
        have nonzero' : c ≠ 0 := fun zero => clean' (by simp [zero])
        obtain ⟨before, here⟩ := right
        have before : NoneBefore hay (b :: c :: rest) h := fun i less starts =>
          before i less ((List.prefix_append [b] (c :: rest)).trans starts)
        have at_ : At hay (b :: c :: rest) b (.jin h) := by
          have both := (prefix_drop_iff nonzero [] h).mp here
          refine ⟨?_, both.1, before⟩
          by_contra behind
          rw [List.getD_eq_default _ _ (Nat.le_of_not_lt behind)] at both
          exact nonzero both.1.symm
        obtain ⟨_, result, answer, rfl, right⟩ := @spin_rule _ _ (left hay (.jin h)) (.jin h) fuel
          (fun s => Round.ofOption (search fuel hay (b :: c :: rest) b c s))
          (fun less place => less = left hay place ∧ At hay (b :: c :: rest) b place)
          (fun r => ∃ answer, r = some answer ∧ Answer hay (b :: c :: rest) answer)
          (by
            rintro less place ⟨less_eq, at_⟩
            refine (search_meets clean clean' (by omega) at_).mono ?_ fun _ done => done
            rintro next ⟨nearer, at_⟩
            exact ⟨_, less_eq ▸ nearer, rfl, at_⟩)
          ⟨rfl, at_⟩ (by simp only [left]; omega)
        have second : char (b :: c :: rest) 1 = some c := rfl
        simp only [second, if_neg nonzero', result, Option.join_some]
        rw [right.strstrAt_eq (List.cons_ne_nil _ _)]

/-- `tom` is found at the end of `totom`. -/
theorem tom_found : strstr 30 (cstr "totom") (cstr "tom") =
    some ((strstrAt (cstr "tom") (cstr "totom")).map fun tail => 5 - tail.length) :=
  strstr_refines (by decide) (by decide) (by decide)

end Yaboot.Lib.Strstr
