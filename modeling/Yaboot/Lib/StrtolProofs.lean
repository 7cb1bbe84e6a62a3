import Yaboot.Lib.Strtol

/-! Decimal numbers as the readers of numbers see them. -/
namespace Yaboot.Strtol
open CString Word

/-- The value of decimal digits that follow a number read so far. -/
def decimalFrom (value : Nat) (s : CStr) : Nat :=
  s.foldl (fun value c => value * 10 + digitValue c) value

/-- The number a string of decimal digits denotes. -/
def decimal (s : CStr) : Nat := decimalFrom 0 s

/-- One or more decimal digits. -/
structure Decimal (s : CStr) : Prop where
  nonempty : s ≠ []
  digits : ∀ c ∈ s, isdigit c = true

theorem decimalFrom_cons (value : Nat) (c : UInt8) (s : CStr) :
    decimalFrom value (c :: s) = decimalFrom (value * 10 + digitValue c) s := rfl

theorem decimalFrom_ge (value : Nat) (s : CStr) : value ≤ decimalFrom value s := by
  induction s generalizing value with
  | nil => exact le_rfl
  | cons c s ih =>
    have later := ih (value * 10 + digitValue c)
    rw [decimalFrom_cons]
    omega

theorem isdigit_iff (c : UInt8) : isdigit c = true ↔ 48 ≤ c.toNat ∧ c.toNat ≤ 57 := by
  unfold isdigit
  rw [Bool.and_eq_true, decide_eq_true_iff, decide_eq_true_iff]
  exact Iff.rfl

theorem digitValue_lt (digit : isdigit c = true) : digitValue c < 10 := by
  have bounds := (isdigit_iff c).mp digit
  unfold digitValue
  rw [if_pos digit]
  omega

theorem Decimal.not_mem (text : Decimal s) {c : UInt8} (other : isdigit c = false) : c ∉ s := by
  intro member
  rw [text.digits c member] at other
  cases other

/-- Digits in front of what is none are cut off as a whole. -/
theorem digits_cut {s rest : CStr} (decimals : ∀ c ∈ s, isdigit c = true)
    (ends : rest.head?.any isdigit = false) :
    (s ++ rest).takeWhile isdigit = s ∧ (s ++ rest).dropWhile isdigit = rest := by
  have stops : rest.takeWhile isdigit = [] ∧ rest.dropWhile isdigit = rest := by
    cases rest with
    | nil => exact ⟨rfl, rfl⟩
    | cons c rest =>
      have other : ¬ isdigit c = true := by simpa using ends
      exact ⟨List.takeWhile_cons_of_neg other, List.dropWhile_cons_of_neg other⟩
  rw [List.takeWhile_append_of_pos decimals, List.dropWhile_append_of_pos decimals, stops.1,
    stops.2, List.append_nil]
  exact ⟨rfl, rfl⟩

/-- The letters among the hexadecimal digits are no decimal ones. -/
theorem digitValue_letter (hex : isxdigit c = true) (letter : isdigit c = false) :
    10 ≤ digitValue c := by
  unfold isxdigit at hex
  rw [letter, Bool.false_or, Bool.or_eq_true, Bool.and_eq_true, Bool.and_eq_true,
    decide_eq_true_iff, decide_eq_true_iff, decide_eq_true_iff, decide_eq_true_iff] at hex
  unfold digitValue
  rw [if_neg (by simp [letter])]
  split
  next lower =>
    have low : 97 ≤ c.toNat := lower
    omega
  next upper =>
    have low : 65 ≤ c.toNat := by
      rcases hex with big | small
      · exact big.1
      · exact absurd small.1 upper
    omega

/-- In base ten all decimal digits there are get read, and the number is theirs in
a word. -/
theorem digits_ten (value : Nat) (s : CStr) :
    digits 10 (u32 value) s =
      (u32 (decimalFrom value (s.takeWhile isdigit)), s.dropWhile isdigit) := by
  induction s generalizing value with
  | nil => rfl
  | cons c s ih =>
    cases digit : isdigit c with
    | true =>
      have taken : (isxdigit c && decide (digitValue c < 10)) = true := by
        simp [isxdigit, digit, digitValue_lt digit]
      have reduced : u32 (u32 value * 10 + digitValue c) = u32 (value * 10 + digitValue c) := by
        unfold u32
        omega
      rw [digits, if_pos taken, reduced, ih, List.takeWhile_cons_of_pos digit,
        List.dropWhile_cons_of_pos digit, decimalFrom_cons]
    | false =>
      have other : ¬ (isxdigit c && decide (digitValue c < 10)) = true := by
        rw [Bool.and_eq_true, decide_eq_true_iff]
        rintro ⟨hex, small⟩
        exact absurd small (Nat.not_lt.mpr (digitValue_letter hex digit))
      rw [digits, if_neg other, List.takeWhile_cons_of_neg (by simp [digit]),
        List.dropWhile_cons_of_neg (by simp [digit])]
      rfl

/-- Digits are read up to their end, as long as the number fits a word. -/
theorem digits_decimal {s rest : CStr} (value : Nat) (decimals : ∀ c ∈ s, isdigit c = true)
    (ends : rest.head?.any isdigit = false) (fits : decimalFrom value s < 2 ^ 32) :
    digits 10 value (s ++ rest) = (decimalFrom value s, rest) := by
  have start := u32_of_lt (lt_of_le_of_lt (decimalFrom_ge value s) fits)
  obtain ⟨taken, left⟩ := digits_cut decimals ends
  have read := digits_ten value (s ++ rest)
  rwa [start, taken, left, u32_of_lt fits] at read

/-- A decimal number that fits an `int` is read as it is written. -/
theorem simpleStrtol_decimal (text : Decimal s) (fits : decimal s < 2 ^ 31) :
    simpleStrtol s 10 = ((decimal s : Int), []) := by
  have read : digits 10 0 s = (decimal s, []) := by
    have whole : digits 10 0 (s ++ []) = (decimalFrom 0 s, []) :=
      digits_decimal 0 text.digits rfl (show decimal s < 2 ^ 32 by omega)
    rwa [List.append_nil] at whole
  have unsigned : s.head? ≠ some 45 := by
    intro minus
    have digit := text.digits 45 (List.mem_of_head? minus)
    exact absurd digit (by decide)
  have number : simpleStrtoul s 10 = (decimal s, []) := by
    unfold simpleStrtoul
    rw [if_neg (by decide), read]
  unfold simpleStrtol
  rw [if_neg unsigned, number, s32_of_lt fits]

/-- A decimal number with or without a sign in front. -/
def Number (s : CStr) : Prop := Decimal s ∨ ∃ d, Decimal d ∧ s = 45 :: d

def number (s : CStr) : Int := if s.head? = some 45 then -decimal (s.drop 1) else decimal s

theorem simpleStrtol_range (cp : CStr) (base : Nat) :
    -2 ^ 31 ≤ (simpleStrtol cp base).1 ∧ (simpleStrtol cp base).1 < 2 ^ 31 := by
  have range : ∀ n, -2 ^ 31 ≤ s32 n ∧ s32 n < 2 ^ 31 := by
    intro n
    unfold s32
    split <;> omega
  unfold simpleStrtol
  split
  · exact range _
  · exact range _

/-- `simple_strtol` reads a decimal that an `int` can hold. -/
theorem simpleStrtol_number (text : Number s) (fits : -2 ^ 31 ≤ number s ∧ number s < 2 ^ 31) :
    (simpleStrtol s 10).1 = number s := by
  rcases text with text | ⟨d, text, rfl⟩
  · have unsigned : s.head? ≠ some 45 := by
      intro minus
      exact absurd (text.digits 45 (List.mem_of_head? minus)) (by decide)
    unfold number at fits ⊢
    rw [if_neg unsigned] at fits ⊢
    rw [simpleStrtol_decimal text (by omega)]
  · have value : number (45 :: d) = -(decimal d : Int) := rfl
    rw [value] at fits ⊢
    have read : digits 10 0 (d ++ []) = (decimalFrom 0 d, []) :=
      digits_decimal 0 text.digits rfl (show decimal d < 2 ^ 32 by omega)
    have whole : simpleStrtoul d 10 = (decimal d, []) := by
      unfold simpleStrtoul
      rw [if_neg (by decide), ← List.append_nil d, read, List.append_nil]
      rfl
    unfold simpleStrtol
    rw [if_pos (List.head?_cons ..), List.drop_one, List.tail_cons, whole]
    unfold s32
    split <;> omega

/-! ### What is read of any text -/

/-- Decimal digits, if there are any, behind a minus, if there is one. -/
def Digits (g : CStr) : Prop :=
  ∀ c ∈ if g.head? = some 45 then g.drop 1 else g, isdigit c = true

/-- Every text falls into what a reader of decimal numbers takes and the rest. -/
theorem digits_split (m : CStr) : ∃ g rest, m = g ++ rest ∧ Digits g ∧
    rest.head?.any isdigit = false ∧ (g = [] → rest.head? ≠ some 45) := by
  have ends (s : CStr) : (s.dropWhile isdigit).head?.any isdigit = false := by
    have stop := List.head?_dropWhile_not isdigit s
    cases head : (s.dropWhile isdigit).head? with
    | none => rfl
    | some d =>
      rw [head] at stop
      simpa using stop
  have cut (s : CStr) := (List.takeWhile_append_dropWhile (p := isdigit) (l := s)).symm
  by_cases minus : m.head? = some 45
  · obtain ⟨m, rfl⟩ : ∃ t, m = 45 :: t := by
      cases m with
      | nil => cases minus
      | cons c t => exact ⟨t, by rw [Option.some.inj minus]⟩
    refine ⟨45 :: m.takeWhile isdigit, m.dropWhile isdigit, ?_, ?_, ends m, by simp⟩
    · rw [List.cons_append, ← cut m]
    · unfold Digits
      rw [if_pos (List.head?_cons ..)]
      exact fun c member => List.mem_takeWhile_imp member
  · refine ⟨m.takeWhile isdigit, m.dropWhile isdigit, cut m, ?_, ends m, fun none => ?_⟩
    · unfold Digits
      split
      · exact fun c member => List.mem_takeWhile_imp (List.mem_of_mem_drop member)
      · exact fun c member => List.mem_takeWhile_imp member
    · have whole := cut m
      rw [none, List.nil_append] at whole
      rwa [← whole]

theorem s32_mod (n : Nat) : s32 n % 2 ^ 32 = (n : Int) % 2 ^ 32 := by
  unfold s32
  split <;> omega

/-- `simple_strtol` takes all digits and wraps around: it never refuses a number,
and without digits it reads zero. -/
theorem simpleStrtol_digits (text : Digits g) (ends : rest.head?.any isdigit = false)
    (other : g = [] → rest.head? ≠ some 45) :
    (simpleStrtol (g ++ rest) 10).2 = rest ∧
      (simpleStrtol (g ++ rest) 10).1 % 2 ^ 32 = number g % 2 ^ 32 := by
  have read {d : CStr} (decimals : ∀ c ∈ d, isdigit c = true) :
      simpleStrtoul (d ++ rest) 10 = (u32 (decimal d), rest) := by
    obtain ⟨taken, left⟩ := digits_cut decimals ends
    have all := digits_ten 0 (d ++ rest)
    rw [taken, left] at all
    exact all
  unfold Digits at text
  unfold simpleStrtol number
  by_cases minus : g.head? = some 45
  · rw [if_pos minus] at text
    obtain ⟨d, rfl⟩ : ∃ d, g = 45 :: d := by
      cases g with
      | nil => cases minus
      | cons c d => exact ⟨d, by rw [Option.some.inj minus]⟩
    rw [List.drop_one, List.tail_cons] at text
    rw [List.cons_append, if_pos (List.head?_cons ..), List.drop_one, List.tail_cons, read text]
    refine ⟨rfl, ?_⟩
    rw [s32_mod, if_pos (List.head?_cons ..), List.drop_one, List.tail_cons]
    unfold u32
    omega
  · rw [if_neg minus] at text
    have plain : (g ++ rest).head? ≠ some 45 := by
      cases g with
      | nil => exact other rfl
      | cons c g => exact minus
    rw [if_neg plain, if_neg minus, read text]
    refine ⟨rfl, ?_⟩
    rw [s32_mod]
    unfold u32
    omega

end Yaboot.Strtol
