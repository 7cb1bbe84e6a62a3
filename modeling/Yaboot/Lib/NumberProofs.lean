import Mathlib.Data.List.GetD
import Yaboot.Lib.Number
import Yaboot.Lib.StrtolProofs

/-! `number` writes what its description says, without leaving its buffer of digits, and
`simple_strtoul` reads back what it writes. -/
namespace Yaboot.Vsprintf.Stepwise
open CString Strtol

variable {str tmp : CStr} {base n : Nat} {size precision num : Int} {type : Flags}

/-! ### Loops -/

theorem fill_eq (c : UInt8) (size : Int) (str : CStr) :
    fill c size str = ((if 0 < size then -1 else size - 1), str ++ List.replicate size.toNat c) := by
  fun_induction fill c size str with
  | case1 size str more ih =>
    have count : size.toNat = (size - 1).toNat + 1 := by omega
    rw [ih, if_pos more, count, List.replicate_succ, List.append_assoc, List.singleton_append]
    split
    · rfl
    · congr 1
      omega
  | case2 size str done =>
    rw [if_neg done, Int.toNat_of_nonpos (Int.not_lt.mp done), List.replicate_zero,
      List.append_nil]

theorem zeros_eq (i precision : Int) (str : CStr) :
    zeros i precision str = str ++ List.replicate (precision - i).toNat (ascii '0') := by
  fun_induction zeros i precision str with
  | case1 precision str more ih =>
    have count : (precision - i).toNat = (precision - 1 - i).toNat + 1 := by omega
    rw [ih, count, List.replicate_succ, List.append_assoc, List.singleton_append]
  | case2 precision str done =>
    rw [Int.toNat_of_nonpos (by omega), List.replicate_zero, List.append_nil]

theorem copyBack_eq (tmp : CStr) (within : n ≤ tmp.length) (str : CStr) :
    copyBack tmp n str = str ++ (tmp.take n).reverse := by
  induction n generalizing str with
  | zero => simp [copyBack]
  | succ n ih =>
    rw [copyBack, ih (Nat.le_of_succ_le within), List.take_succ_eq_append_getElem within,
      List.getD_eq_getElem _ _ within, List.reverse_append, List.reverse_singleton,
      List.append_assoc]

/-! ### Digits -/

theorem digitChars_getD (large : Bool) (small : n < 16) :
    (digitChars large).getD n 0 =
      ascii (if large then (Nat.digitChar n).toUpper else Nat.digitChar n) := by
  revert n
  cases large <;> decide

theorem digitsOf_of_lt {large : Bool} (less : n < base) : digitsOf base n large =
    [ascii (if large then (Nat.digitChar n).toUpper else Nat.digitChar n)] := by
  rw [digitsOf, Nat.toDigits_of_lt_base less, List.map_singleton]

theorem digitsOf_of_le {large : Bool} (low : 1 < base) (le : base ≤ n) : digitsOf base n large =
    digitsOf base (n / base) large ++ digitsOf base (n % base) large := by
  rw [digitsOf_of_lt (Nat.mod_lt n (by omega)), digitsOf, Nat.toDigits_of_base_le low le,
    List.map_append, List.map_singleton]
  rfl

/-- The buffer is filled from the last digit on. -/
theorem digitLoop_eq {large : Bool} (low : 1 < base) (high : base ≤ 16) (positive : n ≠ 0)
    (room : n < base ^ (66 - tmp.length)) :
    digitLoop (digitChars large) base n tmp = some (tmp ++ (digitsOf base n large).reverse) := by
  generalize left : 66 - tmp.length = k at room
  induction k generalizing n tmp with
  | zero =>
    rw [Nat.pow_zero] at room
    exact absurd (Nat.lt_one_iff.mp room) positive
  | succ k ih =>
    have last := Nat.mod_lt n (show 0 < base by omega)
    rw [digitLoop, if_neg positive, if_pos (by omega), digitChars_getD large (by omega),
      ← digitsOf_of_lt last]
    by_cases less : n < base
    · rw [Nat.div_eq_of_lt less, Nat.mod_eq_of_lt less, digitLoop, if_pos rfl,
        digitsOf_of_lt less, List.reverse_singleton]
    · rw [Nat.not_lt] at less
      have one : (digitsOf base (n % base) large).length = 1 := by rw [digitsOf_of_lt last]; rfl
      rw [ih (Nat.div_pos less (by omega)).ne' ?_ ?_, List.append_assoc, digitsOf_of_le low less,
        List.reverse_append, digitsOf_of_lt last, List.reverse_singleton]
      · rw [List.length_append, one]
        omega
      · rw [Nat.div_lt_iff_lt_mul (by omega), ← Nat.pow_succ]
        exact room

/-! ### The whole number -/

theorem digitChars_x (large : Bool) :
    (digitChars large).getD 33 0 = ascii (if large then 'X' else 'x') := by
  revert large
  decide

/-- The prefix a number is written with. -/
def specialOf (base : Nat) (type : Flags) : CStr :=
  if !type.special then []
  else if base = 8 then [ascii '0']
  else if base = 16 then [ascii '0', ascii (if type.large then 'X' else 'x')]
  else []

theorem specialSize_eq (base : Nat) (size : Int) (type : Flags) :
    specialSize base size type = size - (specialOf base type).length := by
  unfold specialSize specialOf
  cases type.special with
  | false => simp
  | true =>
    by_cases eight : base = 8
    · simp [eight]
    · by_cases sixteen : base = 16
      · simp [sixteen]
      · simp [eight, sixteen]

theorem writeSpecial_eq {large : Bool} (base : Nat) (same : type.large = large) (str : CStr) :
    writeSpecial (digitChars large) base type str = str ++ specialOf base type := by
  unfold writeSpecial specialOf
  rw [digitChars_x, same]
  cases type.special with
  | false => simp
  | true =>
    by_cases eight : base = 8
    · simp [eight]
    · by_cases sixteen : base = 16
      · simp [sixteen]
      · simp [eight, sixteen]

/-- Only one of the loops that pad does. -/
theorem write_eq (digits : CStr) (sign tmp : CStr) (size precision : Int) (type : Flags)
    (special : ∀ str, writeSpecial digits base type str = str ++ specialOf base type)
    (either : (type.zeropad && type.left) = false) (str : CStr) :
    write digits base sign tmp.reverse size precision type str = str ++
      ((if !type.zeropad && !type.left then List.replicate size.toNat (ascii ' ') else []) ++ sign ++
        specialOf base type ++
        (if type.zeropad then List.replicate size.toNat (ascii '0') else []) ++
        List.replicate (precision - tmp.length).toNat (ascii '0') ++ tmp ++
        (if type.left then List.replicate size.toNat (ascii ' ') else [])) := by
  have copied (str : CStr) : copyBack tmp.reverse tmp.length str = str ++ tmp := by
    rw [copyBack_eq _ (List.length_reverse).ge, ← List.length_reverse, List.take_length,
      List.reverse_reverse]
  have spent (size : Int) : (if 0 < size then -1 else size - 1 : Int).toNat = 0 := by
    split <;> omega
  have again (size : Int) : ¬ 0 < (if 0 < size then -1 else size - 1 : Int) := by
    split <;> omega
  have less (size : Int) : ((if 0 < size then -1 else size - 1 : Int) - 1).toNat = 0 := by
    split <;> omega
  unfold write
  cases zeropad : type.zeropad with
  | false =>
    cases left : type.left with
    | false => simp [fill_eq, zeros_eq, special, copied, spent, again, less]
    | true => simp [fill_eq, zeros_eq, special, copied]
  | true =>
    have left : type.left = false := by simpa [zeropad] using either
    simp [left, fill_eq, zeros_eq, special, copied, spent]

/-- The sign a number is written with. -/
def signOf (num : Int) (type : Flags) : CStr :=
  if !type.sign then []
  else if num < 0 then [ascii '-']
  else if type.plus then [ascii '+']
  else if type.space then [ascii ' ']
  else []

/-- The sign goes in front and takes its place from the width, and the number becomes its absolute
value. -/
theorem takeSign_eq (size : Int) (right : type.sign = true ∨ 0 ≤ num) :
    takeSign num size type = (signOf num type, (num.natAbs : Int), size - (signOf num type).length) := by
  have whole (positive : 0 ≤ num) : (num.natAbs : Int) = num := Int.natAbs_of_nonneg positive
  unfold takeSign signOf
  cases sign : type.sign with
  | false =>
    have positive : 0 ≤ num := right.resolve_left (by simp [sign])
    simp [whole positive]
  | true =>
    by_cases negative : num < 0
    · have abs : (num.natAbs : Int) = -num := by omega
      simp [negative, abs]
    · rw [if_pos rfl, if_neg negative, whole (Int.not_lt.mp negative)]
      simp only [Bool.not_true, Bool.false_eq_true, if_false, negative]
      split
      · rfl
      · split
        · rfl
        · simp

/-- The digits, the last one first. -/
theorem tmp_eq {large : Bool} (low : 1 < base) (high : base ≤ 16) (fits : n < 2 ^ 63) :
    (if (n : Int) = 0 then some [ascii '0']
      else if (n : Int) < 0 then none
      else digitLoop (digitChars large) base (n : Int).toNat []) =
      some (digitsOf base n large).reverse := by
  by_cases zero : n = 0
  · have upper : Char.toUpper '0' = '0' := by decide
    rw [zero, digitsOf_of_lt (by omega)]
    cases large <;> simp [Nat.digitChar, upper]
  · have room : n < base ^ 66 :=
      fits.trans_le ((Nat.pow_le_pow_right (by decide) (by decide)).trans
        (Nat.pow_le_pow_left low 66))
    rw [if_neg (by omega), if_neg (by omega), Int.toNat_natCast,
      digitLoop_eq low high zero (by simpa using room), List.nil_append]

/-- The statements of `number` write what its description says: no loop leaves the buffer of 66
digits, and padding, sign, prefix, zeros and digits come in the order the flags ask for. -/
theorem number_refines (str : CStr) (low : 1 < base) (high : base ≤ 16) (size precision : Int)
    (right : type.sign = true ∨ 0 ≤ num) (fits : num.natAbs < 2 ^ 63) :
    number str num base size precision type =
      some (str ++ Vsprintf.number num base size precision type) := by
  obtain ⟨zeropad, sign, plus, space, left, special, large⟩ := type
  have chosen : (if left then (⟨false, sign, plus, space, left, special, large⟩ : Flags)
      else ⟨zeropad, sign, plus, space, left, special, large⟩) =
      ⟨zeropad && !left, sign, plus, space, left, special, large⟩ := by
    cases left <;> simp
  have widest (n : Nat) (p : Int) : (if p < n then (n : Int) else p) = max (n : Int) p := by
    split <;> omega
  have signed : takeSign num size ⟨zeropad && !left, sign, plus, space, left, special, large⟩ = _ :=
    takeSign_eq size right
  unfold number
  dsimp only
  rw [if_neg (by omega), chosen, signed]
  dsimp only
  rw [tmp_eq low high fits, Option.map_some,
    write_eq (digitChars large) _ _ _ _ _ (writeSpecial_eq base rfl) (by simp),
    List.length_reverse, widest, specialSize_eq]
  rfl

/-- A hexadecimal number with its prefix, padded to eight characters. -/
theorem hex_refined : number [] 255 16 8 (-1) { noFlags with special := true } =
    some ([] ++ Vsprintf.number 255 16 8 (-1) { noFlags with special := true }) :=
  number_refines [] (by decide) (by decide) 8 (-1) (.inr (by decide)) (by decide)

/-! ### Reading back -/

/-- What stands behind a number does not go on with it, in any base. -/
def Ends (rest : CStr) : Prop := ∀ c ∈ rest.head?, isxdigit c = false ∧ c ≠ 120

theorem ends_comma : Ends [44] := fun c member => by
  obtain rfl := Option.some.inj member
  decide

theorem digits_ends {rest : CStr} (ends : Ends rest) (base result : Nat) :
    digits base result rest = (result, rest) := by
  cases rest with
  | nil => rfl
  | cons c rest => simp [digits, (ends c rfl).1]

theorem digit_value (large : Bool) (small : n < 16) :
    isxdigit (ascii (if large then (Nat.digitChar n).toUpper else Nat.digitChar n)) = true ∧
      digitValue (ascii (if large then (Nat.digitChar n).toUpper else Nat.digitChar n)) = n := by
  revert n
  cases large <;> decide

/-- Reading the digits of a number adds it behind what was read. -/
theorem digits_digitsOf {large : Bool} (low : 1 < base) (high : base ≤ 16) (n : Nat) (rest : CStr) :
    digits base 0 (digitsOf base n large ++ rest) = digits base (Word.u32 n) rest := by
  induction n using Nat.strong_induction_on generalizing rest with
  | _ n ih =>
    by_cases less : n < base
    · obtain ⟨digit, value⟩ := digit_value (n := n) large (by omega)
      rw [digitsOf_of_lt less, List.singleton_append, digits, value]
      simp [digit, less]
    · rw [Nat.not_lt] at less
      have last := Nat.mod_lt n (show 0 < base by omega)
      obtain ⟨digit, value⟩ := digit_value (n := n % base) large (by omega)
      have whole : Word.u32 (Word.u32 (n / base) * base + n % base) = Word.u32 n := by
        unfold Word.u32
        rw [Nat.add_mod, Nat.mod_mul_mod, ← Nat.add_mod, Nat.div_add_mod']
      rw [digitsOf_of_le low less, List.append_assoc,
        ih (n / base) (Nat.div_lt_self (by omega) low), digitsOf_of_lt last, List.singleton_append,
        digits, value]
      simp [digit, last, whole]

theorem digits_zeros (low : 1 < base) (k : Nat) (s : CStr) :
    digits base 0 (List.replicate k (ascii '0') ++ s) = digits base 0 s := by
  have zero : isxdigit (ascii '0') = true ∧ digitValue (ascii '0') = 0 := by decide
  induction k with
  | zero => rfl
  | succ k ih =>
    rw [List.replicate_succ, List.cons_append, digits, zero.1, zero.2, ← ih]
    have positive : 0 < base := by omega
    simp [positive, Word.u32]

/-- The first digit of a number is zero only for zero. -/
theorem digitsOf_head (large : Bool) (low : 1 < base) (high : base ≤ 16) (n : Nat) :
    ∃ c more, digitsOf base n large = c :: more ∧ isxdigit c = true ∧ (n ≠ 0 → c ≠ 48) := by
  induction n using Nat.strong_induction_on with
  | _ n ih =>
    by_cases less : n < base
    · obtain ⟨digit, value⟩ := digit_value (n := n) large (by omega)
      refine ⟨_, [], digitsOf_of_lt less, digit, fun positive zero => positive ?_⟩
      rw [← value, zero]
      rfl
    · rw [Nat.not_lt] at less
      obtain ⟨c, more, shape, digit, zero⟩ := ih (n / base) (Nat.div_lt_self (by omega) low)
      refine ⟨c, more ++ digitsOf base (n % base) large, ?_, digit,
        fun _ => zero (Nat.div_pos less (by omega)).ne'⟩
      rw [digitsOf_of_le low less, shape, List.cons_append]

/-- A number behind its sign and prefix, without a field width. -/
theorem number_plain (num : Int) (base : Nat) (precision : Int) (type : Flags) :
    ∃ k, (precision < 0 → k = 0) ∧ Vsprintf.number num base (-1) precision type =
      signOf num type ++ specialOf base type ++
        (List.replicate k (ascii '0') ++ digitsOf base num.natAbs type.large) := by
  refine ⟨(max ((digitsOf base num.natAbs type.large).length : Int) precision -
    (digitsOf base num.natAbs type.large).length).toNat, fun negative => by omega, ?_⟩
  have narrow (sign special : CStr) : (-1 - (sign.length : Int) - special.length -
      max ((digitsOf base num.natAbs type.large).length : Int) precision).toNat = 0 := by omega
  unfold Vsprintf.number
  dsimp only
  rw [narrow]
  simp [signOf, specialOf]

/-- In its own base, a number without a sign reads back whatever zeros are in front. -/
theorem number_read_base (low : 1 < base) (high : base ≤ 16) (word : n < 2 ^ 32) (large : Bool)
    (precision : Int) (ends : Ends rest) :
    simpleStrtoul (Vsprintf.number n base (-1) precision { noFlags with large := large } ++ rest)
      base = (n, rest) := by
  obtain ⟨k, _, shape⟩ := number_plain n base precision { noFlags with large := large }
  have text : Vsprintf.number n base (-1) precision { noFlags with large := large } =
      List.replicate k (ascii '0') ++ digitsOf base n large := shape
  rw [text, simpleStrtoul, if_neg (by omega), List.append_assoc, digits_zeros low,
    digits_digitsOf low high, digits_ends ends, Word.u32_of_lt word]

section Prefix
variable {s : CStr}

theorem simpleStrtoul_decimal (first : s.head? ≠ some 48) : simpleStrtoul s 0 = digits 10 0 s := by
  rw [simpleStrtoul, if_pos rfl, if_neg first]

theorem simpleStrtoul_octal (other : s.head? ≠ some 120) :
    simpleStrtoul (48 :: s) 0 = digits 8 0 s := by
  have head : (48 :: s)[1]? ≠ some 120 := by
    rw [List.getElem?_cons_succ, ← List.head?_eq_getElem?]
    exact other
  have first : (48 :: s).head? = some 48 := rfl
  rw [simpleStrtoul, if_pos rfl, if_pos first, if_neg fun both => head both.1, List.drop_one,
    List.tail_cons]

theorem simpleStrtoul_hex (digit : s.head?.any isxdigit = true) :
    simpleStrtoul (48 :: 120 :: s) 0 = digits 16 0 s := by
  have third : (48 :: 120 :: s)[2]?.any isxdigit = true := by
    rw [List.getElem?_cons_succ, List.getElem?_cons_succ, ← List.head?_eq_getElem?]
    exact digit
  have first : (48 :: 120 :: s).head? = some 48 := rfl
  rw [simpleStrtoul, if_pos rfl, if_pos first, if_pos ⟨rfl, third⟩]
  rfl

theorem simpleStrtol_plain (base : Nat) (first : s.head? ≠ some 45) :
    simpleStrtol s base = (Word.s32 (simpleStrtoul s base).1, (simpleStrtoul s base).2) := by
  rw [simpleStrtol, if_neg first]

end Prefix

/-- A number starts with a digit, with zeros in front or without. -/
theorem zeros_head (base : Nat) (large : Bool) (low : 1 < base) (high : base ≤ 16) (n k : Nat)
    (rest : CStr) :
    ∃ c, (List.replicate k (ascii '0') ++ (digitsOf base n large ++ rest)).head? = some c ∧
      isxdigit c = true ∧ (k = 0 → n ≠ 0 → c ≠ 48) := by
  cases k with
  | zero =>
    obtain ⟨c, more, shape, digit, zero⟩ := digitsOf_head large low high n
    exact ⟨c, by rw [shape]; rfl, digit, fun _ => zero⟩
  | succ k => exact ⟨ascii '0', rfl, by decide, nofun⟩

/-- The digits of a word, with zeros in front, read back in their base. -/
theorem digits_read (low : 1 < base) (high : base ≤ 16) (word : n < 2 ^ 32) (k : Nat) (large : Bool)
    (ends : Ends rest) :
    digits base 0 (List.replicate k (ascii '0') ++ (digitsOf base n large ++ rest)) = (n, rest) := by
  rw [digits_zeros low, digits_digitsOf low high, digits_ends ends, Word.u32_of_lt word]

/-- What `number` prints is read back by `simple_strtoul`, which takes the base from the prefix that
`#` asks for. A decimal has none, and no zeros in front. -/
theorem number_read_any (word : n < 2 ^ 32) (precision : Int) (ends : Ends rest) :
    simpleStrtoul (Vsprintf.number n 10 (-1) (-1) noFlags ++ rest) 0 = (n, rest) ∧
    simpleStrtoul (Vsprintf.number n 8 (-1) precision { noFlags with special := true } ++ rest) 0 =
      (n, rest) ∧
    simpleStrtoul (Vsprintf.number n 16 (-1) precision { noFlags with special := true } ++ rest) 0 =
      (n, rest) := by
  refine ⟨?_, ?_, ?_⟩
  · obtain ⟨k, none, shape⟩ := number_plain n 10 (-1) noFlags
    obtain rfl := none (by decide)
    have text : Vsprintf.number n 10 (-1) (-1) noFlags = digitsOf 10 n false := shape
    obtain ⟨c, first, _, positive⟩ := zeros_head 10 false (by decide) (by decide) n 0 rest
    rw [text]
    by_cases nothing : n = 0
    · have one : digitsOf 10 0 false = [48] := by decide
      rw [nothing, one, List.singleton_append,
        simpleStrtoul_octal fun first => (ends 120 first).2 rfl, digits_ends ends]
    · rw [simpleStrtoul_decimal]
      · exact digits_read (by decide) (by decide) word 0 false ends
      · intro same
        exact positive rfl nothing (Option.some.inj (first.symm.trans same))
  · obtain ⟨k, _, shape⟩ := number_plain n 8 precision { noFlags with special := true }
    have text : Vsprintf.number n 8 (-1) precision { noFlags with special := true } =
        48 :: (List.replicate k (ascii '0') ++ digitsOf 8 n false) := shape
    obtain ⟨c, first, digit, _⟩ := zeros_head 8 false (by decide) (by decide) n k rest
    rw [text, List.cons_append, List.append_assoc, simpleStrtoul_octal]
    · exact digits_read (by decide) (by decide) word k false ends
    · intro same
      rw [Option.some.inj (first.symm.trans same)] at digit
      exact absurd digit (by decide)
  · obtain ⟨k, _, shape⟩ := number_plain n 16 precision { noFlags with special := true }
    have text : Vsprintf.number n 16 (-1) precision { noFlags with special := true } =
        48 :: 120 :: (List.replicate k (ascii '0') ++ digitsOf 16 n false) := shape
    obtain ⟨c, first, digit, _⟩ := zeros_head 16 false (by decide) (by decide) n k rest
    rw [text, List.cons_append, List.cons_append, List.append_assoc, simpleStrtoul_hex]
    · exact digits_read (by decide) (by decide) word k false ends
    · rw [first]
      exact digit

/-- Six octal digits, zeros in front of them, read up to a comma. -/
theorem octal_read :
    simpleStrtoul (Vsprintf.number 493 8 (-1) 6 { noFlags with special := true } ++ [44]) 0 =
      (493, [44]) :=
  (number_read_any (n := 493) (by decide) 6 ends_comma).2.1

/-- An `int` printed by `number` with its sign, as `%d` asks for, is read back by `simple_strtol`,
zeros in front of the digits included. -/
theorem number_read_signed {i : Int} (above : -2 ^ 31 ≤ i) (below : i < 2 ^ 31) (precision : Int)
    (ends : Ends rest) :
    simpleStrtol (Vsprintf.number i 10 (-1) precision { noFlags with sign := true } ++ rest) 10 =
      (i, rest) := by
  obtain ⟨k, _, shape⟩ := number_plain i 10 precision { noFlags with sign := true }
  have read : simpleStrtoul (List.replicate k (ascii '0') ++ (digitsOf 10 i.natAbs false ++ rest))
      10 = (i.natAbs, rest) :=
    digits_read (by decide) (by decide) (by omega) k false ends
  rw [shape]
  by_cases negative : i < 0
  · have sign : signOf i { noFlags with sign := true } ++ specialOf 10 { noFlags with sign := true } =
        [45] := by
      simp only [signOf, specialOf, negative]
      rfl
    rw [sign, List.singleton_append, List.cons_append, List.append_assoc]
    show (Word.s32 (2 ^ 32 - (simpleStrtoul (List.replicate k (ascii '0') ++
      (digitsOf 10 i.natAbs false ++ rest)) 10).1), (simpleStrtoul (List.replicate k (ascii '0') ++
      (digitsOf 10 i.natAbs false ++ rest)) 10).2) = _
    rw [read, Word.s32_of_ge (by omega) (by omega)]
    congr 1
    omega
  · have sign : signOf i { noFlags with sign := true } ++ specialOf 10 { noFlags with sign := true } =
        [] := by
      simp only [signOf, specialOf, negative]
      rfl
    obtain ⟨c, first, digit, _⟩ := zeros_head 10 false (by decide) (by decide) i.natAbs k
      rest
    rw [sign, List.nil_append, List.append_assoc, simpleStrtol_plain]
    · show (Word.s32 (simpleStrtoul (List.replicate k (ascii '0') ++
        (digitsOf 10 i.natAbs false ++ rest)) 10).1, (simpleStrtoul (List.replicate k (ascii '0') ++
        (digitsOf 10 i.natAbs false ++ rest)) 10).2) = _
      rw [read, Word.s32_of_lt (by omega)]
      congr 1
      omega
    · intro same
      rw [Option.some.inj (first.symm.trans same)] at digit
      exact absurd digit (by decide)

/-- A negative number with a zero in front of its digits, read up to a comma. -/
theorem negative_read :
    simpleStrtol (Vsprintf.number (-5) 10 (-1) 3 { noFlags with sign := true } ++ [44]) 10 =
      (-5, [44]) :=
  number_read_signed (by decide) (by decide) 3 ends_comma

end Yaboot.Vsprintf.Stepwise
