import Yaboot.Lib.Strtol

/-! `vsprintf` of `lib/vsprintf.c`, for arguments of 32 bits. What it returns is what
it writes before the final zero byte; a call whose arguments do not fit its format, or
whose format has `L` or `%n` in it, returns nothing here. -/
namespace Yaboot.Vsprintf
open CString Strtol Word

/-- An argument: a word, or a string that may be null. -/
inductive Arg where
  | word (n : Nat)
  | string (s : Option CStr)

structure Flags where
  zeropad : Bool
  sign : Bool
  plus : Bool
  space : Bool
  left : Bool
  special : Bool
  large : Bool
  deriving DecidableEq, Repr

/-- What stands between `%` and the conversion. -/
structure Directive where
  flags : Flags
  fieldWidth : Int
  precision : Int
  qualifier : Option UInt8

def ascii (c : Char) : UInt8 := UInt8.ofNat c.toNat

def noFlags : Flags := ⟨false, false, false, false, false, false, false⟩

/-- The digits of `n`, most significant first. -/
def digitsOf (base n : Nat) (large : Bool) : CStr :=
  (Nat.toDigits base n).map fun c => ascii (if large then c.toUpper else c)

/-- `number`. Without `SIGN` the number is not negative. -/
def number (num : Int) (base : Nat) (size precision : Int) (type : Flags) : CStr :=
  let zeropad := type.zeropad && !type.left
  let sign : CStr :=
    if !type.sign then []
    else if num < 0 then [ascii '-']
    else if type.plus then [ascii '+']
    else if type.space then [ascii ' ']
    else []
  let special : CStr :=
    if !type.special then []
    else if base = 8 then [ascii '0']
    else if base = 16 then [ascii '0', ascii (if type.large then 'X' else 'x')]
    else []
  let tmp := digitsOf base num.natAbs type.large
  let precision := max (tmp.length : Int) precision
  let size := (size - sign.length - special.length - precision).toNat
  (if !zeropad && !type.left then List.replicate size (ascii ' ') else []) ++ sign ++ special ++
    (if zeropad then List.replicate size (ascii '0') else []) ++
    List.replicate (precision - tmp.length).toNat (ascii '0') ++ tmp ++
    (if type.left then List.replicate size (ascii ' ') else [])

/-! ### The format -/

/-- `skip_atoi`. -/
def skipAtoi : Nat → CStr → Nat × CStr
  | i, [] => (i, [])
  | i, c :: s => if isdigit c then skipAtoi (i * 10 + (c.toNat - 48)) s else (i, c :: s)

/-- The flags, and the rest of the format. -/
def takeFlags (flags : Flags) : CStr → Flags × CStr
  | [] => (flags, [])
  | c :: fmt =>
    if c = ascii '-' then takeFlags { flags with left := true } fmt
    else if c = ascii '+' then takeFlags { flags with plus := true } fmt
    else if c = ascii ' ' then takeFlags { flags with space := true } fmt
    else if c = ascii '#' then takeFlags { flags with special := true } fmt
    else if c = ascii '0' then takeFlags { flags with zeropad := true } fmt
    else (flags, c :: fmt)

/-- The field width. A negative one from an argument stands for `LEFT`. -/
def takeWidth (flags : Flags) (fmt : CStr) (args : List Arg) :
    Option (Int × Flags × CStr × List Arg) :=
  match fmt with
  | [] => some (-1, flags, [], args)
  | c :: rest =>
    if isdigit c then some ((skipAtoi 0 fmt).1, flags, (skipAtoi 0 fmt).2, args)
    else if c = ascii '*' then
      match args with
      | .word n :: args =>
        if s32 n < 0 then some (-s32 n, { flags with left := true }, rest, args)
        else some (s32 n, flags, rest, args)
      | _ => none
    else some (-1, flags, fmt, args)

def takePrecision (fmt : CStr) (args : List Arg) : Option (Int × CStr × List Arg) :=
  match fmt with
  | [] => some (-1, [], args)
  | c :: rest =>
    if c ≠ ascii '.' then some (-1, fmt, args)
    else if rest.head?.any isdigit then some ((skipAtoi 0 rest).1, (skipAtoi 0 rest).2, args)
    else if rest.head? = some (ascii '*') then
      match args with
      | .word n :: args => some (max (s32 n) 0, rest.drop 1, args)
      | _ => none
    else some (0, rest, args)

def takeQualifier : CStr → Option UInt8 × CStr
  | [] => (none, [])
  | c :: fmt =>
    if c = ascii 'h' ∨ c = ascii 'l' ∨ c = ascii 'L' ∨ c = ascii 'Z' then (some c, fmt)
    else (none, c :: fmt)

/-- What stands behind a `%`, up to the conversion. -/
def takeDirective (fmt : CStr) (args : List Arg) : Option (Directive × CStr × List Arg) := do
  let (flags, fmt) := takeFlags noFlags fmt
  let (fieldWidth, flags, fmt, args) ← takeWidth flags fmt args
  let (precision, fmt, args) ← takePrecision fmt args
  let (qualifier, fmt) := takeQualifier fmt
  return (⟨flags, fieldWidth, precision, qualifier⟩, fmt, args)

/-! ### Conversions -/

/-- Padding on the one side or on the other. -/
def pad (left : Bool) (count : Int) (text : CStr) : CStr :=
  if left then text ++ List.replicate count.toNat (ascii ' ')
  else List.replicate count.toNat (ascii ' ') ++ text

/-- `va_arg` of an integer, as the qualifier says. -/
def argument (qualifier : Option UInt8) (sign : Bool) (n : Nat) : Option Int :=
  if qualifier = some (ascii 'L') then none
  else if qualifier = some (ascii 'Z') then some (u32 n)
  else if qualifier = some (ascii 'h') then
    some (if sign ∧ 2 ^ 15 ≤ u16 n then (u16 n : Int) - 2 ^ 16 else u16 n)
  else some (if sign then s32 n else u32 n)

def integer (d : Directive) (base : Nat) (flags : Flags) : List Arg → Option (CStr × List Arg)
  | .word n :: args => do
    let num ← argument d.qualifier flags.sign n
    return (number num base d.fieldWidth d.precision flags, args)
  | _ => none

/-- A conversion: what it writes, and the arguments it leaves. -/
def convert (d : Directive) (c : UInt8) (args : List Arg) : Option (CStr × List Arg) :=
  if c = ascii 'c' then
    match args with
    | .word n :: args => some (pad d.flags.left (d.fieldWidth - 1) [UInt8.ofNat n], args)
    | _ => none
  else if c = ascii 's' then
    match args with
    | .string s :: args =>
      let s := s.getD (cstr "<NULL>")
      let s := if d.precision < 0 then s else s.take d.precision.toNat
      some (pad d.flags.left (d.fieldWidth - s.length) s, args)
    | _ => none
  else if c = ascii 'p' then
    match args with
    | .word n :: args =>
      let (size, flags) := if d.fieldWidth = -1 then (8, { d.flags with zeropad := true })
        else (d.fieldWidth, d.flags)
      some (number (u32 n) 16 size d.precision flags, args)
    | _ => none
  else if c = ascii 'n' then none
  else if c = ascii '%' then some ([ascii '%'], args)
  else if c = ascii 'o' then integer d 8 d.flags args
  else if c = ascii 'X' then integer d 16 { d.flags with large := true } args
  else if c = ascii 'x' then integer d 16 d.flags args
  else if c = ascii 'd' ∨ c = ascii 'i' then integer d 10 { d.flags with sign := true } args
  else if c = ascii 'u' then integer d 10 d.flags args
  else some ([ascii '%', c], args)

/-! ### The rest of the format is shorter -/

theorem skipAtoi_length (i : Nat) (s : CStr) : (skipAtoi i s).2.length ≤ s.length := by
  induction s generalizing i with
  | nil => rfl
  | cons c s ih =>
    unfold skipAtoi
    split
    · exact (ih _).trans (Nat.le_succ _)
    · rfl

theorem takeFlags_length (flags : Flags) (fmt : CStr) :
    (takeFlags flags fmt).2.length ≤ fmt.length := by
  induction fmt generalizing flags with
  | nil => rfl
  | cons c fmt ih =>
    unfold takeFlags
    split_ifs
    all_goals first | exact (ih _).trans (Nat.le_succ _) | rfl

theorem takeWidth_length (taken : takeWidth flags fmt args = some (width, flags', fmt', args')) :
    fmt'.length ≤ fmt.length := by
  unfold takeWidth at taken
  split at taken
  · cases taken
    rfl
  split_ifs at taken
  · cases taken
    exact skipAtoi_length _ _
  · split at taken
    · split_ifs at taken
      all_goals cases taken; exact Nat.le_succ _
    · cases taken
  · cases taken
    rfl

/-- A precision never lengthens the format. -/
theorem takePrecision_length (taken : takePrecision fmt args = some (precision, fmt', args')) :
    fmt'.length ≤ fmt.length := by
  unfold takePrecision at taken
  split at taken
  · cases taken
    rfl
  split_ifs at taken
  · cases taken
    rfl
  · cases taken
    exact (skipAtoi_length _ _).trans (Nat.le_succ _)
  · split at taken
    · cases taken
      rw [List.length_drop, List.length_cons]
      omega
    · cases taken
  · cases taken
    exact Nat.le_succ _

theorem takeQualifier_length (fmt : CStr) : (takeQualifier fmt).2.length ≤ fmt.length := by
  unfold takeQualifier
  split
  · rfl
  split
  · exact Nat.le_succ _
  · rfl

theorem takeDirective_length (taken : takeDirective fmt args = some (d, fmt', args')) :
    fmt'.length ≤ fmt.length := by
  unfold takeDirective at taken
  simp only [bind, Option.bind_eq_some_iff, Prod.exists, pure, Option.some.injEq,
    Prod.mk.injEq] at taken
  obtain ⟨width, flags, behind, rest, widthTaken, precision, fmt₁, args₁, precisionTaken, -,
    rfl, -⟩ := taken
  exact (takeQualifier_length fmt₁).trans ((takePrecision_length precisionTaken).trans
    ((takeWidth_length widthTaken).trans (takeFlags_length noFlags fmt)))

/-! ### The loop -/

/-- `vsprintf`. -/
def vsprintf (fmt : CStr) (args : List Arg) : Option CStr :=
  match fmt with
  | [] => some []
  | c :: fmt =>
    if c ≠ ascii '%' then (vsprintf fmt args).map (c :: ·)
    else
      match _taken : takeDirective fmt args with
      | none => none
      | some (_, [], _) => some [ascii '%']
      | some (d, conversion :: rest, args) =>
        match convert d conversion args with
        | none => none
        | some (text, args) => (vsprintf rest args).map (text ++ ·)
termination_by fmt.length
decreasing_by
  · exact Nat.lt_succ_self _
  · have shorter := takeDirective_length _taken
    rw [List.length_cons] at shorter
    exact Nat.lt_succ_of_lt shorter

theorem vsprintf_nil (args : List Arg) : vsprintf [] args = some [] := by
  rw [vsprintf]

theorem vsprintf_directive (fmt : CStr) (args : List Arg)
    (taken : takeDirective fmt args = some (d, conversion :: rest, behind))
    (converted : convert d conversion behind = some (text, left)) :
    vsprintf (ascii '%' :: fmt) args = (vsprintf rest left).map (text ++ ·) := by
  rw [vsprintf, if_neg (not_not.mpr rfl)]
  split
  case h_1 none =>
    rw [taken] at none
    cases none
  case h_2 ended =>
    rw [taken] at ended
    cases ended
  case h_3 same =>
    rw [taken] at same
    cases same
    rw [converted]

/-- `%s` writes the string. -/
theorem vsprintf_string (s : CStr) : vsprintf (cstr "%s") [.string (some s)] = some s := by
  have converted : convert ⟨noFlags, -1, -1, none⟩ (ascii 's') [.string (some s)] =
      some (s, []) := by
    have width : (-1 - (s.length : Int)).toNat = 0 := by omega
    simp [convert, pad, noFlags, width, show ascii 's' ≠ ascii 'c' by decide]
  have whole := vsprintf_directive [ascii 's'] [.string (some s)] rfl converted
  rw [show cstr "%s" = [ascii '%', ascii 's'] from rfl, whole, vsprintf_nil]
  simp

def zeropadFlags : Flags := { noFlags with zeropad := true }

/-- A number that is not negative, padded with zeros. -/
theorem number_zeropad (n size : Nat) :
    number n 10 size (-1) { zeropadFlags with sign := true } =
      List.replicate (size - (digitsOf 10 n false).length) (ascii '0') ++ digitsOf 10 n false := by
  have positive : ¬ ((n : Int) < 0) := Int.not_lt.mpr (Int.natCast_nonneg n)
  have width : ((size : Int) - (digitsOf 10 n false).length).toNat =
      size - (digitsOf 10 n false).length := by omega
  simp [number, zeropadFlags, noFlags, positive, width]

/-- `%02d` writes two digits at least. -/
theorem vsprintf_twoDigits (small : n < 2 ^ 31) :
    vsprintf (cstr "%02d") [.word n] = some (List.replicate (2 - (digitsOf 10 n false).length)
      (ascii '0') ++ digitsOf 10 n false) := by
  have converted : convert ⟨zeropadFlags, 2, -1, none⟩ (ascii 'd') [.word n] =
      some (number n 10 2 (-1) { zeropadFlags with sign := true }, []) := by
    have chosen : convert ⟨zeropadFlags, 2, -1, none⟩ (ascii 'd') [.word n] =
        integer ⟨zeropadFlags, 2, -1, none⟩ 10 { zeropadFlags with sign := true } [.word n] := by
      simp +decide [convert]
    have argument_eq : argument none true n = some (n : Int) := by
      rw [argument, if_neg nofun, if_neg nofun, if_neg nofun, if_pos rfl, s32_of_lt small]
    rw [chosen, integer, argument_eq]
    rfl
  have whole := vsprintf_directive [ascii '0', ascii '2', ascii 'd'] [.word n] rfl converted
  rw [show cstr "%02d" = [ascii '%', ascii '0', ascii '2', ascii 'd'] from rfl, whole, vsprintf_nil,
    Option.map_some, List.append_nil]
  exact congrArg some (number_zeropad n 2)

end Yaboot.Vsprintf
