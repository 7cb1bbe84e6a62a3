import Yaboot.Cfg.Scanner

/-! What the tokenizer reads back from text written for it: the quoted form and
the escaped form of a value, whatever the value holds and whatever follows. -/
namespace Yaboot.Cfg
open CString

/-! ### Writing values -/

/-- Double quotes, backslashes and newlines are written behind a backslash. -/
def quoteByte (b : UInt8) : CStr :=
  if b = 34 ∨ b = 92 then [92, b] else if b = 10 then [92, 110] else [b]

def quote (v : CStr) : CStr := 34 :: (v.flatMap quoteByte ++ [34])

/-- Spaces, carriage returns and `# = " \` are written behind a backslash. -/
def escByte (b : UInt8) : CStr :=
  if b = 32 ∨ b = 13 ∨ b = 35 ∨ b = 61 ∨ b = 34 ∨ b = 92 then [92, b] else [b]

def esc (v : CStr) : CStr := v.flatMap escByte

/-- The scanner with `input` unread and nothing pushed back. -/
def Scanner.on (s : Scanner) (input : List UInt8) : Scanner :=
  { s with back := 0, lastToken := none, currp := input }

theorem next_on (s : Scanner) (b : UInt8) (rest : List UInt8) :
    next (s.on (b :: rest)) = (schar b, s.on rest) := rfl

/-! ### Character constants -/

theorem schar_ne_eof (b : UInt8) (printable : b ≠ 255) : schar b ≠ eof := by
  have bound := b.toNat_lt
  have differs : b.toNat ≠ 255 := fun same => printable (UInt8.toNat_inj.mp same)
  unfold schar eof
  split <;> omega

theorem schar_eq_chr (b : UInt8) (c : Char) (ascii : c.toNat < 128) :
    schar b = chr c ↔ b = UInt8.ofNat c.toNat := by
  rw [chr, schar_eq_iff ascii, ← UInt8.toNat_inj, UInt8.toNat_ofNat']
  omega

@[simp] theorem schar_quote (b : UInt8) : schar b = chr '"' ↔ b = 34 := schar_eq_chr b _ (by decide)
@[simp] theorem schar_slash (b : UInt8) : schar b = chr '\\' ↔ b = 92 := schar_eq_chr b _ (by decide)
@[simp] theorem schar_newline (b : UInt8) : schar b = chr '\n' ↔ b = 10 := schar_eq_chr b _ (by decide)
@[simp] theorem schar_return (b : UInt8) : schar b = chr '\r' ↔ b = 13 := schar_eq_chr b _ (by decide)
@[simp] theorem schar_space (b : UInt8) : schar b = chr ' ' ↔ b = 32 := schar_eq_chr b _ (by decide)
@[simp] theorem schar_tab (b : UInt8) : schar b = chr '\t' ↔ b = 9 := schar_eq_chr b _ (by decide)
@[simp] theorem schar_hash (b : UInt8) : schar b = chr '#' ↔ b = 35 := schar_eq_chr b _ (by decide)
@[simp] theorem schar_equals (b : UInt8) : schar b = chr '=' ↔ b = 61 := schar_eq_chr b _ (by decide)
@[simp] theorem schar_letter_n (b : UInt8) : schar b = chr 'n' ↔ b = 110 :=
  schar_eq_chr b _ (by decide)
@[simp] theorem schar_zero (b : UInt8) : schar b = 0 ↔ b = 0 := schar_eq_chr b '\x00' (by decide)

theorem isNewline_schar (b : UInt8) : isNewline (schar b) = decide (b = 10 ∨ b = 13) := by
  simp [isNewline]

theorem isBlank_schar (b : UInt8) :
    isBlank (schar b) = decide (((b = 32 ∨ b = 9) ∨ b = 10) ∨ b = 13) := by
  simp [isBlank]

theorem strdup_of_no_zero (v : CStr) (textual : 0 ∉ v) : strdup v = v := by
  unfold strdup
  apply List.takeWhile_eq_self_iff.mpr
  intro b member
  simp only [bne_iff_ne, ne_eq]
  rintro rfl
  exact textual member

variable {s : Scanner}

/-! ### Quoted strings -/

theorem quoted_slash (room : buf.length < maxToken) (special : b = 34 ∨ b = 92) :
    quoted buf (s.on (92 :: b :: rest)) = quoted (buf ++ [b]) (s.on rest) := by
  rw [quoted, next_on, next_on]
  simp only [if_pos room, if_neg (schar_ne_eof 92 (by decide)), schar_quote, schar_slash,
    if_neg (by decide : ¬ (92 : UInt8) = 34), if_true, if_pos special, toChar_schar]

theorem quoted_newline (room : buf.length < maxToken) :
    quoted buf (s.on (92 :: 110 :: rest)) = quoted (buf ++ [10]) (s.on rest) := by
  rw [quoted, next_on, next_on]
  simp only [if_pos room, if_neg (schar_ne_eof 92 (by decide)), schar_quote, schar_slash,
    if_neg (by decide : ¬ (92 : UInt8) = 34), if_true, schar_letter_n, isNewline_schar,
    if_neg (by decide : ¬ ((110 : UInt8) = 34 ∨ (110 : UInt8) = 92)),
    if_neg (by decide : ¬ decide ((110 : UInt8) = 10 ∨ (110 : UInt8) = 13) = true)]
  rfl

theorem quoted_plain (room : buf.length < maxToken) (quote : b ≠ 34) (slash : b ≠ 92)
    (newline : b ≠ 10) (cr : b ≠ 13) (printable : b ≠ 255) :
    quoted buf (s.on (b :: rest)) = quoted (buf ++ [b]) (s.on rest) := by
  rw [quoted, next_on]
  simp only [if_pos room, if_neg (schar_ne_eof b printable), schar_quote, if_neg quote, schar_slash,
    if_neg slash, isNewline_schar, newline, cr, or_self, decide_false, Bool.false_eq_true, if_false,
    toChar_schar]

/-- One byte of a value, as it was written. -/
theorem quoted_byte (room : buf.length < maxToken) (cr : b ≠ 13) (printable : b ≠ 255) :
    quoted buf (s.on (quoteByte b ++ rest)) = quoted (buf ++ [b]) (s.on rest) := by
  unfold quoteByte
  by_cases special : b = 34 ∨ b = 92
  · rw [if_pos special]
    exact quoted_slash room special
  · rw [if_neg special]
    by_cases newline : b = 10
    · subst newline
      exact quoted_newline room
    · rw [if_neg newline]
      exact quoted_plain room (fun h => special (.inl h)) (fun h => special (.inr h)) newline cr
        printable

theorem quoted_bytes (v : CStr) (textual : ∀ b ∈ v, b ≠ 13 ∧ b ≠ 255)
    (room : buf.length + v.length ≤ maxToken) :
    quoted buf (s.on (v.flatMap quoteByte ++ rest)) = quoted (buf ++ v) (s.on rest) := by
  induction v generalizing buf with
  | nil => simp
  | cons b v ih =>
    have head := textual b (by simp)
    simp only [List.length_cons] at room
    rw [List.flatMap_cons, List.append_assoc, quoted_byte (by omega) head.1 head.2,
      ih (fun c member => textual c (by simp [member])) (by simp; omega), List.append_assoc,
      List.singleton_append]

theorem quoted_close (room : buf.length < maxToken) :
    quoted buf (s.on (34 :: t)) = (.ok (strdup buf), s.on t) := by
  rw [quoted, next_on]
  simp only [if_pos room, if_neg (schar_ne_eof 34 (by decide)), schar_quote, if_true]

/-- Past the limit nothing more is looked at. -/
theorem quoted_full (s : Scanner) (full : buf.length = maxToken) :
    quoted buf s = (.error .quotedStringTooLong, s) := by
  rw [quoted, if_neg (by omega)]

/-! ### Unquoted tokens -/

/-- The loop over an unquoted token, with its next character still unread. -/
def bare (buf : List UInt8) (s : Scanner) : Result CStr := unquoted buf false (next s).1 (next s).2

theorem bare_escaped (room : buf.length < maxToken) (tab : b ≠ 9) (newline : b ≠ 10)
    (printable : b ≠ 255) :
    bare buf (s.on (92 :: b :: rest)) = bare (buf ++ [b]) (s.on rest) := by
  have plain : endsToken (schar 92) = false := by decide
  have slash : schar 92 = chr '\\' := by decide
  unfold bare
  rw [next_on, unquoted]
  simp only [if_pos room, Bool.false_eq_true, if_false, plain, if_pos slash, next_on]
  rw [unquoted]
  simp only [if_pos room, if_true, if_neg (schar_ne_eof b printable), schar_newline, if_neg newline,
    escapedChar, schar_tab, if_neg tab, toChar_schar]

theorem bare_plain (room : buf.length < maxToken) (ordinary : endsToken (schar b) = false)
    (slash : b ≠ 92) : bare buf (s.on (b :: rest)) = bare (buf ++ [b]) (s.on rest) := by
  unfold bare
  rw [next_on, unquoted]
  simp only [if_pos room, Bool.false_eq_true, if_false, ordinary, schar_slash, if_neg slash,
    toChar_schar]

theorem bare_byte (room : buf.length < maxToken) (tab : b ≠ 9) (newline : b ≠ 10)
    (printable : b ≠ 255) :
    bare buf (s.on (escByte b ++ rest)) = bare (buf ++ [b]) (s.on rest) := by
  unfold escByte
  split
  · exact bare_escaped room tab newline printable
  · rename_i plain
    simp only [not_or] at plain
    obtain ⟨space, cr, hash, equals, _, slash⟩ := plain
    refine bare_plain room ?_ slash
    simp [endsToken, isBlank_schar, space, cr, hash, equals, tab, newline,
      schar_ne_eof b printable]

theorem bare_bytes (v : CStr) (textual : ∀ b ∈ v, b ≠ 9 ∧ b ≠ 10 ∧ b ≠ 255)
    (room : buf.length + v.length ≤ maxToken) :
    bare buf (s.on (esc v ++ rest)) = bare (buf ++ v) (s.on rest) := by
  unfold esc
  induction v generalizing buf with
  | nil => simp
  | cons b v ih =>
    obtain ⟨tab, newline, printable⟩ := textual b (by simp)
    simp only [List.length_cons] at room
    rw [List.flatMap_cons, List.append_assoc, bare_byte (by omega) tab newline printable,
      ih (fun c member => textual c (by simp [member])) (by simp; omega), List.append_assoc,
      List.singleton_append]

theorem bare_end (room : buf.length < maxToken) (ends : endsToken (schar c) = true) :
    bare buf (s.on (c :: t)) = (.ok (strdup buf), again (schar c) (s.on t)) := by
  unfold bare
  rw [next_on, unquoted]
  simp only [if_pos room, Bool.false_eq_true, if_false, ends, if_true]

theorem bare_full (s : Scanner) (full : buf.length = maxToken) :
    bare buf s = (.error .tokenTooLong, (next s).2) := by
  unfold bare
  rw [unquoted, if_neg (by omega)]

/-! ### Whole tokens -/

/-- A character at which a token starts. -/
theorem skipToToken_on (s : Scanner) (rest : List UInt8) (blank : isBlank (schar b) = false)
    (zero : b ≠ 0) (printable : b ≠ 255) (hash : b ≠ 35) :
    skipToToken (s.on (b :: rest)) = (some (schar b), s.on rest) := by
  have blanks : skipBlanks (s.on (b :: rest)) = (schar b, s.on rest) := by
    rw [skipBlanks, next_on]
    simp only [blank, Bool.false_eq_true, if_false]
  rw [skipToToken, blanks]
  simp only [schar_ne_eof b printable, schar_zero, zero, or_self, if_false, ne_eq, schar_hash, hash,
    not_false_eq_true, if_true]

theorem cfgGetToken_quote (s : Scanner) (rest : List UInt8) :
    cfgGetToken (s.on (34 :: rest)) = ((quoted [] (s.on rest)).1.map some, (quoted [] (s.on rest)).2) := by
  unfold cfgGetToken
  rw [skipToToken_on s rest (by decide) (by decide) (by decide) (by decide)]
  rfl

theorem cfgGetToken_bare (s : Scanner) (rest : List UInt8) (starts : endsToken (schar b) = false)
    (zero : b ≠ 0) (quote : b ≠ 34) :
    cfgGetToken (s.on (b :: rest)) =
      ((bare [] (s.on (b :: rest))).1.map some, (bare [] (s.on (b :: rest))).2) := by
  simp only [endsToken, Bool.or_eq_false_iff, decide_eq_false_iff_not, schar_hash,
    schar_equals] at starts
  obtain ⟨⟨⟨blank, hash⟩, equals⟩, more⟩ := starts
  have printable : b ≠ 255 := by
    rintro rfl
    exact more (by decide)
  unfold cfgGetToken
  rw [skipToToken_on s rest blank zero printable hash]
  simp only [Scanner.on, schar_equals, if_neg equals, schar_quote, if_neg quote]
  rfl

/-- An escaped value starts like an ordinary token. -/
theorem esc_starts (nonempty : v ≠ []) (textual : ∀ b ∈ v, b ≠ 0 ∧ b ≠ 9 ∧ b ≠ 10 ∧ b ≠ 255) :
    ∃ b rest, esc v = b :: rest ∧ endsToken (schar b) = false ∧ b ≠ 0 ∧ b ≠ 34 := by
  cases v with
  | nil => exact absurd rfl nonempty
  | cons b v =>
    obtain ⟨zero, tab, newline, printable⟩ := textual b (by simp)
    by_cases special : b = 32 ∨ b = 13 ∨ b = 35 ∨ b = 61 ∨ b = 34 ∨ b = 92
    · refine ⟨92, b :: esc v, ?_, by decide, by decide, by decide⟩
      simp [esc, escByte, special]
    · refine ⟨b, esc v, by simp [esc, escByte, special], ?_, zero, fun quote => special (by simp [quote])⟩
      simp only [not_or] at special
      obtain ⟨space, cr, hash, equals, _, _⟩ := special
      simp [endsToken, isBlank_schar, space, cr, hash, equals, tab, newline,
        schar_ne_eof b printable]

theorem cfgGetToken_esc (s : Scanner) (nonempty : v ≠ [])
    (textual : ∀ b ∈ v, b ≠ 0 ∧ b ≠ 9 ∧ b ≠ 10 ∧ b ≠ 255) (rest : List UInt8) :
    cfgGetToken (s.on (esc v ++ rest)) =
      ((bare [] (s.on (esc v ++ rest))).1.map some, (bare [] (s.on (esc v ++ rest))).2) := by
  obtain ⟨b, tail, shape, starts, zero, quote⟩ := esc_starts nonempty textual
  rw [shape]
  exact cfgGetToken_bare s (tail ++ rest) starts zero quote

/-- The first 511 bytes of a value fill the buffer. -/
theorem take_full (v : CStr) (long : 511 ≤ v.length) : (v.take maxToken).length = maxToken :=
  List.length_take_of_le long

/-- Bytes from 0x01 to 0xfe. -/
def Textual (v : CStr) : Prop := ∀ b ∈ v, 1 ≤ b ∧ b ≤ 254

theorem textual_of_all (all : v.all (fun b => 1 ≤ b && b ≤ 254) = true) : Textual v :=
  fun b member => by simpa using List.all_eq_true.mp all b member

theorem Textual.zero (textual : Textual v) : 0 ∉ v :=
  fun member => absurd (textual 0 member).1 (by decide)

theorem Textual.printable (textual : Textual v) (member : b ∈ v) : b ≠ 255 := by
  rintro rfl
  exact absurd (textual 255 member).2 (by decide)

theorem Textual.quotable (textual : Textual v) (cr : 13 ∉ v) : ∀ b ∈ v, b ≠ 13 ∧ b ≠ 255 :=
  fun _ member => ⟨ne_of_mem_of_not_mem member cr, textual.printable member⟩

theorem Textual.escapable (textual : Textual v) (tab : 9 ∉ v) (newline : 10 ∉ v) :
    ∀ b ∈ v, b ≠ 9 ∧ b ≠ 10 ∧ b ≠ 255 := fun _ member =>
  ⟨ne_of_mem_of_not_mem member tab, ne_of_mem_of_not_mem member newline,
    textual.printable member⟩

theorem quote_round_trip (s : Scanner) (t : CStr) (textual : Textual v) (cr : 13 ∉ v)
    (short : v.length ≤ 510) : cfgGetToken (s.on (quote v ++ t)) = (.ok (some v), s.on t) := by
  have room : ([] ++ v : CStr).length < maxToken := Nat.lt_succ_of_le short
  show cfgGetToken (s.on (34 :: (v.flatMap quoteByte ++ [34]) ++ t)) = _
  rw [List.cons_append, List.append_assoc, List.singleton_append, cfgGetToken_quote,
    quoted_bytes v (textual.quotable cr) (by simpa using room.le), quoted_close room,
    List.nil_append, strdup_of_no_zero v textual.zero]
  rfl

theorem quote_too_long (s : Scanner) (t : CStr) (textual : Textual v) (cr : 13 ∉ v)
    (long : 511 ≤ v.length) :
    (cfgGetToken (s.on (quote v ++ t))).1 = .error .quotedStringTooLong := by
  have ordinary : ∀ b ∈ v.take maxToken, b ≠ 13 ∧ b ≠ 255 :=
    fun b taken => textual.quotable cr b (List.mem_of_mem_take taken)
  have parts : v.flatMap quoteByte =
      (v.take maxToken).flatMap quoteByte ++ (v.drop maxToken).flatMap quoteByte := by
    rw [← List.flatMap_append, List.take_append_drop]
  have full := take_full v long
  show (cfgGetToken (s.on (34 :: (v.flatMap quoteByte ++ [34]) ++ t))).1 = _
  rw [List.cons_append, cfgGetToken_quote, parts, List.append_assoc, List.append_assoc,
    quoted_bytes _ ordinary (by rw [full]; exact Nat.le_refl _), List.nil_append,
    quoted_full _ full]
  rfl

theorem esc_round_trip (s : Scanner) (t : CStr) (textual : Textual v) (nonempty : v ≠ [])
    (tab : 9 ∉ v) (newline : 10 ∉ v) (ends : endsToken (schar c) = true) (short : v.length ≤ 510) :
    cfgGetToken (s.on (esc v ++ c :: t)) = (.ok (some v), again (schar c) (s.on t)) := by
  have ordinary := textual.escapable tab newline
  have room : ([] ++ v : CStr).length < maxToken := Nat.lt_succ_of_le short
  rw [cfgGetToken_esc s nonempty
      (fun b member => ⟨ne_of_mem_of_not_mem member textual.zero, ordinary b member⟩),
    bare_bytes v ordinary (by simpa using room.le), bare_end room ends, List.nil_append,
    strdup_of_no_zero v textual.zero]
  rfl

theorem esc_too_long (s : Scanner) (rest : CStr) (textual : Textual v) (tab : 9 ∉ v)
    (newline : 10 ∉ v) (long : 511 ≤ v.length) :
    (cfgGetToken (s.on (esc v ++ rest))).1 = .error .tokenTooLong := by
  have ordinary := textual.escapable tab newline
  have nonempty : v ≠ [] := by
    rintro rfl
    exact absurd long (by decide)
  have parts : esc v = esc (v.take maxToken) ++ esc (v.drop maxToken) := by
    unfold esc
    rw [← List.flatMap_append, List.take_append_drop]
  have full := take_full v long
  rw [cfgGetToken_esc s nonempty
      (fun b member => ⟨ne_of_mem_of_not_mem member textual.zero, ordinary b member⟩),
    parts, List.append_assoc,
    bare_bytes _ (fun b taken => ordinary b (List.mem_of_mem_take taken))
      (by rw [full]; exact Nat.le_refl _), List.nil_append, bare_full _ full]
  rfl

/-- Both written forms of a value are read back as the value, up to exactly its
end; the character that ends an escaped value is delivered next. Values that do
not fit the buffer are rejected. -/
theorem token_round_trip (s : Scanner) (v t : CStr) (textual : Textual v) :
    (13 ∉ v →
      (v.length ≤ 510 → cfgGetToken (s.on (quote v ++ t)) = (.ok (some v), s.on t)) ∧
        (511 ≤ v.length →
          (cfgGetToken (s.on (quote v ++ t))).1 = .error .quotedStringTooLong)) ∧
      (v ≠ [] → 9 ∉ v → 10 ∉ v → ∀ c ∈ [32, 9, 10, 13, 35, 61],
        (v.length ≤ 510 → (cfgGetToken (s.on (esc v ++ c :: t))).1 = .ok (some v) ∧
          next (cfgGetToken (s.on (esc v ++ c :: t))).2 = (schar c, s.on t)) ∧
        (511 ≤ v.length →
          (cfgGetToken (s.on (esc v ++ c :: t))).1 = .error .tokenTooLong)) := by
  refine ⟨fun cr => ⟨quote_round_trip s t textual cr, quote_too_long s t textual cr⟩, ?_⟩
  intro nonempty tab newline c member
  refine ⟨fun short => ?_, esc_too_long s (c :: t) textual tab newline⟩
  have terminators : [32, 9, 10, 13, 35, 61].all (fun c => endsToken (schar c) && schar c ≠ 0) = true := by
    decide
  obtain ⟨ends, pushed⟩ : endsToken (schar c) = true ∧ schar c ≠ 0 := by
    simpa using List.all_eq_true.mp terminators c member
  rw [esc_round_trip s t textual nonempty tab newline ends short]
  refine ⟨rfl, ?_⟩
  unfold next again
  rw [if_neg pushed]
  rfl

/-- A value with a space, a quote and a newline, before a comment. -/
theorem token_round_trip_quoted :
    cfgGetToken (Scanner.on ⟨0, [], none, none, none, 0⟩ (quote [97, 32, 34, 10] ++ [35])) =
      (.ok (some [97, 32, 34, 10]), Scanner.on ⟨0, [], none, none, none, 0⟩ [35]) :=
  ((token_round_trip ⟨0, [], none, none, none, 0⟩ [97, 32, 34, 10] [35]
    (textual_of_all (by decide))).1 (by decide)).1 (by decide)

end Yaboot.Cfg
