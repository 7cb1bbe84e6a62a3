import Yaboot.Base.CString
import Mathlib.Tactic.SplitIfs

/-! The tokenizer of `second/cfg.c`. Every file-scope variable the scanner reads
or writes is a field of `Scanner`; `cfg_error` leaves through `longjmp`, so a
failing call still returns the state the variables were left in. -/
namespace Yaboot.Cfg
open CString

def maxToken : Nat := 511

/-- `EOF` as `cfg.c` defines it. A byte 0xff reads as the same value. -/
def eof : Int := -1

/-- The scanner's file-scope variables; `currp` is the unread part of the
buffer, up to `endp`. -/
structure Scanner where
  back : Int
  currp : List UInt8
  lastToken : Option CStr
  lastItem : Option CStr
  lastValue : Option CStr
  lineNum : Nat
  deriving DecidableEq, Repr

/-- The arguments `cfg_error` is called with. -/
inductive CfgError where
  | eofInQuotedString
  | badBackslash
  | newlineInQuotedString
  | quotedStringTooLong
  | backslashPrecedesEof
  | tokenTooLong
  | syntaxError
  | valueExpectedAtEof
  | syntaxErrorAfter (item : CStr)
  deriving DecidableEq, Repr

/-- The text each error prints before the line number and the file name. -/
def CfgError.message : CfgError → CStr
  | eofInQuotedString => cstr "EOF in quoted string"
  | badBackslash => cstr "Bad use of \\ in quoted string"
  | newlineInQuotedString => cstr "newline is not allowed in quoted strings"
  | quotedStringTooLong => cstr "Quoted string is too long"
  | backslashPrecedesEof => cstr "\\ precedes EOF"
  | tokenTooLong => cstr "Token is too long"
  | syntaxError => cstr "Syntax error"
  | valueExpectedAtEof => cstr "Value expected at EOF"
  | syntaxErrorAfter item => cstr "Syntax error after " ++ item

abbrev Result (α : Type) := Except CfgError α × Scanner

def getc (s : Scanner) : Int × Scanner :=
  match s.currp with
  | [] => (eof, s)
  | b :: rest => (schar b, { s with currp := rest })

def next (s : Scanner) : Int × Scanner :=
  if s.back = 0 then getc s else (s.back, { s with back := 0 })

def again (ch : Int) (s : Scanner) : Scanner := { s with back := ch }

def bumpLine (s : Scanner) : Scanner := { s with lineNum := s.lineNum + 1 }

/-- The number of characters still to be delivered. A pushed-back end of file
delivers none, which is what makes every token shorten the input. -/
def Scanner.avail (s : Scanner) : Nat :=
  s.currp.length + if s.back = 0 ∨ s.back = eof then 0 else 1

theorem next_avail_lt (more : (next s).1 ≠ eof) : (next s).2.avail < s.avail := by
  unfold next getc Scanner.avail at *
  by_cases pushed : s.back = 0
  · cases left : s.currp with
    | nil => simp [pushed, left] at more
    | cons b rest => simp [pushed]
  · simp only [pushed, ↓reduceIte] at more
    simp [pushed, more]

theorem next_avail_le (s : Scanner) : (next s).2.avail ≤ s.avail := by
  unfold next getc Scanner.avail
  by_cases pushed : s.back = 0
  · cases left : s.currp <;> simp [pushed, left]
  · simp [pushed]

/-- A delivered character is paid for by the input; the end of file is free. -/
theorem next_avail_charged (s : Scanner) :
    (next s).2.avail + (if (next s).1 = eof then 0 else 1) ≤ s.avail := by
  by_cases ended : (next s).1 = eof
  · simpa [ended] using next_avail_le s
  · have shorter := next_avail_lt ended
    simp only [ended, ↓reduceIte]
    omega

theorem again_avail_le (ch : Int) (s : Scanner) : (again ch s).avail ≤ s.avail + 1 := by
  unfold again Scanner.avail
  by_cases free : ch = 0 ∨ ch = eof
  · simp only [free, ↓reduceIte]
    omega
  · simp only [free, ↓reduceIte]
    omega

@[simp] theorem bumpLine_avail (s : Scanner) : (bumpLine s).avail = s.avail := rfl

def isBlank (ch : Int) : Bool :=
  ch = chr ' ' || ch = chr '\t' || ch = chr '\n' || ch = chr '\r'

def isNewline (ch : Int) : Bool := ch = chr '\n' || ch = chr '\r'

/-- `if (ch == '\\n' || ch == '\\r') line_num++;` -/
def countLine (ch : Int) (s : Scanner) : Scanner := if isNewline ch then bumpLine s else s

@[simp] theorem countLine_avail (ch : Int) (s : Scanner) : (countLine ch s).avail = s.avail := by
  unfold countLine
  split <;> rfl

theorem blank_ne_eof (blank : isBlank ch = true) : ch ≠ eof := by
  rintro rfl
  revert blank
  decide

/-- `while (ch = next (), ch == ' ' ...) if (newline) line_num++;` -/
def skipBlanks (s : Scanner) : Int × Scanner :=
  if isBlank (next s).1 then skipBlanks (countLine (next s).1 (next s).2) else next s
termination_by s.avail
decreasing_by
  rename_i blank
  simpa using next_avail_lt (blank_ne_eof blank)

/-- `while (ch = next_raw (), (ch != '\\n' && ch != '\\r'))`, left early at the
end of the input. The character that ended the comment is returned. -/
def skipComment (s : Scanner) : Int × Scanner :=
  if isNewline (next s).1 then next s
  else if (next s).1 = eof then next s
  else skipComment (next s).2
termination_by s.avail
decreasing_by exact next_avail_lt ‹_›

theorem skipBlanks_avail_le (s : Scanner) : (skipBlanks s).2.avail ≤ s.avail := by
  fun_induction skipBlanks s with
  | case1 s blank ih =>
    rw [countLine_avail] at ih
    exact Nat.le_trans ih (next_avail_le s)
  | case2 s done => exact next_avail_le s

theorem skipBlanks_avail_lt (more : (skipBlanks s).1 ≠ eof) :
    (skipBlanks s).2.avail < s.avail := by
  fun_induction skipBlanks s with
  | case1 s blank ih =>
    have shorter := next_avail_lt (blank_ne_eof blank)
    have below := ih more
    rw [countLine_avail] at below
    omega
  | case2 s done => exact next_avail_lt more

theorem skipComment_avail_le (s : Scanner) : (skipComment s).2.avail ≤ s.avail := by
  fun_induction skipComment s with
  | case1 s => exact next_avail_le s
  | case2 s => exact next_avail_le s
  | case3 s line more ih => exact Nat.le_trans ih (next_avail_le s)

/-- The outer `while (1)`: blanks and comments are dropped until a character
starts a token. `none` is the `return NULL` at the end of the input. -/
def skipToToken (s : Scanner) : Option Int × Scanner :=
  if (skipBlanks s).1 = eof ∨ (skipBlanks s).1 = 0 then (none, (skipBlanks s).2)
  else if (skipBlanks s).1 ≠ chr '#' then (some (skipBlanks s).1, (skipBlanks s).2)
  else if (skipComment (skipBlanks s).2).1 = eof then (none, (skipComment (skipBlanks s).2).2)
  else skipToToken (bumpLine (skipComment (skipBlanks s).2).2)
termination_by s.avail
decreasing_by
  rename_i more _ _
  have shorter := skipBlanks_avail_lt (fun ended => more (.inl ended))
  have comment := skipComment_avail_le (skipBlanks s).2
  simp only [bumpLine_avail]
  omega

/-- `while ((ch = next ()), ch == ' ' || ch == '\\t');` after a quoted line
continuation. -/
def skipIndent (s : Scanner) : Int × Scanner :=
  if (next s).1 = chr ' ' ∨ (next s).1 = chr '\t' then skipIndent (next s).2 else next s
termination_by s.avail
decreasing_by
  rename_i indent
  exact next_avail_lt (by rcases indent with h | h <;> rw [h] <;> decide)

theorem skipIndent_avail_le (s : Scanner) : (skipIndent s).2.avail ≤ s.avail := by
  fun_induction skipIndent s with
  | case1 s indent ih => exact Nat.le_trans ih (next_avail_le s)
  | case2 s done => exact next_avail_le s

/-- The loop over a quoted string, `buf` being the characters stored so far. -/
def quoted (buf : List UInt8) (s : Scanner) : Result CStr :=
  if buf.length < maxToken then
    if (next s).1 = eof then (.error .eofInQuotedString, (next s).2)
    else if (next s).1 = chr '"' then (.ok (strdup buf), (next s).2)
    else if (next s).1 = chr '\\' then
      if (next (next s).2).1 = chr '"' ∨ (next (next s).2).1 = chr '\\' then
        quoted (buf ++ [toChar (next (next s).2).1]) (next (next s).2).2
      else if isNewline (next (next s).2).1 then
        if (skipIndent (next (next s).2).2).1 = 0 then
          quoted buf (skipIndent (next (next s).2).2).2
        else
          quoted (buf ++ [toChar (chr ' ')])
            (again (skipIndent (next (next s).2).2).1 (skipIndent (next (next s).2).2).2)
      else if (next (next s).2).1 = chr 'n' then
        quoted (buf ++ [toChar (chr '\n')]) (next (next s).2).2
      else (.error .badBackslash, (next (next s).2).2)
    else if isNewline (next s).1 then (.error .newlineInQuotedString, (next s).2)
    else quoted (buf ++ [toChar (next s).1]) (next s).2
  else (.error .quotedStringTooLong, s)
termination_by s.avail
decreasing_by
  all_goals have first := next_avail_lt (s := s) ‹_›
  all_goals have second := next_avail_le (next s).2
  · omega
  · have indent := skipIndent_avail_le (next (next s).2).2
    omega
  · rename_i newline _
    have escaped := next_avail_lt (s := (next s).2) (blank_ne_eof (by
      simp only [isNewline, isBlank, Bool.or_eq_true] at newline ⊢
      tauto))
    have indent := skipIndent_avail_le (next (next s).2).2
    have pushed := again_avail_le (skipIndent (next (next s).2).2).1 (skipIndent (next (next s).2).2).2
    omega
  · omega
  · omega

/-- Characters that end an unquoted token and are pushed back. -/
def endsToken (ch : Int) : Bool := isBlank ch || ch = chr '#' || ch = chr '=' || ch = eof

/-- `*here++ = ch == '\\t' ? ' ' : ch;` -/
def escapedChar (ch : Int) : UInt8 := toChar (if ch = chr '\t' then chr ' ' else ch)

/-- The loop over an unquoted token; `ch` is the character already read. -/
def unquoted (buf : List UInt8) (escaped : Bool) (ch : Int) (s : Scanner) : Result CStr :=
  if buf.length < maxToken then
    if escaped then
      if ch = eof then (.error .backslashPrecedesEof, s)
      else if ch = chr '\n' then
        unquoted buf false (next (bumpLine s)).1 (next (bumpLine s)).2
      else
        unquoted (buf ++ [escapedChar ch]) false (next s).1 (next s).2
    else if endsToken ch then (.ok (strdup buf), again ch s)
    else if ch = chr '\\' then unquoted buf true (next s).1 (next s).2
    else unquoted (buf ++ [toChar ch]) false (next s).1 (next s).2
  else (.error .tokenTooLong, s)
termination_by s.avail + if ch = eof then 0 else 1
decreasing_by
  · have charged := next_avail_charged (bumpLine s)
    rw [bumpLine_avail] at charged
    simp only [‹¬ch = eof›, ↓reduceIte]
    omega
  · have charged := next_avail_charged s
    simp only [‹¬ch = eof›, ↓reduceIte]
    omega
  all_goals
    have current : ch ≠ eof := fun ended => absurd ‹¬endsToken ch = true› (by simp [endsToken, ended])
    have charged := next_avail_charged s
    simp only [current, ↓reduceIte]
    omega

/-- `cfg_get_token`. `.ok none` is a null return. -/
def cfgGetToken (s : Scanner) : Result (Option CStr) :=
  match s.lastToken with
  | some here => (.ok (some here), { s with lastToken := none })
  | none =>
    match skipToToken s with
    | (none, s) => (.ok none, s)
    | (some ch, s) =>
      if ch = chr '=' then (.ok (some (cstr "=")), s)
      else if ch = chr '"' then ((quoted [] s).1.map some, (quoted [] s).2)
      else ((unquoted [] false ch s).1.map some, (unquoted [] false ch s).2)

def cfgReturnToken (token : CStr) (s : Scanner) : Scanner := { s with lastToken := some token }

/-- `cfg_next`: an item with its optional value, or `none` for the return of 0. -/
def cfgNext (s : Scanner) : Result (Option (CStr × Option CStr)) :=
  match s.lastItem with
  | some item => (.ok (some (item, s.lastValue)), { s with lastItem := none })
  | none =>
    match cfgGetToken s with
    | (.error e, s) => (.error e, s)
    | (.ok none, s) => (.ok none, s)
    | (.ok (some item), s) =>
      if item = cstr "=" then (.error .syntaxError, s)
      else match cfgGetToken s with
        | (.error e, s) => (.error e, s)
        | (.ok none, s) => (.ok (some (item, none)), s)
        | (.ok (some this), s) =>
          if this ≠ cstr "=" then (.ok (some (item, none)), cfgReturnToken this s)
          else match cfgGetToken s with
            | (.error e, s) => (.error e, s)
            | (.ok none, s) => (.error .valueExpectedAtEof, s)
            | (.ok (some value), s) =>
              if value = cstr "=" then (.error (.syntaxErrorAfter item), s)
              else (.ok (some (item, some value)), s)

/-! ### What one token consumes -/

/-- The scanning loops move only through the input: the pushed-back token and
item stay as they are. -/
def Frame (s s' : Scanner) : Prop :=
  s'.lastToken = s.lastToken ∧ s'.lastItem = s.lastItem ∧ s'.lastValue = s.lastValue

theorem Frame.trans (first : Frame a b) (second : Frame b c) : Frame a c :=
  ⟨second.1.trans first.1, second.2.1.trans first.2.1, second.2.2.trans first.2.2⟩

/-- What the three steps of the scanner keep, all its loops keep. -/
structure Kept (P : Scanner → Prop) : Prop where
  next : P s → P (next s).2
  bumpLine : P s → P (bumpLine s)
  again : P s → P (again ch s)

namespace Kept

theorem countLine (kept : Kept P) (holds : P s) : P (countLine ch s) := by
  unfold Cfg.countLine
  split
  · exact kept.bumpLine holds
  · exact holds

theorem skipBlanks (kept : Kept P) (holds : P s) : P (skipBlanks s).2 := by
  fun_induction Cfg.skipBlanks s with
  | case1 s blank ih => exact ih (kept.countLine (kept.next holds))
  | case2 s done => exact kept.next holds

theorem skipComment (kept : Kept P) (holds : P s) : P (skipComment s).2 := by
  fun_induction Cfg.skipComment s with
  | case1 s => exact kept.next holds
  | case2 s => exact kept.next holds
  | case3 s line more ih => exact ih (kept.next holds)

theorem skipToToken (kept : Kept P) (holds : P s) : P (skipToToken s).2 := by
  fun_induction Cfg.skipToToken s with
  | case1 s => exact kept.skipBlanks holds
  | case2 s => exact kept.skipBlanks holds
  | case3 s => exact kept.skipComment (kept.skipBlanks holds)
  | case4 s more comment line ih =>
    exact ih (kept.bumpLine (kept.skipComment (kept.skipBlanks holds)))

theorem skipIndent (kept : Kept P) (holds : P s) : P (skipIndent s).2 := by
  fun_induction Cfg.skipIndent s with
  | case1 s indent ih => exact ih (kept.next holds)
  | case2 s done => exact kept.next holds

theorem quoted (kept : Kept P) (holds : P s) : P (quoted buf s).2 := by
  have twice {s : Scanner} (holds : P s) : P (Cfg.next (Cfg.next s).2).2 :=
    kept.next (kept.next holds)
  fun_induction Cfg.quoted buf s with
  | case1 buf s => exact kept.next holds
  | case2 buf s => exact kept.next holds
  | case3 buf s room more quote slash escaped ih => exact ih (twice holds)
  | case4 buf s room more quote slash escaped newline zero ih =>
    exact ih (kept.skipIndent (twice holds))
  | case5 buf s room more quote slash escaped newline zero ih =>
    exact ih (kept.again (kept.skipIndent (twice holds)))
  | case6 buf s room more quote slash escaped newline letter ih => exact ih (twice holds)
  | case7 buf s => exact twice holds
  | case8 buf s => exact kept.next holds
  | case9 buf s room more quote slash newline ih => exact ih (kept.next holds)
  | case10 buf s => exact holds

theorem unquoted (kept : Kept P) (holds : P s) : P (unquoted buf escaped ch s).2 := by
  fun_induction Cfg.unquoted buf escaped ch s with
  | case1 => exact holds
  | case2 buf s room more ih => exact ih (kept.next (kept.bumpLine holds))
  | case3 buf ch s room more line ih => exact ih (kept.next holds)
  | case4 => exact kept.again holds
  | case5 buf escaped s room plain more ih => exact ih (kept.next holds)
  | case6 buf escaped ch s room plain more slash ih => exact ih (kept.next holds)
  | case7 => exact holds

end Kept

theorem frame_kept (s₀ : Scanner) : Kept (Frame s₀) where
  next {s} frame := by
    have read : Frame s (next s).2 := by
      unfold next getc
      split
      · split <;> exact ⟨rfl, rfl, rfl⟩
      · exact ⟨rfl, rfl, rfl⟩
    exact frame.trans read
  bumpLine frame := frame
  again frame := frame

theorem Frame.refl (s : Scanner) : Frame s s := ⟨rfl, rfl, rfl⟩

theorem skipToToken_frame (s : Scanner) : Frame s (skipToToken s).2 :=
  (frame_kept s).skipToToken (.refl s)

theorem quoted_frame (buf : List UInt8) (s : Scanner) : Frame s (quoted buf s).2 :=
  (frame_kept s).quoted (.refl s)

theorem unquoted_frame (buf : List UInt8) (escaped : Bool) (ch : Int) (s : Scanner) :
    Frame s (unquoted buf escaped ch s).2 := (frame_kept s).unquoted (.refl s)

/-- A quoted token never makes more characters available. -/
theorem quoted_avail_le (buf : List UInt8) (s : Scanner) : (quoted buf s).2.avail ≤ s.avail := by
  fun_induction quoted buf s with
  | case1 buf s => exact next_avail_le s
  | case2 buf s => exact next_avail_le s
  | case3 buf s room more quote slash escaped ih =>
    exact ih.trans ((next_avail_le _).trans (next_avail_le s))
  | case4 buf s room more quote slash escaped newline zero ih =>
    exact ih.trans ((skipIndent_avail_le _).trans ((next_avail_le _).trans (next_avail_le s)))
  | case5 buf s room more quote slash escaped newline zero ih =>
    have first := next_avail_lt more
    have second := next_avail_le (next s).2
    have indent := skipIndent_avail_le (next (next s).2).2
    have pushed := again_avail_le (skipIndent (next (next s).2).2).1
      (skipIndent (next (next s).2).2).2
    omega
  | case6 buf s room more quote slash escaped newline letter ih =>
    exact ih.trans ((next_avail_le _).trans (next_avail_le s))
  | case7 buf s => exact (next_avail_le _).trans (next_avail_le s)
  | case8 buf s => exact next_avail_le s
  | case9 buf s room more quote slash newline ih => exact ih.trans (next_avail_le s)
  | case10 buf s => exact le_rfl

/-- A token without quotes gives back the character it was called with at most. -/
theorem unquoted_avail_le (buf : List UInt8) (escaped : Bool) (ch : Int) (s : Scanner) :
    (unquoted buf escaped ch s).2.avail ≤ s.avail + if ch = eof then 0 else 1 := by
  fun_induction unquoted buf escaped ch s with
  | case1 => exact Nat.le_add_right _ _
  | case2 buf s room more ih =>
    have charged := next_avail_charged (bumpLine s)
    rw [bumpLine_avail] at charged
    omega
  | case3 buf ch s room more line ih =>
    have charged := next_avail_charged s
    omega
  | case4 buf escaped ch s room plain ends =>
    by_cases ended : ch = eof
    · simp [ended, again, Scanner.avail]
    · simpa [ended] using again_avail_le ch s
  | case5 buf escaped s room plain more ih =>
    have charged := next_avail_charged s
    omega
  | case6 buf escaped ch s room plain more slash ih =>
    have charged := next_avail_charged s
    omega
  | case7 => exact Nat.le_add_right _ _

/-- A token that starts with an ordinary character consumes at least that
character, even though its terminator is pushed back. -/
theorem unquoted_avail_le_of_starts (starts : endsToken ch = false) :
    (unquoted [] false ch s).2.avail ≤ s.avail := by
  have charged := next_avail_charged s
  rw [unquoted]
  simp only [List.length_nil, show 0 < maxToken by decide, starts, Bool.false_eq_true, ↓reduceIte]
  split
  · exact (unquoted_avail_le [] true _ _).trans charged
  · exact (unquoted_avail_le _ false _ _).trans charged

/-- What `skipToToken` finds begins a token, and has been taken from the text. -/
theorem skipToToken_starts (found : (skipToToken s).1 = some ch) :
    isBlank ch = false ∧ ch ≠ eof ∧ ch ≠ chr '#' ∧ (skipToToken s).2.avail < s.avail := by
  fun_induction skipToToken s with
  | case1 s => simp at found
  | case2 s more comment =>
    simp only [Option.some.injEq] at found
    subst found
    refine ⟨?_, fun ended => more (.inl ended), comment,
      skipBlanks_avail_lt fun ended => more (.inl ended)⟩
    fun_induction skipBlanks s with
    | case1 s blank ih => exact ih more comment
    | case2 s done => simpa using done
  | case3 s => simp at found
  | case4 s more comment line ih =>
    obtain ⟨blank, ended, hash, shorter⟩ := ih found
    have consumed := skipBlanks_avail_lt (s := s) fun ended => more (.inl ended)
    have skipped := skipComment_avail_le (skipBlanks s).2
    rw [bumpLine_avail] at shorter
    exact ⟨blank, ended, hash, by omega⟩

/-- What is left to be read, a pushed-back token or item counting less than the
character it was read from. -/
def Scanner.size (s : Scanner) : Nat :=
  2 * s.avail + s.lastToken.isSome.toNat + s.lastItem.isSome.toNat

/-- A token clears the one held back, and leaves the item and the value alone. -/
theorem cfgGetToken_frame (s : Scanner) :
    (cfgGetToken s).2.lastToken = none ∧ (cfgGetToken s).2.lastItem = s.lastItem ∧
      (cfgGetToken s).2.lastValue = s.lastValue := by
  unfold cfgGetToken
  cases held : s.lastToken with
  | some here => exact ⟨rfl, rfl, rfl⟩
  | none =>
    have start := skipToToken_frame s
    rcases reached : skipToToken s with ⟨_ | ch, s'⟩
    · rw [reached] at start
      exact ⟨start.1.trans held, start.2⟩
    · rw [reached] at start
      dsimp only
      split_ifs
      · exact ⟨start.1.trans held, start.2⟩
      · have body := start.trans (quoted_frame [] s')
        exact ⟨body.1.trans held, body.2⟩
      · have body := start.trans (unquoted_frame [] false ch s')
        exact ⟨body.1.trans held, body.2⟩

theorem skipToToken_avail_le (s : Scanner) : (skipToToken s).2.avail ≤ s.avail := by
  fun_induction skipToToken s with
  | case1 s => exact skipBlanks_avail_le s
  | case2 s => exact skipBlanks_avail_le s
  | case3 s => exact (skipComment_avail_le _).trans (skipBlanks_avail_le s)
  | case4 s more comment line ih =>
    rw [bumpLine_avail] at ih
    exact ih.trans ((skipComment_avail_le _).trans (skipBlanks_avail_le s))

/-- Reading a token shortens what is left, by one character at least where a token was found. -/
theorem cfgGetToken_avail (held : s.lastToken = none) :
    (cfgGetToken s).2.avail ≤ s.avail ∧
      ∀ token, (cfgGetToken s).1 = .ok (some token) → (cfgGetToken s).2.avail < s.avail := by
  unfold cfgGetToken
  rw [held]
  rcases reached : skipToToken s with ⟨_ | ch, s'⟩
  · have start := skipToToken_avail_le s
    rw [reached] at start
    exact ⟨start, fun token read => by cases read⟩
  · have found : (skipToToken s).1 = some ch := by rw [reached]
    have start := skipToToken_starts found
    rw [reached] at start
    have shorter : s'.avail < s.avail := start.2.2.2
    dsimp only
    split_ifs with equals quote
    · exact ⟨shorter.le, fun _ _ => shorter⟩
    · have body := (quoted_avail_le [] s').trans_lt shorter
      exact ⟨body.le, fun _ _ => body⟩
    · have starts : endsToken ch = false := by
        simp [endsToken, start.1, start.2.1, start.2.2.1, equals]
      have body := (unquoted_avail_le_of_starts (s := s') starts).trans_lt shorter
      exact ⟨body.le, fun _ _ => body⟩

/-- Reading a token shortens the input, or takes back a pushed-back token. -/
theorem cfgGetToken_size (s : Scanner) :
    (cfgGetToken s).2.size ≤ s.size ∧
      ∀ token, (cfgGetToken s).1 = .ok (some token) → (cfgGetToken s).2.size < s.size ∧
        (s.lastToken = none → (cfgGetToken s).2.size + 2 ≤ s.size) := by
  have frame := cfgGetToken_frame s
  cases held : s.lastToken with
  | some here =>
    have taken : (cfgGetToken s).2 = { s with lastToken := none } := by simp [cfgGetToken, held]
    simp [taken, Scanner.size, Scanner.avail, held]
  | none =>
    obtain ⟨le, lt⟩ := cfgGetToken_avail held
    simp only [Scanner.size, frame.1, frame.2.1, held]
    refine ⟨by omega, fun token read => ?_⟩
    have shorter := lt token read
    exact ⟨by omega, fun _ => by omega⟩

/-- Each assignment that is read lowers the measure of the scanner, so the parse comes to an end.
-/
theorem cfgNext_size_lt (read : (cfgNext s).1 = .ok (some entry)) :
    (cfgNext s).2.size < s.size := by
  unfold cfgNext at *
  cases item : s.lastItem with
  | some held => simp [Scanner.size, Scanner.avail, item]
  | none =>
    simp only [item] at read ⊢
    have first := cfgGetToken_size s
    have firstFrame := cfgGetToken_frame s
    rcases head : cfgGetToken s with ⟨_ | _ | name, s₁⟩
    · simp [head] at read
    · simp [head] at read
    · simp only [head] at read first firstFrame ⊢
      have name_lt := (first.2 name rfl).1
      by_cases equals : name = cstr "="
      · simp [equals] at read
      · simp only [equals, ↓reduceIte] at read ⊢
        have second := cfgGetToken_size s₁
        have secondFrame := cfgGetToken_frame s₁
        rcases sign : cfgGetToken s₁ with ⟨_ | _ | this, s₂⟩
        · simp [sign] at read
        · rw [sign] at second
          dsimp only at second ⊢
          omega
        · simp only [sign] at read second secondFrame ⊢
          have sign_lt := (second.2 this rfl).2 firstFrame.1
          by_cases assigns : this = cstr "="
          · simp only [assigns, ne_eq, not_true_eq_false, ↓reduceIte] at read ⊢
            have third := (cfgGetToken_size s₂).1
            rcases tail : cfgGetToken s₂ with ⟨_ | _ | value, s₃⟩
            · simp [tail] at read
            · simp [tail] at read
            · simp only [tail] at read third ⊢
              split
              · simp_all
              · dsimp only
                omega
          · simp only [assigns, ne_eq, not_false_eq_true, ↓reduceIte]
            have same : (cfgReturnToken this s₂).avail = s₂.avail := rfl
            have pushed : (cfgReturnToken this s₂).size = s₂.size + 1 := by
              rw [Scanner.size, Scanner.size, same, secondFrame.1]
              simp only [cfgReturnToken, Option.isSome_some, Option.isSome_none, Bool.toNat_true,
                Bool.toNat_false]
              omega
            omega

end Yaboot.Cfg
