import Yaboot.Cfg.EndProofs

/-! NUL bytes behind a configuration text. Between tokens they are the end of
the text; inside a quoted string or a comment they make no difference either.
Inside an unquoted token they are stored, which completes a dangling escape and
uses up the room of the token. -/
namespace Yaboot.Cfg
open CString

/-- `k` NUL bytes behind the unread part of the buffer. -/
def Scanner.pad (k : Nat) (s : Scanner) : Scanner :=
  { s with currp := s.currp ++ List.replicate k 0 }

@[simp] theorem pad_zero (s : Scanner) : s.pad 0 = s := by
  simp [Scanner.pad]

/-- Nothing but padding is left. -/
def Spent (s : Scanner) : Prop := (s.back = 0 ∨ s.back = eof) ∧ ∀ b ∈ s.currp, b = 0

/-- A character delivered at the end, padded or not. -/
def Over (r : Int × Scanner) : Prop := (r.1 = eof ∨ r.1 = 0) ∧ Spent r.2

theorem spent_pad {s : Scanner} (atEnd : s.ahead = []) (k : Nat) : Spent (s.pad k) := by
  unfold Scanner.ahead at atEnd
  by_cases pushed : s.back = 0
  · have empty : s.currp = [] := by simpa [pushed] using atEnd
    refine ⟨.inl pushed, fun b member => ?_⟩
    simp only [Scanner.pad, empty, List.nil_append] at member
    exact List.eq_of_mem_replicate member
  · simp [pushed] at atEnd

theorem spent_end {s : Scanner} (atEnd : s.ahead = []) : Spent s := by
  have here := spent_pad atEnd 0
  rwa [pad_zero] at here

/-- In front of the end the padding is out of sight. -/
theorem next_pad (more : s.ahead ≠ []) (k : Nat) :
    next (s.pad k) = ((next s).1, (next s).2.pad k) := by
  unfold Scanner.ahead at more
  by_cases pushed : s.back = 0
  · cases left : s.currp with
    | nil => simp [pushed, left] at more
    | cons b rest => simp [next, getc, Scanner.pad, pushed, left]
  · simp [next, Scanner.pad, pushed]

/-- Where nothing is left but padding, the character read is a zero or the end. -/
theorem next_over (spent : Spent s) : Over (next s) := by
  obtain ⟨pushed, zeros⟩ := spent
  by_cases clear : s.back = 0
  · cases left : s.currp with
    | nil =>
      have read : next s = (eof, s) := by simp [next, getc, clear, left]
      rw [read]
      exact ⟨.inl rfl, .inl clear, zeros⟩
    | cons b rest =>
      have read : next s = (schar b, { s with currp := rest }) := by simp [next, getc, clear, left]
      rw [left] at zeros
      have zero : schar b = 0 := by
        rw [zeros b (by simp)]
        rfl
      rw [read]
      exact ⟨.inr zero, .inl clear, fun c member => zeros c (by simp [member])⟩
  · have read : next s = (s.back, { s with back := 0 }) := by simp [next, clear]
    rw [read]
    exact ⟨.inl (pushed.resolve_left clear), .inl rfl, zeros⟩

/-- No character the scanner looks for comes from the padding. -/
theorem Over.ne (atEnd : Over r) (zero : c ≠ 0) (ended : c ≠ eof) : r.1 ≠ c := by
  rcases atEnd.1 with h | h <;> rw [h] <;> exact Ne.symm ‹_›

theorem Over.not_blank (atEnd : Over r) : isBlank r.1 = false := by
  rcases atEnd.1 with h | h <;> rw [h] <;> decide

theorem Over.not_newline (atEnd : Over r) : isNewline r.1 = false := by
  rcases atEnd.1 with h | h <;> rw [h] <;> decide

theorem skipBlanks_over (spent : Spent s) : Over (skipBlanks s) := by
  have atEnd := next_over spent
  rw [skipBlanks, if_neg (by simp [atEnd.not_blank])]
  exact atEnd

theorem skipIndent_over (spent : Spent s) : Over (skipIndent s) := by
  have atEnd := next_over spent
  rw [skipIndent, if_neg]
  · exact atEnd
  · rintro (space | tab)
    · exact atEnd.ne (by decide) (by decide) space
    · exact atEnd.ne (by decide) (by decide) tab

theorem skipComment_over (spent : Spent s) : (skipComment s).1 = eof ∧ Spent (skipComment s).2 := by
  have atEnd := next_over spent
  fun_induction skipComment s with
  | case1 s line => exact absurd line (by simp [atEnd.not_newline])
  | case2 s line ended => exact ⟨ended, atEnd.2⟩
  | case3 s line more ih => exact ih atEnd.2 (next_over atEnd.2)

theorem skipToToken_over (spent : Spent s) :
    (skipToToken s).1 = none ∧ Spent (skipToToken s).2 := by
  have atEnd := skipBlanks_over spent
  rw [skipToToken, if_pos atEnd.1]
  exact ⟨rfl, atEnd.2⟩

/-! ### Between tokens -/

@[simp] theorem countLine_pad (ch : Int) (s : Scanner) (k : Nat) :
    countLine ch (s.pad k) = (countLine ch s).pad k := by
  unfold countLine
  split <;> rfl

theorem skipBlanks_pad (s : Scanner) (k : Nat) :
    skipBlanks (s.pad k) = ((skipBlanks s).1, (skipBlanks s).2.pad k) ∨
      Over (skipBlanks s) ∧ Over (skipBlanks (s.pad k)) := by
  by_cases atEnd : s.ahead = []
  · exact .inr ⟨skipBlanks_over (spent_end atEnd), skipBlanks_over (spent_pad atEnd k)⟩
  fun_induction skipBlanks s with
  | case1 s blank ih =>
    have step : skipBlanks (s.pad k) = skipBlanks ((countLine (next s).1 (next s).2).pad k) := by
      rw [skipBlanks, next_pad atEnd, if_pos blank, countLine_pad]
    rw [step]
    by_cases last : (countLine (next s).1 (next s).2).ahead = []
    · exact .inr ⟨skipBlanks_over (spent_end last), skipBlanks_over (spent_pad last k)⟩
    · exact ih last
  | case2 s done =>
    left
    rw [skipBlanks, next_pad atEnd, if_neg done]

theorem skipIndent_pad (s : Scanner) (k : Nat) :
    skipIndent (s.pad k) = ((skipIndent s).1, (skipIndent s).2.pad k) ∨
      Over (skipIndent s) ∧ Over (skipIndent (s.pad k)) := by
  by_cases atEnd : s.ahead = []
  · exact .inr ⟨skipIndent_over (spent_end atEnd), skipIndent_over (spent_pad atEnd k)⟩
  fun_induction skipIndent s with
  | case1 s indent ih =>
    have step : skipIndent (s.pad k) = skipIndent ((next s).2.pad k) := by
      rw [skipIndent, next_pad atEnd, if_pos indent]
    rw [step]
    by_cases last : (next s).2.ahead = []
    · exact .inr ⟨skipIndent_over (spent_end last), skipIndent_over (spent_pad last k)⟩
    · exact ih last
  | case2 s done =>
    left
    rw [skipIndent, next_pad atEnd, if_neg done]

/-- A comment is skipped alike with bytes behind the text, or it is the last of the text in both.
-/
theorem skipComment_pad (s : Scanner) (k : Nat) :
    skipComment (s.pad k) = ((skipComment s).1, (skipComment s).2.pad k) ∨
      ((skipComment s).1 = eof ∧ Spent (skipComment s).2) ∧
        (skipComment (s.pad k)).1 = eof ∧ Spent (skipComment (s.pad k)).2 := by
  by_cases atEnd : s.ahead = []
  · exact .inr ⟨skipComment_over (spent_end atEnd), skipComment_over (spent_pad atEnd k)⟩
  fun_induction skipComment s with
  | case1 s line =>
    left
    rw [skipComment, next_pad atEnd, if_pos line]
  | case2 s line ended =>
    left
    rw [skipComment, next_pad atEnd, if_neg line, if_pos ended]
  | case3 s line more ih =>
    have step : skipComment (s.pad k) = skipComment ((next s).2.pad k) := by
      rw [skipComment, next_pad atEnd, if_neg line, if_neg more]
    rw [step]
    by_cases last : (next s).2.ahead = []
    · exact .inr ⟨skipComment_over (spent_end last), skipComment_over (spent_pad last k)⟩
    · exact ih last

/-- Between tokens padding is the end of the text. -/
theorem skipToToken_pad (s : Scanner) (k : Nat) :
    skipToToken (s.pad k) = ((skipToToken s).1, (skipToToken s).2.pad k) ∨
      ((skipToToken s).1 = none ∧ Spent (skipToToken s).2) ∧
        (skipToToken (s.pad k)).1 = none ∧ Spent (skipToToken (s.pad k)).2 := by
  fun_induction skipToToken s with
  | case1 s final =>
    rw [skipToToken]
    rcases skipBlanks_pad s k with same | ⟨atEnd, padded⟩
    · left
      rw [same, if_pos final]
    · right
      rw [if_pos padded.1]
      exact ⟨⟨rfl, atEnd.2⟩, rfl, padded.2⟩
  | case2 s more token =>
    rw [skipToToken]
    rcases skipBlanks_pad s k with same | ⟨atEnd, padded⟩
    · left
      rw [same, if_neg more, if_pos token]
    · exact absurd atEnd.1 more
  | case3 s more comment ended =>
    rw [skipToToken]
    rcases skipBlanks_pad s k with same | ⟨atEnd, padded⟩
    · rw [same, if_neg more, if_neg comment]
      dsimp only
      rcases skipComment_pad (skipBlanks s).2 k with rest | ⟨first, second⟩
      · left
        rw [rest, if_pos ended]
      · right
        rw [if_pos second.1]
        exact ⟨⟨rfl, first.2⟩, rfl, second.2⟩
    · exact absurd atEnd.1 more
  | case4 s more comment line ih =>
    rcases skipBlanks_pad s k with same | ⟨atEnd, padded⟩
    · rcases skipComment_pad (skipBlanks s).2 k with rest | ⟨first, second⟩
      · have step : skipToToken (s.pad k) =
            skipToToken ((bumpLine (skipComment (skipBlanks s).2).2).pad k) := by
          rw [skipToToken, same, if_neg more, if_neg comment]
          dsimp only
          rw [rest, if_neg line]
          rfl
        rw [step]
        exact ih
      · exact absurd first.1 line
    · exact absurd atEnd.1 more

/-! ### Quoted strings -/

def Fails (r : Result α) : Prop := ∃ e, r.1 = .error e

/-- A string that is not closed fails, whatever it is filled up with. -/
theorem quoted_over (buf : List UInt8) (spent : Spent s) : Fails (quoted buf s) := by
  have atEnd := next_over spent
  have slash : (next s).1 ≠ chr '\\' := atEnd.ne (by decide) (by decide)
  fun_induction quoted buf s with
  | case1 buf s => exact ⟨_, rfl⟩
  | case2 buf s room more quote => exact absurd quote (atEnd.ne (by decide) (by decide))
  | case3 buf s room more quote found => exact absurd found slash
  | case4 buf s room more quote found => exact absurd found slash
  | case5 buf s room more quote found => exact absurd found slash
  | case6 buf s room more quote found => exact absurd found slash
  | case7 buf s => exact ⟨_, rfl⟩
  | case8 buf s => exact ⟨_, rfl⟩
  | case9 buf s room more quote other newline ih =>
    have after := next_over atEnd.2
    exact ih atEnd.2 after (after.ne (by decide) (by decide))
  | case10 buf s => exact ⟨_, rfl⟩

theorem next_ahead {s : Scanner} (zero : (next s).1 ≠ 0) (ended : (next s).1 ≠ eof) :
    s.ahead ≠ [] := by
  intro atEnd
  rcases (next_over (spent_end atEnd)).1 with h | h
  · exact ended h
  · exact zero h

/-- The same outcome with the padding still unread, or a failure on both sides. -/
def Alike (k : Nat) (r r' : Result α) : Prop := r' = (r.1, r.2.pad k) ∨ Fails r ∧ Fails r'

theorem quoted_alike_of (inside : s.ahead ≠ [] → Alike k (quoted buf s) (quoted buf (s.pad k))) :
    Alike k (quoted buf s) (quoted buf (s.pad k)) := by
  by_cases atEnd : s.ahead = []
  · exact .inr ⟨quoted_over buf (spent_end atEnd), quoted_over buf (spent_pad atEnd k)⟩
  · exact inside atEnd

/-- How a string goes on after a line continuation and its indentation. -/
def resume (buf : List UInt8) (r : Int × Scanner) : Result CStr :=
  if r.1 = 0 then quoted buf r.2 else quoted (buf ++ [toChar (chr ' ')]) (again r.1 r.2)

theorem resume_over (buf : List UInt8) (atEnd : Over r) : Fails (resume buf r) := by
  unfold resume
  split
  · exact quoted_over buf atEnd.2
  · rename_i more
    exact quoted_over _ ⟨.inr (atEnd.1.resolve_right more), atEnd.2.2⟩

theorem quoted_continued (atEnd : s.ahead ≠ []) (room : buf.length < maxToken)
    (more : ¬ (next s).1 = eof) (quote : ¬ (next s).1 = chr '"') (slash : (next s).1 = chr '\\')
    (escaped : ¬ ((next (next s).2).1 = chr '"' ∨ (next (next s).2).1 = chr '\\'))
    (newline : isNewline (next (next s).2).1 = true) :
    quoted buf (s.pad k) = resume buf (skipIndent ((next (next s).2).2.pad k)) := by
  have second : (next s).2.ahead ≠ [] := by
    apply next_ahead <;> intro h <;> rw [h] at newline <;> exact absurd newline (by decide)
  rw [quoted, next_pad atEnd, if_pos room, if_neg more, if_neg quote, if_pos slash]
  dsimp only
  rw [next_pad second, if_neg escaped, if_pos newline]
  rfl

/-- Padding that is reached makes an open string fail, and changes nothing else. -/
theorem quoted_pad (buf : List UInt8) (s : Scanner) (k : Nat) :
    Alike k (quoted buf s) (quoted buf (s.pad k)) := by
  apply quoted_alike_of
  intro atEnd
  have first := next_pad atEnd k
  fun_induction quoted buf s with
  | case1 buf s room ended =>
    left
    rw [quoted, first, if_pos room, if_pos ended]
  | case2 buf s room more quote =>
    left
    rw [quoted, first, if_pos room, if_neg more, if_pos quote]
  | case3 buf s room more quote slash escaped ih =>
    have second : (next s).2.ahead ≠ [] := by
      apply next_ahead <;> rcases escaped with h | h <;> rw [h] <;> decide
    have step : quoted buf (s.pad k) =
        quoted (buf ++ [toChar (next (next s).2).1]) ((next (next s).2).2.pad k) := by
      rw [quoted, first, if_pos room, if_neg more, if_neg quote, if_pos slash]
      dsimp only
      rw [next_pad second, if_pos escaped]
    rw [step]
    exact quoted_alike_of fun rest => ih rest (next_pad rest k)
  | case4 buf s room more quote slash escaped newline zero ih =>
    rw [quoted_continued atEnd room more quote slash escaped newline]
    rcases skipIndent_pad (next (next s).2).2 k with same | ⟨first, second⟩
    · rw [same, resume, if_pos zero]
      exact quoted_alike_of fun rest => ih rest (next_pad rest k)
    · exact .inr ⟨quoted_over buf first.2, resume_over buf second⟩
  | case5 buf s room more quote slash escaped newline zero ih =>
    rw [quoted_continued atEnd room more quote slash escaped newline]
    rcases skipIndent_pad (next (next s).2).2 k with same | ⟨first, second⟩
    · rw [same, resume, if_neg zero]
      exact quoted_alike_of fun rest => ih rest (next_pad rest k)
    · have here := resume_over buf first
      rw [resume, if_neg zero] at here
      exact .inr ⟨here, resume_over buf second⟩
  | case6 buf s room more quote slash escaped newline letter ih =>
    have second : (next s).2.ahead ≠ [] := by
      apply next_ahead <;> rw [letter] <;> decide
    have step : quoted buf (s.pad k) =
        quoted (buf ++ [toChar (chr '\n')]) ((next (next s).2).2.pad k) := by
      rw [quoted, first, if_pos room, if_neg more, if_neg quote, if_pos slash]
      dsimp only
      rw [next_pad second, if_neg escaped, if_neg newline, if_pos letter]
    rw [step]
    exact quoted_alike_of fun rest => ih rest (next_pad rest k)
  | case7 buf s room more quote slash escaped newline letter =>
    by_cases second : (next s).2.ahead = []
    · refine .inr ⟨⟨_, rfl⟩, ?_⟩
      have atEnd := next_over (spent_pad second k)
      have plain : ¬ ((next ((next s).2.pad k)).1 = chr '"' ∨
          (next ((next s).2.pad k)).1 = chr '\\') := by
        rintro (h | h)
        · exact atEnd.ne (by decide) (by decide) h
        · exact atEnd.ne (by decide) (by decide) h
      rw [quoted, first, if_pos room, if_neg more, if_neg quote, if_pos slash]
      dsimp only
      rw [if_neg plain, if_neg (by simp [atEnd.not_newline]),
        if_neg (atEnd.ne (by decide) (by decide))]
      exact ⟨_, rfl⟩
    · left
      rw [quoted, first, if_pos room, if_neg more, if_neg quote, if_pos slash]
      dsimp only
      rw [next_pad second, if_neg escaped, if_neg newline, if_neg letter]
  | case8 buf s room more quote slash newline =>
    left
    rw [quoted, first, if_pos room, if_neg more, if_neg quote, if_neg slash, if_pos newline]
  | case9 buf s room more quote slash newline ih =>
    have step : quoted buf (s.pad k) = quoted (buf ++ [toChar (next s).1]) ((next s).2.pad k) := by
      rw [quoted, first, if_pos room, if_neg more, if_neg quote, if_neg slash, if_neg newline]
    rw [step]
    exact quoted_alike_of fun rest => ih rest (next_pad rest k)
  | case10 buf s room =>
    left
    rw [quoted, if_neg room]

/-! ### Unquoted tokens -/

/-- One step of the loop over an unquoted token, if it goes on. -/
def storeChar (buf : List UInt8) (escaped : Bool) (ch : Int) : Option (List UInt8 × Bool) :=
  if buf.length < maxToken then
    if escaped then
      if ch = eof then none
      else if ch = chr '\n' then some (buf, false)
      else some (buf ++ [escapedChar ch], false)
    else if endsToken ch then none
    else if ch = chr '\\' then some (buf, true)
    else some (buf ++ [toChar ch], false)
  else none

/-- The characters a token has stored, and whether a backslash is open, when the
text ends inside it. -/
def unfinished (buf : List UInt8) (escaped : Bool) : List Int → Option (List UInt8 × Bool)
  | [] => some (buf, escaped)
  | ch :: rest => (storeChar buf escaped ch).bind fun stored => unfinished stored.1 stored.2 rest

/-- The room and the escape allow a token that stops here to be completed by `k` NULs. -/
def Fits (buf : List UInt8) (escaped : Bool) (k : Nat) : Prop :=
  (escaped = true → 0 < k) ∧ buf.length + k < maxToken

/-- A character that goes into the token takes the loop one round on, however much follows the
text. -/
theorem unquoted_continues (stored : storeChar buf escaped ch = some (buf', escaped'))
    (s : Scanner) : ∃ s' : Scanner, s'.ahead = s.ahead ∧ ∀ k, unquoted buf escaped ch (s.pad k) =
      unquoted buf' escaped' (next (s'.pad k)).1 (next (s'.pad k)).2 := by
  unfold storeChar at stored
  split_ifs at stored with room open_ ended newline ends slash
  · cases stored
    refine ⟨bumpLine s, bumpLine_ahead s, fun k => ?_⟩
    rw [unquoted, if_pos room, if_pos open_, if_neg ended, if_pos newline]
    rfl
  · cases stored
    refine ⟨s, rfl, fun k => ?_⟩
    rw [unquoted, if_pos room, if_pos open_, if_neg ended, if_neg newline]
  · cases stored
    refine ⟨s, rfl, fun k => ?_⟩
    rw [unquoted, if_pos room, if_neg open_, if_neg ends, if_pos slash]
  · cases stored
    refine ⟨s, rfl, fun k => ?_⟩
    rw [unquoted, if_pos room, if_neg open_, if_neg ends, if_neg slash]

theorem unquoted_stops (stored : storeChar buf escaped ch = none) (s : Scanner) (k : Nat) :
    unquoted buf escaped ch (s.pad k) =
      ((unquoted buf escaped ch s).1, (unquoted buf escaped ch s).2.pad k) := by
  unfold storeChar at stored
  split_ifs at stored with room open_ ended newline ends slash
  · rw [unquoted, if_pos room, if_pos open_, if_pos ended]
    rw [unquoted, if_pos room, if_pos open_, if_pos ended]
  · rw [unquoted, if_pos room, if_neg open_, if_pos ends]
    rw [unquoted, if_pos room, if_neg open_, if_pos ends]
    rfl
  · rw [unquoted, if_neg room]
    rw [unquoted, if_neg room]

/-- A token that ends before the text does is read alike. -/
theorem unquoted_pad {s : Scanner} (ends : unfinished buf escaped (ch :: s.ahead) = none)
    (k : Nat) :
    unquoted buf escaped ch (s.pad k) =
      ((unquoted buf escaped ch s).1, (unquoted buf escaped ch s).2.pad k) := by
  generalize text : s.ahead = rest at ends
  induction rest generalizing buf escaped ch s with
  | nil =>
    cases stored : storeChar buf escaped ch with
    | none => exact unquoted_stops stored s k
    | some more => simp [unfinished, stored] at ends
  | cons c rest ih =>
    cases stored : storeChar buf escaped ch with
    | none => exact unquoted_stops stored s k
    | some more =>
      obtain ⟨s', same, continues⟩ := unquoted_continues stored s
      obtain ⟨first, later⟩ := next_cons (same.trans text)
      have unpadded := continues 0
      rw [pad_zero, pad_zero] at unpadded
      have inside : s'.ahead ≠ [] := by simp [same, text]
      rw [continues k, unpadded, next_pad inside]
      refine ih later ?_
      rw [first]
      rwa [unfinished, stored] at ends

/-- How a token that the text ends in comes out: completed, at the end, or not at all. -/
def Comes (buf : List UInt8) (fits : Prop) (r : Result CStr) : Prop :=
  (fits → r.1 = .ok (strdup buf) ∧ Spent r.2) ∧ (¬ fits → Fails r)

theorem strdup_zero (buf : List UInt8) : strdup (buf ++ [0]) = strdup buf := by
  unfold strdup
  rw [List.takeWhile_append]
  split
  · rename_i whole
    simpa using ((List.takeWhile_prefix _).eq_of_length whole).symm
  · rfl

theorem next_zero {s : Scanner} (atEnd : s.ahead = []) (k : Nat) :
    next (s.pad (k + 1)) = (0, s.pad k) := by
  unfold Scanner.ahead at atEnd
  by_cases pushed : s.back = 0
  · have empty : s.currp = [] := by simpa [pushed] using atEnd
    simp only [next, getc, Scanner.pad, pushed, empty, ↓reduceIte, List.nil_append,
      List.replicate_succ]
    rfl
  · simp [pushed] at atEnd

/-- At the end of the text the padding completes the token or exhausts its room. -/
theorem unquoted_zeros {s : Scanner} (atEnd : s.ahead = []) (k : Nat) (buf : List UInt8)
    (escaped : Bool) : Comes buf (Fits buf escaped k)
      (unquoted buf escaped (next (s.pad k)).1 (next (s.pad k)).2) := by
  induction k generalizing buf escaped with
  | zero =>
    have ended := (next_nil atEnd).1
    rw [pad_zero, ended]
    have spent := next_over (spent_end atEnd)
    by_cases room : buf.length < maxToken
    · cases escaped with
      | true =>
        rw [unquoted, if_pos room, if_pos rfl, if_pos rfl]
        exact ⟨fun fits => absurd (fits.1 rfl) (by decide), fun _ => ⟨_, rfl⟩⟩
      | false =>
        rw [unquoted, if_pos room, if_neg (by decide), if_pos (by decide)]
        exact ⟨fun _ => ⟨rfl, .inr rfl, spent.2.2⟩, fun small => absurd ⟨by simp, room⟩ small⟩
    · rw [unquoted, if_neg room]
      exact ⟨fun fits => absurd fits.2 room, fun _ => ⟨_, rfl⟩⟩
  | succ k ih =>
    rw [next_zero atEnd]
    by_cases room : buf.length < maxToken
    · have stored : unquoted buf escaped 0 (s.pad k) =
          unquoted (buf ++ [0]) false (next (s.pad k)).1 (next (s.pad k)).2 := by
        cases escaped with
        | true =>
          rw [unquoted, if_pos room, if_pos rfl, if_neg (by decide), if_neg (by decide)]
          rfl
        | false =>
          rw [unquoted, if_pos room, if_neg (by decide), if_neg (by decide), if_neg (by decide)]
          rfl
      have longer : Fits (buf ++ [0]) false k ↔ Fits buf escaped (k + 1) := by
        simp only [Fits, List.length_append, List.length_singleton, Bool.false_eq_true,
          false_imp_iff, true_and, Nat.zero_lt_succ, imp_true_iff]
        omega
      have comes := ih (buf ++ [0]) false
      rw [stored, ← longer]
      exact ⟨fun fits => by rw [← strdup_zero buf]; exact comes.1 fits, comes.2⟩
    · rw [unquoted, if_neg room]
      refine ⟨fun fits => absurd fits.2 ?_, fun _ => ⟨_, rfl⟩⟩
      omega

/-- A token that the text ends in, behind `k` NULs. -/
theorem unquoted_unfinished {s : Scanner}
    (ends : unfinished buf escaped (ch :: s.ahead) = some (last, open_))
    (k : Nat) : Comes last (Fits last open_ k) (unquoted buf escaped ch (s.pad k)) := by
  generalize text : s.ahead = rest at ends
  induction rest generalizing buf escaped ch s with
  | nil =>
    cases stored : storeChar buf escaped ch with
    | none => simp [unfinished, stored] at ends
    | some more =>
      obtain ⟨s', same, continues⟩ := unquoted_continues stored s
      obtain ⟨rfl, rfl⟩ : more.1 = last ∧ more.2 = open_ := by
        simpa [unfinished, stored, Prod.ext_iff] using ends
      rw [continues k]
      exact unquoted_zeros (same.trans text) k more.1 more.2
  | cons c rest ih =>
    cases stored : storeChar buf escaped ch with
    | none => simp [unfinished, stored] at ends
    | some more =>
      obtain ⟨s', same, continues⟩ := unquoted_continues stored s
      obtain ⟨first, later⟩ := next_cons (same.trans text)
      have inside : s'.ahead ≠ [] := by simp [same, text]
      rw [continues k, next_pad inside]
      refine ih later ?_
      rw [first]
      rwa [unfinished, stored] at ends

/-! ### One token -/

/-- The text ends inside the unquoted token that is read next, when `buf` is
stored of it. -/
def Unfinished (s : Scanner) (buf : List UInt8) (escaped : Bool) : Prop :=
  s.lastToken = none ∧ ∃ ch, (skipToToken s).1 = some ch ∧ ch ≠ chr '=' ∧ ch ≠ chr '"' ∧
    unfinished [] false (ch :: (skipToToken s).2.ahead) = some (buf, escaped)

/-- No token is found, and none will be. -/
def Ends (r : Result (Option CStr)) : Prop := r.1 = .ok none ∧ Spent r.2

theorem pad_lastToken (s : Scanner) (k : Nat) : (s.pad k).lastToken = s.lastToken := rfl

theorem cfgGetToken_over (spent : Spent s) (held : s.lastToken = none) : Ends (cfgGetToken s) := by
  obtain ⟨none_, rest⟩ := skipToToken_over spent
  have found : cfgGetToken s = (.ok none, (skipToToken s).2) :=
    cfgGetToken_none_iff.mpr ⟨held, Prod.ext none_ rfl⟩
  rw [found]
  exact ⟨rfl, rest⟩

theorem cfgGetToken_spent (spent : Spent s) : Spent (cfgGetToken s).2 := by
  cases held : s.lastToken with
  | none => exact (cfgGetToken_over spent held).2
  | some token =>
    have taken : cfgGetToken s = (.ok (some token), { s with lastToken := none }) := by
      simp [cfgGetToken, held]
    rw [taken]
    exact spent

theorem Spent.finished (spent : Spent s) (buf : List UInt8) (escaped : Bool) :
    ¬ Unfinished s buf escaped := by
  rintro ⟨-, ch, found, -⟩
  rw [(skipToToken_over spent).1] at found
  cases found

/-- A token the text does not end in is read alike, or missing on both sides. -/
theorem cfgGetToken_pad (finished : ∀ buf escaped, ¬ Unfinished s buf escaped) (k : Nat) :
    Alike k (cfgGetToken s) (cfgGetToken (s.pad k)) ∨
      Ends (cfgGetToken s) ∧ Ends (cfgGetToken (s.pad k)) := by
  cases held : s.lastToken with
  | some token =>
    left
    left
    simp only [cfgGetToken, pad_lastToken, held]
    rfl
  | none =>
    rcases skipToToken_pad s k with same | ⟨⟨none_, spent⟩, padded, rest⟩
    · left
      rcases reached : skipToToken s with ⟨_ | ch, after⟩
      · rw [reached] at same
        left
        simp only [cfgGetToken, pad_lastToken, held, reached, same]
      · rw [reached] at same
        simp only [cfgGetToken, pad_lastToken, held, reached, same]
        split_ifs with equals quote
        · exact .inl rfl
        · rcases quoted_pad [] after k with alike | ⟨⟨e, failed⟩, e', padded⟩
          · left
            rw [alike]
          · right
            rw [failed, padded]
            exact ⟨⟨_, rfl⟩, _, rfl⟩
        · have ends : unfinished [] false (ch :: after.ahead) = none := by
            rw [Option.eq_none_iff_forall_not_mem]
            rintro ⟨buf, escaped⟩ open_
            exact finished buf escaped ⟨held, ch, by rw [reached], equals, quote, by rwa [reached]⟩
          left
          rw [unquoted_pad ends]
    · right
      have first : cfgGetToken s = (.ok none, (skipToToken s).2) :=
        cfgGetToken_none_iff.mpr ⟨held, Prod.ext none_ rfl⟩
      have second : cfgGetToken (s.pad k) = (.ok none, (skipToToken (s.pad k)).2) :=
        cfgGetToken_none_iff.mpr ⟨held, Prod.ext padded rfl⟩
      rw [first, second]
      exact ⟨⟨rfl, spent⟩, rfl, rest⟩

/-- A token the text ends in comes out when the padding completes it. -/
theorem cfgGetToken_unfinished (open_ : Unfinished s buf escaped) (k : Nat) :
    (Fits buf escaped k → (cfgGetToken (s.pad k)).1 = .ok (some (strdup buf)) ∧
        Spent (cfgGetToken (s.pad k)).2) ∧
      (¬ Fits buf escaped k → Fails (cfgGetToken (s.pad k))) := by
  obtain ⟨held, ch, found, equals, quote, ends⟩ := open_
  have same : skipToToken (s.pad k) = (some ch, (skipToToken s).2.pad k) := by
    rcases skipToToken_pad s k with same | ⟨⟨none_, -⟩, -⟩
    · rw [same, found]
    · rw [none_] at found
      cases found
  have read : cfgGetToken (s.pad k) = ((unquoted [] false ch ((skipToToken s).2.pad k)).1.map some,
      (unquoted [] false ch ((skipToToken s).2.pad k)).2) := by
    simp only [cfgGetToken, pad_lastToken, held, same, if_neg equals, if_neg quote]
  obtain ⟨completed, failed⟩ := unquoted_unfinished ends k
  rw [read]
  constructor
  · intro fits
    obtain ⟨token, spent⟩ := completed fits
    rw [token]
    exact ⟨rfl, spent⟩
  · intro small
    obtain ⟨e, error⟩ := failed small
    rw [error]
    exact ⟨e, rfl⟩

/-! ### One call of `cfg_next` -/

/-- A call leaves nothing to be read, not even a returned token. -/
def Settles (r : Result (Option (CStr × Option CStr))) : Prop :=
  Spent r.2 ∧ r.2.lastToken = none

theorem spent_keep : TokensKeep Spent where
  read := cfgGetToken_spent
  returned spent := spent
  taken spent := spent

theorem cfgGetToken_cleared (s : Scanner) : (cfgGetToken s).2.lastToken = none :=
  (cfgGetToken_frame s).1

/-- How the token read next compares with and without the padding. -/
theorem token_compared (finished : ∀ buf escaped, ¬ Unfinished s buf escaped) (k : Nat) :
    cfgGetToken (s.pad k) = ((cfgGetToken s).1, (cfgGetToken s).2.pad k) ∨
      (∃ e e' s₁ s₂, cfgGetToken s = (.error e, s₁) ∧ cfgGetToken (s.pad k) = (.error e', s₂)) ∨
      ∃ s₁ s₂, cfgGetToken s = (.ok none, s₁) ∧ cfgGetToken (s.pad k) = (.ok none, s₂) ∧
        (Spent s₁ ∧ s₁.lastToken = none) ∧ Spent s₂ ∧ s₂.lastToken = none := by
  rcases cfgGetToken_pad finished k with (same | ⟨⟨e, failed⟩, e', padded⟩) | ⟨ended, padded⟩
  · exact .inl same
  · exact .inr (.inl ⟨e, e', _, _, Prod.ext failed rfl, Prod.ext padded rfl⟩)
  · exact .inr (.inr ⟨_, _, Prod.ext ended.1 rfl, Prod.ext padded.1 rfl,
      ⟨ended.2, cfgGetToken_cleared s⟩, padded.2, cfgGetToken_cleared _⟩)

/-- A call that does not meet an unfinished token is alike, or the last one on
both sides. -/
theorem cfgNext_pad (item : s.lastItem = none)
    (finished : ∀ position q, Asks s position q → ∀ buf escaped, ¬ Unfinished q buf escaped)
    (k : Nat) : Alike k (cfgNext s) (cfgNext (s.pad k)) ∨
      (cfgNext (s.pad k)).1 = (cfgNext s).1 ∧ Settles (cfgNext s) ∧
        Settles (cfgNext (s.pad k)) := by
  have item' : (s.pad k).lastItem = none := item
  unfold cfgNext
  simp only [item, item']
  rcases token_compared (finished .name s .name) k with
    same | ⟨e, e', s₁, s₂, failed, padded⟩ | ⟨s₁, s₂, ended, padded, settled⟩
  · rcases head : cfgGetToken s with ⟨e | _ | name, s₁⟩
    all_goals rw [head] at same
    all_goals simp only [same]
    · exact .inl (.inl rfl)
    · exact .inl (.inl rfl)
    by_cases named : name = cstr "="
    · simp only [named, ↓reduceIte]
      exact .inl (.inl rfl)
    simp only [named, ↓reduceIte]
    rcases token_compared (finished .sign s₁ (.sign head named)) k with
      same | ⟨e, e', s₂, s₃, failed, padded⟩ | ⟨s₂, s₃, ended, padded, settled⟩
    · rcases sign : cfgGetToken s₁ with ⟨e | _ | this, s₂⟩
      all_goals rw [sign] at same
      all_goals simp only [same]
      · exact .inl (.inl rfl)
      · exact .inl (.inl rfl)
      by_cases assigns : this = cstr "="
      · subst assigns
        simp only [ne_eq, not_true_eq_false, ↓reduceIte]
        rcases token_compared (finished .value s₂ (.value head named sign)) k with
          same | ⟨e, e', s₃, s₄, failed, padded⟩ | ⟨s₃, s₄, ended, padded, settled⟩
        · rw [same]
          left
          left
          rcases cfgGetToken s₂ with ⟨e | _ | value, s₃⟩
          · rfl
          · rfl
          · dsimp only
            split <;> rfl
        · rw [failed, padded]
          exact .inl (.inr ⟨⟨_, rfl⟩, _, rfl⟩)
        · rw [ended, padded]
          exact .inl (.inr ⟨⟨_, rfl⟩, _, rfl⟩)
      · simp only [ne_eq, assigns, not_false_eq_true, ↓reduceIte]
        exact .inl (.inl rfl)
    · rw [failed, padded]
      exact .inl (.inr ⟨⟨_, rfl⟩, _, rfl⟩)
    · rw [ended, padded]
      exact .inr ⟨rfl, settled⟩
  · rw [failed, padded]
    exact .inl (.inr ⟨⟨_, rfl⟩, _, rfl⟩)
  · rw [ended, padded]
    exact .inr ⟨rfl, settled⟩

theorem token_completed (open_ : Unfinished s buf escaped) (k : Nat) :
    (Fits buf escaped k → ∃ s', cfgGetToken (s.pad k) = (.ok (some (strdup buf)), s') ∧
        Spent s' ∧ s'.lastToken = none) ∧
      (¬ Fits buf escaped k → ∃ e s', cfgGetToken (s.pad k) = (.error e, s')) := by
  obtain ⟨completed, failed⟩ := cfgGetToken_unfinished open_ k
  constructor
  · intro fits
    obtain ⟨token, spent⟩ := completed fits
    exact ⟨_, Prod.ext token rfl, spent, cfgGetToken_cleared _⟩
  · intro small
    obtain ⟨e, error⟩ := failed small
    exact ⟨e, _, Prod.ext error rfl⟩

theorem token_missing (spent : Spent s) (held : s.lastToken = none) :
    ∃ s', cfgGetToken s = (.ok none, s') ∧ Spent s' ∧ s'.lastToken = none := by
  obtain ⟨none_, rest⟩ := cfgGetToken_over spent held
  exact ⟨_, Prod.ext none_ rfl, rest, cfgGetToken_cleared s⟩

/-- The tokens in front of an unfinished one are read alike. -/
theorem token_before (read : cfgGetToken s = (.ok (some token), s₁)) (more : ¬ Spent s₁) (k : Nat) :
    cfgGetToken (s.pad k) = (.ok (some token), s₁.pad k) := by
  have finished (buf : List UInt8) (escaped : Bool) : ¬ Unfinished s buf escaped := by
    intro open_
    obtain ⟨completed, failed⟩ := token_completed open_ 0
    rw [pad_zero, read] at completed failed
    by_cases fits : Fits buf escaped 0
    · obtain ⟨s', same, spent, -⟩ := completed fits
      cases same
      exact more spent
    · obtain ⟨e, s', same⟩ := failed fits
      cases same
  rcases token_compared finished k with same | ⟨e, e', s₁, s₂, failed, -⟩ | ⟨s₁, s₂, ended, -⟩
  · rw [same, read]
  · rw [read] at failed
    cases failed
  · rw [read] at ended
    cases ended

/-- A call whose next token is unfinished: what it returns does not depend on
the padding that completes the token. -/
theorem cfgNext_unfinished (item : s.lastItem = none) (asked : Asks s position q)
    (open_ : Unfinished q buf escaped) : ∃ entry held, ∀ k,
      (Fits buf escaped k ∧ strdup buf ≠ cstr "=" →
        ∃ s', cfgNext (s.pad k) = (.ok (some entry), s') ∧ Spent s' ∧ s'.lastToken = held) ∧
      (¬ (Fits buf escaped k ∧ strdup buf ≠ cstr "=") → Fails (cfgNext (s.pad k))) := by
  have item' (k : Nat) : (s.pad k).lastItem = none := item
  have more : ¬ Spent q := fun spent => spent.finished buf escaped open_
  have unnamed {k : Nat} (bad : ¬ (Fits buf escaped k ∧ strdup buf ≠ cstr "="))
      (fits : Fits buf escaped k) : strdup buf = cstr "=" := by
    by_contra other
    exact bad ⟨fits, other⟩
  cases asked with
  | name =>
    refine ⟨(strdup buf, none), none, fun k => ?_⟩
    obtain ⟨completed, failed⟩ := token_completed open_ k
    unfold cfgNext
    simp only [item']
    constructor
    · rintro ⟨fits, named⟩
      obtain ⟨s₁, read, spent, held⟩ := completed fits
      obtain ⟨s₂, missing, rest, clear⟩ := token_missing spent held
      simp only [read, named, ↓reduceIte, missing]
      exact ⟨s₂, rfl, rest, clear⟩
    · intro bad
      by_cases fits : Fits buf escaped k
      · obtain ⟨s₁, read, -⟩ := completed fits
        have equals := unnamed bad fits
        simp only [read, equals, ↓reduceIte]
        exact ⟨_, rfl⟩
      · obtain ⟨e, s₁, read⟩ := failed fits
        simp only [read]
        exact ⟨_, rfl⟩
  | @sign _ name head named =>
    refine ⟨(name, none), some (strdup buf), fun k => ?_⟩
    obtain ⟨completed, failed⟩ := token_completed open_ k
    unfold cfgNext
    simp only [item', token_before head more k, named, ↓reduceIte]
    constructor
    · rintro ⟨fits, other⟩
      obtain ⟨s₁, read, spent, held⟩ := completed fits
      simp only [read, other, ne_eq, not_false_eq_true, ↓reduceIte]
      exact ⟨_, rfl, spent, rfl⟩
    · intro bad
      by_cases fits : Fits buf escaped k
      · obtain ⟨s₁, read, spent, held⟩ := completed fits
        obtain ⟨s₂, missing, -⟩ := token_missing spent held
        have equals := unnamed bad fits
        simp only [read, equals, ne_eq, not_true_eq_false, ↓reduceIte, missing]
        exact ⟨_, rfl⟩
      · obtain ⟨e, s₁, read⟩ := failed fits
        simp only [read]
        exact ⟨_, rfl⟩
  | @value s₁ name s₂ head named assigns =>
    refine ⟨(name, some (strdup buf)), none, fun k => ?_⟩
    obtain ⟨completed, failed⟩ := token_completed open_ k
    have earlier : ¬ Spent s₁ := by
      intro spent
      have later := cfgGetToken_spent spent
      rw [assigns] at later
      exact more later
    unfold cfgNext
    simp only [item', token_before head earlier k, named, token_before assigns more k, ne_eq,
      not_true_eq_false, ↓reduceIte]
    constructor
    · rintro ⟨fits, other⟩
      obtain ⟨s₃, read, spent, held⟩ := completed fits
      simp only [read, other, ↓reduceIte]
      exact ⟨s₃, rfl, spent, held⟩
    · intro bad
      by_cases fits : Fits buf escaped k
      · obtain ⟨s₃, read, -⟩ := completed fits
        have equals := unnamed bad fits
        simp only [read, equals, ↓reduceIte]
        exact ⟨_, rfl⟩
      · obtain ⟨e, s₃, read⟩ := failed fits
        simp only [read]
        exact ⟨_, rfl⟩

/-! ### The whole parse -/

/-- Of a spent text only a returned token is left. -/
theorem scan_over (ready : Ready s) (spent : Spent s) :
    (scan s).1 = 0 ∧ (scan s).2.1 = (s.lastToken.map fun token => (token, none)).toList := by
  have settled {s : Scanner} (ready : Ready s) (spent : Spent s) (held : s.lastToken = none) :
      (scan s).1 = 0 ∧ (scan s).2.1 = [] := by
    obtain ⟨s₁, missing, -⟩ := token_missing spent held
    have last : cfgNext s = (.ok none, s₁) := by simp only [cfgNext, ready.1, missing]
    rw [scan_of_none last]
    exact ⟨rfl, rfl⟩
  cases held : s.lastToken with
  | none => exact settled ready spent held
  | some token =>
    obtain ⟨s₀, read, cleared, taken⟩ : ∃ s₀, cfgGetToken s = (.ok (some token), s₀) ∧ Spent s₀ ∧
        s₀.lastToken = none := by
      have returned : (cfgGetToken s).1 = .ok (some token) := by simp [cfgGetToken, held]
      exact ⟨_, Prod.ext returned rfl, cfgGetToken_spent spent, cfgGetToken_cleared s⟩
    have other : token ≠ cstr "=" := by
      have named := ready.2.2
      rw [held] at named
      simpa using named
    obtain ⟨s₁, missing, rest, clear⟩ := token_missing cleared taken
    have called : cfgNext s = (.ok (some (token, none)), s₁) := by
      simp only [cfgNext, ready.1, read, other, ↓reduceIte, missing]
    have after := (cfgNext_ready ready).1
    rw [called] at after
    obtain ⟨value, entries⟩ := settled after rest clear
    rw [scan_of_some called]
    exact ⟨value, by rw [entries]; rfl⟩

/-- The padding `k` does not decide whether the token the text ends in comes
out, or the parse fails either way. -/
def Harmless (k : Nat) (buf : List UInt8) (escaped : Bool) : Prop :=
  strdup buf = cstr "=" ∨
    if escaped then k = 0 ∨ maxToken ≤ buf.length + k
    else buf.length + k < maxToken ∨ maxToken ≤ buf.length

theorem harmless_iff : Harmless k buf escaped ↔ (Fits buf escaped k ∧ strdup buf ≠ cstr "=" ↔
    Fits buf escaped 0 ∧ strdup buf ≠ cstr "=") := by
  unfold Harmless Fits
  by_cases equals : strdup buf = cstr "="
  · simp [equals]
  · cases escaped
    · simp only [equals, ne_eq, not_false_eq_true, and_true, false_or, Bool.false_eq_true, if_false,
        false_imp_iff, true_and]
      omega
    · simp only [equals, ne_eq, not_false_eq_true, and_true, false_or, if_true, true_imp_iff]
      omega

/-- The padding changes neither the value of the scan nor what it reads. -/
def Unchanged (k : Nat) (s : Scanner) : Prop :=
  (scan (s.pad k)).1 = (scan s).1 ∧ (scan (s.pad k)).2.1 = (scan s).2.1

theorem pad_ready (ready : Ready s) (k : Nat) : Ready (s.pad k) := ready

/-- A scan whose next call meets an unfinished token. -/
theorem scan_unfinished (ready : Ready s) (asked : Asks s position q)
    (open_ : Unfinished q buf escaped) : ∃ entries, ∀ k,
      (Fits buf escaped k ∧ strdup buf ≠ cstr "=" →
        (scan (s.pad k)).1 = 0 ∧ (scan (s.pad k)).2.1 = entries) ∧
      (¬ (Fits buf escaped k ∧ strdup buf ≠ cstr "=") →
        (scan (s.pad k)).1 = -1 ∧ (scan (s.pad k)).2.1 = []) := by
  obtain ⟨entry, held, outcome⟩ := cfgNext_unfinished ready.1 asked open_
  refine ⟨entry :: (held.map fun token => (token, none)).toList, fun k => ?_⟩
  obtain ⟨completed, failed⟩ := outcome k
  constructor
  · intro good
    obtain ⟨s', read, spent, same⟩ := completed good
    have after := (cfgNext_ready (pad_ready ready k)).1
    rw [read] at after
    obtain ⟨value, entries⟩ := scan_over after spent
    rw [scan_of_some read]
    exact ⟨value, by rw [entries, same]⟩
  · intro bad
    obtain ⟨e, error⟩ := failed bad
    rw [scan_of_error (Prod.ext error rfl)]
    exact ⟨rfl, rfl⟩

/-- Padding behind a text that ends inside a token changes nothing where it is harmless, and where
it is not, the scan ends with another value. -/
theorem unchanged_unfinished (ready : Ready s) (asked : Asks s position q)
    (open_ : Unfinished q buf escaped) (k : Nat) :
    (Harmless k buf escaped → Unchanged k s) ∧
      ((scan (s.pad k)).1 = (scan s).1 → Harmless k buf escaped) := by
  obtain ⟨entries, outcome⟩ := scan_unfinished ready asked open_
  obtain ⟨completed, failed⟩ := outcome k
  obtain ⟨completed₀, failed₀⟩ := outcome 0
  rw [pad_zero] at completed₀ failed₀
  rw [harmless_iff]
  by_cases padded : Fits buf escaped k ∧ strdup buf ≠ cstr "=" <;>
    by_cases plain : Fits buf escaped 0 ∧ strdup buf ≠ cstr "="
  · obtain ⟨value, read⟩ := completed padded
    obtain ⟨value₀, read₀⟩ := completed₀ plain
    exact ⟨fun _ => ⟨value.trans value₀.symm, read.trans read₀.symm⟩,
      fun _ => iff_of_true padded plain⟩
  · obtain ⟨value, -⟩ := completed padded
    obtain ⟨value₀, -⟩ := failed₀ plain
    refine ⟨fun same => absurd (same.mp padded) plain, fun same => ?_⟩
    rw [value, value₀] at same
    cases same
  · obtain ⟨value, -⟩ := failed padded
    obtain ⟨value₀, -⟩ := completed₀ plain
    refine ⟨fun same => absurd (same.mpr plain) padded, fun same => ?_⟩
    rw [value, value₀] at same
    cases same
  · obtain ⟨value, read⟩ := failed padded
    obtain ⟨value₀, read₀⟩ := failed₀ plain
    exact ⟨fun _ => ⟨value.trans value₀.symm, read.trans read₀.symm⟩,
      fun _ => iff_of_false padded plain⟩

/-- Every token the text ends in is indifferent to the padding. -/
def Indifferent (k : Nat) (s₀ : Scanner) : Prop :=
  ∀ s position q buf escaped, Called s₀ s → Asks s position q → Unfinished q buf escaped →
    Harmless k buf escaped

theorem Indifferent.after (read : cfgNext s = (.ok (some entry), s'))
    (indifferent : Indifferent k s) : Indifferent k s' :=
  fun x position q buf escaped called asked open_ =>
    indifferent x position q buf escaped (called.after read) asked open_

/-- Behind a call that settles the text no token is unfinished. -/
theorem indifferent_spent (k : Nat) (spent : Spent s) : Indifferent k s :=
  fun _ _ _ buf escaped called asked open_ =>
    absurd open_ ((spent_keep.asks asked (spent_keep.called called spent)).finished buf escaped)

/-- The next call meets no unfinished token. -/
def Quiet (s : Scanner) : Prop :=
  ∀ position q, Asks s position q → ∀ buf escaped, ¬ Unfinished q buf escaped

theorem Quiet.last (quiet : Quiet s) (final : ∀ entry, (cfgNext s).1 ≠ .ok (some entry)) :
    Indifferent k s := by
  intro x position q buf escaped called asked open_
  rcases called_cases called with rfl | ⟨entry, s₁, read, rest⟩
  · exact absurd open_ (quiet position q asked buf escaped)
  · exact absurd (by rw [read]) (final entry)

theorem Quiet.next (quiet : Quiet s) (read : cfgNext s = (.ok (some entry), s'))
    (later : Indifferent k s') : Indifferent k s := by
  intro x position q buf escaped called asked open_
  rcases called_cases called with rfl | ⟨entry', s₁, head, rest⟩
  · exact absurd open_ (quiet position q asked buf escaped)
  · rw [read] at head
    cases head
    exact later x position q buf escaped rest asked open_

/-- Two calls with the same answer and nothing left to read. -/
theorem unchanged_settled (ready : Ready s) (same : (cfgNext (s.pad k)).1 = (cfgNext s).1)
    (settled : Settles (cfgNext s)) (padded : Settles (cfgNext (s.pad k))) : Unchanged k s := by
  have after := (cfgNext_ready ready).1
  have after' := (cfgNext_ready (pad_ready ready k)).1
  unfold Unchanged
  rcases read : cfgNext s with ⟨r, s₁⟩
  rcases read' : cfgNext (s.pad k) with ⟨r', s₂⟩
  rw [read, read'] at same
  rw [read] at settled after
  rw [read'] at padded after'
  obtain rfl : r' = r := same
  rcases r' with e | _ | entry
  · rw [scan_of_error read, scan_of_error read']
    exact ⟨rfl, rfl⟩
  · rw [scan_of_none read, scan_of_none read']
    exact ⟨rfl, rfl⟩
  · obtain ⟨value, entries⟩ := scan_over after settled.1
    obtain ⟨value', entries'⟩ := scan_over after' padded.1
    rw [settled.2] at entries
    rw [padded.2] at entries'
    rw [scan_of_some read, scan_of_some read', value, value', entries, entries']
    exact ⟨rfl, rfl⟩

/-- The padding is not noticed exactly when every token the text ends in is
indifferent to it. -/
theorem unchanged_iff (ready : Ready s) (k : Nat) :
    (Indifferent k s → Unchanged k s) ∧ ((scan (s.pad k)).1 = (scan s).1 → Indifferent k s) := by
  by_cases quiet : Quiet s
  · have last (final : ∀ entry, (cfgNext s).1 ≠ .ok (some entry)) (unchanged : Unchanged k s) :
        (Indifferent k s → Unchanged k s) ∧
          ((scan (s.pad k)).1 = (scan s).1 → Indifferent k s) :=
      ⟨fun _ => unchanged, fun _ => quiet.last final⟩
    rcases cfgNext_pad ready.1 quiet k with
      (same | ⟨⟨e, failed⟩, e', padded⟩) | ⟨same, settled, padded⟩
    · rcases read : cfgNext s with ⟨e | _ | entry, s₁⟩
      all_goals rw [read] at same
      · refine last (by simp [read]) ?_
        rw [Unchanged, scan_of_error read, scan_of_error same]
        exact ⟨rfl, rfl⟩
      · refine last (by simp [read]) ?_
        rw [Unchanged, scan_of_none read, scan_of_none same]
        exact ⟨rfl, rfl⟩
      · have after := (cfgNext_ready ready).1
        rw [read] at after
        obtain ⟨forward, backward⟩ := unchanged_iff after k
        rw [Unchanged, scan_of_some read, scan_of_some same]
        refine ⟨fun indifferent => ?_, fun value => quiet.next read (backward value)⟩
        obtain ⟨value, entries⟩ := forward (indifferent.after read)
        exact ⟨value, by rw [entries]⟩
    · refine last (by simp [failed]) ?_
      rw [Unchanged, scan_of_error (Prod.ext failed rfl), scan_of_error (Prod.ext padded rfl)]
      exact ⟨rfl, rfl⟩
    · refine ⟨fun _ => unchanged_settled ready same settled padded, fun _ => ?_⟩
      rcases read : cfgNext s with ⟨e | _ | entry, s₁⟩
      · exact quiet.last (by simp [read])
      · exact quiet.last (by simp [read])
      · rw [read] at settled
        exact quiet.next read (indifferent_spent k settled.1)
  · simp only [Quiet, not_forall, not_not] at quiet
    obtain ⟨position, q, asked, buf, escaped, open_⟩ := quiet
    constructor
    · intro indifferent
      exact (unchanged_unfinished ready asked open_ k).1
        (indifferent s position q buf escaped .start asked open_)
    · intro same x position' q' buf' escaped' called asked' open'
      rcases called_cases called with rfl | ⟨entry, s₁, read, rest⟩
      · exact (unchanged_unfinished ready asked' open' k).2 same
      · obtain ⟨entry', held, outcome⟩ := cfgNext_unfinished ready.1 asked open_
        obtain ⟨completed, failed⟩ := outcome 0
        rw [pad_zero, read] at completed failed
        by_cases good : Fits buf escaped 0 ∧ strdup buf ≠ cstr "="
        · obtain ⟨s', settled, spent, -⟩ := completed good
          cases settled
          exact indifferent_spent k spent x position' q' buf' escaped' rest asked' open'
        · obtain ⟨e, error⟩ := failed good
          cases error
termination_by s.size
decreasing_by
  have shorter := cfgNext_size_lt (s := s) (show (cfgNext s).1 = .ok (some entry) by rw [read])
  rwa [read] at shorter

/-- NUL bytes behind a text change neither the value of its parse nor any answer
exactly when every unquoted token the text ends in is indifferent to them. -/
theorem padding_iff (matchArch : CStr → Bool) (text : List UInt8) (k : Nat) :
    SameAnswers (cfgParse matchArch (text ++ List.replicate k 0) fresh)
        (cfgParse matchArch text fresh) ↔
      ∀ s position q buf escaped, Called (startFrom 0 text) s → Asks s position q →
        Unfinished q buf escaped → Harmless k buf escaped := by
  have padded : startFrom 0 (text ++ List.replicate k 0) = (startFrom 0 text).pad k := rfl
  obtain ⟨forward, backward⟩ := unchanged_iff (startFrom_ready 0 text) k
  rw [cfgParse_fresh, cfgParse_fresh, parseLoop_scan, parseLoop_scan, padded]
  constructor
  · intro same
    exact backward same.1
  · intro indifferent
    obtain ⟨value, entries⟩ := forward indifferent
    rw [value, entries]
    exact ⟨rfl, fun _ _ _ => ⟨rfl, rfl, rfl⟩⟩

/-- A backslash at the end of the text is an error alone and accepted in front
of one NUL. -/
theorem dangling_escape_completed : 0 ∉ cstr "root=x\\" ∧
    ¬ SameAnswers (cfgParse (fun _ => true) (cstr "root=x\\" ++ List.replicate 1 0) fresh)
      (cfgParse (fun _ => true) (cstr "root=x\\") fresh) :=
  ⟨by decide, fun same => absurd same.1 (by decide +kernel)⟩

end Yaboot.Cfg
