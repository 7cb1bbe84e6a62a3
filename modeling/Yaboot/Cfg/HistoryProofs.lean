import Yaboot.Cfg.Table

/-! What one parse leaves behind for the next. `cfg_reset` restores the tables
but not the scanner, so the only memory between two configuration files is the
pushed-back character; the exits that leave one there are characterised
exactly. -/
namespace Yaboot.Cfg
open CString

/-! ### Line numbers are never read back -/

def Scanner.shift (k : Nat) (s : Scanner) : Scanner := { s with lineNum := s.lineNum + k }

theorem next_shift (k : Nat) (s : Scanner) :
    next (s.shift k) = ((next s).1, (next s).2.shift k) := by
  unfold next getc Scanner.shift
  by_cases pushed : s.back = 0
  · cases left : s.currp <;> simp [pushed, left]
  · simp [pushed]

theorem bumpLine_shift (k : Nat) (s : Scanner) : bumpLine (s.shift k) = (bumpLine s).shift k := by
  simp only [bumpLine, Scanner.shift, Scanner.mk.injEq, true_and]
  omega

theorem countLine_shift (k : Nat) (ch : Int) (s : Scanner) :
    countLine ch (s.shift k) = (countLine ch s).shift k := by
  unfold countLine
  split
  · exact bumpLine_shift k s
  · rfl

theorem again_shift (k : Nat) (ch : Int) (s : Scanner) :
    again ch (s.shift k) = (again ch s).shift k := rfl

theorem skipBlanks_shift (k : Nat) (s : Scanner) :
    skipBlanks (s.shift k) = ((skipBlanks s).1, (skipBlanks s).2.shift k) := by
  fun_induction skipBlanks s with
  | case1 s blank ih =>
    rw [skipBlanks]
    simpa only [next_shift, blank, ↓reduceIte, countLine_shift] using ih
  | case2 s done =>
    rw [skipBlanks]
    simp only [next_shift, done, Bool.false_eq_true, ↓reduceIte]

theorem skipComment_shift (k : Nat) (s : Scanner) :
    skipComment (s.shift k) = ((skipComment s).1, (skipComment s).2.shift k) := by
  fun_induction skipComment s with
  | case1 s line =>
    rw [skipComment]
    simp only [next_shift, line, ↓reduceIte]
  | case2 s line ended =>
    rw [skipComment]
    simp only [next_shift, if_neg line, if_pos ended]
  | case3 s line more ih =>
    rw [skipComment]
    simpa only [next_shift, line, more, Bool.false_eq_true, ↓reduceIte] using ih

theorem skipToToken_shift (k : Nat) (s : Scanner) :
    skipToToken (s.shift k) = ((skipToToken s).1, (skipToToken s).2.shift k) := by
  fun_induction skipToToken s with
  | case1 s ended =>
    rw [skipToToken]
    simp only [skipBlanks_shift, ended, ↓reduceIte]
  | case2 s more token =>
    rw [skipToToken]
    simp only [skipBlanks_shift, more, ↓reduceIte, if_pos token]
  | case3 s more comment ended =>
    rw [skipToToken]
    simp only [skipBlanks_shift, more, ↓reduceIte, if_neg comment, skipComment_shift, ended]
  | case4 s more comment line ih =>
    rw [skipToToken]
    simpa only [skipBlanks_shift, more, ↓reduceIte, if_neg comment, skipComment_shift, line,
      bumpLine_shift] using ih

theorem skipIndent_shift (k : Nat) (s : Scanner) :
    skipIndent (s.shift k) = ((skipIndent s).1, (skipIndent s).2.shift k) := by
  fun_induction skipIndent s with
  | case1 s indent ih =>
    rw [skipIndent]
    simpa only [next_shift, indent, ↓reduceIte] using ih
  | case2 s done =>
    rw [skipIndent]
    simp only [next_shift, done, ↓reduceIte]

/-- A quoted token is read alike whatever the number of the line. -/
theorem quoted_shift (k : Nat) (buf : List UInt8) (s : Scanner) :
    quoted buf (s.shift k) = ((quoted buf s).1, (quoted buf s).2.shift k) := by
  fun_induction quoted buf s with
  | case1 buf s room ended =>
    rw [quoted]
    simp only [next_shift, if_pos room, if_pos ended]
  | case2 buf s room more quote =>
    rw [quoted]
    simp only [next_shift, if_pos room, if_neg more, if_pos quote]
  | case3 buf s room more quote slash escaped ih =>
    rw [quoted]
    simpa only [next_shift, if_pos room, if_neg more, if_neg quote, if_pos slash,
      if_pos escaped] using ih
  | case4 buf s room more quote slash escaped newline zero ih =>
    rw [quoted]
    simpa only [next_shift, if_pos room, if_neg more, if_neg quote, if_pos slash, if_neg escaped,
      if_pos newline, skipIndent_shift, if_pos zero] using ih
  | case5 buf s room more quote slash escaped newline zero ih =>
    rw [quoted]
    simpa only [next_shift, if_pos room, if_neg more, if_neg quote, if_pos slash, if_neg escaped,
      if_pos newline, skipIndent_shift, if_neg zero, again_shift] using ih
  | case6 buf s room more quote slash escaped newline letter ih =>
    rw [quoted]
    simpa only [next_shift, if_pos room, if_neg more, if_neg quote, if_pos slash, if_neg escaped,
      if_neg newline, if_pos letter] using ih
  | case7 buf s room more quote slash escaped newline letter =>
    rw [quoted]
    simp only [next_shift, if_pos room, if_neg more, if_neg quote, if_pos slash, if_neg escaped,
      if_neg newline, if_neg letter]
  | case8 buf s room more quote slash newline =>
    rw [quoted]
    simp only [next_shift, if_pos room, if_neg more, if_neg quote, if_neg slash, if_pos newline]
  | case9 buf s room more quote slash newline ih =>
    rw [quoted]
    simpa only [next_shift, if_pos room, if_neg more, if_neg quote, if_neg slash,
      if_neg newline] using ih
  | case10 buf s room =>
    rw [quoted]
    simp only [if_neg room]

/-- So is a token without quotes. -/
theorem unquoted_shift (k : Nat) (buf : List UInt8) (escaped : Bool) (ch : Int) (s : Scanner) :
    unquoted buf escaped ch (s.shift k) =
      ((unquoted buf escaped ch s).1, (unquoted buf escaped ch s).2.shift k) := by
  fun_induction unquoted buf escaped ch s with
  | case1 buf s room =>
    rw [unquoted]
    simp only [room, ↓reduceIte]
  | case2 buf s room more ih =>
    rw [unquoted]
    simpa only [room, more, ↓reduceIte, bumpLine_shift, next_shift] using ih
  | case3 buf ch s room more line ih =>
    rw [unquoted]
    simpa only [room, more, line, ↓reduceIte, next_shift] using ih
  | case4 buf escaped ch s room plain ends =>
    rw [unquoted]
    simp only [room, plain, ends, Bool.false_eq_true, ↓reduceIte, again_shift]
  | case5 buf escaped s room plain more ih =>
    rw [unquoted]
    simpa only [room, plain, more, Bool.false_eq_true, ↓reduceIte, next_shift] using ih
  | case6 buf escaped ch s room plain more slash ih =>
    rw [unquoted]
    simpa only [room, plain, more, slash, Bool.false_eq_true, ↓reduceIte, next_shift] using ih
  | case7 buf escaped ch s room =>
    rw [unquoted]
    simp only [room, ↓reduceIte]

theorem cfgGetToken_shift (k : Nat) (s : Scanner) :
    cfgGetToken (s.shift k) = ((cfgGetToken s).1, (cfgGetToken s).2.shift k) := by
  have same : (s.shift k).lastToken = s.lastToken := rfl
  unfold cfgGetToken
  rw [same, skipToToken_shift]
  cases s.lastToken with
  | some here => rfl
  | none =>
    rcases skipToToken s with ⟨_ | ch, s'⟩
    · rfl
    · simp only [quoted_shift, unquoted_shift]
      split_ifs <;> rfl

/-- So is a whole assignment: line numbers go into warnings only. -/
theorem cfgNext_shift (k : Nat) (s : Scanner) :
    cfgNext (s.shift k) = ((cfgNext s).1, (cfgNext s).2.shift k) := by
  have same : (s.shift k).lastItem = s.lastItem := rfl
  unfold cfgNext
  rw [same]
  cases s.lastItem with
  | some item => rfl
  | none =>
    simp only [cfgGetToken_shift]
    rcases cfgGetToken s with ⟨_ | _ | name, s₁⟩
    · rfl
    · rfl
    · dsimp only
      split
      · rfl
      · simp only [cfgGetToken_shift]
        rcases cfgGetToken s₁ with ⟨_ | _ | this, s₂⟩
        · rfl
        · rfl
        · dsimp only
          split
          · rfl
          · simp only [cfgGetToken_shift]
            rcases cfgGetToken s₂ with ⟨_ | _ | value, s₃⟩
            · rfl
            · rfl
            · dsimp only
              split <;> rfl

/-! ### The scanner runs independently of the tables -/

/-- The assignments one parse reads, its return value, and the scanner it
leaves. -/
def scan (s : Scanner) : Int × List (CStr × Option CStr) × Scanner :=
  match read : cfgNext s with
  | (.error _, s') => (-1, [], s')
  | (.ok none, s') => (0, [], s')
  | (.ok (some entry), s') => ((scan s').1, entry :: (scan s').2.1, (scan s').2.2)
termination_by s.size
decreasing_by
  all_goals
    have found : (cfgNext s).1 = .ok (some entry) := by rw [read]
    have shorter := cfgNext_size_lt found
    rwa [read] at shorter

def assignAll (matchArch : CStr → Bool) (entries : List (CStr × Option CStr)) (t : Tables) :
    Tables :=
  entries.foldl (fun t entry => (cfgSet matchArch entry.1 entry.2 t).2) t

theorem scan_of_error (read : cfgNext s = (.error e, s')) : scan s = (-1, [], s') := by
  rw [scan]
  split <;> simp_all

theorem scan_of_none (read : cfgNext s = (.ok none, s')) : scan s = (0, [], s') := by
  rw [scan]
  split <;> simp_all

theorem scan_of_some (read : cfgNext s = (.ok (some entry), s')) :
    scan s = ((scan s').1, entry :: (scan s').2.1, (scan s').2.2) := by
  rw [scan]
  split
  · simp_all
  · simp_all
  · rename_i other _ same
    rw [read] at same
    simp only [Prod.mk.injEq, Except.ok.injEq, Option.some.injEq] at same
    obtain ⟨rfl, rfl⟩ := same
    rfl

theorem parseLoop_scan (matchArch : CStr → Bool) (s : Scanner) (t : Tables) :
    parseLoop matchArch s t =
      ((scan s).1, ⟨(scan s).2.2, assignAll matchArch (scan s).2.1 t⟩) := by
  fun_induction parseLoop matchArch s t with
  | case1 s t e s' read => simp [scan_of_error read, assignAll]
  | case2 s t s' read => simp [scan_of_none read, assignAll]
  | case3 s t item value s' read ih => simpa [scan_of_some read, assignAll] using ih

theorem scan_shift (k : Nat) (s : Scanner) :
    (scan (s.shift k)).1 = (scan s).1 ∧ (scan (s.shift k)).2.1 = (scan s).2.1 := by
  fun_induction scan s with
  | case1 s e s' read =>
    have moved := cfgNext_shift k s
    rw [read] at moved
    simp [scan_of_error moved]
  | case2 s s' read =>
    have moved := cfgNext_shift k s
    rw [read] at moved
    simp [scan_of_none moved]
  | case3 s entry s' read ih =>
    have moved := cfgNext_shift k s
    rw [read] at moved
    simpa [scan_of_some moved] using ih

/-! ### A pushed-back blank is invisible -/

theorem skipBlanks_again (blank : isBlank ch = true) (clear : s.back = 0) :
    skipBlanks (again ch s) = skipBlanks (countLine ch s) := by
  have pushed : ch ≠ 0 := by
    rintro rfl
    revert blank
    decide
  have popped : next (again ch s) = (ch, s) := by
    simp only [next, again, pushed, ↓reduceIte]
    rw [← clear]
  rw [skipBlanks, popped]
  simp only [blank, ↓reduceIte]

theorem countLine_eq_shift (ch : Int) (s : Scanner) : ∃ k, countLine ch s = s.shift k := by
  unfold countLine
  split
  · exact ⟨1, rfl⟩
  · exact ⟨0, rfl⟩

theorem cfgGetToken_again (blank : isBlank ch = true) (clear : s.back = 0)
    (held : s.lastToken = none) : ∃ k, cfgGetToken (again ch s) = cfgGetToken (s.shift k) := by
  obtain ⟨k, lines⟩ := countLine_eq_shift ch s
  have skipped : skipToToken (again ch s) = skipToToken (s.shift k) := by
    rw [skipToToken, skipBlanks_again blank clear, lines, ← skipToToken]
  have none₁ : (again ch s).lastToken = none := held
  have none₂ : (s.shift k).lastToken = none := held
  exact ⟨k, by simp only [cfgGetToken, none₁, none₂, skipped]⟩

theorem scan_again (blank : isBlank ch = true) (clear : s.back = 0)
    (held : s.lastToken = none) (item : s.lastItem = none) :
    (scan (again ch s)).1 = (scan s).1 ∧ (scan (again ch s)).2.1 = (scan s).2.1 := by
  obtain ⟨k, read⟩ := cfgGetToken_again blank clear held
  have none₁ : (again ch s).lastItem = none := item
  have none₂ : (s.shift k).lastItem = none := item
  have same : cfgNext (again ch s) = cfgNext (s.shift k) := by
    simp only [cfgNext, none₁, none₂, read]
  have unfolded : scan (again ch s) = scan (s.shift k) := by
    rcases outcome : cfgNext (s.shift k) with ⟨_ | _ | entry, s'⟩
    · rw [scan_of_error outcome, scan_of_error (same.trans outcome)]
    · rw [scan_of_none outcome, scan_of_none (same.trans outcome)]
    · rw [scan_of_some outcome, scan_of_some (same.trans outcome)]
  rw [unfolded]
  exact scan_shift k s

/-! ### Where a character stays pushed back -/

theorem next_back (s : Scanner) : (next s).2.back = 0 := by
  unfold next getc
  split
  · split <;> assumption
  · rfl

theorem skipBlanks_back (s : Scanner) : (skipBlanks s).2.back = 0 := by
  fun_induction skipBlanks s with
  | case1 s blank ih => exact ih
  | case2 s done => exact next_back s

theorem skipComment_back (s : Scanner) : (skipComment s).2.back = 0 := by
  fun_induction skipComment s with
  | case1 s => exact next_back s
  | case2 s => exact next_back s
  | case3 s line more ih => exact ih

theorem skipToToken_back (s : Scanner) : (skipToToken s).2.back = 0 := by
  fun_induction skipToToken s with
  | case1 s => exact skipBlanks_back s
  | case2 s => exact skipBlanks_back s
  | case3 s => exact skipComment_back _
  | case4 s more comment line ih => exact ih

/-- Only running out of room in the middle of a continuation leaves the quoted
scanner with a character pushed back. -/
theorem quoted_back (fits : (quoted buf s).1 ≠ .error .quotedStringTooLong) :
    (quoted buf s).2.back = 0 := by
  fun_induction quoted buf s with
  | case1 buf s => exact next_back s
  | case2 buf s => exact next_back s
  | case3 buf s room more quote slash escaped ih => exact ih fits
  | case4 buf s room more quote slash escaped newline zero ih => exact ih fits
  | case5 buf s room more quote slash escaped newline zero ih => exact ih fits
  | case6 buf s room more quote slash escaped newline letter ih => exact ih fits
  | case7 buf s => exact next_back _
  | case8 buf s => exact next_back s
  | case9 buf s room more quote slash newline ih => exact ih fits
  | case10 buf s room => exact absurd rfl fits

theorem unquoted_back (clear : s.back = 0) (failed : (unquoted buf escaped ch s).1 = .error e) :
    (unquoted buf escaped ch s).2.back = 0 ∧ e ≠ .quotedStringTooLong := by
  fun_induction unquoted buf escaped ch s with
  | case1 buf s room =>
    cases failed
    exact ⟨clear, by simp⟩
  | case2 buf s room more ih => exact ih (next_back _) failed
  | case3 buf ch s room more line ih => exact ih (next_back _) failed
  | case4 buf escaped ch s room plain ends => cases failed
  | case5 buf escaped s room plain more ih => exact ih (next_back _) failed
  | case6 buf escaped ch s room plain more slash ih => exact ih (next_back _) failed
  | case7 buf escaped ch s room =>
    cases failed
    exact ⟨clear, by simp⟩

/-- A failing token read leaves nothing pushed back, the overlong quoted string
excepted. -/
theorem cfgGetToken_back_of_error (failed : (cfgGetToken s).1 = .error e)
    (fits : e ≠ .quotedStringTooLong) : (cfgGetToken s).2.back = 0 := by
  unfold cfgGetToken at *
  cases held : s.lastToken with
  | some here => simp [held] at failed
  | none =>
    have start := skipToToken_back s
    rcases reached : skipToToken s with ⟨_ | ch, s'⟩
    · simp [held, reached] at failed
    · rw [reached] at start
      simp only [held, reached] at failed ⊢
      split_ifs at failed ⊢ with equals quote
      · apply quoted_back
        intro long
        simp only [long, Except.map, Except.error.injEq] at failed
        exact fits failed.symm
      · cases body : (unquoted [] false ch s').1 with
        | ok token => simp [body, Except.map] at failed
        | error e' => exact (unquoted_back start body).1

theorem cfgGetToken_back_of_none (ended : (cfgGetToken s).1 = .ok none) :
    (cfgGetToken s).2.back = 0 := by
  unfold cfgGetToken at *
  cases held : s.lastToken with
  | some here => simp [held] at ended
  | none =>
    have start := skipToToken_back s
    rcases reached : skipToToken s with ⟨_ | ch, s'⟩
    · rw [reached] at start
      exact start
    · simp only [held, reached] at ended
      split_ifs at ended with equals quote
      · simp at ended
      · cases body : (quoted [] s').1 <;> simp [body, Except.map] at ended
      · cases body : (unquoted [] false ch s').1 <;> simp [body, Except.map] at ended

/-- The three tokens `cfg_next` asks for. -/
inductive Position where
  | name
  | sign
  | value
  deriving DecidableEq

/-- States in which one call of `cfg_next` from `s` asks for a token. -/
inductive Asks (s : Scanner) : Position → Scanner → Prop where
  | name : Asks s .name s
  | sign (read : cfgGetToken s = (.ok (some item), s₁)) (named : item ≠ cstr "=") :
      Asks s .sign s₁
  | value (read : cfgGetToken s = (.ok (some item), s₁)) (named : item ≠ cstr "=")
      (assigns : cfgGetToken s₁ = (.ok (some (cstr "=")), s₂)) : Asks s .value s₂

/-- States in which a parse started at `s₀` calls `cfg_next`. -/
inductive Called (s₀ : Scanner) : Scanner → Prop where
  | start : Called s₀ s₀
  | more (before : Called s₀ s) (read : cfgNext s = (.ok (some entry), s')) : Called s₀ s'

/-- A pushed-back character the next scan would not skip as a blank. -/
def Visible (ch : Int) : Prop := ch ≠ 0 ∧ isBlank ch = false

/-- Reading the token that starts here ends the parse with a visible character
pushed back: a quoted string that runs out of room in a line continuation, or
an escaped `=` standing for a name or a value right before `#`, `=` or the end
of the file. -/
def Spoils (position : Position) (s : Scanner) : Prop :=
  Visible (cfgGetToken s).2.back ∧
    ((cfgGetToken s).1 = .error .quotedStringTooLong ∨
      (position ≠ .sign ∧ (cfgGetToken s).1 = .ok (some (cstr "="))))

/-- No token is pushed back but one that is not an equals sign. -/
def Ready (s : Scanner) : Prop :=
  s.lastItem = none ∧ s.lastValue = none ∧ s.lastToken ≠ some (cstr "=")

/-- One call of `cfg_next` ends the parse with a visible character pushed back
exactly when one of the tokens it asks for does so. -/
theorem cfgNext_spoiled_iff (ready : Ready s) :
    ((∀ entry, (cfgNext s).1 ≠ .ok (some entry)) ∧ Visible (cfgNext s).2.back) ↔
      ∃ position q, Asks s position q ∧ Spoils position q := by
  have failing {q : Scanner} {e : CfgError} {q' : Scanner} (failed : cfgGetToken q = (.error e, q'))
      (visible : Visible q'.back) : e = .quotedStringTooLong := by
    by_contra fits
    have clear := cfgGetToken_back_of_error (s := q) (e := e) (by rw [failed]) fits
    rw [failed] at clear
    exact visible.1 clear
  have ending {q q' : Scanner} (ended : cfgGetToken q = (.ok none, q')) : ¬ Visible q'.back := by
    have clear := cfgGetToken_back_of_none (s := q) (by rw [ended])
    rw [ended] at clear
    exact fun visible => visible.1 clear
  constructor
  · rintro ⟨final, visible⟩
    unfold cfgNext at final visible
    simp only [ready.1] at final visible
    rcases head : cfgGetToken s with ⟨e | _ | name, s₁⟩
    · rw [head] at visible
      exact ⟨.name, s, .name, by rw [head]; exact visible, .inl (by rw [head, failing head visible])⟩
    · rw [head] at visible
      exact absurd visible (ending head)
    · simp only [head] at final visible
      by_cases equals : name = cstr "="
      · simp only [equals, ↓reduceIte] at visible
        exact ⟨.name, s, .name, by rw [head]; exact visible,
          .inr ⟨by decide, by rw [head, equals]⟩⟩
      · simp only [equals, ↓reduceIte] at final visible
        rcases sign : cfgGetToken s₁ with ⟨e | _ | this, s₂⟩
        · rw [sign] at visible
          exact ⟨.sign, s₁, .sign head equals, by rw [sign]; exact visible,
            .inl (by rw [sign, failing sign visible])⟩
        · simp [sign] at final
        · simp only [sign] at final visible
          by_cases assigns : this = cstr "="
          · subst assigns
            simp only [ne_eq, not_true_eq_false, ↓reduceIte] at final visible
            rcases tail : cfgGetToken s₂ with ⟨e | _ | value, s₃⟩
            · rw [tail] at visible
              exact ⟨.value, s₂, .value head equals sign, by rw [tail]; exact visible,
                .inl (by rw [tail, failing tail visible])⟩
            · rw [tail] at visible
              exact absurd visible (ending tail)
            · simp only [tail] at final visible
              by_cases again : value = cstr "="
              · simp only [again, ↓reduceIte] at visible
                exact ⟨.value, s₂, .value head equals sign, by rw [tail]; exact visible,
                  .inr ⟨by decide, by rw [tail, again]⟩⟩
              · simp [again] at final
          · simp [assigns] at final
  · rintro ⟨position, q, asked, visible, long | ⟨other, equals⟩⟩
    · rcases read : cfgGetToken q with ⟨r, q'⟩
      rw [read] at visible long
      cases long
      cases asked with
      | name => simpa [cfgNext, ready.1, read] using visible
      | sign head named => simpa [cfgNext, ready.1, head, named, read] using visible
      | value head named assigns => simpa [cfgNext, ready.1, head, named, assigns, read] using visible
    · rcases read : cfgGetToken q with ⟨r, q'⟩
      rw [read] at visible equals
      cases equals
      cases asked with
      | name => simpa [cfgNext, ready.1, read] using visible
      | sign head named => exact absurd rfl other
      | value head named assigns => simpa [cfgNext, ready.1, head, named, assigns, read] using visible

/-- After an assignment the scanner can be called again, and after anything else it holds no token
back. -/
theorem cfgNext_ready (ready : Ready s) :
    Ready (cfgNext s).2 ∧
      ((∀ entry, (cfgNext s).1 ≠ .ok (some entry)) → (cfgNext s).2.lastToken = none) := by
  have chain {a b : Scanner} {r : Except CfgError (Option CStr)} (read : cfgGetToken a = (r, b))
      (item : a.lastItem = none) (value : a.lastValue = none) :
      b.lastToken = none ∧ b.lastItem = none ∧ b.lastValue = none := by
    have frame := cfgGetToken_frame a
    rw [read] at frame
    exact ⟨frame.1, frame.2.1.trans item, frame.2.2.trans value⟩
  have done {b : Scanner} (clear : b.lastToken = none ∧ b.lastItem = none ∧ b.lastValue = none) :
      Ready b := ⟨clear.2.1, clear.2.2, by simp [clear.1]⟩
  unfold cfgNext
  simp only [ready.1]
  rcases head : cfgGetToken s with ⟨e | _ | name, s₁⟩
  all_goals have first := chain head ready.1 ready.2.1
  · exact ⟨done first, fun _ => first.1⟩
  · exact ⟨done first, fun _ => first.1⟩
  · dsimp only
    split_ifs with equals
    · exact ⟨done first, fun _ => first.1⟩
    · rcases sign : cfgGetToken s₁ with ⟨e | _ | this, s₂⟩
      all_goals have second := chain sign first.2.1 first.2.2
      · exact ⟨done second, fun _ => second.1⟩
      · exact ⟨done second, fun _ => second.1⟩
      · dsimp only
        split_ifs with assigns
        · exact ⟨⟨second.2.1, second.2.2, by simpa [cfgReturnToken] using assigns⟩,
            fun final => absurd rfl (final _)⟩
        · rcases tail : cfgGetToken s₂ with ⟨e | _ | value, s₃⟩
          all_goals have third := chain tail second.2.1 second.2.2
          · exact ⟨done third, fun _ => third.1⟩
          · exact ⟨done third, fun _ => third.1⟩
          · dsimp only
            split_ifs <;> exact ⟨done third, fun _ => third.1⟩

theorem called_cases (called : Called s₀ s) :
    s = s₀ ∨ ∃ entry s', cfgNext s₀ = (.ok (some entry), s') ∧ Called s' s := by
  induction called with
  | start => exact .inl rfl
  | @more s s' entry before read ih =>
    rcases ih with rfl | ⟨first, s₁, head, rest⟩
    · exact .inr ⟨entry, s', read, .start⟩
    · exact .inr ⟨first, s₁, head, .more rest read⟩

theorem Called.after (head : cfgNext s₀ = (.ok (some entry), s₁)) (rest : Called s₁ s) :
    Called s₀ s := by
  induction rest with
  | start => exact .more .start head
  | more before read ih => exact .more ih read

/-- The character a whole parse leaves pushed back is visible exactly when one
of the tokens it asked for spoiled the scanner. -/
theorem scan_spoiled_iff (ready : Ready s) :
    Visible (scan s).2.2.back ↔
      ∃ s' position q, Called s s' ∧ Asks s' position q ∧ Spoils position q := by
  have last {s s' : Scanner} (ready : Ready s) {r : Except CfgError (Option (CStr × Option CStr))}
      (read : cfgNext s = (r, s')) (final : ∀ entry, r ≠ .ok (some entry)) :
      Visible s'.back ↔ ∃ s' position q, Called s s' ∧ Asks s' position q ∧ Spoils position q := by
    have here := cfgNext_spoiled_iff ready
    rw [read] at here
    simp only [final, ne_eq, not_false_eq_true, implies_true, true_and] at here
    rw [here]
    constructor
    · rintro ⟨position, q, asked⟩
      exact ⟨s, position, q, .start, asked⟩
    · rintro ⟨x, position, q, called, asked⟩
      rcases called_cases called with rfl | ⟨entry, s₁, head, rest⟩
      · exact ⟨position, q, asked⟩
      · rw [read] at head
        cases head
        exact absurd rfl (final entry)
  fun_induction scan s with
  | case1 s e s' read => exact last ready read (by simp)
  | case2 s s' read => exact last ready read (by simp)
  | case3 s entry s' read ih =>
    have after := (cfgNext_ready ready).1
    rw [read] at after
    have quiet : ¬ ∃ position q, Asks s position q ∧ Spoils position q := by
      rw [← cfgNext_spoiled_iff ready, read]
      exact fun spoiled => spoiled.1 entry rfl
    refine (ih after).trans ⟨?_, ?_⟩
    · rintro ⟨x, position, q, called, asked⟩
      exact ⟨x, position, q, called.after read, asked⟩
    · rintro ⟨x, position, q, called, asked⟩
      rcases called_cases called with rfl | ⟨other, s₁, head, rest⟩
      · exact absurd ⟨position, q, asked⟩ quiet
      · rw [read] at head
        cases head
        exact ⟨x, position, q, rest, asked⟩

theorem scan_final (ready : Ready s) :
    (scan s).2.2.lastToken = none ∧ (scan s).2.2.lastItem = none ∧ (scan s).2.2.lastValue = none := by
  have last {s s' : Scanner} (ready : Ready s) {r : Except CfgError (Option (CStr × Option CStr))}
      (read : cfgNext s = (r, s')) (final : ∀ entry, r ≠ .ok (some entry)) :
      s'.lastToken = none ∧ s'.lastItem = none ∧ s'.lastValue = none := by
    have after := cfgNext_ready ready
    rw [read] at after
    exact ⟨after.2 final, after.1.1, after.1.2.1⟩
  fun_induction scan s with
  | case1 s e s' read => exact last ready read (by simp)
  | case2 s s' read => exact last ready read (by simp)
  | case3 s entry s' read ih =>
    have after := (cfgNext_ready ready).1
    rw [read] at after
    exact ih after

/-! ### The tables start over with every parse -/

def clearRow (walk : Config) : Config := { walk with data := none }

theorem storeRow_clear (item : CStr) (value : Option CStr) (table : List Config) :
    (storeRow item value table).map clearRow = table.map clearRow := by
  induction table with
  | nil => rfl
  | cons walk rest ih =>
    unfold storeRow
    split_ifs
    · rfl
    · rfl
    · simpa using ih

theorem checkForObsolete_options (label : CStr) (t : Tables) :
    (checkForObsolete label t).options = t.options := by
  unfold checkForObsolete
  split <;> rfl

/-- An assignment changes the values of the global options, never their names and types. -/
theorem cfgSetRedo_clear (item : CStr) (value : Option CStr) (t : Tables) :
    (cfgSetRedo item value t).2.options.map clearRow = t.options.map clearRow := by
  have stored (t : Tables) : (t.setCurrTable (storeRow item value t.currTable)).options.map clearRow =
      t.options.map clearRow := by
    unfold Tables.setCurrTable Tables.currTable
    cases t.curr with
    | none => exact storeRow_clear item value t.options
    | some i => rfl
  unfold cfgSetRedo
  split
  · rfl
  · cases value with
    | none => exact stored t
    | some label =>
      dsimp only
      rw [stored]
      split
      · rw [checkForObsolete_options]
      · rfl

theorem cfgSet_clear (matchArch : CStr → Bool) (item : CStr) (value : Option CStr) (t : Tables) :
    (cfgSet matchArch item value t).2.options.map clearRow = t.options.map clearRow := by
  unfold cfgSet
  split_ifs <;> exact cfgSetRedo_clear ..

theorem assignAll_clear (matchArch : CStr → Bool) (entries : List (CStr × Option CStr))
    (t : Tables) : (assignAll matchArch entries t).options.map clearRow = t.options.map clearRow := by
  unfold assignAll
  induction entries generalizing t with
  | nil => rfl
  | cons entry rest ih => rw [List.foldl_cons, ih, cfgSet_clear]

/-- The scanner a parse of `buff` starts from when `ch` is pushed back. -/
def startFrom (ch : Int) (buff : List UInt8) : Scanner := ⟨ch, buff, none, none, none, 0⟩

theorem startFrom_ready (ch : Int) (buff : List UInt8) : Ready (startFrom ch buff) :=
  ⟨rfl, rfl, by simp [startFrom]⟩

theorem cfgParse_fresh (matchArch : CStr → Bool) (buff : List UInt8) :
    cfgParse matchArch buff fresh = parseLoop matchArch (startFrom 0 buff) fresh.tables := rfl

/-- After a parse the next one differs from a fresh one only in the character
its scanner starts with. -/
theorem cfgParse_after (matchArch : CStr → Bool) (first buff : List UInt8) :
    cfgParse matchArch buff (cfgParse matchArch first fresh).2 =
      parseLoop matchArch (startFrom (scan (startFrom 0 first)).2.2.back buff) fresh.tables := by
  obtain ⟨token, item, value⟩ := scan_final (startFrom_ready 0 first)
  rw [cfgParse_fresh, parseLoop_scan]
  unfold cfgParse cfgReset
  dsimp only
  have cleared := assignAll_clear matchArch (scan (startFrom 0 first)).2.1 fresh.tables
  have restored : cfOptions.map clearRow = cfOptions := by decide
  unfold clearRow at cleared restored
  rw [cleared]
  unfold startFrom at *
  simp only [token, item, value, fresh, restored]

/-! ### The theorem -/

/-- What the rest of the loader can observe of a parse. -/
def SameAnswers (r r' : Int × CfgState) : Prop :=
  r.1 = r'.1 ∧ ∀ low image item,
    cfgGetStrg low r.2.tables image item = cfgGetStrg low r'.2.tables image item ∧
    cfgGetFlag low r.2.tables image item = cfgGetFlag low r'.2.tables image item ∧
    cfgGetDefault low r.2.tables = cfgGetDefault low r'.2.tables

theorem sameAnswers_of_invisible (matchArch : CStr → Bool) (buff : List UInt8)
    (hidden : ¬ Visible ch) :
    SameAnswers (parseLoop matchArch (startFrom ch buff) fresh.tables)
      (parseLoop matchArch (startFrom 0 buff) fresh.tables) := by
  have same : (scan (startFrom ch buff)).1 = (scan (startFrom 0 buff)).1 ∧
      (scan (startFrom ch buff)).2.1 = (scan (startFrom 0 buff)).2.1 := by
    by_cases zero : ch = 0
    · rw [zero]
      exact ⟨rfl, rfl⟩
    · have blank : isBlank ch = true := by
        simpa [Visible, zero] using hidden
      exact scan_again (s := startFrom 0 buff) blank rfl rfl rfl
  rw [parseLoop_scan, parseLoop_scan, same.1, same.2]
  exact ⟨rfl, fun _ _ _ => ⟨rfl, rfl, rfl⟩⟩

/-- Bytes an unquoted token stores as they are. -/
def Plain (b : UInt8) : Prop := endsToken (schar b) = false ∧ schar b ≠ chr '\\'

instance : DecidablePred Plain := fun b => by unfold Plain; infer_instance

/-- An unquoted token takes a run of plain bytes whole. -/
theorem unquoted_word (word : List UInt8) (plain : ∀ b ∈ word, Plain b)
    (clear : s.back = 0) (text : s.currp = word ++ rest) (room : buf.length + word.length < maxToken) :
    unquoted buf false (next s).1 (next s).2 =
      unquoted (buf ++ word) false (next { s with currp := rest }).1
        (next { s with currp := rest }).2 := by
  induction word generalizing buf s with
  | nil =>
    have same : { s with currp := rest } = s := by
      rw [show rest = s.currp by simpa using text.symm]
    rw [same, List.append_nil]
  | cons b word ih =>
    have head := plain b (by simp)
    have read : next s = (schar b, { s with currp := word ++ rest }) := by
      simp [next, getc, clear, text]
    rw [read, unquoted]
    simp only [List.length_cons] at room
    have fits : buf.length < maxToken := by omega
    simp only [fits, ↓reduceIte, Bool.false_eq_true, head.1, if_neg head.2, toChar_schar]
    have left : (buf ++ [b]).length + word.length < maxToken := by
      simp only [List.length_append, List.length_singleton]
      omega
    have tail := ih (s := { s with currp := word ++ rest })
      (fun c member => plain c (by simp [member])) clear rfl left
    simpa using tail

theorem skipToToken_pushed (pushed : ch ≠ 0) (token : isBlank ch = false) (more : ch ≠ eof)
    (hash : ch ≠ chr '#') (buff : List UInt8) :
    skipToToken (startFrom ch buff) = (some ch, startFrom 0 buff) := by
  have popped : next (startFrom ch buff) = (ch, startFrom 0 buff) := by
    simp [next, startFrom, pushed]
  have blanks : skipBlanks (startFrom ch buff) = (ch, startFrom 0 buff) := by
    rw [skipBlanks, popped]
    simp [token]
  rw [skipToToken, blanks]
  simp [more, pushed, hash]

/-- A character that starts an ordinary token is glued to the first name of the
next file. -/
theorem scan_glued (pushed : ch ≠ 0) (token : endsToken ch = false) (quote : ch ≠ chr '"')
    (slash : ch ≠ chr '\\') :
    (scan (startFrom ch (cstr "root=1"))).2.1 =
      [(strdup (toChar ch :: cstr "root"), some (cstr "1"))] := by
  obtain ⟨⟨⟨blank, hash⟩, equals⟩, more⟩ : ((isBlank ch = false ∧ ch ≠ chr '#') ∧ ch ≠ chr '=') ∧
      ch ≠ eof := by simpa [endsToken] using token
  have word : unquoted [] false ch (startFrom 0 (cstr "root=1")) =
      (.ok (strdup (toChar ch :: cstr "root")), startFrom (chr '=') (cstr "1")) := by
    rw [unquoted]
    simp only [List.length_nil, show 0 < maxToken by decide, Bool.false_eq_true, ↓reduceIte, token,
      if_neg slash, List.nil_append]
    have text : (startFrom 0 (cstr "root=1")).currp = cstr "root" ++ cstr "=1" := by decide
    rw [unquoted_word (cstr "root") (by decide +kernel) rfl text (by simp [cstr, maxToken]), unquoted]
    rfl
  have name : cfgGetToken (startFrom ch (cstr "root=1")) =
      (.ok (some (strdup (toChar ch :: cstr "root"))), startFrom (chr '=') (cstr "1")) := by
    have held : (startFrom ch (cstr "root=1")).lastToken = none := rfl
    simp only [cfgGetToken, held, skipToToken_pushed pushed blank more hash, if_neg equals,
      if_neg quote, word, Except.map]
  have named : strdup (toChar ch :: cstr "root") ≠ cstr "=" := by
    by_cases zero : toChar ch = 0 <;> simp [strdup, cstr, zero]
  have sign : cfgGetToken (startFrom (chr '=') (cstr "1")) =
      (.ok (some (cstr "=")), startFrom 0 (cstr "1")) := by decide +kernel
  have value : cfgGetToken (startFrom 0 (cstr "1")) =
      (.ok (some (cstr "1")), startFrom eof []) := by decide +kernel
  have read : cfgNext (startFrom ch (cstr "root=1")) =
      (.ok (some (strdup (toChar ch :: cstr "root"), some (cstr "1"))), startFrom eof []) := by
    have held : (startFrom ch (cstr "root=1")).lastItem = none := rfl
    simp only [cfgNext, held, name, if_neg named, sign, ne_eq, not_true_eq_false, ↓reduceIte, value,
      show cstr "1" ≠ cstr "=" by decide]
  have rest : (scan (startFrom eof [])).2.1 = [] := by decide +kernel
  rw [scan_of_some read, rest]

theorem strcasecmpEq_length (same : strcasecmpEq s t = true) : s.length = t.length := by
  have folded : s.map lower = t.map lower := by simpa [strcasecmpEq] using same
  simpa using congrArg List.length folded

/-- An item no global option has the length of changes nothing. -/
theorem cfgSet_unknown (matchArch : CStr → Bool) (value : Option CStr)
    (section' : (item.take 5).map lower ≠ cstr "image")
    (unknown : ∀ walk ∈ cfOptions, walk.name.length ≠ item.length) :
    (cfgSet matchArch item value fresh.tables).2 = fresh.tables := by
  have missing : cfOptions.find? (fun walk => strcasecmpEq walk.name item) = none :=
    List.find?_eq_none.mpr fun walk member same =>
      unknown walk member (strcasecmpEq_length same)
  rw [cfgSet, if_neg section']
  simp only [cfgSetRedo, Tables.currTable, fresh, missing]

theorem root_unset_of_glued (matchArch : CStr → Bool) (x : UInt8) :
    assignAll matchArch [(strdup (x :: cstr "root"), some (cstr "1"))] fresh.tables =
      fresh.tables := by
  have shape : strdup (x :: cstr "root") = [] ∨ strdup (x :: cstr "root") = x :: cstr "root" := by
    by_cases zero : x = 0 <;> simp [strdup, cstr, zero]
  simp only [assignAll, List.foldl_cons, List.foldl_nil]
  rcases shape with h | h
  · rw [h]
    exact cfgSet_unknown matchArch _ (by decide) (by decide)
  · rw [h]
    refine cfgSet_unknown matchArch _ ?_ ?_
    · simp [cstr, lower]
    · have lengths : ∀ walk ∈ cfOptions, walk.name.length ≠ 5 := by decide
      simpa [cstr] using lengths

theorem root_answers (matchArch : CStr → Bool) (low : CStr) :
    cfgGetStrg low (parseLoop matchArch (startFrom 0 (cstr "root=1")) fresh.tables).2.tables none
      (cstr "root") = some (cstr "1") := by
  have entries : (scan (startFrom 0 (cstr "root=1"))).2.1 = [(cstr "root", some (cstr "1"))] := by
    decide +kernel
  rw [parseLoop_scan, entries]
  rfl

/-- Every visible character changes the meaning of some later file. -/
theorem differs_of_visible (matchArch : CStr → Bool) (visible : Visible ch) :
    ∃ buff, ¬ SameAnswers (parseLoop matchArch (startFrom ch buff) fresh.tables)
      (parseLoop matchArch (startFrom 0 buff) fresh.tables) := by
  obtain ⟨pushed, blank⟩ := visible
  have unset {ch : Int} (tables : assignAll matchArch (scan (startFrom ch (cstr "root=1"))).2.1
      fresh.tables = fresh.tables) : ¬ SameAnswers
        (parseLoop matchArch (startFrom ch (cstr "root=1")) fresh.tables)
        (parseLoop matchArch (startFrom 0 (cstr "root=1")) fresh.tables) := by
    intro same
    have answer := (same.2 [] none (cstr "root")).1
    rw [root_answers, parseLoop_scan, tables] at answer
    exact absurd answer (show cfgGetStrg [] fresh.tables none (cstr "root") ≠ some (cstr "1") by decide)
  have empty {ch : Int} (entries : (scan (startFrom ch (cstr "root=1"))).2.1 = []) :
      assignAll matchArch (scan (startFrom ch (cstr "root=1"))).2.1 fresh.tables = fresh.tables := by
    rw [entries]
    rfl
  by_cases ended : ch = eof
  · exact ⟨cstr "root=1", unset (empty (by rw [ended]; decide +kernel))⟩
  by_cases hash : ch = chr '#'
  · exact ⟨cstr "root=1", unset (empty (by rw [hash]; decide +kernel))⟩
  by_cases equals : ch = chr '='
  · exact ⟨cstr "root=1", unset (empty (by rw [equals]; decide +kernel))⟩
  by_cases quote : ch = chr '"'
  · exact ⟨cstr "root=1", unset (empty (by rw [quote]; decide +kernel))⟩
  by_cases slash : ch = chr '\\'
  · refine ⟨cstr " root=1", fun same => ?_⟩
    have answer := (same.2 [] none (cstr "root")).1
    have glued : (scan (startFrom (chr '\\') (cstr " root=1"))).2.1 =
        [(cstr " root", some (cstr "1"))] := by decide +kernel
    have alone : (scan (startFrom 0 (cstr " root=1"))).2.1 = [(cstr "root", some (cstr "1"))] := by
      decide +kernel
    rw [parseLoop_scan, parseLoop_scan, slash, glued, alone] at answer
    simp only [assignAll, List.foldl_cons, List.foldl_nil] at answer
    rw [cfgSet_unknown matchArch _ (by decide) (by decide)] at answer
    cases answer
  · refine ⟨cstr "root=1", unset ?_⟩
    rw [scan_glued pushed (by simp [endsToken, blank, hash, equals, ended]) quote slash]
    exact root_unset_of_glued matchArch _

/-- A parse is forgotten by every later one exactly when none of the tokens it
asked for left a visible character pushed back. -/
theorem parse_forgotten_iff (matchArch : CStr → Bool) (first : List UInt8) :
    (∀ buff, SameAnswers (cfgParse matchArch buff (cfgParse matchArch first fresh).2)
        (cfgParse matchArch buff fresh)) ↔
      ∀ s position q, Called (startFrom 0 first) s → Asks s position q → ¬ Spoils position q := by
  have final := scan_spoiled_iff (startFrom_ready 0 first)
  simp only [cfgParse_after]
  simp only [cfgParse_fresh]
  constructor
  · intro same s position q called asked spoiled
    obtain ⟨buff, differs⟩ := differs_of_visible matchArch
      (final.mpr ⟨s, position, q, called, asked, spoiled⟩)
    exact differs (same buff)
  · intro quiet buff
    apply sameAnswers_of_invisible
    intro visible
    obtain ⟨s, position, q, called, asked, spoiled⟩ := final.mp visible
    exact quiet s position q called asked spoiled

/-- A file that consists of an escaped equals sign and a comment turns the first
line of the next file into a comment. -/
theorem comment_carried_over :
    ¬ SameAnswers (cfgParse (fun _ => false) (cstr "password=secret")
        (cfgParse (fun _ => false) (cstr "\\=# nothing here") fresh).2)
      (cfgParse (fun _ => false) (cstr "password=secret") fresh) := by
  intro same
  exact absurd (same.2 [] none (cstr "password")).1 (by decide +kernel)

end Yaboot.Cfg
