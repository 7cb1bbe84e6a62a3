import Yaboot.Cfg.HistoryProofs

/-! How far a successful parse has read. The end of the file is a value that a
byte of the file can have, so a parse may end in front of the rest; where it
does is told from the characters ahead of the calls of `cfg_next`. -/
namespace Yaboot.Cfg
open CString

/-! ### The characters ahead -/

/-- The characters `next` still delivers. -/
def Scanner.ahead (s : Scanner) : List Int :=
  (if s.back = 0 then [] else [s.back]) ++ s.currp.map schar

theorem next_nil (none : s.ahead = []) : (next s).1 = eof ∧ (next s).2.currp = [] := by
  unfold Scanner.ahead at none
  by_cases pushed : s.back = 0
  · have left : s.currp = [] := by simpa [pushed] using none
    simp [next, getc, pushed, left]
  · simp [pushed] at none

theorem next_cons (some_ : s.ahead = c :: rest) : (next s).1 = c ∧ (next s).2.ahead = rest := by
  unfold Scanner.ahead at *
  by_cases pushed : s.back = 0
  · cases left : s.currp with
    | nil => simp [pushed, left] at some_
    | cons b more => simpa [next, getc, pushed, left] using some_
  · simpa [next, pushed] using some_

theorem ahead_clear {s : Scanner} (clear : s.back = 0) : s.ahead = s.currp.map schar := by
  simp [Scanner.ahead, clear]

@[simp] theorem bumpLine_ahead (s : Scanner) : (bumpLine s).ahead = s.ahead := rfl

@[simp] theorem countLine_ahead (ch : Int) (s : Scanner) : (countLine ch s).ahead = s.ahead := by
  unfold countLine
  split <;> rfl

/-- Blanks and comments; the last comment may be open. -/
inductive Gap : List Int → Prop where
  | done : Gap []
  | blank (skipped : isBlank c = true) (rest : Gap gap) : Gap (c :: gap)
  | comment (body : ∀ c ∈ text, isNewline c = false ∧ c ≠ eof) (line : isNewline n = true)
      (rest : Gap gap) : Gap (chr '#' :: (text ++ n :: gap))
  | open_ (body : ∀ c ∈ text, isNewline c = false ∧ c ≠ eof) : Gap (chr '#' :: text)

/-- A comment is skipped up to the end of its line, or of the file. -/
theorem skipComment_stop (body : ∀ c ∈ text, isNewline c = false ∧ c ≠ eof)
    (stop : isNewline n = true ∨ n = eof) (ahead : s.ahead = text ++ n :: rest) :
    (skipComment s).1 = n ∧ (skipComment s).2.ahead = rest := by
  induction text generalizing s with
  | nil =>
    obtain ⟨first, later⟩ := next_cons ahead
    rw [skipComment, first]
    split
    · exact ⟨first, later⟩
    · rw [if_pos (stop.resolve_left ‹_›)]
      exact ⟨first, later⟩
  | cons c text ih =>
    obtain ⟨first, later⟩ := next_cons ahead
    obtain ⟨plain, more⟩ := body c (by simp)
    rw [skipComment, first, if_neg (by simp [plain]), if_neg more]
    exact ih (fun d member => body d (by simp [member])) later

/-- What `next` delivers is the first character ahead, or there is none. -/
theorem next_cases (s : Scanner) : s.ahead = [] ∧ (next s).1 = eof ∧ (next s).2.currp = [] ∨
    s.ahead = (next s).1 :: (next s).2.ahead := by
  cases ahead : s.ahead with
  | nil => exact .inl ⟨rfl, next_nil ahead⟩
  | cons c rest =>
    obtain ⟨first, later⟩ := next_cons ahead
    exact .inr (by rw [first, later])

/-- How a loop over characters ends: at the end of the text, or at a character. -/
def EndsAt (s : Scanner) (text : List Int) (r : Int × Scanner) : Prop :=
  s.ahead = text ∧ r.1 = eof ∧ r.2.currp = [] ∨ s.ahead = text ++ r.1 :: r.2.ahead

theorem EndsAt.cons (first : s.ahead = c :: s'.ahead) (rest : EndsAt s' text r) :
    EndsAt s (c :: text) r := by
  rcases rest with ⟨whole, ended⟩ | whole
  · exact .inl ⟨by rw [first, whole], ended⟩
  · exact .inr (by rw [first, whole, List.cons_append])

theorem skipComment_endsAt (s : Scanner) :
    ∃ text, (∀ c ∈ text, isNewline c = false ∧ c ≠ eof) ∧ EndsAt s text (skipComment s) ∧
      (isNewline (skipComment s).1 = true ∨ (skipComment s).1 = eof) := by
  fun_induction skipComment s with
  | case1 s line => exact ⟨[], by simp, next_cases s, .inl line⟩
  | case2 s line ended => exact ⟨[], by simp, next_cases s, .inr ended⟩
  | case3 s line more ih =>
    obtain ⟨text, body, ends, stop⟩ := ih
    rcases next_cases s with ⟨-, ended, -⟩ | first
    · exact absurd ended more
    · refine ⟨(next s).1 :: text, ?_, .cons first ends, stop⟩
      intro c member
      rcases List.mem_cons.mp member with rfl | inside
      · exact ⟨by simpa using line, more⟩
      · exact body c inside

theorem skipBlanks_endsAt (s : Scanner) :
    ∃ text, (∀ c ∈ text, isBlank c = true) ∧ EndsAt s text (skipBlanks s) := by
  fun_induction skipBlanks s with
  | case1 s blank ih =>
    obtain ⟨text, body, ends⟩ := ih
    rcases next_cases s with ⟨-, ended, -⟩ | first
    · exact absurd ended (blank_ne_eof blank)
    · refine ⟨(next s).1 :: text, ?_, .cons (by rw [countLine_ahead, first]) ends⟩
      intro c member
      rcases List.mem_cons.mp member with rfl | inside
      · exact blank
      · exact body c inside
  | case2 s done => exact ⟨[], by simp, next_cases s⟩

theorem skipBlanks_cons (skipped : isBlank c = true) (ahead : s.ahead = c :: rest) :
    ∃ s', skipBlanks s = skipBlanks s' ∧ s'.ahead = rest := by
  obtain ⟨first, later⟩ := next_cons ahead
  refine ⟨countLine (next s).1 (next s).2, ?_, ?_⟩
  · rw [skipBlanks, first, if_pos skipped]
  · rw [countLine_ahead, later]

theorem skipBlanks_stop (visible : isBlank c = false) (ahead : s.ahead = c :: rest) :
    (skipBlanks s).1 = c ∧ (skipBlanks s).2.ahead = rest := by
  obtain ⟨first, later⟩ := next_cons ahead
  rw [skipBlanks, first, if_neg (by simp [visible])]
  exact ⟨first, later⟩

/-- A gap in front of the value of the end of file is taken for the rest of the file. -/
theorem skipToToken_gap (gap : Gap g) (ahead : s.ahead = g ++ eof :: rest) :
    (skipToToken s).1 = none ∧ (skipToToken s).2.ahead = rest := by
  induction gap generalizing s with
  | done =>
    obtain ⟨first, later⟩ := skipBlanks_stop (by decide) ahead
    rw [skipToToken, if_pos (.inl first)]
    exact ⟨rfl, later⟩
  | blank skipped gap ih =>
    obtain ⟨s', same, later⟩ := skipBlanks_cons skipped ahead
    have here := ih later
    rw [skipToToken] at here ⊢
    rw [same]
    exact here
  | @comment text n g body line gap ih =>
    rw [List.cons_append, List.append_assoc, List.cons_append] at ahead
    obtain ⟨hash, after⟩ := skipBlanks_stop (by decide) ahead
    obtain ⟨newline, later⟩ := skipComment_stop body (.inl line) after
    have more : n ≠ eof := by
      rintro rfl
      exact absurd line (by decide)
    rw [skipToToken, hash, if_neg (by decide), if_neg (by simp), newline, if_neg more]
    exact ih later
  | @open_ text body =>
    rw [List.cons_append] at ahead
    obtain ⟨hash, after⟩ := skipBlanks_stop (by decide) ahead
    obtain ⟨ended, later⟩ := skipComment_stop body (.inr rfl) after
    rw [skipToToken, hash, if_neg (by decide), if_neg (by simp), if_pos ended]
    exact ⟨rfl, later⟩

theorem Gap.blanks (skipped : ∀ c ∈ text, isBlank c = true) (gap : Gap g) : Gap (text ++ g) := by
  induction text with
  | nil => exact gap
  | cons c text ih =>
    exact .blank (skipped c (by simp)) (ih fun d member => skipped d (by simp [member]))

/-- Where no token is found there is a gap, up to the end of the file or to its
value. -/
theorem skipToToken_none (nul : 0 ∉ s.ahead) (ended : (skipToToken s).1 = none) :
    ∃ g, Gap g ∧ (s.ahead = g ∧ (skipToToken s).2.currp = [] ∨
      s.ahead = g ++ eof :: (skipToToken s).2.ahead) := by
  fun_induction skipToToken s with
  | case1 s final =>
    obtain ⟨text, skipped, ⟨whole, -, empty⟩ | whole⟩ := skipBlanks_endsAt s
    · exact ⟨text, by simpa using Gap.done.blanks skipped, .inl ⟨whole, empty⟩⟩
    · rcases final with final | zero
      · rw [final] at whole
        exact ⟨text, by simpa using Gap.done.blanks skipped, .inr whole⟩
      · rw [whole, zero] at nul
        exact absurd (by simp) nul
  | case2 s more token => simp at ended
  | case3 s more comment final =>
    obtain ⟨text, skipped, ⟨-, stop, -⟩ | whole⟩ := skipBlanks_endsAt s
    · exact absurd (.inl stop) more
    obtain ⟨body, plain, ends, -⟩ := skipComment_endsAt (skipBlanks s).2
    have hash : (skipBlanks s).1 = chr '#' := by simpa using comment
    rw [hash] at whole
    refine ⟨text ++ chr '#' :: body, (Gap.open_ plain).blanks skipped, ?_⟩
    rcases ends with ⟨rest, -, empty⟩ | rest
    · exact .inl ⟨by rw [whole, rest], empty⟩
    · rw [final] at rest
      exact .inr (by rw [whole, rest, List.append_assoc, List.cons_append])
  | case4 s more comment line ih =>
    obtain ⟨text, skipped, ⟨-, stop, -⟩ | whole⟩ := skipBlanks_endsAt s
    · exact absurd (.inl stop) more
    obtain ⟨body, plain, ⟨-, stop, -⟩ | rest, newline⟩ := skipComment_endsAt (skipBlanks s).2
    · exact absurd stop line
    have hash : (skipBlanks s).1 = chr '#' := by simpa using comment
    rw [hash] at whole
    rw [whole, rest] at nul
    obtain ⟨g, gap, ends⟩ := ih (by simp at nul ⊢; exact nul.2.2.2.2) ended
    refine ⟨text ++ chr '#' :: (body ++ (skipComment (skipBlanks s).2).1 :: g),
      (Gap.comment plain (newline.resolve_right line) gap).blanks skipped, ?_⟩
    rw [bumpLine_ahead] at ends
    rcases ends with ⟨later, empty⟩ | later
    · exact .inl ⟨by rw [whole, rest, later], empty⟩
    · exact .inr (by rw [whole, rest, later]; simp)

/-! ### What a whole parse keeps -/

/-- What reading, returning and taking back tokens keeps, a parse keeps. -/
structure TokensKeep (P : Scanner → Prop) : Prop where
  read : P s → P (cfgGetToken s).2
  returned : P s → P (cfgReturnToken token s)
  taken : P s → P { s with lastItem := none }

namespace TokensKeep

theorem of_read (keep : TokensKeep P) {r : Except CfgError (Option CStr)}
    (token : cfgGetToken s = (r, s')) (holds : P s) : P s' := by
  simpa [token] using keep.read holds

/-- What every token keeps, a whole assignment keeps. -/
theorem cfgNext (keep : TokensKeep P) (holds : P s) : P (cfgNext s).2 := by
  unfold Cfg.cfgNext
  cases s.lastItem with
  | some item => exact keep.taken holds
  | none =>
    rcases head : cfgGetToken s with ⟨_ | _ | name, s₁⟩
    all_goals have first := keep.of_read head holds
    · exact first
    · exact first
    · dsimp only
      split
      · exact first
      · rcases sign : cfgGetToken s₁ with ⟨_ | _ | this, s₂⟩
        all_goals have second := keep.of_read sign first
        · exact second
        · exact second
        · dsimp only
          split
          · exact keep.returned second
          · rcases tail : cfgGetToken s₂ with ⟨_ | _ | value, s₃⟩
            all_goals have third := keep.of_read tail second
            · exact third
            · exact third
            · dsimp only
              split <;> exact third

theorem called (keep : TokensKeep P) (called : Called s₀ s) (holds : P s₀) : P s := by
  induction called with
  | start => exact holds
  | @more s s' entry before read ih => simpa [read] using keep.cfgNext ih

theorem asks (keep : TokensKeep P) (asked : Asks s position q) (holds : P s) : P q := by
  cases asked with
  | name => exact holds
  | sign head named => exact keep.of_read head holds
  | value head named assigns => exact keep.of_read assigns (keep.of_read head holds)

end TokensKeep

/-! ### The scanner only moves forward -/

/-- The second state has read further in the buffer of the first. -/
def Behind (s s' : Scanner) : Prop := s'.currp <:+ s.currp

theorem behind_kept (s₀ : Scanner) : Kept (Behind s₀) where
  next {s} behind := by
    have read : (next s).2.currp <:+ s.currp := by
      unfold next getc
      split
      · cases left : s.currp with
        | nil => simp [left]
        | cons b rest => exact List.suffix_cons b rest
      · exact List.suffix_rfl
    exact read.trans behind
  bumpLine behind := behind
  again behind := behind

/-- A token is read further on in the buffer, never behind where the scanner stands. -/
theorem behind_keep (s₀ : Scanner) : TokensKeep (Behind s₀) where
  read {s} behind := by
    unfold cfgGetToken
    cases held : s.lastToken with
    | some here => exact behind
    | none =>
      have start := (behind_kept s₀).skipToToken behind
      rcases reached : skipToToken s with ⟨_ | ch, s'⟩
      · rw [reached] at start
        exact start
      · rw [reached] at start
        dsimp only
        split_ifs
        · exact start
        · exact (behind_kept s₀).quoted start
        · exact (behind_kept s₀).unquoted start
  returned behind := behind
  taken behind := behind

theorem called_behind (called : Called s₀ s) : Behind s₀ s :=
  (behind_keep s₀).called called List.suffix_rfl

/-- A text without NUL bytes never delivers a zero character. -/
theorem called_nulFree (nul : 0 ∉ buff) (called : Called (startFrom ch buff) s) : 0 ∉ s.ahead := by
  have inside := called_behind called
  intro zero
  simp only [Scanner.ahead, List.mem_append, List.mem_map] at zero
  rcases zero with pushed | ⟨b, member, zero⟩
  · split at pushed
    · simp at pushed
    · rename_i held
      exact held (List.mem_singleton.mp pushed).symm
  · have clear : b = 0 := by
      have code := (schar_eq_iff (by decide : 0 < 128)).mp zero
      exact UInt8.toNat_inj.mp code
    rw [clear] at member
    exact nul (inside.subset member)

/-! ### The last call -/

theorem called_ready (ready : Ready s₀) (called : Called s₀ s) : Ready s := by
  induction called with
  | start => exact ready
  | @more s s' entry before read ih => simpa [read] using (cfgNext_ready ih).1

/-- A parse goes on from each of its calls as from the first. -/
theorem called_scan (called : Called s₀ s) :
    (scan s₀).1 = (scan s).1 ∧ (scan s₀).2.2 = (scan s).2.2 := by
  induction called with
  | start => exact ⟨rfl, rfl⟩
  | more before read ih =>
    rw [scan_of_some read] at ih
    exact ih

theorem cfgGetToken_none_iff :
    cfgGetToken s = (.ok none, s') ↔ s.lastToken = none ∧ skipToToken s = (none, s') := by
  unfold cfgGetToken
  cases held : s.lastToken with
  | some here => simp
  | none =>
    rcases reached : skipToToken s with ⟨_ | ch, after⟩
    · simp
    · simp only [true_and, Prod.mk.injEq, reduceCtorEq, false_and, iff_false]
      split_ifs with equals quote
      · simp
      · cases body : (quoted [] after).1 <;> simp [Except.map]
      · cases body : (unquoted [] false ch after).1 <;> simp [Except.map]

/-- `cfg_next` finds the end where no token is held back and none is left to read. -/
theorem cfgNext_none_iff (ready : Ready s) :
    cfgNext s = (.ok none, s') ↔ s.lastToken = none ∧ skipToToken s = (none, s') := by
  rw [← cfgGetToken_none_iff]
  unfold cfgNext
  simp only [ready.1]
  rcases head : cfgGetToken s with ⟨_ | _ | name, s₁⟩
  · simp
  · simp
  · simp only [Prod.mk.injEq, Except.ok.injEq, reduceCtorEq, false_and, iff_false]
    split_ifs
    · simp
    · rcases sign : cfgGetToken s₁ with ⟨_ | _ | this, s₂⟩
      · simp
      · simp
      · dsimp only
        split_ifs
        · simp
        · rcases tail : cfgGetToken s₂ with ⟨_ | _ | value, s₃⟩
          · simp
          · simp
          · dsimp only
            split_ifs <;> simp

/-- A scan that succeeds ends in a call that finds no token. -/
theorem scan_ends (ready : Ready s) (good : (scan s).1 = 0) :
    ∃ s', Called s s' ∧ s'.lastToken = none ∧ skipToToken s' = (none, (scan s).2.2) := by
  fun_induction scan s with
  | case1 s e s' read => simp at good
  | case2 s s' read =>
    obtain ⟨held, found⟩ := (cfgNext_none_iff ready).mp read
    exact ⟨s, .start, held, found⟩
  | case3 s entry s' read ih =>
    have after := (cfgNext_ready ready).1
    rw [read] at after
    obtain ⟨last, called, found⟩ := ih after good
    exact ⟨last, called.after read, found⟩

/-- A call of the parse takes what follows the blanks and comments in front of
it for the end of the file. -/
def TakenForEnd (s : Scanner) (rest : List Int) : Prop :=
  s.lastToken = none ∧ ∃ gap, Gap gap ∧ s.ahead = gap ++ eof :: rest

/-- A successful parse of a text without NUL bytes has read all of it exactly
when the value of the end of file only ever ends a call at the end. -/
theorem consumed_iff (matchArch : CStr → Bool) (buff : List UInt8) (nul : 0 ∉ buff) :
    ((cfgParse matchArch buff fresh).1 = 0 → (cfgParse matchArch buff fresh).2.scanner.currp = []) ↔
      ∀ s rest, Called (startFrom 0 buff) s → TakenForEnd s rest → rest = [] := by
  have ready := startFrom_ready 0 buff
  have left {s : Scanner} : (skipToToken s).2.ahead = (skipToToken s).2.currp.map schar :=
    ahead_clear (skipToToken_back s)
  rw [cfgParse_fresh, parseLoop_scan]
  constructor
  · intro consumed s rest called ⟨held, gap, shape, ahead⟩
    obtain ⟨ended, later⟩ := skipToToken_gap shape ahead
    have last : cfgNext s = (.ok none, (skipToToken s).2) :=
      (cfgNext_none_iff (called_ready ready called)).mpr ⟨held, by rw [← ended]⟩
    obtain ⟨value, scanner⟩ := called_scan called
    rw [scan_of_none last] at value scanner
    have empty := consumed value
    rw [scanner] at empty
    rw [← later, left, empty]
    rfl
  · intro quiet good
    obtain ⟨s, called, held, found⟩ := scan_ends ready good
    obtain ⟨gap, shape, ⟨-, empty⟩ | ahead⟩ := skipToToken_none (called_nulFree nul called)
      (by rw [found])
    · rwa [found] at empty
    · have none_ := quiet s _ called ⟨held, gap, shape, ahead⟩
      rw [left, found, List.map_eq_nil_iff] at none_
      exact none_

/-- A file whose second line starts with a byte 0xff loses its password. -/
def hiddenPassword : List UInt8 := cstr "root=/dev/a\n" ++ 255 :: cstr "password=x\n"

/-- The character `0xff` in front of a password ends the parse, which succeeds. -/
theorem hiddenPassword_ignored : 0 ∉ hiddenPassword ∧
    (cfgParse (fun _ => true) hiddenPassword fresh).1 = 0 ∧
    (cfgParse (fun _ => true) hiddenPassword fresh).2.scanner.currp = cstr "password=x\n" ∧
    cfgGetStrg [] (cfgParse (fun _ => true) hiddenPassword fresh).2.tables none (cstr "password") =
      none := by decide +kernel

/-- A line with one assignment is read to its end. -/
theorem plain_consumed :
    ((cfgParse (fun _ => true) (cstr "root=/dev/a\n") fresh).1 = 0 →
      (cfgParse (fun _ => true) (cstr "root=/dev/a\n") fresh).2.scanner.currp = []) ↔
    ∀ s rest, Called (startFrom 0 (cstr "root=/dev/a\n")) s → TakenForEnd s rest → rest = [] :=
  consumed_iff _ _ (by decide)

end Yaboot.Cfg
