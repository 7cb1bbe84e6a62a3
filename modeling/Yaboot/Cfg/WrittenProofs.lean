import Yaboot.Cfg.ScopeProofs
import Yaboot.Cfg.Written

/-! A file written for a list of assignments is read back as that list, however its tokens
are spelled and whatever stands between them, and then means what the list says. -/
namespace Yaboot.Cfg
open CString

variable {s : Scanner} {text t g w v : CStr}

/-! ### The scanner in front of a text -/

/-- The next characters are those of the text, pushed back or not. -/
structure Stands (s : Scanner) (text : CStr) : Prop where
  token : s.lastToken = none
  item : s.lastItem = none
  next : next s = next (s.on text)

theorem Stands.of_on (item : s.lastItem = none) (text : CStr) : Stands (s.on text) text :=
  ⟨rfl, item, rfl⟩

/-- The character that ended a token is delivered next. -/
theorem Stands.of_again (item : s.lastItem = none) (c : UInt8) (nonzero : c ≠ 0) (t : CStr) :
    Stands (again (schar c) (s.on t)) (c :: t) := by
  refine ⟨rfl, item, ?_⟩
  have pushed : schar c ≠ 0 := by simpa using nonzero
  rw [Cfg.next, again]
  dsimp only
  rw [if_neg pushed]
  rfl

theorem Stands.of_end (item : s.lastItem = none) : Stands (again eof (s.on [])) [] :=
  ⟨rfl, item, rfl⟩

theorem skipToToken_congr {s' : Scanner} (same : Cfg.next s = Cfg.next s') :
    skipToToken s = skipToToken s' := by
  have blanks : skipBlanks s = skipBlanks s' := by
    rw [skipBlanks, same, ← skipBlanks]
  rw [skipToToken, blanks, ← skipToToken]

theorem cfgGetToken_congr {s' : Scanner} (none₁ : s.lastToken = none) (none₂ : s'.lastToken = none)
    (same : skipToToken s = skipToToken s') : cfgGetToken s = cfgGetToken s' := by
  simp only [cfgGetToken, none₁, none₂, same]

theorem Stands.skip (stands : Stands s text) : skipToToken s = skipToToken (s.on text) :=
  skipToToken_congr stands.next

/-! ### Blanks and comments -/

theorem skipComment_on (body : ∀ c ∈ text, isNewline (schar c) = false ∧ c ≠ 255)
    (line : isNewline (schar n) = true) :
    skipComment (s.on (text ++ n :: t)) = (schar n, s.on t) := by
  induction text with
  | nil =>
    rw [List.nil_append, skipComment, next_on, if_pos line]
  | cons c text ih =>
    obtain ⟨plain, printable⟩ := body c List.mem_cons_self
    rw [List.cons_append, skipComment, next_on, if_neg (by simp [plain]),
      if_neg (schar_ne_eof c printable)]
    exact ih fun d inside => body d (List.mem_cons_of_mem _ inside)

theorem skipComment_open (body : ∀ c ∈ text, isNewline (schar c) = false ∧ c ≠ 255) :
    skipComment (s.on text) = (eof, s.on []) := by
  have nothing : next (s.on []) = (eof, s.on []) := rfl
  induction text with
  | nil =>
    rw [skipComment, nothing]
    rfl
  | cons c text ih =>
    obtain ⟨plain, printable⟩ := body c List.mem_cons_self
    rw [skipComment, next_on, if_neg (by simp [plain]), if_neg (schar_ne_eof c printable)]
    exact ih fun d inside => body d (List.mem_cons_of_mem _ inside)

theorem skipBlanks_hash (t : CStr) : skipBlanks (s.on (35 :: t)) = (schar 35, s.on t) := by
  have visible : isBlank (schar 35) = false := by decide
  rw [skipBlanks, next_on]
  simp only [visible, Bool.false_eq_true, if_false]

/-- Space in front of a token is skipped. -/
theorem Stands.space (space : Space g) (stands : Stands s (g ++ t)) :
    ∃ s', Stands s' t ∧ skipToToken s = skipToToken s' := by
  induction space generalizing s with
  | none => exact ⟨s, stands, rfl⟩
  | @blank c g skipped rest ih =>
    have counted : countLine (schar c) (s.on (g ++ t)) =
        (countLine (schar c) s).on (g ++ t) := by
      unfold countLine
      split <;> rfl
    have held : (countLine (schar c) s).lastItem = none := by
      unfold countLine
      split <;> exact stands.item
    obtain ⟨s', stands', skip⟩ := ih (counted ▸ Stands.of_on held (g ++ t))
    refine ⟨s', stands', ?_⟩
    rw [stands.skip, ← skip, List.cons_append, skipToToken, skipBlanks, next_on, if_pos skipped,
      ← skipToToken]
  | @comment text n g body line rest ih =>
    obtain ⟨s', stands', skip⟩ := ih (Stands.of_on (s := bumpLine s) stands.item (g ++ t))
    refine ⟨s', stands', ?_⟩
    rw [stands.skip, ← skip, List.cons_append, List.append_assoc, List.cons_append, skipToToken,
      skipBlanks_hash, skipComment_on body line]
    have ended : schar n ≠ eof := by
      intro ended
      rw [ended] at line
      exact absurd line (by decide)
    have hash : schar 35 = chr '#' := by decide
    simp only [hash, ne_eq, not_true_eq_false, if_false, if_neg ended]
    rfl

/-! ### Tokens -/

theorem ends_pushed (c : UInt8) (member : c ∈ [32, 9, 10, 13, 35, 61]) :
    endsToken (schar c) = true ∧ c ≠ 0 := by
  simp only [List.mem_cons, List.not_mem_nil, or_false] at member
  rcases member with rfl | rfl | rfl | rfl | rfl | rfl <;> decide

/-- A bare token may be the last thing of the file. -/
theorem cfgGetToken_last (textual : Textual v) (nonempty : v ≠ []) (tab : 9 ∉ v)
    (newline : 10 ∉ v) (short : v.length ≤ 510) :
    cfgGetToken (s.on (esc v)) = (.ok (some v), again eof (s.on [])) := by
  have ordinary := textual.escapable tab newline
  have room : v.length < maxToken := Nat.lt_succ_of_le short
  have read := cfgGetToken_esc s nonempty
    (fun b member => ⟨ne_of_mem_of_not_mem member textual.zero, ordinary b member⟩) []
  have bytes := @bare_bytes s [] [] v ordinary
    (by simpa using room.le)
  rw [List.append_nil] at read bytes
  have ended : bare v (s.on []) = (.ok (strdup v), again eof (s.on [])) := by
    have nothing : next (s.on []) = (eof, s.on []) := rfl
    rw [bare, nothing, unquoted, if_pos room]
    rfl
  rw [read, bytes, List.nil_append, ended, strdup_of_no_zero v textual.zero]
  rfl

theorem Spelling.read (spelled : Spelling v w t) (stored : Storable v)
    (stands : Stands s (w ++ t)) :
    ∃ s', cfgGetToken s = (.ok (some v), s') ∧ Stands s' t := by
  rw [cfgGetToken_congr stands.token rfl stands.skip]
  cases spelled with
  | quoted cr =>
    exact ⟨_, quote_round_trip s t stored.textual cr stored.short, .of_on stands.item t⟩
  | bare nonempty tab newline ends =>
    rcases ends with rfl | ⟨c, rest, rfl, member⟩
    · rw [List.append_nil]
      exact ⟨_, cfgGetToken_last stored.textual nonempty tab newline stored.short,
        .of_end stands.item⟩
    · obtain ⟨ends, nonzero⟩ := ends_pushed c member
      exact ⟨_, esc_round_trip s rest stored.textual nonempty tab newline ends stored.short,
        .of_again stands.item c nonzero rest⟩

theorem Stands.read (space : Space g) (spelled : Spelling v w t) (stored : Storable v)
    (stands : Stands s (g ++ (w ++ t))) :
    ∃ s', cfgGetToken s = (.ok (some v), s') ∧ Stands s' t := by
  obtain ⟨s', stands', skip⟩ := Stands.space space stands
  rw [cfgGetToken_congr stands.token stands'.token skip]
  exact spelled.read stored stands'

theorem Stands.equals (space : Space g) (stands : Stands s (g ++ 61 :: t)) :
    ∃ s', cfgGetToken s = (.ok (some (cstr "=")), s') ∧ Stands s' t := by
  obtain ⟨s', stands', skip⟩ := Stands.space space stands
  refine ⟨s'.on t, ?_, .of_on stands'.item t⟩
  rw [cfgGetToken_congr stands.token rfl (skip.trans stands'.skip), cfgGetToken]
  have held : (s'.on (61 :: t)).lastToken = none := rfl
  rw [held, skipToToken_on s' t (by decide) (by decide) (by decide) (by decide)]
  rfl

/-- At the end of the file there is no token. -/
theorem Stands.closing (closing : Closing g) (stands : Stands s g) :
    ∃ s', cfgGetToken s = (.ok none, s') ∧ Stands s' [] := by
  have nothing (s : Scanner) : skipToToken (s.on []) = (none, s.on []) := by
    have blanks : skipBlanks (s.on []) = (eof, s.on []) := by
      rw [skipBlanks]
      rfl
    rw [skipToToken, blanks]
    rfl
  obtain ⟨s', item, skip⟩ :
      ∃ s' : Scanner, s'.lastItem = none ∧ skipToToken s = (none, s'.on []) := by
    cases closing with
    | space space =>
      rw [← List.append_nil g] at stands
      obtain ⟨s', stands', skip⟩ := Stands.space space stands
      exact ⟨s', stands'.item, by rw [skip, stands'.skip, nothing]⟩
    | comment space body =>
      obtain ⟨s', stands', skip⟩ := Stands.space space stands
      have more : ¬ (chr '#' = eof ∨ chr '#' = 0) := by decide
      have hash : schar 35 = chr '#' := by decide
      refine ⟨s', stands'.item, ?_⟩
      rw [skip, stands'.skip, skipToToken, skipBlanks_hash, skipComment_open body]
      simp only [if_neg more, hash, ne_eq, not_true_eq_false, if_false, if_true]
  refine ⟨s'.on [], ?_, .of_on item []⟩
  simp only [cfgGetToken, stands.token, skip]

/-! ### Assignments -/

/-- The next token is the first of the text, whether it was read ahead or not. -/
structure Pending (s : Scanner) (text : CStr) : Prop where
  item : s.lastItem = none
  token : ∃ s', Stands s' text ∧ cfgGetToken s = cfgGetToken s'

theorem Stands.pending (stands : Stands s text) : Pending s text :=
  ⟨stands.item, s, stands, rfl⟩

/-- A token that is put back is read again. -/
theorem Stands.returned {s' : Scanner} (stands : Stands s text) (after : Stands s' t)
    (read : cfgGetToken s = (.ok (some v), s')) : Pending (cfgReturnToken v s') text := by
  refine ⟨after.item, s, stands, ?_⟩
  have held : (cfgReturnToken v s').lastToken = some v := rfl
  rw [read, cfgGetToken, held]
  dsimp only
  congr 2
  obtain ⟨back, currp, token, item, value, line⟩ := s'
  have none : token = none := after.token
  rw [none]

theorem scan_done (closing : Closing g) (pending : Pending s g) :
    (scan s).1 = 0 ∧ (scan s).2.1 = [] := by
  obtain ⟨s₀, stands, same⟩ := pending.token
  obtain ⟨s', read, _⟩ := stands.closing closing
  have ended : cfgNext s = (.ok none, s') := by
    simp only [cfgNext, pending.item, same, read]
  rw [scan_of_none ended]
  exact ⟨rfl, rfl⟩

/-- Behind an item without a value comes another item, or the end. -/
theorem Written.next (written : Written entries t) (stands : Stands s t) :
    (entries = [] ∧ ∃ s', cfgGetToken s = (.ok none, s') ∧ Stands s' []) ∨
      ∃ item s' rest, cfgGetToken s = (.ok (some item), s') ∧ item ≠ cstr "=" ∧ Stands s' rest := by
  cases written with
  | done closing => exact .inl ⟨rfl, stands.closing closing⟩
  | flag space name spelled rest =>
    obtain ⟨s', read, after⟩ := stands.read space spelled name
    exact .inr ⟨_, s', _, read, name.name, after⟩
  | value space name stored spelled space₁ space₂ spelled₂ rest =>
    obtain ⟨s', read, after⟩ := stands.read space spelled name
    exact .inr ⟨_, s', _, read, name.name, after⟩

/-- The entries come back in order, and the parse succeeds. -/
theorem Written.scanned (written : Written entries text) (pending : Pending s text) :
    (scan s).1 = 0 ∧ (scan s).2.1 = entries := by
  induction written generalizing s with
  | done closing => exact scan_done closing pending
  | @flag g item w t entries space name spelled rest ih =>
    obtain ⟨s₀, stands, same⟩ := pending.token
    obtain ⟨s₁, read, after⟩ := stands.read space spelled name
    rcases rest.next after with ⟨empty, s₂, ended, last⟩ | ⟨this, s₂, more, ahead, other, behind⟩
    · have entry : cfgNext s = (.ok (some (item, none)), s₂) := by
        simp only [cfgNext, pending.item, same, read, if_neg name.name, ended]
      obtain ⟨good, nothing⟩ := scan_done (.space .none) last.pending
      rw [scan_of_some entry, good, nothing, empty]
      exact ⟨rfl, rfl⟩
    · have entry : cfgNext s = (.ok (some (item, none)), cfgReturnToken this s₂) := by
        simp only [cfgNext, pending.item, same, read, if_neg name.name, ahead]
        rw [if_pos other]
      obtain ⟨good, entries⟩ := ih (after.returned behind ahead)
      rw [scan_of_some entry, good, entries]
      exact ⟨rfl, rfl⟩
  | @value g item v w g₁ g₂ w₂ t entries space name stored spelled space₁ space₂ spelled₂ rest ih =>
    obtain ⟨s₀, stands, same⟩ := pending.token
    obtain ⟨s₁, read, after⟩ := stands.read space spelled name
    obtain ⟨s₂, equals, after⟩ := after.equals space₁
    obtain ⟨s₃, value, after⟩ := after.read space₂ spelled₂ stored
    have entry : cfgNext s = (.ok (some (item, some v)), s₃) := by
      simp only [cfgNext, pending.item, same, read, if_neg name.name, equals, value,
        if_neg stored.name]
      rfl
    obtain ⟨good, entries⟩ := ih after.pending
    rw [scan_of_some entry, good, entries]
    exact ⟨rfl, rfl⟩

/-- A written file is accepted, and its entries are assigned one by one. -/
theorem written_tables (matchArch : CStr → Bool) (written : Written entries text) :
    (cfgParse matchArch text fresh).1 = 0 ∧
      (cfgParse matchArch text fresh).2.tables = assignAll matchArch entries fresh.tables := by
  have start : Pending { fresh.scanner with currp := text } text :=
    Stands.pending (Stands.of_on (s := fresh.scanner) rfl text)
  obtain ⟨good, reads⟩ := written.scanned start
  have tables := @cfgParse_tables fresh matchArch text (by decide)
  have same : fresh.reads text = entries := reads
  rw [same] at tables
  refine ⟨?_, tables⟩
  unfold cfgParse
  dsimp only
  rw [parseLoop_scan]
  exact good

/-- A file in which a list of assignments is written is accepted by `cfg_parse`, and each lookup
afterwards, global or in a section, answers as the assignments say. -/
theorem written_parsed (matchArch : CStr → Bool) (low : CStr) (written : Written entries text)
    (valued : ∀ entry ∈ entries, (startOf entry.1).isSome → entry.2.isSome) :
    (cfgParse matchArch text fresh).1 = 0 ∧
    (∀ item, cfgGetStrg low (cfgParse matchArch text fresh).2.tables none item =
      lastAssigned cfOptions (layout entries).globals item) ∧
    ∀ name item, cfgGetStrg low (cfgParse matchArch text fresh).2.tables (some name) item =
      (layout entries).get matchArch name item := by
  obtain ⟨good, tables⟩ := written_tables matchArch written
  rw [tables]
  exact ⟨good, cfgGetStrg_assignAll matchArch low entries valued⟩

/-- An option, and a kernel with a label and a flag. -/
def sampleEntries : List Entry :=
  [(cstr "timeout", some (cstr "50")), (cstr "image", some (cstr "/vm linux")),
    (cstr "label", some (cstr "linux")), (cstr "read-only", none)]

/-- A comment stands behind the option, and the name of the kernel in quotes. -/
def sampleText : CStr :=
  cstr "timeout=50 # s\nimage = \"/vm linux\"\n\tlabel=linux\n\tread-only\n"

theorem storable_of_all (all : v.all (fun b => 1 ≤ b && b ≤ 254) = true) (short : v.length ≤ 510)
    (name : v ≠ cstr "=") : Storable v := ⟨textual_of_all all, short, name⟩

theorem sampleEntries_valued :
    ∀ entry ∈ sampleEntries, (startOf entry.1).isSome → entry.2.isSome := by
  simp only [sampleEntries, List.forall_mem_cons]
  exact ⟨fun _ => rfl, fun _ => rfl, fun _ => rfl, by decide, fun _ none => absurd none (by simp)⟩

theorem sampleEntries_written : Written sampleEntries sampleText := by
  have body : (cstr " s").all (fun c => isNewline (schar c) == false && c != 255) = true := by
    decide
  have comment : Space (32 :: 35 :: (cstr " s" ++ 10 :: [])) := .blank (by decide)
    (.comment (fun c member => by simpa using List.all_eq_true.mp body c member) (by decide) .none)
  have blank : Space [32] := .blank (by decide) .none
  have indent : Space [10, 9] := .blank (by decide) (.blank (by decide) .none)
  have flag : Written [(cstr "read-only", none)]
      ([10, 9] ++ (esc (cstr "read-only") ++ [10])) :=
    .flag indent (storable_of_all (by decide) (by decide) (by decide))
      (.bare (by decide) (by decide) (by decide) (.inr ⟨10, _, rfl, by decide⟩))
      (.done (.space (.blank (by decide) .none)))
  have label := Written.value indent (v := cstr "linux")
    (storable_of_all (v := cstr "label") (by decide) (by decide) (by decide))
    (storable_of_all (by decide) (by decide) (by decide))
    (.bare (by decide) (by decide) (by decide) (.inr ⟨61, _, rfl, by decide⟩)) .none .none
    (.bare (by decide) (by decide) (by decide) (.inr ⟨10, _, rfl, by decide⟩)) flag
  have image := Written.value .none (v := cstr "/vm linux")
    (storable_of_all (v := cstr "image") (by decide) (by decide) (by decide))
    (storable_of_all (by decide) (by decide) (by decide))
    (.bare (by decide) (by decide) (by decide) (.inr ⟨32, _, rfl, by decide⟩)) blank blank
    (.quoted (by decide)) label
  have whole := Written.value .none (v := cstr "50")
    (storable_of_all (v := cstr "timeout") (by decide) (by decide) (by decide))
    (storable_of_all (by decide) (by decide) (by decide))
    (.bare (by decide) (by decide) (by decide) (.inr ⟨61, _, rfl, by decide⟩)) .none .none
    (.bare (by decide) (by decide) (by decide) (.inr ⟨32, _, rfl, by decide⟩))
    (image.behind comment)
  exact whole

/-- The option and the kernel of the label are found, and the flag is set. -/
theorem sampleEntries_parsed :
    cfgGetStrg [] (cfgParse (fun _ => true) sampleText fresh).2.tables none (cstr "timeout") =
        some (cstr "50") ∧
      cfgGetStrg [] (cfgParse (fun _ => true) sampleText fresh).2.tables (some (cstr "linux"))
        (cstr "image") = some (cstr "/vm linux") ∧
      cfgGetStrg [] (cfgParse (fun _ => true) sampleText fresh).2.tables (some (cstr "linux"))
        (cstr "read-only") = some [] := by
  obtain ⟨_, globals, options⟩ :=
    written_parsed (fun _ => true) [] sampleEntries_written sampleEntries_valued
  refine ⟨(globals _).trans ?_, (options _ _).trans ?_, (options _ _).trans ?_⟩
  · decide +kernel
  · decide +kernel
  · decide +kernel

/-- What is rendered from a list of assignments, all in quotes, is accepted by `cfg_parse` and reads
back as the list. -/
theorem render_parsed (matchArch : CStr → Bool) (low : CStr)
    (quotable : ∀ entry ∈ entries, Quotable entry)
    (valued : ∀ entry ∈ entries, (startOf entry.1).isSome → entry.2.isSome) :
    (cfgParse matchArch (render entries) fresh).1 = 0 ∧
    (∀ item, cfgGetStrg low (cfgParse matchArch (render entries) fresh).2.tables none item =
      lastAssigned cfOptions (layout entries).globals item) ∧
    ∀ name item, cfgGetStrg low (cfgParse matchArch (render entries) fresh).2.tables (some name)
      item = (layout entries).get matchArch name item := by
  obtain ⟨good, tables⟩ := written_tables matchArch (render_written entries quotable)
  rw [tables]
  exact ⟨good, cfgGetStrg_assignAll matchArch low entries valued⟩

/-- Two kernels, the second with arguments that hold blanks and quotes. -/
def quotedEntries : List Entry :=
  [(cstr "timeout", some (cstr "50")), (cstr "image", some (cstr "/vmlinux")),
    (cstr "label", some (cstr "old")), (cstr "image", some (cstr "/vm new")),
    (cstr "label", some (cstr "new")), (cstr "append", some (cstr "root=\"/dev/hda 1\""))]

theorem quotedEntries_quotable : ∀ entry ∈ quotedEntries, Quotable entry := by
  have quotable (item v : CStr) (stored : Storable item) (stored' : Storable v) (cr : 13 ∉ item)
      (cr' : 13 ∉ v) : Quotable (item, some v) :=
    ⟨stored, cr, fun _ same => Option.some.inj same ▸ ⟨stored', cr'⟩⟩
  simp only [quotedEntries, List.forall_mem_cons]
  refine ⟨?_, ?_, ?_, ?_, ?_, ?_, fun _ none => absurd none (by simp)⟩ <;>
    exact quotable _ _ (storable_of_all (by decide) (by decide) (by decide))
      (storable_of_all (by decide) (by decide) (by decide)) (by decide) (by decide)

/-- The quotes in an option come back, for the kernel that has it and for no other. -/
theorem quotedEntries_parsed :
    (cfgParse (fun _ => true) (render quotedEntries) fresh).1 = 0 ∧
      cfgGetStrg [] (cfgParse (fun _ => true) (render quotedEntries) fresh).2.tables
        (some (cstr "new")) (cstr "append") = some (cstr "root=\"/dev/hda 1\"") ∧
      cfgGetStrg [] (cfgParse (fun _ => true) (render quotedEntries) fresh).2.tables
        (some (cstr "old")) (cstr "append") = none := by
  have valued : ∀ entry ∈ quotedEntries, (startOf entry.1).isSome → entry.2.isSome := by
    simp only [quotedEntries, List.forall_mem_cons]
    exact ⟨fun _ => rfl, fun _ => rfl, fun _ => rfl, fun _ => rfl, fun _ => rfl, fun _ => rfl,
      fun _ none => absurd none (by simp)⟩
  obtain ⟨good, _, options⟩ :=
    render_parsed (fun _ => true) [] quotedEntries_quotable valued
  refine ⟨good, (options _ _).trans ?_, (options _ _).trans ?_⟩
  · decide +kernel
  · decide +kernel

end Yaboot.Cfg
