import Yaboot.Prompt.GateProofs

/-! What one call of `get_params` leaves behind for the next. Only `definitrd` and
what is left in the line buffer can be noticed, and only through `initrd=`. -/
namespace Yaboot.Prompt
open CString Cfg Fs

/-! ### Words of a line -/

def dropBlanks (s : CStr) : CStr := s.dropWhile (· == 32)

/-- The first word of a line. -/
def firstWord (line : CStr) : Option CStr :=
  if dropBlanks line = [] then none else some ((dropBlanks line).takeWhile (· != 32))

/-- What follows the first word. -/
def otherWords (line : CStr) : Option CStr :=
  let rest := dropBlanks ((dropBlanks line).dropWhile (· != 32))
  if rest = [] then none else some rest

theorem strdup_dropWhile (test : UInt8 → Bool) (stops : test 0 = false) (buf : List UInt8) :
    strdup (buf.dropWhile test) = (strdup buf).dropWhile test := by
  unfold strdup
  induction buf with
  | nil => rfl
  | cons c buf ih =>
    by_cases zero : c = 0
    · subst zero
      simp [stops]
    · cases passed : test c with
      | true => simpa [passed, zero] using ih
      | false => simp [passed, zero]

/-- Words end where the string ends. -/
theorem strdup_dropWord (buf : List UInt8) :
    strdup (buf.dropWhile fun c => c != 0 && c != 32) = (strdup buf).dropWhile (· != 32) := by
  unfold strdup
  induction buf with
  | nil => rfl
  | cons c buf ih =>
    by_cases zero : c = 0
    · subst zero
      simp
    · by_cases blank : c = 32
      · subst blank
        simp
      · simpa [zero, blank] using ih

theorem takeWord_strdup (buf : List UInt8) :
    (strdup buf).takeWhile (· != 32) = buf.takeWhile fun c => c != 0 && c != 32 := by
  unfold strdup
  rw [List.takeWhile_takeWhile]
  congr 1
  funext c
  rw [Bool.eq_iff_iff]
  simp [and_comm]

theorem strdup_append_stop (word : List UInt8) (whole : ∀ c ∈ word, c ≠ 0)
    (stop : strdup rest = []) : strdup (word ++ rest) = word := by
  unfold strdup at *
  induction word with
  | nil => exact stop
  | cons c word ih =>
    have head := whole c (by simp)
    rw [List.cons_append, List.takeWhile_cons, if_pos (by simpa using head),
      ih fun d member => whole d (by simp [member])]

theorem mem_takeWord (buf : List UInt8)
    (member : c ∈ buf.takeWhile fun c => c != 0 && c != 32) : c ≠ 0 := by
  have passed := List.mem_takeWhile_imp member
  simp only [Bool.and_eq_true, bne_iff_ne, ne_eq] at passed
  exact passed.1

/-- Behind a word there is its end, once the blanks are zeros. -/
theorem strdup_gap (p : List UInt8) :
    strdup (List.replicate
        ((p.dropWhile fun c => c != 0 && c != 32).takeWhile (· == 32)).length 0 ++
      (p.dropWhile fun c => c != 0 && c != 32).dropWhile (· == 32)) = [] := by
  induction p with
  | nil => rfl
  | cons c p ih =>
    by_cases zero : c = 0
    · subst zero
      simp [strdup]
    · by_cases blank : c = 32
      · subst blank
        simp [strdup, List.replicate_succ]
      · simpa [zero, blank] using ih

/-- The words a split buffer shows are those of its line. -/
theorem wordSplit_line (buf : List UInt8) :
    (wordSplit buf).line.map (fun at_ => strdup ((wordSplit buf).buf.drop at_)) =
      firstWord (strdup buf) := by
  have line : dropBlanks (strdup buf) = strdup (buf.dropWhile (· == 32)) :=
    (strdup_dropWhile (· == 32) rfl buf).symm
  unfold wordSplit firstWord
  rw [line]
  by_cases empty : strdup (buf.dropWhile (· == 32)) = []
  · simp only [if_pos empty]
    rfl
  · simp only [if_neg empty, Option.map_some, List.append_assoc, List.drop_left]
    rw [takeWord_strdup, strdup_append_stop _ (fun c => mem_takeWord _) (strdup_gap _)]

/-- The arguments are what stands behind the first word. -/
theorem wordSplit_params (buf : List UInt8) :
    (wordSplit buf).params.map (fun at_ => strdup ((wordSplit buf).buf.drop at_)) =
      otherWords (strdup buf) := by
  have line : dropBlanks (strdup buf) = strdup (buf.dropWhile (· == 32)) :=
    (strdup_dropWhile (· == 32) rfl buf).symm
  unfold wordSplit otherWords
  rw [line, ← strdup_dropWord]
  by_cases empty : strdup (buf.dropWhile (· == 32)) = []
  · have none : strdup ((buf.dropWhile (· == 32)).dropWhile fun c => c != 0 && c != 32) = [] := by
      rw [strdup_dropWord, empty]
      rfl
    simp only [if_pos empty, none]
    rfl
  · have rest : dropBlanks (strdup ((buf.dropWhile (· == 32)).dropWhile fun c => c != 0 && c != 32)) =
        strdup (((buf.dropWhile (· == 32)).dropWhile fun c => c != 0 && c != 32).dropWhile
          (· == 32)) := (strdup_dropWhile (· == 32) rfl _).symm
    simp only [if_neg empty, rest]
    split
    · rfl
    · simp only [Option.map_some]
      rw [List.drop_left' (by simp only [List.length_append, List.length_replicate])]

/-! ### A later call -/

/-- The line typed at a prompt that waits for no key. -/
def lineOf (w : World) (inp : Input) (st : Statics) : CStr :=
  strdup (cmdedit w inp.keys (st.cbuff.set 0 0))

theorem prompt_later (w : World) (inp : Input) (st : Statics) (calm : w.fwRebootCnt = 0)
    (later : st.first = false) : prompt w inp st =
      typedLine w inp { st with pauseAfter := false, cbuff := st.cbuff.set 0 0 } := by
  unfold prompt waitKey
  simp [calm, later]

/-- What the pointers of a choice show. -/
structure Texts where
  name : Option CStr
  args : Option CStr

def Choice.texts (w : World) (st : Statics) (choice : Choice) : Texts :=
  ⟨choice.imagename.map fun p => st.string w (some p), choice.args.map fun p => st.string w (some p)⟩

def Texts.ofLine (line : CStr) : Texts := ⟨firstWord line, otherWords line⟩

theorem typedLine_texts (w : World) (inp : Input) (st : Statics) :
    (typedLine w inp st).2.texts w (typedLine w inp st).1 =
      Texts.ofLine (strdup (cmdedit w inp.keys st.cbuff)) := by
  unfold Texts.ofLine
  rw [← wordSplit_line, ← wordSplit_params]
  unfold Choice.texts typedLine Words.choice
  simp only [Option.map_map]
  rfl

/-- A null pointer shows what lies at address zero. -/
theorem string_eq (w : World) (st : Statics) (p : Option Ptr) :
    st.string w p = (p.map fun q => st.string w (some q)).getD w.lowString := by
  cases p <;> rfl

/-- Does a text, or what is read in its place, start with `initrd=`? -/
def startsInitrd (w : World) (text : Option CStr) : Bool :=
  strncmpEq (text.getD w.lowString) initrdTok 7

def Texts.names (w : World) (t : Texts) : Bool := startsInitrd w t.args || startsInitrd w t.name

/-- The text an initrd is taken from. -/
def Texts.initrdText (w : World) (t : Texts) : CStr := (t.args.or t.name).getD w.lowString

theorem takesInitrd_texts (w : World) (st : Statics) (choice : Choice) :
    takesInitrd w st choice = ((choice.texts w st).names w || !st.definitrd) := by
  unfold takesInitrd namesInitrd Texts.names startsInitrd
  rw [string_eq, string_eq w st choice.imagename]
  rfl

theorem initrdFrom_texts (w : World) (st : Statics) (choice : Choice) :
    st.string w choice.initrdFrom = (choice.texts w st).initrdText w := by
  unfold Choice.initrdFrom Texts.initrdText Choice.texts
  rw [string_eq]
  cases choice.args <;> rfl

/-! ### What a call makes of its texts -/

/-- No pointer into the buffer that is written while the choice is in use. -/
def Choice.Apart (choice : Choice) : Prop :=
  ∀ at_, choice.imagename ≠ some (.bootlastlabel at_) ∧ choice.args ≠ some (.bootlastlabel at_)

theorem remember_eq (w : World) (choice : Choice) (st : Statics) :
    ∃ bootlastlabel, remember w choice st = { st with bootlastlabel } := by
  unfold remember
  dsimp only
  split
  · exact ⟨_, rfl⟩
  · exact ⟨_, rfl⟩

theorem texts_remember (w : World) (st : Statics) (choice other : Choice) (apart : choice.Apart) :
    choice.texts w (remember w other st) = choice.texts w st := by
  obtain ⟨buf, shape⟩ := remember_eq w other st
  rw [shape]
  have same : ∀ p, (∀ at_, p ≠ Ptr.bootlastlabel at_) →
      Statics.string w { st with bootlastlabel := buf } (some p) = st.string w (some p) := by
    intro p outside
    cases p with
    | bootlastlabel at_ => exact absurd rfl (outside at_)
    | _ => rfl
  unfold Choice.texts
  congr 1
  · exact Option.map_congr fun p held =>
      same p fun at_ here => (apart at_).1 (held.trans (congrArg some here))
  · exact Option.map_congr fun p held =>
      same p fun at_ here => (apart at_).2 (held.trans (congrArg some here))

/-- No name is the default name, said of texts. -/
def orDefaultText (w : World) (name : Option CStr) : Option CStr :=
  if w.useconf && name.getD [] == [] then w.defaultLabel else name

theorem orDefault_texts (w : World) (st : Statics) (choice : Choice) :
    (orDefault w st choice).texts w st =
      ⟨orDefaultText w (choice.texts w st).name, (choice.texts w st).args⟩ := by
  have same : (choice.imagename.isNone || st.string w choice.imagename == []) =
      ((choice.texts w st).name.getD [] == []) := by
    unfold Choice.texts
    cases choice.imagename <;> rfl
  unfold orDefault orDefaultText
  rw [same]
  split
  · simp [Choice.texts, World.defaultLabel, Function.comp_def, string_text]
  · rfl

theorem orDefault_apart (w : World) (st : Statics) (apart : choice.Apart) :
    (orDefault w st choice).Apart := by
  unfold orDefault
  split
  · intro at_
    refine ⟨?_, (apart at_).2⟩
    cases w.getDefault <;> simp
  · exact apart

/-- The statics a boot depends on: where the initrd comes from. -/
structure Statics.SameInitrd (st st' : Statics) : Prop where
  definitrd : st.definitrd = st'.definitrd
  manual : st.definitrd = false → st.manualinitrd = st'.manualinitrd

theorem Statics.SameInitrd.path (w : World) (same : Statics.SameInitrd st st') (p : CStr) :
    initrdPath w st p = initrdPath w st' p := by
  unfold initrdPath
  rw [← same.definitrd]
  cases kind : st.definitrd with
  | true => rfl
  | false => rw [same.manual kind]

/-- Apart from the pause message a selection comes from the configuration. -/
theorem select_eq (w : World) (st st' : Statics) (name args : Option CStr) :
    ∃ pauseMessage,
      select w st' name args = { select w st name args with pauseMessage } := by
  unfold select
  cases w.useconf with
  | false => exact ⟨_, rfl⟩
  | true =>
    rcases w.strg name "image" with _ | _ | _
    · exact ⟨_, rfl⟩
    · exact ⟨_, rfl⟩
    · exact ⟨_, rfl⟩

theorem Statics.SameInitrd.rdFspec (w : World) (same : Statics.SameInitrd st st') (s : Selection) :
    rdFspec w st s = rdFspec w st' s := by
  unfold Prompt.rdFspec
  have path : initrdPath w st = initrdPath w st' := funext (same.path w)
  rw [path]

theorem launch_params (w : World) (same : Statics.SameInitrd st st') (name args : Option CStr) :
    (launch w st (select w st name args)).params =
      (launch w st' (select w st' name args)).params := by
  obtain ⟨message, selected⟩ := select_eq w st st' name args
  rw [selected]
  generalize select w st name args = s
  unfold launch
  dsimp only
  cases command (s.imagename.getD w.lowString) with
  | conf => cases w.password.isSome <;> rfl
  | image =>
    dsimp only
    rw [same.rdFspec w s]
    rfl
  | _ => rfl

/-- What is booted depends on the texts of the line and on what is pending. -/
theorem proceed_params (w : World) (same : Statics.SameInitrd st st') (apart : choice.Apart)
    (apart' : choice'.Apart) (texts : choice.texts w st = choice'.texts w st') :
    (proceed w st choice).1.params = (proceed w st' choice').1.params := by
  have chosen : (orDefault w st choice).texts w st = (orDefault w st' choice').texts w st' := by
    rw [orDefault_texts, orDefault_texts, texts]
  have kept := texts_remember w st _ (orDefault w st choice) (orDefault_apart w st apart)
  have kept' := texts_remember w st' _ (orDefault w st' choice') (orDefault_apart w st' apart')
  have alike := (kept.trans chosen).trans kept'.symm
  obtain ⟨last, remembered⟩ := remember_eq w (orDefault w st choice) st
  obtain ⟨last', remembered'⟩ := remember_eq w (orDefault w st' choice') st'
  have name := congrArg Texts.name alike
  have args := congrArg Texts.args alike
  unfold Choice.texts at name args
  unfold proceed
  dsimp only at name args ⊢
  rw [name, args]
  apply launch_params
  rw [remembered, remembered']
  exact ⟨same.definitrd, same.manual⟩

/-! ### The block on `initrd=` -/

/-- Past the first seven bytes of a string that has them. -/
theorem strdup_drop (buf : List UInt8) (long : n ≤ (strdup buf).length) :
    strdup (buf.drop n) = (strdup buf).drop n := by
  unfold strdup at *
  induction n generalizing buf with
  | zero => rfl
  | succ n ih =>
    cases buf with
    | nil => rfl
    | cons c buf =>
      cases passed : c != 0 with
      | false => simp [passed] at long
      | true =>
        simp only [List.takeWhile_cons, passed, if_true, List.length_cons, Nat.add_le_add_iff_right,
          List.drop_succ_cons] at long ⊢
        exact ih buf long

/-- The default label with an initrd of its own. -/
def defaultChoice (w : World) : Choice := ⟨w.getDefault.map .text, none⟩

theorem defaultChoice_apart (w : World) : (defaultChoice w).Apart := by
  intro at_
  unfold defaultChoice
  cases w.getDefault <;> simp

theorem defaultChoice_texts (w : World) (st : Statics) :
    (defaultChoice w).texts w st = ⟨w.defaultLabel, none⟩ := by
  simp [defaultChoice, Choice.texts, World.defaultLabel, Function.comp_def, string_text]

/-- An initrd is named on this line, or was named before and not used. -/
def Texts.wants (w : World) (t : Texts) (pending : Bool) : Bool := t.names w || pending

/-- Is an initrd left over for the next line? A line without text drops it. -/
def Texts.leaves (w : World) (t : Texts) (pending : Bool) : Bool :=
  t.wants w pending && t.initrdText w != []

theorem answer_leaves (w : World) (st : Statics) (choice : Choice) :
    (answer w st choice).2.definitrd = !(choice.texts w st).leaves w (!st.definitrd) := by
  have takes := takesInitrd_texts w st choice
  unfold Texts.leaves Texts.wants
  rw [← takes, ← initrdFrom_texts]
  cases entered : takesInitrd w st choice with
  | false => simpa using (answer_plain w st choice entered).2
  | true =>
    by_cases text : st.string w choice.initrdFrom = []
    · unfold answer initrdSetup
      unfold Statics.string at text ⊢
      simp only [entered, text, if_true]
      rfl
    · rw [(answer_takes w st choice entered text).2]
      simp [text]

/-- Two calls whose pointers show the same texts hand over the same, if both or
neither enter the block and its text reaches past `initrd=`. -/
theorem answer_params (w : World) (apart : choice.Apart) (apart' : choice'.Apart)
    (texts : choice.texts w st = choice'.texts w st')
    (agree : (choice.texts w st).wants w (!st.definitrd) =
      (choice.texts w st).wants w (!st'.definitrd))
    (long : (choice.texts w st).wants w (!st.definitrd) = true →
      (choice.texts w st).initrdText w = [] ∨ 7 ≤ ((choice.texts w st).initrdText w).length) :
    (answer w st choice).1.params = (answer w st' choice').1.params := by
  have takes : takesInitrd w st choice = (choice.texts w st).wants w (!st.definitrd) :=
    takesInitrd_texts w st choice
  have takes' : takesInitrd w st' choice' = (choice.texts w st).wants w (!st.definitrd) := by
    rw [takesInitrd_texts, ← texts, agree]
    rfl
  have text := initrdFrom_texts w st choice
  have text' := initrdFrom_texts w st' choice'
  rw [← texts] at text'
  rw [← takes] at takes' long
  unfold answer initrdSetup
  rw [takes']
  cases entered : takesInitrd w st choice with
  | false =>
    have stale : st.definitrd = true := by
      unfold takesInitrd at entered
      simpa using (Bool.or_eq_false_iff.mp entered).2
    have stale' : st'.definitrd = true := by
      rw [entered] at takes'
      unfold takesInitrd at takes'
      simpa using (Bool.or_eq_false_iff.mp takes').2
    exact proceed_params w ⟨stale.trans stale'.symm, fun unset => by simp [stale] at unset⟩
      apart apart' texts
  | true =>
    unfold Statics.string at text text'
    simp only [if_true, text, text']
    rcases long entered with empty | long
    · simp only [empty, if_true, Bool.false_eq_true, if_false]
    · have filled : (choice.texts w st).initrdText w ≠ [] := by
        intro empty
        simp [empty] at long
      have manual : strdup ((st.deref w choice.initrdFrom).drop 7) =
          strdup ((st'.deref w choice'.initrdFrom).drop 7) := by
        rw [strdup_drop _ (text ▸ long), strdup_drop _ (text' ▸ long), text, text']
      simp only [if_neg filled, if_true]
      exact proceed_params w ⟨rfl, fun _ => manual⟩ (defaultChoice_apart w) (defaultChoice_apart w)
        ((defaultChoice_texts w _).trans (defaultChoice_texts w _).symm)

/-! ### Sessions -/

/-- The texts one call gets from its line. -/
def textsOf (w : World) (inp : Input) (st : Statics) : Texts :=
  (prompt w inp st).2.texts w (prompt w inp st).1

/-- The calls from the start on, none of them a `conf` command, with what they
leave pending. -/
inductive Session (w : World) : Bool → Statics → Prop where
  | start (first : st.first = true) (definitrd : st.definitrd = true) : Session w false st
  | call (inp : Input) (session : Session w pending st)
      (kept : (getParams w inp st).1.conf = false) :
      Session w ((textsOf w inp st).leaves w pending) (getParams w inp st).2

theorem waitKey_definitrd (timeout : Int) (inp : Input) (st : Statics) :
    (waitKey timeout inp st).2.definitrd = st.definitrd := by
  unfold waitKey
  split
  · rfl
  · split
    · rfl
    · dsimp only
      split <;> rfl

theorem enterKey_definitrd (w : World) (st : Statics) (choice : Choice) :
    (enterKey w st choice).1.definitrd = st.definitrd := by
  unfold enterKey
  split
  · rfl
  · split
    · rfl
    · split <;> rfl

/-- The prompt does not look at what is pending. -/
theorem prompt_definitrd (w : World) (inp : Input) (st : Statics) :
    (prompt w inp st).1.definitrd = st.definitrd := by
  unfold prompt
  dsimp only
  generalize ready : (if (st.first && w.fwRebootCnt == 0) = true then _ else _ : Statics) = st₁
  have same : st₁.definitrd = st.definitrd := by
    rw [← ready]
    split <;> rfl
  rw [← same]
  generalize (if w.fwRebootCnt ≠ 0 then 1 else _ : Int) = timeout
  have waited := waitKey_definitrd timeout inp st₁
  generalize waitKey timeout inp st₁ = key at waited
  rcases key with ⟨_ | c, st₂⟩
  · exact waited
  · dsimp only at waited ⊢
    rw [← waited]
    split
    · exact enterKey_definitrd w st₂ _
    · split
      · split <;> rfl
      · rfl

theorem Session.definitrd (session : Session w pending st) : st.definitrd = !pending := by
  induction session with
  | start _ definitrd => exact definitrd
  | @call pending st inp session kept ih =>
    unfold getParams textsOf
    rw [answer_leaves, prompt_definitrd, ih, Bool.not_not]

/-- Equal lines at the prompt boot the same kernel, ramdisk and arguments after any two sessions
that leave the block on `initrd=` to the line: it names an initrd itself, or both have the same
pending from a line before. -/
theorem prompt_memoryless (calm : w.fwRebootCnt = 0)
    (session₁ : Session w pending₁ st₁) (session₂ : Session w pending₂ st₂)
    (later₁ : st₁.first = false) (later₂ : st₂.first = false)
    (line : lineOf w inp₁ st₁ = lineOf w inp₂ st₂)
    (agree : (Texts.ofLine (lineOf w inp₁ st₁)).wants w pending₁ =
      (Texts.ofLine (lineOf w inp₁ st₁)).wants w pending₂)
    (long : (Texts.ofLine (lineOf w inp₁ st₁)).wants w pending₁ = true →
      (Texts.ofLine (lineOf w inp₁ st₁)).initrdText w = [] ∨
        7 ≤ ((Texts.ofLine (lineOf w inp₁ st₁)).initrdText w).length) :
    (getParams w inp₁ st₁).1.params = (getParams w inp₂ st₂).1.params := by
  have typed : ∀ inp st, st.first = false →
      textsOf w inp st = Texts.ofLine (lineOf w inp st) := by
    intro inp st later
    unfold textsOf
    rw [prompt_later w inp st calm later]
    exact typedLine_texts w inp _
  have apart : ∀ inp st, st.first = false → (prompt w inp st).2.Apart := by
    intro inp st later at_
    rw [prompt_later w inp st calm later]
    unfold typedLine Words.choice
    exact ⟨by simp, by simp⟩
  have texts₁ := typed inp₁ st₁ later₁
  have texts₂ := typed inp₂ st₂ later₂
  unfold textsOf at texts₁ texts₂
  unfold getParams
  apply answer_params w (apart inp₁ st₁ later₁) (apart inp₂ st₂ later₂)
  · rw [texts₁, texts₂, line]
  · rw [texts₁, prompt_definitrd, prompt_definitrd, session₁.definitrd, session₂.definitrd,
      Bool.not_not, Bool.not_not]
    exact agree
  · rw [texts₁, prompt_definitrd, session₁.definitrd, Bool.not_not]
    exact long

/-- The statics after these lines on the sample disk. -/
def afterLines (lines : List String) : Statics :=
  lines.foldl (fun st line => (getParams sampleWorld (typing line) st).2) atStart

/-- An empty line drops the initrd named before it. -/
theorem prompt_memoryless_dropped :
    (getParams sampleWorld (typing "b") (afterLines ["a"])).1.params =
      (getParams sampleWorld (typing "b") (afterLines ["initrd=/x", ""])).1.params :=
  prompt_memoryless rfl
    (.call (typing "a") (.start (rfl : atStart.first = true) rfl) (by decide +kernel))
    (.call (typing "") (.call (typing "initrd=/x") (.start (rfl : atStart.first = true) rfl)
      (by decide +kernel)) (by decide +kernel))
    (by decide +kernel) (by decide +kernel) (by decide +kernel) (by decide +kernel)
    (by decide +kernel)

/-- After `initrd=/x` the label `b` boots the default image. -/
theorem initrd_remembered : ¬ ∀ w pending₁ pending₂ st₁ st₂ inp₁ inp₂, w.fwRebootCnt = 0 →
    Session w pending₁ st₁ → Session w pending₂ st₂ → st₁.first = false → st₂.first = false →
    lineOf w inp₁ st₁ = lineOf w inp₂ st₂ →
    (getParams w inp₁ st₁).1.params = (getParams w inp₂ st₂).1.params := by
  intro memoryless
  have same := memoryless sampleWorld _ _ (afterLines ["a"]) (afterLines ["initrd=/x"])
    (typing "b") (typing "b") rfl
    (.call (typing "a") (.start (rfl : atStart.first = true) rfl) (by decide +kernel))
    (.call (typing "initrd=/x") (.start (rfl : atStart.first = true) rfl) (by decide +kernel))
    (by decide +kernel) (by decide +kernel) (by decide +kernel)
  have differs : (getParams sampleWorld (typing "b") (afterLines ["a"])).1.params ≠
      (getParams sampleWorld (typing "b") (afterLines ["initrd=/x"])).1.params := by
    decide +kernel
  exact differs same

end Yaboot.Prompt
