import Yaboot.Prompt.MemoryProofs

/-! What `boot-last-label` brings back. The option is a line of its own, split
again by the session that reads it, in the buffer that session writes to. -/
namespace Yaboot.Prompt
open CString Cfg Fs

/-! ### The line that is written -/

theorem strdup_ne_zero (buf : List UInt8) (member : c ∈ strdup buf) : c ≠ 0 := by
  simpa using List.mem_takeWhile_imp member

theorem strdup_whole (s : CStr) (whole : ∀ c ∈ s, c ≠ 0) : strdup s = s := by
  unfold strdup
  rw [List.takeWhile_eq_self_iff]
  intro c member
  simpa using whole c member

theorem strdup_strcpy (buf : List UInt8) (s : CStr) : strdup (strcpy buf s) = strdup s :=
  strdup_append_zero s _

/-- A string and what ends it. -/
theorem strdup_split (buf : List UInt8) :
    ∃ rest, buf = strdup buf ++ rest ∧ strdup rest = [] := by
  refine ⟨buf.dropWhile (· != 0), List.takeWhile_append_dropWhile.symm, ?_⟩
  unfold strdup
  induction buf with
  | nil => rfl
  | cons c buf ih =>
    by_cases zero : c = 0
    · subst zero
      rfl
    · simpa [zero] using ih

theorem string_ends (w : World) (st : Statics) (p : Option Ptr) : ∀ c ∈ st.string w p, c ≠ 0 :=
  fun _ => strdup_ne_zero _

/-- `boot-last-label` with the name alone. -/
def Statics.named (w : World) (st : Statics) (choice : Choice) : Statics :=
  { st with bootlastlabel := strcpy st.bootlastlabel (st.string w choice.imagename) }

/-- Then with a blank behind the name. -/
def Statics.spaced (w : World) (st : Statics) (choice : Choice) : Statics :=
  { st.named w choice with bootlastlabel := strcat (st.named w choice).bootlastlabel [32] }

theorem remember_bare (w : World) (st : Statics) (choice : Choice)
    (bare : choice.args = none ∨ (st.named w choice).string w choice.args = []) :
    remember w choice st = st.named w choice := by
  unfold remember
  rcases bare with none | empty
  · rw [none]
    rfl
  · unfold Statics.named at empty ⊢
    simp [empty]

theorem remember_args (w : World) (st : Statics) (choice : Choice)
    (some_ : choice.args.isSome = true)
    (filled : (st.named w choice).string w choice.args ≠ []) :
    remember w choice st =
      { st.spaced w choice with
        bootlastlabel := strcat (st.spaced w choice).bootlastlabel
          ((st.spaced w choice).string w choice.args) } := by
  unfold remember
  rw [if_pos]
  · rfl
  · rw [some_, Bool.true_and, bne_iff_ne]
    exact filled

/-- What `boot-last-label` is for these texts. -/
def Texts.written (w : World) (t : Texts) : CStr :=
  t.name.getD w.lowString ++ (if t.args.getD [] = [] then [] else 32 :: t.args.getD [])

theorem Choice.args_texts (w : World) (st : Statics) (choice : Choice)
    (some_ : choice.args.isSome = true) :
    (choice.texts w st).args.getD [] = st.string w choice.args := by
  obtain ⟨p, held⟩ := Option.isSome_iff_exists.mp some_
  simp [Choice.texts, held]

theorem Choice.Apart.string (w : World) (st : Statics) (apart : Choice.Apart choice) :
    Statics.string w { st with bootlastlabel } choice.args = st.string w choice.args := by
  cases held : choice.args with
  | none => rfl
  | some p =>
    cases p with
    | bootlastlabel at_ => exact absurd held (apart at_).2
    | _ => rfl

/-- The arguments are still there to be written when no pointer of the choice is
into the option itself. -/
theorem remember_written (w : World) (st : Statics) (choice : Choice) (apart : choice.Apart) :
    strdup (remember w choice st).bootlastlabel = (choice.texts w st).written w := by
  have name : (choice.texts w st).name.getD w.lowString = st.string w choice.imagename :=
    (string_eq w st choice.imagename).symm
  have named : strdup (st.named w choice).bootlastlabel = st.string w choice.imagename := by
    unfold Statics.named
    rw [strdup_strcpy, strdup_whole _ (string_ends w st _)]
  unfold Texts.written
  rw [name]
  cases given : choice.args.isSome with
  | false =>
    have none : choice.args = none := by simpa using given
    rw [remember_bare w st choice (.inl none), named]
    simp [Choice.texts, none]
  | true =>
    rw [choice.args_texts w st given]
    by_cases empty : st.string w choice.args = []
    · rw [remember_bare w st choice (.inr ((apart.string w st).trans empty)), named, if_pos empty,
        List.append_nil]
    · have spaced : strdup (st.spaced w choice).bootlastlabel =
          st.string w choice.imagename ++ [32] := by
        unfold Statics.spaced strcat
        rw [strdup_strcpy, named, strdup_whole]
        intro c member
        rcases List.mem_append.mp member with early | blank
        · exact string_ends w st _ c early
        · rw [List.mem_singleton.mp blank]
          decide
      have args : (st.spaced w choice).string w choice.args = st.string w choice.args :=
        apart.string w st
      rw [remember_args w st choice given ((apart.string w st).trans_ne empty), if_neg empty, args]
      unfold strcat
      rw [strdup_strcpy, spaced, strdup_whole, List.append_assoc, List.singleton_append]
      intro c member
      rw [List.append_assoc, List.mem_append] at member
      rcases member with early | late
      · exact string_ends w st _ c early
      · rcases List.mem_cons.mp late with blank | behind
        · rw [blank]
          decide
        · exact string_ends w st _ c behind

/-! ### The line that is read back -/

/-- A word of a line. -/
def Word (name : CStr) : Prop := name ≠ [] ∧ ∀ c ∈ name, c ≠ 0 ∧ c ≠ 32

theorem stop_cases (stop : strdup rest = []) : rest = [] ∨ ∃ more, rest = 0 :: more := by
  cases rest with
  | nil => exact .inl rfl
  | cons c more =>
    right
    by_cases zero : c = 0
    · exact ⟨more, by rw [zero]⟩
    · simp [strdup, zero] at stop

/-- Where a word stands at the start of a buffer. -/
theorem Word.split (word : Word name) (rest : List UInt8) :
    (name ++ rest).takeWhile (· == 32) = [] ∧ (name ++ rest).dropWhile (· == 32) = name ++ rest ∧
      (name ++ rest).takeWhile (fun c => c != 0 && c != 32) =
        name ++ rest.takeWhile (fun c => c != 0 && c != 32) ∧
      (name ++ rest).dropWhile (fun c => c != 0 && c != 32) =
        rest.dropWhile (fun c => c != 0 && c != 32) := by
  obtain ⟨nonempty, whole⟩ := word
  have passes : ∀ c ∈ name, (c != 0 && c != 32) = true := by
    intro c member
    simpa using whole c member
  refine ⟨?_, ?_, List.takeWhile_append_of_pos passes, List.dropWhile_append_of_pos passes⟩
  · cases name with
    | nil => exact absurd rfl nonempty
    | cons c name => simp [(whole c (by simp)).2]
  · cases name with
    | nil => exact absurd rfl nonempty
    | cons c name => simp [(whole c (by simp)).2]

theorem Word.strdup_ne (word : Word name) (rest : List UInt8) : strdup (name ++ rest) ≠ [] := by
  obtain ⟨nonempty, whole⟩ := word
  cases name with
  | nil => exact absurd rfl nonempty
  | cons c name => simp [strdup, (whole c (by simp)).1]

/-- A word on its own. -/
theorem wordSplit_word (word : Word name) (stop : strdup rest = []) :
    wordSplit (name ++ rest) = ⟨name ++ rest, some 0, none⟩ := by
  obtain ⟨noBlanks, kept, taken, dropped⟩ := word.split rest
  have ends : rest.takeWhile (fun c => c != 0 && c != 32) = [] ∧
      rest.dropWhile (fun c => c != 0 && c != 32) = rest ∧
      rest.takeWhile (· == 32) = [] ∧ rest.dropWhile (· == 32) = rest := by
    rcases stop_cases stop with rfl | ⟨more, rfl⟩ <;> simp
  obtain ⟨noWord, behind, noGap, same⟩ := ends
  unfold wordSplit
  simp only [noBlanks, kept, taken, dropped, noWord, behind, noGap, same,
    if_neg (word.strdup_ne rest), stop, if_true]
  simp

/-- A word and what follows it, one blank apart. -/
theorem wordSplit_words (word : Word name) (filled : strdup args ≠ [])
    (packed : args.head? ≠ some 32) :
    wordSplit (name ++ 32 :: args) = ⟨name ++ 0 :: args, some 0, some (name.length + 1)⟩ := by
  obtain ⟨noBlanks, kept, taken, dropped⟩ := word.split (32 :: args)
  have gap : args.takeWhile (· == 32) = [] ∧ args.dropWhile (· == 32) = args := by
    cases args with
    | nil => exact ⟨rfl, rfl⟩
    | cons c args =>
      have other : c ≠ 32 := fun same => packed (by rw [same]; rfl)
      simp [other]
  unfold wordSplit
  simp only [noBlanks, kept, taken, dropped, if_neg (word.strdup_ne _)]
  simp [gap, filled]

/-! ### The session that reads it -/

/-- The machine after the firmware rebooted it. -/
def World.rebooted (w : World) (count : Int) : World := { w with fwRebootCnt := count }

/-- The statics of a new session, with `boot-last-label` as `written` left it and
no label to boot once. -/
structure Statics.Resumes (written st : Statics) : Prop where
  definitrd : st.definitrd = true
  once : strdup st.bootoncelabel = []
  last : strdup st.bootlastlabel = strdup written.bootlastlabel

/-- With no key pressed the label of the last boot is taken. -/
theorem prompt_rebooted (w : World) (count : Int) (rebooted : 0 < count) (idle : inp.pressed = none)
    (once : strdup st.bootoncelabel = []) (last : strdup st.bootlastlabel ≠ []) :
    prompt (w.rebooted count) inp st =
      ({ st with
          pauseAfter := false
          cbuff := st.cbuff.set 0 0
          bootlastlabel := (wordSplit st.bootlastlabel).buf },
        (wordSplit st.bootlastlabel).choice .bootlastlabel) := by
  have counted : (w.rebooted count).fwRebootCnt ≠ 0 := by
    unfold World.rebooted
    exact Int.ne_of_gt rebooted
  unfold prompt waitKey
  simp only [counted, beq_eq_false_iff_ne.mpr counted, Bool.and_false, ne_eq, not_false_eq_true,
    if_true, idle, Option.filter_none, ite_self]
  simp [enterKey, once, last]

/-- A name and nothing else, which is not taken for an initrd. -/
structure Plain (w : World) (name : CStr) : Prop where
  word : Word name
  noInitrd : startsInitrd w (some name) = false
  noLow : startsInitrd w none = false

theorem answer_skips (w : World) (st : Statics) (choice : Choice)
    (takes : takesInitrd w st choice = false) : answer w st choice = proceed w st choice := by
  unfold answer initrdSetup
  simp only [takes, Bool.false_eq_true, if_false, if_true]

theorem orDefault_named (w : World) (st : Statics) (choice : Choice)
    (given : choice.imagename.isSome = true) (filled : st.string w choice.imagename ≠ []) :
    orDefault w st choice = choice := by
  obtain ⟨p, held⟩ := Option.isSome_iff_exists.mp given
  unfold orDefault
  rw [held] at filled ⊢
  simp [filled]

theorem proceed_launch (w : World) (st : Statics) (choice : Choice)
    (kept : orDefault w st choice = choice) :
    (proceed w st choice).1 =
      launch w (remember w choice st) (select w (remember w choice st)
        (choice.texts w (remember w choice st)).name
        (choice.texts w (remember w choice st)).args) := by
  unfold proceed
  simp only [kept]
  rfl

theorem string_last (w : World) (st : Statics) (at_ : Nat) :
    st.string w (some (.bootlastlabel at_)) = strdup (st.bootlastlabel.drop at_) := rfl

/-- A name on its own comes back as it was. -/
theorem resume_word (plain : Plain w name) (definitrd : st.definitrd = true)
    (last : strdup st.bootlastlabel = name) :
    ∃ st', st'.definitrd = true ∧ (answer w st ⟨some (.bootlastlabel 0), none⟩).1 =
      launch w st' (select w st' (some name) none) := by
  generalize chosen : Choice.mk (some (.bootlastlabel 0)) none = choice
  have image : st.string w choice.imagename = name := by
    rw [← chosen]
    exact last
  have takes : takesInitrd w st choice = false := by
    unfold takesInitrd namesInitrd
    rw [image, definitrd, ← chosen]
    exact Bool.or_eq_false_iff.mpr
      ⟨Bool.or_eq_false_iff.mpr ⟨plain.noLow, plain.noInitrd⟩, rfl⟩
  have bare : remember w choice st = st.named w choice := by
    apply remember_bare
    rw [← chosen]
    exact .inl rfl
  have texts : choice.texts w (st.named w choice) = ⟨some name, none⟩ := by
    unfold Choice.texts Statics.named
    rw [image, ← chosen]
    simp only [Option.map_some, Option.map_none, string_last, List.drop_zero]
    rw [strdup_strcpy, strdup_whole _ fun c member => (plain.word.2 c member).1]
  have given : orDefault w st choice = choice := by
    apply orDefault_named
    · rw [← chosen]
      rfl
    · rw [image]
      exact plain.word.1
  refine ⟨st.named w choice, definitrd, ?_⟩
  rw [answer_skips w st choice takes, proceed_launch w st choice given, bare, texts]

theorem drop_past (s : CStr) (rest : List UInt8) :
    (s ++ 0 :: rest).drop (s.length + 1) = rest := by
  rw [List.drop_append, List.drop_eq_nil_of_le (by omega)]
  simp

/-- The blank that is put back between name and arguments ends the arguments,
which are in the buffer it is written to. -/
theorem resume_words (plain : Plain w name) (definitrd : st.definitrd = true)
    (filled : strdup args ≠ []) (noInitrd : startsInitrd w (some (strdup args)) = false)
    (last : st.bootlastlabel = name ++ 0 :: args) :
    ∃ st', st'.definitrd = true ∧
      (answer w st ⟨some (.bootlastlabel 0), some (.bootlastlabel (name.length + 1))⟩).1 =
        launch w st' (select w st' (some (name ++ [32])) (some [])) := by
  generalize chosen : Choice.mk (some (.bootlastlabel 0))
    (some (.bootlastlabel (name.length + 1))) = choice
  have ends : ∀ c ∈ name, c ≠ 0 := fun c member => (plain.word.2 c member).1
  have ends' : ∀ c ∈ name ++ [32], c ≠ 0 := by
    intro c member
    rcases List.mem_append.mp member with early | blank
    · exact ends c early
    · rw [List.mem_singleton.mp blank]
      decide
  have image : st.string w choice.imagename = name := by
    rw [← chosen, string_last, last, List.drop_zero, strdup_append_zero, strdup_whole _ ends]
  have arguments : st.string w choice.args = strdup args := by
    rw [← chosen, string_last, last, drop_past]
  have takes : takesInitrd w st choice = false := by
    unfold takesInitrd namesInitrd
    rw [image, arguments, definitrd]
    exact Bool.or_eq_false_iff.mpr
      ⟨Bool.or_eq_false_iff.mpr ⟨noInitrd, plain.noInitrd⟩, rfl⟩
  have given : orDefault w st choice = choice := by
    apply orDefault_named
    · rw [← chosen]
      rfl
    · rw [image]
      exact plain.word.1
  have named : (st.named w choice).bootlastlabel = name ++ 0 :: args := by
    unfold Statics.named strcpy
    rw [image, last, drop_past]
  have spaced : (st.spaced w choice).bootlastlabel = (name ++ [32]) ++ 0 :: args.drop 1 := by
    unfold Statics.spaced strcat strcpy
    simp only [named, strdup_append_zero, strdup_whole _ ends]
    rw [List.length_append, List.length_singleton, ← List.drop_drop, drop_past]
  have cleared : (st.spaced w choice).string w choice.args = [] := by
    rw [← chosen, string_last, chosen, spaced, List.append_assoc, List.drop_append,
      List.drop_eq_nil_of_le (by omega)]
    simp [strdup]
  have written : remember w choice st =
      { st.spaced w choice with bootlastlabel := (name ++ [32]) ++ 0 :: args.drop 1 } := by
    rw [remember_args w st choice (by rw [← chosen]; rfl), cleared]
    · unfold strcat strcpy
      rw [spaced, strdup_append_zero, strdup_whole _ ends', List.append_nil, drop_past]
    · rw [← chosen, string_last, chosen, named, drop_past]
      exact filled
  refine ⟨remember w choice st, ?_, ?_⟩
  · rw [written]
    exact definitrd
  · have texts : choice.texts w (remember w choice st) = ⟨some (name ++ [32]), some []⟩ := by
      rw [written]
      unfold Choice.texts
      rw [← chosen]
      simp only [Option.map_some, string_last, List.drop_zero]
      rw [strdup_append_zero, strdup_whole _ ends', List.append_assoc, List.drop_append,
        List.drop_eq_nil_of_le (by omega)]
      simp [strdup]
    rw [answer_skips w st choice takes, proceed_launch w st choice given, texts]

/-! ### Arguments of a line -/

/-- Arguments do not start with a blank. -/
def Choice.Packed (w : World) (st : Statics) (choice : Choice) : Prop :=
  ∀ args, (choice.texts w st).args = some args → args.head? ≠ some 32

theorem otherWords_packed (line : CStr) (held : otherWords line = some args) :
    args.head? ≠ some 32 := by
  unfold otherWords at held
  dsimp only at held
  split at held
  · cases held
  · obtain rfl := Option.some.inj held
    intro blank
    have head := List.head?_dropWhile_not (· == 32)
      ((dropBlanks line).dropWhile (· != 32))
    unfold dropBlanks at head blank
    rw [blank] at head
    cases head

theorem enterKey_packed (w : World) (st : Statics) (choice : Choice)
    (packed : choice.Packed w st) : (enterKey w st choice).2.Packed w (enterKey w st choice).1 := by
  unfold enterKey
  split
  · exact packed
  · split
    · exact packed
    · split
      · intro args held
        apply otherWords_packed (strdup st.bootlastlabel)
        rw [← wordSplit_params, ← held]
        simp only [Choice.texts, Words.choice, Option.map_map]
        rfl
      · exact packed

theorem waitKey_cbuff (timeout : Int) (inp : Input) (st : Statics) :
    ∃ cbuff, (waitKey timeout inp st).2 = { st with cbuff } := by
  unfold waitKey
  split
  · exact ⟨_, rfl⟩
  · split
    · exact ⟨_, rfl⟩
    · dsimp only
      split
      · exact ⟨_, rfl⟩
      · exact ⟨_, rfl⟩

theorem typedLine_packed (w : World) (inp : Input) (st : Statics) :
    (typedLine w inp st).2.Packed w (typedLine w inp st).1 := by
  intro args held
  rw [typedLine_texts] at held
  exact otherWords_packed _ held

/-- Whatever a choice was made from, its arguments come from `word_split`. -/
theorem prompt_packed (w : World) (inp : Input) (st : Statics) :
    (prompt w inp st).2.Packed w (prompt w inp st).1 := by
  unfold prompt
  dsimp only
  generalize given : (if (st.first && w.fwRebootCnt == 0) = true then _ else _ : Choice) = choice
  generalize ready : (if (st.first && w.fwRebootCnt == 0) = true then _ else _ : Statics) = st₁
  generalize (if w.fwRebootCnt ≠ 0 then 1 else _ : Int) = timeout
  have packed : ∀ cbuff, choice.Packed w { st₁ with cbuff } := by
    intro cbuff args held
    rw [← given, ← ready] at held
    split at held
    · apply otherWords_packed (strdup st.bootargs)
      rw [← wordSplit_params, ← held]
      simp only [Choice.texts, Words.choice, Option.map_map]
      rfl
    · obtain rfl := Option.some.inj held
      intro blank
      cases blank
  obtain ⟨cbuff, waited⟩ := waitKey_cbuff timeout inp st₁
  generalize waitKey timeout inp st₁ = key at waited
  rcases key with ⟨_ | c, st₂⟩
  · exact typedLine_packed w inp st₂
  · dsimp only at waited ⊢
    subst waited
    split
    · exact enterKey_packed w _ choice (packed _)
    · split
      · split
        · exact packed _
        · exact typedLine_packed w inp _
      · exact typedLine_packed w inp _

/-! ### What is handed over -/

/-- What two sessions hand over, a string that is not there being empty. -/
structure BootParam.Same (p q : BootParam) : Prop where
  kernel : p.kernel = q.kernel
  rd : p.rd = q.rd
  args : p.args.getD [] = q.args.getD []

/-- Selections that differ at most in their arguments and messages. -/
structure Selection.Alike (s s' : Selection) : Prop where
  label : s.label = s'.label
  imagename : s.imagename = s'.imagename
  defdevice : s.defdevice = s'.defdevice
  defpart : s.defpart = s'.defpart

theorem select_alike (w : World) (st st' : Statics) (name args args' : Option CStr) :
    (select w st name args).Alike (select w st' name args') := by
  unfold select
  cases w.useconf with
  | false => exact ⟨rfl, rfl, rfl, rfl⟩
  | true => rcases w.strg name "image" with _ | _ | _ <;> exact ⟨rfl, rfl, rfl, rfl⟩

theorem select_args (w : World) (st : Statics) (name : CStr) (args : Option CStr) :
    (select w st (some name) args).args =
      if (select w st (some name) args).label.isSome then some (makeParams w (some name) args)
      else args := by
  unfold select
  cases w.useconf with
  | false => rfl
  | true => rcases w.strg (some name) "image" with _ | _ | _ <;> rfl

/-- The file a path names in place of the initrd of a selection. -/
def World.initrdAt (w : World) (s : Selection) (path : CStr) : BootFspec :=
  (parseDevicePath w.fw path s.defdevice s.defpart (cstr "/root.bin") w.boot).2

theorem rdFspec_eq_iff (w : World) (alike : Selection.Alike s s') (st st' : Statics) :
    rdFspec w st s = rdFspec w st' s' ↔
      ∀ p, w.useconf = true → w.strg s.label "initrd" = some p → p ≠ [] →
        w.initrdAt s (initrdPath w st p) = w.initrdAt s (initrdPath w st' p) := by
  unfold rdFspec World.initrdAt
  rw [← alike.label, ← alike.defdevice, ← alike.defpart]
  cases w.useconf with
  | false => simp
  | true =>
    rcases w.strg s.label "initrd" with _ | _ | ⟨c, p⟩
    · simp
    · simp
    · simp

theorem launch_image_params (w : World) (st : Statics) (s : Selection)
    (image : command (s.imagename.getD w.lowString) = .image) :
    (launch w st s).params =
      ⟨(kernelFspec w s).2,
        if (kernelFspec w s).1 then rdFspec w st s else { BootFspec.zero with part := -1 },
        s.args⟩ := by
  unfold launch
  rw [image]

theorem launch_other_params (w : World) (st : Statics) (s : Selection)
    (other : command (s.imagename.getD w.lowString) ≠ .image) :
    (launch w st s).params = .empty
      (if command (s.imagename.getD w.lowString) = .conf ∧ w.password.isSome = false
        then some [] else s.args) := by
  unfold launch
  cases named : command (s.imagename.getD w.lowString) with
  | image => exact absurd named other
  | conf => cases w.password.isSome <;> rfl
  | _ => rfl

/-- Two selections that are alike and name the same ramdisk launch the same. -/
theorem launch_same (w : World) (alike : Selection.Alike s s') (st st' : Statics)
    (args : s.args.getD [] = s'.args.getD [])
    (rd : (kernelFspec w s).1 = true → rdFspec w st s = rdFspec w st' s') :
    (launch w st s).params.Same (launch w st' s').params := by
  have kernel : kernelFspec w s = kernelFspec w s' := by
    unfold kernelFspec
    rw [alike.imagename, alike.defdevice, alike.defpart]
  by_cases image : command (s.imagename.getD w.lowString) = .image
  · rw [launch_image_params w st s image,
      launch_image_params w st' s' (alike.imagename ▸ image), ← kernel]
    refine ⟨rfl, ?_, args⟩
    dsimp only
    split
    · exact rd ‹_›
    · rfl
  · rw [launch_other_params w st s image,
      launch_other_params w st' s' (alike.imagename ▸ image), ← alike.imagename]
    refine ⟨rfl, rfl, ?_⟩
    unfold BootParam.empty
    dsimp only
    split
    · rfl
    · exact args

theorem makeParams_bare (w : World) (label : Option CStr)
    (literal : ∀ p, w.strg label "literal" = some p → p = []) :
    makeParams w label (some []) = makeParams w label none := by
  unfold makeParams
  cases held : w.strg label "literal" with
  | none => rfl
  | some p =>
    obtain rfl := literal p held
    rfl

theorem makeParams_literal (w : World) (label : Option CStr)
    (literal : w.strg label "literal" = some p) (filled : p ≠ []) :
    makeParams w label (some []) ≠ makeParams w label none := by
  unfold makeParams
  rw [literal]
  simp [filled]

theorem makeParams_filled (w : World) (label : Option CStr) (filled : args ≠ []) :
    makeParams w label (some args) ≠ [] := by
  unfold makeParams
  cases w.strg label "literal" <;> simp [filled]

/-! ### The trip -/

/-- The texts of a choice by the time they are written. -/
def Choice.settled (w : World) (st : Statics) (choice : Choice) : Texts :=
  if takesInitrd w st choice then ⟨w.defaultLabel, none⟩
  else ⟨orDefaultText w (choice.texts w st).name, (choice.texts w st).args⟩

/-- What the configuration makes of it. -/
def Choice.selection (w : World) (st : Statics) (choice : Choice) : Selection :=
  select w st (choice.settled w st).name (choice.settled w st).args

/-- The choice that is written is a name alone, and no initrd was typed for it
other than the one of the configuration. -/
structure Survives (w : World) (st : Statics) (choice : Choice) : Prop where
  name : ∃ name, (choice.settled w st).name = some name ∧ Plain w name
  bare : (choice.settled w st).args = none ∨ (choice.settled w st).args = some [] ∧
    ((choice.selection w st).label.isSome = true → ∀ p,
      w.strg (choice.settled w st).name "literal" = some p → p = [])
  initrd : takesInitrd w st choice = true → (kernelFspec w (choice.selection w st)).1 = true →
    ∀ p, w.useconf = true → w.strg (choice.selection w st).label "initrd" = some p → p ≠ [] →
      w.initrdAt (choice.selection w st) (initrdPath w (initrdSetup w st choice).2.1 p) =
        w.initrdAt (choice.selection w st) (p.take 1024)

/-- A plain name that boots, where no label ends in a blank. -/
structure Ordinary (w : World) (st : Statics) (choice : Choice) : Prop where
  name : ∃ name, (choice.settled w st).name = some name ∧ Plain w name
  image : command ((choice.selection w st).imagename.getD w.lowString) = .image
  labels : ∀ word image, w.strg (some (word ++ [32])) "image" = some image → image = []

/-- A line whose words do not lie in the buffer of the last label is launched as it reads, and
written there as it reads. -/
theorem proceed_settled (w : World) (st : Statics) (choice : Choice) (apart : choice.Apart) :
    (∃ bootlastlabel, (proceed w st choice).1 =
      launch w { st with bootlastlabel } (select w { st with bootlastlabel }
        (orDefaultText w (choice.texts w st).name) (choice.texts w st).args)) ∧
      strdup (proceed w st choice).2.bootlastlabel =
        Texts.written w ⟨orDefaultText w (choice.texts w st).name, (choice.texts w st).args⟩ := by
  have apart' := orDefault_apart w st apart
  have written := remember_written w st (orDefault w st choice) apart'
  have texts := texts_remember w st (orDefault w st choice) (orDefault w st choice) apart'
  rw [orDefault_texts] at written texts
  obtain ⟨last, remembered⟩ := remember_eq w (orDefault w st choice) st
  refine ⟨⟨last, ?_⟩, written⟩
  have name := congrArg Texts.name texts
  have args := congrArg Texts.args texts
  rw [remembered] at name args
  unfold Choice.texts at name args ⊢
  unfold proceed
  dsimp only at name args ⊢
  rw [remembered, name, args]

theorem orDefaultText_default (w : World) : orDefaultText w w.defaultLabel = w.defaultLabel := by
  unfold orDefaultText
  split <;> rfl

/-- A session boots and writes what its choice has settled to. -/
theorem answer_settled (w : World) (st : Statics) (choice : Choice) (apart : choice.Apart)
    (wrote : (initrdSetup w st choice).1 = true) :
    (∃ st', Statics.SameInitrd (initrdSetup w st choice).2.1 st' ∧
      (answer w st choice).1.params = (launch w st' (select w st' (choice.settled w st).name
        (choice.settled w st).args)).params) ∧
      strdup (answer w st choice).2.bootlastlabel = (choice.settled w st).written w := by
  have settled : (initrdSetup w st choice).2.2.Apart ∧
      (initrdSetup w st choice).2.2.texts w (initrdSetup w st choice).2.1 =
        ⟨if takesInitrd w st choice then w.defaultLabel else (choice.texts w st).name,
          (choice.settled w st).args⟩ := by
    unfold initrdSetup Choice.settled at *
    cases takes : takesInitrd w st choice with
    | false => exact ⟨apart, rfl⟩
    | true =>
      simp only [takes, if_true] at wrote ⊢
      split at wrote
      · cases wrote
      · rename_i filled
        rw [if_neg filled]
        exact ⟨defaultChoice_apart w, defaultChoice_texts w _⟩
  have name : orDefaultText w (if takesInitrd w st choice then w.defaultLabel
      else (choice.texts w st).name) = (choice.settled w st).name := by
    unfold Choice.settled
    split
    · exact orDefaultText_default w
    · rfl
  obtain ⟨⟨last, launched⟩, written⟩ := proceed_settled w _ _ settled.1
  rw [settled.2, name] at launched written
  unfold answer
  simp only [wrote, if_true]
  exact ⟨⟨_, ⟨rfl, fun _ => rfl⟩, congrArg Outcome.params launched⟩, written⟩

theorem initrdSetup_definitrd (w : World) (st : Statics) (choice : Choice)
    (wrote : (initrdSetup w st choice).1 = true) :
    (initrdSetup w st choice).2.1.definitrd = !takesInitrd w st choice := by
  unfold initrdSetup at *
  cases takes : takesInitrd w st choice with
  | false =>
    unfold takesInitrd at takes
    simpa using (Bool.or_eq_false_iff.mp takes).2
  | true =>
    simp only [takes, if_true] at wrote ⊢
    split at wrote
    · cases wrote
    · rename_i filled
      rw [if_neg filled]
      rfl

/-- What the session after the reboot boots when a name was written. -/
theorem resumed_word (w : World) (count : Int) (rebooted : 0 < count)
    (idle : inp.pressed = none) (definitrd : st.definitrd = true)
    (once : strdup st.bootoncelabel = []) (plain : Plain w name)
    (last : strdup st.bootlastlabel = name) :
    ∃ st', st'.definitrd = true ∧
      (getParams (w.rebooted count) inp st).1 = launch w st' (select w st' (some name) none) := by
  obtain ⟨rest, whole, stop⟩ := strdup_split st.bootlastlabel
  rw [last] at whole
  have split := wordSplit_word plain.word stop
  rw [← whole] at split
  have plain' : Plain (w.rebooted count) name := ⟨plain.word, plain.noInitrd, plain.noLow⟩
  unfold getParams
  rw [prompt_rebooted w count rebooted idle once (last.trans_ne plain.word.1), split]
  exact resume_word plain' definitrd last

/-- And when arguments were written behind it. -/
theorem resumed_words (w : World) (count : Int) (rebooted : 0 < count)
    (idle : inp.pressed = none) (definitrd : st.definitrd = true)
    (once : strdup st.bootoncelabel = []) (plain : Plain w name) (filled : args ≠ [])
    (packed : args.head? ≠ some 32) (noInitrd : startsInitrd w (some args) = false)
    (last : strdup st.bootlastlabel = name ++ 32 :: args) :
    ∃ st', st'.definitrd = true ∧ (getParams (w.rebooted count) inp st).1 =
      launch w st' (select w st' (some (name ++ [32])) (some [])) := by
  obtain ⟨rest, whole, stop⟩ := strdup_split st.bootlastlabel
  have ends : ∀ c ∈ args, c ≠ 0 := by
    intro c member
    apply strdup_ne_zero st.bootlastlabel
    rw [last]
    simp [member]
  have string : strdup (args ++ rest) = args := strdup_append_stop args ends stop
  rw [last, List.append_assoc, List.cons_append] at whole
  have packed' : (args ++ rest).head? ≠ some 32 := by
    cases args with
    | nil => exact absurd rfl filled
    | cons c args => exact packed
  have split := wordSplit_words plain.word (string.trans_ne filled) packed'
  rw [← whole] at split
  have plain' : Plain (w.rebooted count) name := ⟨plain.word, plain.noInitrd, plain.noLow⟩
  have named : strdup st.bootlastlabel ≠ [] := by
    rw [last]
    simp
  unfold getParams
  rw [prompt_rebooted w count rebooted idle once named, split]
  exact resume_words plain' definitrd (string.trans_ne filled) (string.symm ▸ noInitrd) rfl

theorem Selection.Alike.kernel (w : World) (alike : Selection.Alike s s') :
    kernelFspec w s = kernelFspec w s' := by
  unfold kernelFspec
  rw [alike.imagename, alike.defdevice, alike.defpart]

theorem Selection.Alike.initrdAt (w : World) (alike : Selection.Alike s s') :
    w.initrdAt s = w.initrdAt s' := by
  unfold World.initrdAt
  rw [alike.defdevice, alike.defpart]

theorem initrdPath_configured (w : World) (st : Statics) (definitrd : st.definitrd = true)
    (p : CStr) : initrdPath w st p = p.take 1024 := by
  unfold initrdPath
  rw [if_pos definitrd]

/-- The initrds of both sessions, compared path by path. -/
theorem initrd_same_iff (w : World) (alike : Selection.Alike s s') (alike' : Selection.Alike s s'')
    (same : Statics.SameInitrd st st') (definitrd : st''.definitrd = true) :
    rdFspec w st' s' = rdFspec w st'' s'' ↔
      ∀ p, w.useconf = true → w.strg s.label "initrd" = some p → p ≠ [] →
        w.initrdAt s (initrdPath w st p) = w.initrdAt s (p.take 1024) := by
  have between : Selection.Alike s' s'' :=
    ⟨alike.label.symm.trans alike'.label, alike.imagename.symm.trans alike'.imagename,
      alike.defdevice.symm.trans alike'.defdevice, alike.defpart.symm.trans alike'.defpart⟩
  rw [rdFspec_eq_iff w between, ← alike.label, ← alike.initrdAt w]
  simp only [initrdPath_configured w st'' definitrd, same.path w]

/-- A line whose arguments are empty selects what the name alone selects. -/
theorem bare_args (w : World) (st st' : Statics) (name : CStr)
    (bare : args = none ∨ args = some [] ∧
      ((select w st (some name) args).label.isSome = true → ∀ p,
        w.strg (some name) "literal" = some p → p = [])) :
    (select w st (some name) args).args.getD [] =
      (select w st' (some name) none).args.getD [] := by
  rw [select_args, select_args,
    (select_alike w st' st (some name) none args).label]
  rcases bare with rfl | ⟨rfl, literal⟩
  · rfl
  · cases label : (select w st (some name) (some [])).label.isSome with
    | false => rfl
    | true => rw [if_pos rfl, if_pos rfl, makeParams_bare w _ (literal label)]

/-- The trip of a name without arguments. -/
theorem bare_trip (w : World) (st st₂ st₃ : Statics) (choice : Choice)
    (named : (choice.settled w st).name = some name)
    (wrote : (initrdSetup w st choice).1 = true)
    (same : Statics.SameInitrd (initrdSetup w st choice).2.1 st₂)
    (definitrd : st₃.definitrd = true) (bare : (choice.settled w st).args.getD [] = []) :
    (Survives w st choice →
      (launch w st₂ (select w st₂ (choice.settled w st).name (choice.settled w st).args)).params.Same
        (launch w st₃ (select w st₃ (some name) none)).params) ∧
    (Ordinary w st choice →
      (launch w st₂ (select w st₂ (choice.settled w st).name (choice.settled w st).args)).params.Same
        (launch w st₃ (select w st₃ (some name) none)).params →
      Survives w st choice) := by
  have alike : (choice.selection w st).Alike
      (select w st₂ (choice.settled w st).name (choice.settled w st).args) :=
    select_alike w st st₂ _ _ _
  have alike' : (choice.selection w st).Alike (select w st₃ (some name) none) := by
    unfold Choice.selection
    rw [named]
    exact select_alike w st st₃ _ _ _
  have between : (select w st₂ (choice.settled w st).name (choice.settled w st).args).Alike
      (select w st₃ (some name) none) := by
    rw [named]
    exact select_alike w st₂ st₃ _ _ _
  have initrds := initrd_same_iff w alike alike' same definitrd
  constructor
  · intro survives
    refine launch_same w between st₂ st₃ ?_ fun parsed => initrds.mpr ?_
    · have bare' := survives.bare
      unfold Choice.selection at bare'
      rw [named] at bare' ⊢
      rw [(select_alike w st st₂ _ _ (choice.settled w st).args).label] at bare'
      exact bare_args w st₂ st₃ name bare'
    · rw [← alike.kernel w] at parsed
      cases takes : takesInitrd w st choice with
      | true => exact survives.initrd takes parsed
      | false =>
        intro p _ _ _
        have configured := initrdSetup_definitrd w st choice wrote
        rw [takes, Bool.not_false] at configured
        rw [initrdPath_configured w _ configured]
  · intro ordinary equal
    have image := ordinary.image
    rw [launch_image_params w st₂ _ (alike.imagename ▸ image),
      launch_image_params w st₃ _ (alike'.imagename ▸ image), ← alike.kernel w,
      ← alike'.kernel w] at equal
    refine ⟨ordinary.name, ?_, ?_⟩
    · cases given : (choice.settled w st).args with
      | none => exact .inl rfl
      | some args =>
        rw [given] at bare
        obtain rfl : args = [] := bare
        refine .inr ⟨rfl, fun label p literal => ?_⟩
        by_contra filled
        have args := equal.args
        rw [given, named] at args
        rw [named] at literal
        dsimp only at args
        rw [select_args, select_args, ← alike'.label] at args
        rw [given, named] at alike
        rw [← alike.label, label, if_pos rfl, if_pos rfl] at args
        exact makeParams_literal w _ literal filled args
    · intro _ parsed
      have rd := equal.rd
      simp only [parsed, if_true] at rd
      exact initrds.mp rd

/-- Arguments do not come back, and no label ends in a blank. -/
theorem filled_trip (w : World) (st₂ st₃ : Statics) (filled : args ≠ [])
    (image : command ((select w st₂ (some name) (some args)).imagename.getD w.lowString) = .image)
    (labels : ∀ word image, w.strg (some (word ++ [32])) "image" = some image → image = []) :
    ¬ (launch w st₂ (select w st₂ (some name) (some args))).params.Same
        (launch w st₃ (select w st₃ (some (name ++ [32])) (some []))).params := by
  intro equal
  have custom : (select w st₃ (some (name ++ [32])) (some [])).label = none :=
    select_custom w st₃ _ _ fun _ found => labels name found
  have nothing : (select w st₃ (some (name ++ [32])) (some [])).args = some [] := by
    rw [select_args, custom]
    rfl
  have lost : (launch w st₃ (select w st₃ (some (name ++ [32])) (some []))).params.args =
      some [] := by
    by_cases image' : command ((select w st₃ (some (name ++ [32])) (some [])).imagename.getD
        w.lowString) = .image
    · rw [launch_image_params w st₃ _ image', nothing]
    · rw [launch_other_params w st₃ _ image', nothing, ite_self]
      rfl
  have args_eq := equal.args
  rw [launch_image_params w st₂ _ image, lost] at args_eq
  dsimp only at args_eq
  rw [select_args] at args_eq
  split at args_eq
  · exact makeParams_filled w _ filled args_eq
  · exact filled args_eq

theorem Survives.args_eq_nil (survives : Survives w st choice) :
    (choice.settled w st).args.getD [] = [] := by
  rcases survives.bare with none | empty
  · rw [none]
    rfl
  · rw [empty.1]
    rfl

/-- Arguments that are typed stay with the name: no initrd is set up for them. -/
theorem settled_typed (w : World) (st : Statics) (choice : Choice)
    (given : (choice.settled w st).args = some (c :: args)) :
    (choice.texts w st).args = some (c :: args) ∧ startsInitrd w (some (c :: args)) = false := by
  have plainly : takesInitrd w st choice = false := by
    cases takes : takesInitrd w st choice with
    | false => rfl
    | true =>
      unfold Choice.settled at given
      rw [takes] at given
      cases given
  have typed : (choice.texts w st).args = some (c :: args) := by
    unfold Choice.settled at given
    rw [plainly] at given
    exact given
  refine ⟨typed, ?_⟩
  rw [takesInitrd_texts] at plainly
  rw [← typed]
  exact (Bool.or_eq_false_iff.mp (Bool.or_eq_false_iff.mp plainly).1).1

/-- With arguments behind it, the name is read back as another one. -/
theorem worded_trip (w : World) (st st₂ st' : Statics) (choice : Choice) (count : Int)
    (rebooted : 0 < count) (idle : inp.pressed = none) (definitrd : st'.definitrd = true)
    (once : strdup st'.bootoncelabel = []) (packed : choice.Packed w st)
    (given : (choice.settled w st).args = some (c :: args))
    (last : strdup st'.bootlastlabel = (choice.settled w st).written w)
    (ordinary : Ordinary w st choice) :
    ¬ (launch w st₂ (select w st₂ (choice.settled w st).name
        (choice.settled w st).args)).params.Same (getParams (w.rebooted count) inp st').1.params := by
  intro equal
  obtain ⟨name, named, plain⟩ := ordinary.name
  obtain ⟨typed, noInitrd⟩ := settled_typed w st choice given
  have written : strdup st'.bootlastlabel = name ++ 32 :: c :: args := by
    rw [last]
    simp [Texts.written, named, given]
  obtain ⟨st₃, _, again⟩ := resumed_words w count rebooted idle definitrd once plain
    (List.cons_ne_nil c args) (packed _ typed) noInitrd written
  have image := ordinary.image
  unfold Choice.selection at image
  rw [named, given] at equal image
  rw [again] at equal
  rw [(select_alike w st st₂ _ _ (some (c :: args))).imagename] at image
  exact filled_trip w st₂ st₃ (List.cons_ne_nil c args) image ordinary.labels equal

/-- The session that resumes boots what was booted, if what was written survives
the trip; and for ordinary names it boots something else if it does not. -/
theorem reboot_seamless (w : World) (inp inp' : Input) (st st' : Statics) (count : Int)
    (apart : (prompt w inp st).2.Apart)
    (wrote : (initrdSetup w (prompt w inp st).1 (prompt w inp st).2).1 = true)
    (rebooted : 0 < count) (idle : inp'.pressed = none)
    (resumes : (getParams w inp st).2.Resumes st') :
    (Survives w (prompt w inp st).1 (prompt w inp st).2 →
      (getParams w inp st).1.params.Same (getParams (w.rebooted count) inp' st').1.params) ∧
    (Ordinary w (prompt w inp st).1 (prompt w inp st).2 →
      (getParams w inp st).1.params.Same (getParams (w.rebooted count) inp' st').1.params →
        Survives w (prompt w inp st).1 (prompt w inp st).2) := by
  have packed := prompt_packed w inp st
  have last := resumes.last
  have booted : getParams w inp st = answer w (prompt w inp st).1 (prompt w inp st).2 := rfl
  rw [booted] at last ⊢
  generalize prompt w inp st = chosen at *
  obtain ⟨st₁, choice⟩ := chosen
  obtain ⟨⟨st₂, same, launched⟩, written⟩ := answer_settled w st₁ choice apart wrote
  rw [written] at last
  rw [launched]
  rcases bare : (choice.settled w st₁).args.getD [] with _ | ⟨c, args⟩
  · have resumed : ∀ name, (choice.settled w st₁).name = some name → Plain w name →
        ∃ st₃, st₃.definitrd = true ∧ (getParams (w.rebooted count) inp' st').1 =
          launch w st₃ (select w st₃ (some name) none) := by
      intro name named plain
      apply resumed_word w count rebooted idle resumes.definitrd resumes.once plain
      rw [last]
      simp [Texts.written, named, bare]
    constructor
    · intro survives
      obtain ⟨name, named, plain⟩ := survives.name
      obtain ⟨st₃, definitrd, again⟩ := resumed name named plain
      rw [again]
      exact (bare_trip w st₁ st₂ st₃ choice named wrote same definitrd bare).1 survives
    · intro ordinary equal
      obtain ⟨name, named, plain⟩ := ordinary.name
      obtain ⟨st₃, definitrd, again⟩ := resumed name named plain
      rw [again] at equal
      exact (bare_trip w st₁ st₂ st₃ choice named wrote same definitrd bare).2 ordinary equal
  · have given : (choice.settled w st₁).args = some (c :: args) := by
      cases held : (choice.settled w st₁).args with
      | none =>
        rw [held] at bare
        cases bare
      | some args' =>
        rw [held] at bare
        exact congrArg some bare
    constructor
    · intro survives
      rw [survives.args_eq_nil] at bare
      cases bare
    · intro ordinary equal
      exact absurd equal (worded_trip w st₁ st₂ st' choice count rebooted idle resumes.definitrd
        resumes.once packed given last ordinary)

/-- A session of the sample disk that starts with what another one wrote. -/
def afterReboot (line : String) : Statics :=
  { atStart with bootlastlabel := (getParams sampleWorld (typing line) atStart).2.bootlastlabel }

def idleInput : Input := ⟨none, []⟩

theorem typing_apart (line : String) : (prompt sampleWorld (typing line) atStart).2.Apart := by
  have timeout : sampleWorld.timeout = -1 := by decide +kernel
  intro at_
  unfold prompt waitKey
  have calm : sampleWorld.fwRebootCnt = 0 := rfl
  simp [calm, timeout, typedLine, Words.choice]

theorem typing_survives : Survives sampleWorld (prompt sampleWorld (typing "b") atStart).1
    (prompt sampleWorld (typing "b") atStart).2 where
  name := ⟨cstr "b", by decide +kernel, ⟨by decide +kernel, by decide +kernel⟩,
    by decide +kernel, by decide +kernel⟩
  bare := .inl (by decide +kernel)
  initrd := fun takes => absurd takes (by decide +kernel)

/-- The label `b` is booted again. -/
theorem reboot_seamless_label : (getParams sampleWorld (typing "b") atStart).1.params.Same
    (getParams (sampleWorld.rebooted 1) idleInput (afterReboot "b")).1.params :=
  (reboot_seamless sampleWorld (typing "b") idleInput atStart (afterReboot "b") 1
    (typing_apart "b") (by decide +kernel) (by decide) rfl ⟨rfl, rfl, rfl⟩).1 typing_survives

/-- Arguments typed behind it are gone, and the label with them. -/
theorem reboot_not_seamless : ¬ ∀ w inp inp' st st' count, (prompt w inp st).2.Apart →
    (initrdSetup w (prompt w inp st).1 (prompt w inp st).2).1 = true → (0 : Int) < count →
    inp'.pressed = none → (getParams w inp st).2.Resumes st' →
    (getParams w inp st).1.params.Same (getParams (w.rebooted count) inp' st').1.params := by
  intro seamless
  have same := seamless sampleWorld (typing "b single") idleInput atStart
    (afterReboot "b single") 1 (typing_apart "b single") (by decide +kernel) (by decide) rfl
    ⟨rfl, rfl, rfl⟩
  have differs : (getParams sampleWorld (typing "b single") atStart).1.params.kernel ≠
      (getParams (sampleWorld.rebooted 1) idleInput (afterReboot "b single")).1.params.kernel := by
    decide +kernel
  exact differs same.kernel

end Yaboot.Prompt
