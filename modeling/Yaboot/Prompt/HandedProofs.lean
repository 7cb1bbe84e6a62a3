import Yaboot.Prompt.ConfProofs
import Yaboot.Prompt.Handed
import Yaboot.Prompt.RebootProofs

/-! When no null pointer is handed to a string function. The block on `initrd=`
compares the arguments of every line, and most lines have none. -/
namespace Yaboot.Prompt
open CString Cfg Fs Netboot

/-! ### The line of a call -/

/-- The statics once the boot arguments have been looked at. -/
def started (w : World) (st : Statics) : Statics :=
  if w.starts st then
    { st with
      first := false
      cbuff := st.cbuff.set 0 0
      bootargs := (wordSplit st.bootargs).buf
      pauseAfter := false }
  else { st with cbuff := st.cbuff.set 0 0, pauseAfter := false }

def firstChoice (w : World) (st : Statics) : Choice :=
  if w.starts st then (wordSplit st.bootargs).choice .bootargs else ⟨none, some (.text [])⟩

theorem waitKey_key (w : World) (inp : Input) (st st' : Statics) :
    waitKey (w.waits st) inp st' = (w.key inp st,
      match w.key inp st with
      | none => st'
      | some c => if c = 10 ∨ c = 9 ∨ c = 13 ∨ c = 8 then st' else typeKey c st') := by
  unfold waitKey World.key
  by_cases never : w.waits st = -1
  · rw [if_pos never, if_pos never]
  · rw [if_neg never, if_neg never]
    cases (if 0 < w.waits st then inp.pressed.filter (· != 255) else none) <;> rfl

theorem started_cbuff (w : World) (st : Statics) : (started w st).cbuff = st.cbuff.set 0 0 := by
  unfold started
  split <;> rfl

/-- A key is written to the line once or twice. -/
theorem typeKey_started (w : World) (c : UInt8) (st : Statics) :
    typeKey c (started w st) = { started w st with cbuff := (typeKey c st).cbuff } ∧
      typeKey c { started w st with cbuff := (typeKey c st).cbuff } =
        { started w st with cbuff := (typeKey c st).cbuff } := by
  unfold typeKey
  rw [started_cbuff]
  rcases st.cbuff with _ | ⟨a, _ | ⟨b, rest⟩⟩
  · exact ⟨rfl, rfl⟩
  · exact ⟨rfl, rfl⟩
  · exact ⟨rfl, rfl⟩

theorem Words.choice_texts (w : World) (st : Statics) (words : Words) (at_ : Nat → Ptr) :
    (words.choice at_).texts w st =
      ⟨words.line.map fun n => st.string w (some (at_ n)),
        words.params.map fun n => st.string w (some (at_ n))⟩ := by
  unfold Words.choice Choice.texts
  simp only [Option.map_map]
  rfl

/-- What the first call starts from, and what later ones do. -/
theorem firstChoice_texts (w : World) (st : Statics) (cbuff : List UInt8) :
    (firstChoice w st).texts w { started w st with cbuff } =
      if w.starts st then Texts.ofLine (strdup st.bootargs) else ⟨none, some []⟩ := by
  unfold firstChoice started
  cases w.starts st with
  | true =>
    simp only [if_true]
    rw [Words.choice_texts]
    unfold Texts.ofLine
    rw [← wordSplit_line, ← wordSplit_params]
    rfl
  | false =>
    simp only [Bool.false_eq_true, if_false]
    unfold Choice.texts
    rw [Option.map_some, string_text]
    rfl

/-- What a return takes for the line: what was typed, else the label for one boot, else the line
of the last boot, else the default. -/
theorem enterKey_texts (w : World) (st : Statics) (choice : Choice) :
    (enterKey w st choice).2.texts w (enterKey w st choice).1 =
      if (choice.texts w st).name.isSome then choice.texts w st
      else if strdup st.bootoncelabel ≠ [] then
        ⟨some (strdup st.bootoncelabel), (choice.texts w st).args⟩
      else if strdup st.bootlastlabel ≠ [] then Texts.ofLine (strdup st.bootlastlabel)
      else ⟨w.defaultLabel, (choice.texts w st).args⟩ := by
  have named : (choice.texts w st).name.isSome = choice.imagename.isSome := Option.isSome_map
  unfold enterKey
  rw [named]
  split
  · rfl
  · split
    · rfl
    · split
      · dsimp only
        rw [Words.choice_texts]
        unfold Texts.ofLine
        rw [← wordSplit_line, ← wordSplit_params]
        rfl
      · simp [Choice.texts, World.defaultLabel, Function.comp_def, string_text]

theorem prompt_unfold (w : World) (inp : Input) (st : Statics) : prompt w inp st =
    match waitKey (w.waits st) inp (started w st) with
    | (some c, st') =>
      if c = 10 ∨ c = 13 then enterKey w st' (firstChoice w st)
      else if c ≠ 9 ∧ 32 ≤ c ∧ c < 128 then
        if w.useconf && w.flag (some (strdup (typeKey c st').cbuff)) "single-key" then
          (typeKey c st', { firstChoice w st with imagename := some (.cbuff 0) })
        else typedLine w inp (typeKey c st')
      else typedLine w inp st'
    | (none, st') => typedLine w inp st' := rfl

/-- The prompt comes up with the words of one of its lines. -/
theorem prompt_texts (w : World) (inp : Input) (st : Statics) :
    (prompt w inp st).2.texts w (prompt w inp st).1 = lineTexts w inp st := by
  rw [prompt_unfold, waitKey_key]
  unfold lineTexts World.source
  cases w.key inp st with
  | none =>
    dsimp only
    rw [typedLine_texts, started_cbuff]
  | some c =>
    dsimp only
    by_cases enter : c = 10 ∨ c = 13
    · have kept : c = 10 ∨ c = 9 ∨ c = 13 ∨ c = 8 := by tauto
      have first := firstChoice_texts w st (started w st).cbuff
      have labels : (started w st).bootoncelabel = st.bootoncelabel ∧
          (started w st).bootlastlabel = st.bootlastlabel := by
        unfold started
        split <;> exact ⟨rfl, rfl⟩
      simp only [if_pos enter, if_pos kept]
      rw [enterKey_texts, first, labels.1, labels.2]
      cases w.starts st with
      | true => simp
      | false => simp
    · by_cases control : c = 8 ∨ c = 9
      · have kept : c = 10 ∨ c = 9 ∨ c = 13 ∨ c = 8 := by tauto
        have low : ¬ (c ≠ 9 ∧ 32 ≤ c ∧ c < 128) := by
          rcases control with rfl | rfl <;> decide
        simp only [if_neg enter, if_pos control, if_pos kept, if_neg low]
        rw [typedLine_texts, started_cbuff]
      · have other : ¬ (c = 10 ∨ c = 9 ∨ c = 13 ∨ c = 8) := by tauto
        obtain ⟨once, twice⟩ := typeKey_started w c st
        simp only [if_neg enter, if_neg control, if_neg other, once, twice]
        have tab : c ≠ 9 := fun same => control (.inr same)
        simp only [tab, ne_eq, not_false_eq_true, true_and]
        by_cases shown : 32 ≤ c ∧ c < 128
        · by_cases single : w.useconf = true ∧
              w.flag (some (strdup (typeKey c st).cbuff)) "single-key" = true
          · have args := congrArg Texts.args (firstChoice_texts w st (typeKey c st).cbuff)
            simp only [if_pos shown, if_pos (Bool.and_eq_true_iff.mpr single),
              if_pos (And.intro shown.1 (And.intro shown.2 single))]
            refine congrArg (Texts.mk (some (strdup _))) (args.trans ?_)
            split <;> rfl
          · have many : ¬ (32 ≤ c ∧ c < 128 ∧ w.useconf = true ∧
                w.flag (some (strdup (typeKey c st).cbuff)) "single-key" = true) :=
              fun all => single all.2.2
            simp only [if_pos shown, if_neg (mt Bool.and_eq_true_iff.mp single), if_neg many]
            exact typedLine_texts w inp _
        · have hidden : ¬ (32 ≤ c ∧ c < 128 ∧ w.useconf = true ∧
              w.flag (some (strdup (typeKey c st).cbuff)) "single-key" = true) :=
            fun all => shown ⟨all.1, all.2.1⟩
          simp only [if_neg shown, if_neg hidden]
          exact typedLine_texts w inp _

/-! ### The pointers of a call -/

theorem commandHands_none (low : CStr) (name : Option CStr) :
    none ∈ commandHands low name ↔ name = none := by
  unfold commandHands
  cases command (name.getD low) <;> simp [eq_comm]

theorem select_some (w : World) (st : Statics) (name : CStr) (args : Option CStr) :
    (select w st (some name) args).imagename ≠ none := by
  unfold select
  cases w.useconf with
  | false => simp
  | true => rcases w.strg (some name) "image" with _ | _ | _ <;> simp

/-- Behind the block it is the name that may be missing. -/
theorem proceedHands_none (w : World) (device : w.boot.dev ≠ none) (st : Statics)
    (choice : Choice) :
    none ∈ proceedHands w st choice ↔ (orDefault w st choice).imagename = none := by
  unfold proceedHands
  dsimp only
  rw [List.mem_append, commandHands_none]
  cases (orDefault w st choice).imagename with
  | none => simp [Statics.text]
  | some p =>
    have kept := select_some w (remember w (orDefault w st choice) st)
      ((remember w (orDefault w st choice) st).string w (some p))
      ((remember w (orDefault w st choice) st).text w (orDefault w st choice).args)
    simpa [Statics.text, device.symm] using kept

/-- The block on `initrd=` is given two strings exactly if the line has two words. -/
theorem initrdHands_none (w : World) (st : Statics) (choice : Choice) :
    none ∉ initrdHands w st choice ↔
      (choice.texts w st).args ≠ none ∧ (choice.texts w st).name ≠ none := by
  have args : st.text w choice.args = (choice.texts w st).args := rfl
  have name : st.text w choice.imagename = (choice.texts w st).name := rfl
  have initrd : (choice.texts w st).args ≠ none → st.text w choice.initrdFrom ≠ none := by
    unfold Choice.texts Statics.text Choice.initrdFrom
    cases choice.args <;> simp
  unfold initrdHands
  rw [args, name]
  constructor
  · intro given
    rw [List.mem_append, not_or] at given
    exact ⟨fun none => given.1 (by simp [none]), fun none => given.1 (by simp [none])⟩
  · rintro ⟨args, name⟩ given
    rcases List.mem_append.mp given with early | late
    · rcases List.mem_pair.mp early with none | none
      · exact args none.symm
      · exact name none.symm
    · split at late
      · rcases List.mem_cons.mp late with none | copied
        · exact initrd args none.symm
        · split at copied
          · cases copied
          · simp at copied
      · cases late

/-- The name behind the block is there if it was, or if there is a default. -/
theorem orDefault_some (w : World) (st : Statics) (choice : Choice)
    (name : (choice.texts w st).name ≠ none) :
    (orDefault w st choice).imagename ≠ none ↔
      (w.useconf = true ∧ (choice.texts w st).name = some [] → w.getDefault ≠ none) := by
  obtain ⟨p, held⟩ : ∃ p, choice.imagename = some p := by
    unfold Choice.texts at name
    cases held : choice.imagename with
    | none => simp [held] at name
    | some p => exact ⟨p, rfl⟩
  unfold orDefault Choice.texts
  rw [held]
  by_cases empty : w.useconf = true ∧ st.string w (some p) = []
  · simp [empty]
  · have kept : ¬ (w.useconf && (Option.isNone (some p) || st.string w (some p) == [])) = true := by
      simpa using empty
    rw [if_neg kept, held]
    simpa using fun conf nothing => absurd ⟨conf, nothing⟩ empty

/-- No null pointer is handed on when both words of the line are there, and the
default where it is needed. -/
theorem handed_texts (w : World) (device : w.boot.dev ≠ none) (inp : Input) (st : Statics) :
    none ∉ handed w inp st ↔
      (lineTexts w inp st).args ≠ none ∧ (lineTexts w inp st).name ≠ none ∧
        ((if (lineTexts w inp st).names w || !st.definitrd then
            (lineTexts w inp st).args ≠ some []
          else w.useconf = true ∧ (lineTexts w inp st).name = some []) → w.getDefault ≠ none) := by
  have definitrd := prompt_definitrd w inp st
  have texts := prompt_texts w inp st
  unfold handed
  generalize prompt w inp st = line at *
  obtain ⟨st₁, choice⟩ := line
  dsimp only at definitrd texts ⊢
  rw [List.mem_append, not_or, initrdHands_none, texts, and_assoc]
  refine and_congr_right fun args => and_congr_right fun name => ?_
  have takes := takesInitrd_texts w st₁ choice
  rw [texts, definitrd] at takes
  rw [← takes]
  unfold initrdSetup
  cases taken : takesInitrd w st₁ choice with
  | false =>
    simp only [Bool.false_eq_true, if_false, if_true]
    rw [proceedHands_none w device, ← ne_eq, orDefault_some w st₁ choice (texts ▸ name), texts]
  | true =>
    obtain ⟨arguments, held⟩ := Option.ne_none_iff_exists'.mp args
    have text : strdup (st₁.deref w choice.initrdFrom) = arguments := by
      have shown := initrdFrom_texts w st₁ choice
      rw [texts] at shown
      unfold Texts.initrdText at shown
      rwa [held] at shown
    have kept : ∀ st', orDefault w st' (defaultChoice w) = defaultChoice w := by
      intro st'
      unfold orDefault defaultChoice
      split <;> rfl
    simp only [if_true, text, held]
    by_cases empty : arguments = []
    · simp [empty]
    · simp only [if_neg empty, if_true]
      have missing := proceedHands_none w device
        { st₁ with
          definitrd := false
          hasarg := st₁.hasarg || choice.args.isSome
          manualinitrd := strdup ((st₁.deref w choice.initrdFrom).drop 7) } (defaultChoice w)
      rw [kept] at missing
      unfold defaultChoice at missing
      rw [missing, Option.map_eq_none_iff]
      simp [empty]

/-! ### The lines that are complete -/

theorem firstWord_some (two : TwoWords line) : firstWord line ≠ none := by
  unfold TwoWords otherWords at two
  unfold firstWord
  intro blank
  split at blank
  · rename_i empty
    rw [empty] at two
    exact absurd two (by decide)
  · cases blank

theorem twoWords_iff (line : CStr) :
    TwoWords line ↔ otherWords line ≠ none ∧ firstWord line ≠ none := by
  constructor
  · intro two
    exact ⟨Option.isSome_iff_ne_none.mp two, firstWord_some two⟩
  · rintro ⟨args, _⟩
    exact Option.isSome_iff_ne_none.mpr args

theorem not_twoWords_nil : ¬ TwoWords [] := by
  unfold TwoWords
  decide

/-- A line is complete exactly if it has both its words. -/
theorem lineComplete_iff (w : World) (inp : Input) (st : Statics) :
    LineComplete w inp st ↔
      (lineTexts w inp st).args ≠ none ∧ (lineTexts w inp st).name ≠ none := by
  unfold LineComplete lineTexts
  cases w.source inp st with
  | typed buff => exact twoWords_iff _
  | single label =>
    dsimp only
    cases starts : w.starts st with
    | false => simp
    | true => simp [TwoWords, Texts.ofLine, Option.isSome_iff_ne_none]
  | entered =>
    dsimp only
    cases starts : w.starts st with
    | true =>
      simp only [if_true, true_and]
      cases word : firstWord (strdup st.bootargs) with
      | some name => simp [Texts.ofLine, word, twoWords_iff]
      | none =>
        have single : otherWords (strdup st.bootargs) = none := by
          by_contra args
          exact firstWord_some (Option.isSome_iff_ne_none.mpr args) word
        have few : ¬ TwoWords (strdup st.bootargs) := by
          unfold TwoWords
          rw [single]
          decide
        by_cases once : strdup st.bootoncelabel = []
        · by_cases last : strdup st.bootlastlabel = []
          · simp [Texts.ofLine, word, single, few, once, last, not_twoWords_nil]
          · simp [Texts.ofLine, word, few, once, last, twoWords_iff]
        · simp [Texts.ofLine, word, single, few, once]
    | false =>
      simp only [Bool.false_eq_true, false_and, if_false]
      by_cases once : strdup st.bootoncelabel = []
      · by_cases last : strdup st.bootlastlabel = []
        · simp [once, last, not_twoWords_nil, World.defaultLabel]
        · simp [Texts.ofLine, once, last, twoWords_iff]
      · simp [once]

/-- No call of `get_params` hands a null pointer to a string function exactly when the line it goes
by has all the words it looks for, and there is a default image wherever that stands for the name.
-/
theorem handed_iff (m : Machine) (s : Setup) (inp : Input) (st : Statics) :
    none ∉ handed (s.world m) inp st ↔ HasStrings (s.world m) inp st := by
  have device : (s.world m).boot.dev ≠ none := Option.some_ne_none s.dev
  rw [handed_texts _ device]
  constructor
  · rintro ⟨args, name, default⟩
    exact ⟨(lineComplete_iff _ inp st).mpr ⟨args, name⟩, default⟩
  · rintro ⟨line, default⟩
    obtain ⟨args, name⟩ := (lineComplete_iff _ inp st).mp line
    exact ⟨args, name, default⟩

/-- A label on its own. -/
theorem label_null : ¬ ∀ m s inp st, none ∉ handed (Setup.world m s) inp st := by
  intro safe
  have null : none ∈ handed (configured.world emptyDisk) (typing "linux") atStart := by
    decide +kernel
  exact safe emptyDisk configured (typing "linux") atStart null

end Yaboot.Prompt
