import Yaboot.Prompt.Params

/-! Which calls of `get_params` let a kernel be loaded without a password. -/
namespace Yaboot.Prompt
open CString Cfg Fs

/-! ### Strings -/

theorem strdup_append_zero (s rest : List UInt8) : strdup (s ++ 0 :: rest) = strdup s := by
  unfold strdup
  induction s with
  | nil => rfl
  | cons c s ih =>
    rw [List.cons_append, List.takeWhile_cons, List.takeWhile_cons, ih]

/-- A configuration string is where it is, whatever the buffers hold. -/
theorem string_text (w : World) (st : Statics) (s : CStr) :
    st.string w (some (.text s)) = strdup s := strdup_append_zero s _

/-! ### What a chosen image takes -/

/-- The kernel an image of the configuration leads to. -/
def World.kernelOf (w : World) (label image : CStr) : BootFspec :=
  (parseDevicePath w.fw (image.take 1024) ((w.strg (some label) "device").or w.boot.dev)
    (w.partition (some label) (w.partition none w.boot.part)) (cstr "/vmlinux") w.boot).2

/-- `label` names a restricted image that is a file and not a command. -/
def Launchable (w : World) (label : CStr) : Prop :=
  w.useconf = true ∧ w.restricted (some label) = true ∧
    ∃ image, w.strg (some label) "image" = some image ∧ image ≠ [] ∧ command image = .image ∧
      (w.kernelOf label image).file ≠ none

/-- A kernel is handed over and no password was asked for. -/
def Outcome.Open (o : Outcome) : Prop := o.params.kernel.file ≠ none ∧ o.asked = []

theorem ask_ne_nil (w : World) (locked : w.password.isSome = true) (text : String) :
    w.ask text ≠ [] := by
  unfold World.ask
  rw [if_pos locked]
  exact List.cons_ne_nil _ _

/-- A command hands over no kernel. -/
theorem launch_command (w : World) (st : Statics) (s : Selection)
    (other : command (s.imagename.getD w.lowString) ≠ .image) :
    (launch w st s).params.kernel.file = none := by
  unfold launch
  cases name : command (s.imagename.getD w.lowString) with
  | help => rfl
  | halt => rfl
  | bye => rfl
  | conf =>
    dsimp only
    split <;> rfl
  | forth => rfl
  | image => exact absurd name other

theorem launch_image (w : World) (st : Statics) (s : Selection)
    (name : command (s.imagename.getD w.lowString) = .image) :
    (launch w st s).params.kernel = (kernelFspec w s).2 ∧
      (launch w st s).asked = s.asked ++
        if s.label.isNone then w.ask "To boot a custom image you must enter the password."
        else [] := by
  unfold launch
  rw [name]
  exact ⟨rfl, rfl⟩

theorem launch_label (w : World) (st : Statics) (s : Selection) :
    (launch w st s).label = s.label := by
  unfold launch
  cases command (s.imagename.getD w.lowString) with
  | conf =>
    dsimp only
    split <;> rfl
  | _ => rfl

/-- A labelled image asks nothing exactly when it is restricted and bare. -/
theorem askForLabel_nil (w : World) (locked : w.password.isSome = true) (label : CStr)
    (args : Option CStr) :
    askForLabel w (some label) args = [] ↔ w.restricted (some label) = true ∧ args = none := by
  unfold askForLabel
  rw [locked]
  cases w.restricted (some label) <;> cases args <;> simp

/-- A custom image asks for the password. -/
theorem launch_custom (w : World) (st : Statics) (locked : w.password.isSome = true)
    (custom : s.label = none) : ¬ (launch w st s).Open := by
  rintro ⟨filled, silent⟩
  by_cases name : command (s.imagename.getD w.lowString) = .image
  · have asked := (launch_image w st s name).2
    rw [silent, custom] at asked
    exact ask_ne_nil w locked _ (List.append_eq_nil_iff.mp asked.symm).2
  · exact filled (launch_command w st s name)

/-- What is selected when the name leads to an image of the configuration. -/
theorem select_image (w : World) (st : Statics) (args : Option CStr) (conf : w.useconf = true)
    (found : w.strg name "image" = some image) (nonempty : image ≠ []) :
    (select w st name args).label = name ∧ (select w st name args).imagename = some image ∧
      (select w st name args).defdevice = (w.strg name "device").or w.boot.dev ∧
      (select w st name args).defpart = w.partition name (w.partition none w.boot.part) ∧
      (select w st name args).asked = askForLabel w name args := by
  cases image with
  | nil => exact absurd rfl nonempty
  | cons c p =>
    unfold select
    rw [if_pos conf, found]
    exact ⟨rfl, rfl, rfl, rfl, rfl⟩

theorem select_custom (w : World) (st : Statics) (name args : Option CStr)
    (missing : w.useconf = true → ∀ image, w.strg name "image" = some image → image = []) :
    (select w st name args).label = none := by
  unfold select
  cases conf : w.useconf with
  | false => rfl
  | true =>
    rw [if_pos rfl]
    cases found : w.strg name "image" with
    | none => rfl
    | some image =>
      have empty := missing conf image found
      subst empty
      rfl

/-- Without a password, only a restricted image with nothing behind its label
gets through. -/
theorem launch_open (w : World) (st : Statics) (locked : w.password.isSome = true)
    (name args : Option CStr) :
    (launch w st (select w st name args)).Open ↔
      args = none ∧ ∃ label, name = some label ∧ Launchable w label := by
  by_cases found : w.useconf = true ∧ ∃ image, w.strg name "image" = some image ∧ image ≠ []
  · obtain ⟨conf, image, found, nonempty⟩ := found
    obtain ⟨label, imagename, device, part, asked⟩ := select_image w st args conf found nonempty
    cases name with
    | none =>
      constructor
      · intro opened
        exact absurd opened (launch_custom w st locked label)
      · rintro ⟨_, _, named, _⟩
        cases named
    | some name =>
      have command_eq : command ((select w st (some name) args).imagename.getD w.lowString) =
          command image := by rw [imagename, Option.getD_some]
      have kernel : (kernelFspec w (select w st (some name) args)).2 = w.kernelOf name image := by
        unfold kernelFspec World.kernelOf
        rw [imagename, device, part, Option.getD_some]
      constructor
      · rintro ⟨filled, silent⟩
        by_cases isImage : command image = .image
        · obtain ⟨fspec, questions⟩ := launch_image w st _ (command_eq.trans isImage)
          rw [silent, asked, label] at questions
          obtain ⟨restricted, bare⟩ := (askForLabel_nil w locked name args).mp
            (List.append_eq_nil_iff.mp questions.symm).1
          rw [fspec, kernel] at filled
          exact ⟨bare, name, rfl, conf, restricted, image, found, nonempty, isImage, filled⟩
        · exact absurd (launch_command w st _ fun h => isImage (command_eq.symm.trans h)) filled
      · rintro ⟨bare, _, named, _, restricted, image', found', _, isImage, filled⟩
        cases named
        obtain rfl : image' = image := Option.some.inj (found'.symm.trans found)
        obtain ⟨fspec, questions⟩ := launch_image w st _ (command_eq.trans isImage)
        refine ⟨?_, ?_⟩
        · rw [fspec, kernel]
          exact filled
        · rw [questions, asked, label, (askForLabel_nil w locked name args).mpr ⟨restricted, bare⟩]
          rfl
  · have custom := select_custom w st name args fun conf image named => by
      by_contra nonempty
      exact found ⟨conf, image, named, nonempty⟩
    constructor
    · intro opened
      exact absurd opened (launch_custom w st locked custom)
    · rintro ⟨_, label, rfl, conf, _, image, named, nonempty, _⟩
      exact absurd ⟨conf, image, named, nonempty⟩ found

/-! ### The initrd block -/

/-- The default label, as a string. -/
def World.defaultLabel (w : World) : Option CStr := w.getDefault.map strdup

theorem remember_definitrd (w : World) (choice : Choice) (st : Statics) :
    (remember w choice st).definitrd = st.definitrd := by
  unfold remember
  dsimp only
  split <;> rfl

theorem orDefault_args (w : World) (st : Statics) (choice : Choice) :
    (orDefault w st choice).args = choice.args := by
  unfold orDefault
  split <;> rfl

/-- Nothing behind the block changes whether the initrd of the configuration is
the one to load. -/
theorem proceed_definitrd (w : World) (st : Statics) (choice : Choice) :
    (proceed w st choice).2.definitrd = st.definitrd := remember_definitrd w _ st

/-- After the block it is the default that is booted, with no arguments. -/
theorem answer_takes (w : World) (st : Statics) (choice : Choice)
    (takes : takesInitrd w st choice = true) (text : st.string w choice.initrdFrom ≠ []) :
    (∃ st', (answer w st choice).1 = launch w st' (select w st' w.defaultLabel none)) ∧
      (answer w st choice).2.definitrd = false := by
  unfold answer initrdSetup
  unfold Statics.string at text
  simp only [if_pos takes, if_neg text, if_true]
  refine ⟨?_, proceed_definitrd w _ _⟩
  generalize Statics.mk _ _ _ _ _ _ _ _ _ _ = st'
  have kept : orDefault w st' ⟨w.getDefault.map .text, none⟩ = ⟨w.getDefault.map .text, none⟩ := by
    unfold orDefault
    split <;> rfl
  refine ⟨remember w ⟨w.getDefault.map .text, none⟩ st', ?_⟩
  unfold proceed World.defaultLabel
  simp only [kept, Option.map_map, Option.map_none, Function.comp_def, string_text]

/-- Without text for an initrd the call gives up. -/
theorem answer_empty (w : World) (st : Statics) (choice : Choice)
    (takes : takesInitrd w st choice = true) (text : st.string w choice.initrdFrom = []) :
    (answer w st choice).1.params.kernel.file = none := by
  unfold answer initrdSetup
  unfold Statics.string at text
  simp only [if_pos takes, text, if_true]
  rfl

/-- Outside the block the arguments are those of the line. -/
theorem answer_plain (w : World) (st : Statics) (choice : Choice)
    (takes : takesInitrd w st choice = false) :
    (∃ st' name args, (answer w st choice).1 = launch w st' (select w st' name args) ∧
      (args = none ↔ choice.args = none)) ∧ (answer w st choice).2.definitrd = true := by
  have definitrd : st.definitrd = true := by
    unfold takesInitrd at takes
    simpa using (Bool.or_eq_false_iff.mp takes).2
  have result : answer w st choice = proceed w st choice := by
    unfold answer initrdSetup
    simp only [takes, Bool.false_eq_true, if_false, if_true]
  rw [result]
  refine ⟨⟨_, _, _, rfl, ?_⟩, (proceed_definitrd w st choice).trans definitrd⟩
  rw [orDefault_args, Option.map_eq_none_iff]

/-! ### The gate -/

/-- The image chosen is a section that is not obsolete, and it is restricted. -/
def Configured (w : World) (label : Option CStr) : Prop :=
  ∃ name section_, label = some name ∧ section_ ∈ w.tables.images ∧
    answersTo w.lowString name section_ = true ∧ w.restricted (some name) = true

/-- With a password set, a kernel that is handed over unasked is that of a
restricted image, and the line holds nothing but its label: no arguments, and no
initrd in place of the configured one. -/
def Gated (w : World) (inp : Input) (st : Statics) : Prop :=
  w.password.isSome = true → (getParams w inp st).1.Open →
    Configured w (getParams w inp st).1.label ∧ (prompt w inp st).2.args = none ∧
      (getParams w inp st).2.definitrd = true

/-- The line, or one before it, names an initrd, and the default label is a
restricted image. -/
def Bypasses (w : World) (inp : Input) (st : Statics) : Prop :=
  w.password.isSome = true ∧
    takesInitrd w (prompt w inp st).1 (prompt w inp st).2 = true ∧
    (prompt w inp st).1.string w (prompt w inp st).2.initrdFrom ≠ [] ∧
    ∃ label, w.defaultLabel = some label ∧ Launchable w label

/-- An image of the configuration belongs to a section that is not obsolete. -/
theorem Launchable.configured (launchable : Launchable w label) : Configured w (some label) := by
  obtain ⟨_, restricted, image, found, _⟩ := launchable
  unfold World.strg cfgGetStrg at found
  cases section_ : w.tables.images.find? (answersTo w.lowString label) with
  | none => simp [section_] at found
  | some p =>
    exact ⟨label, p, rfl, List.mem_of_find?_eq_some section_, List.find?_some section_, restricted⟩

/-- A line is stopped by the password of a restricted or protected configuration, as the manual page
says, except where the block on `initrd=` has cleared the arguments of the line before they are
looked at. -/
theorem password_gate_iff (w : World) (inp : Input) (st : Statics) :
    Gated w inp st ↔ ¬ Bypasses w inp st := by
  generalize line : prompt w inp st = reached
  obtain ⟨st₁, choice⟩ := reached
  unfold Gated Bypasses getParams
  rw [line]
  constructor
  · rintro gated ⟨locked, takes, text, label, default, launchable⟩
    obtain ⟨⟨st₂, launched⟩, manual⟩ := answer_takes w st₁ choice takes text
    have opened : (answer w st₁ choice).1.Open := by
      rw [launched]
      exact (launch_open w st₂ locked _ _).mpr ⟨rfl, label, default, launchable⟩
    have kept := (gated locked opened).2.2
    rw [manual] at kept
    cases kept
  · intro safe locked opened
    cases takes : takesInitrd w st₁ choice with
    | true =>
      by_cases text : st₁.string w choice.initrdFrom = []
      · exact absurd (answer_empty w st₁ choice takes text) opened.1
      · obtain ⟨⟨st₂, launched⟩, _⟩ := answer_takes w st₁ choice takes text
        rw [launched] at opened
        obtain ⟨_, label, default, launchable⟩ := (launch_open w st₂ locked _ _).mp opened
        exact absurd ⟨locked, takes, text, label, default, launchable⟩ safe
    | false =>
      obtain ⟨⟨st₂, name, args, launched, bare⟩, manual⟩ := answer_plain w st₁ choice takes
      rw [launched] at opened ⊢
      obtain ⟨none, label, named, launchable⟩ := (launch_open w st₂ locked _ _).mp opened
      refine ⟨?_, bare.mp none, manual⟩
      rw [launch_label, named]
      have configured := launchable.configured
      obtain ⟨conf, _, image, found, nonempty, _⟩ := launchable
      rw [(select_image w st₂ args conf found nonempty).1]
      exact configured

/-- A disk with two restricted images, of which the first is the default. -/
def sampleWorld : World where
  fw :=
    { devtype := fun _ => .ok .block
      nasBootdevice := none
      extractNetbootArgs := fun _ r => (true, r)
      extractNetinfoArgs := id }
  low := []
  behind := fun _ => []
  tables :=
    ([(cstr "password", some (cstr "secret")), (cstr "restricted", none),
      (cstr "image", some (cstr "/a")), (cstr "initrd", some (cstr "/i")),
      (cstr "image", some (cstr "/b")), (cstr "initrd", some (cstr "/i"))] :
      List (CStr × Option CStr)).foldl
        (fun t entry => (cfgSet (fun _ => true) entry.1 entry.2 t).2) fresh.tables
  useconf := true
  password := some (cstr "secret")
  boot := { BootFspec.zero with dev := some (cstr "hd"), part := 3 }
  fwRebootCnt := 0

def atStart : Statics where
  first := true
  cbuff := List.replicate 512 0
  bootargs := [0]
  bootoncelabel := [0]
  bootlastlabel := [0]
  manualinitrd := []
  definitrd := true
  hasarg := false
  pauseAfter := false
  pauseMessage := none

def typing (line : String) : Input := ⟨none, cstr line⟩

/-- `initrd=/evil` boots the default image with another initrd, unasked. -/
theorem initrd_unasked : ¬ ∀ w inp st, Gated w inp st := by
  intro gated
  have opened : (getParams sampleWorld (typing "initrd=/evil") atStart).1.Open := by
    unfold Outcome.Open
    decide +kernel
  have manual : (getParams sampleWorld (typing "initrd=/evil") atStart).2.definitrd = false := by
    decide +kernel
  have kept := (gated sampleWorld (typing "initrd=/evil") atStart rfl opened).2.2
  rw [manual] at kept
  cases kept

end Yaboot.Prompt
