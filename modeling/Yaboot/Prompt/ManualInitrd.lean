import Yaboot.Prompt.ConfProofs
import Yaboot.Prompt.TypedProofs

/-! An initrd named at the prompt. `initrd=` behind a label boots the default
section with it, as `initrd=` on its own does. -/
namespace Yaboot.Prompt
open CString Cfg Fs Netboot

variable {w : World}

/-! ### What a section boots -/

def World.sectionDevice (w : World) (label : Option CStr) : Option CStr :=
  (w.strg label "device").or w.boot.dev

def World.sectionPart (w : World) (label : Option CStr) : Int :=
  w.partition label (w.partition none w.boot.part)

/-- The kernel of a section, and whether its path can be parsed. -/
def World.sectionKernel (w : World) (label : Option CStr) : Bool × BootFspec :=
  parseDevicePath w.fw (((w.strg label "image").getD []).take 1024) (w.sectionDevice label)
    (w.sectionPart label) (cstr "/vmlinux") w.boot

/-- What an initrd path means in a section. -/
def World.sectionInitrd (w : World) (label : Option CStr) (path : CStr) : Bool × BootFspec :=
  parseDevicePath w.fw path (w.sectionDevice label) (w.sectionPart label) (cstr "/root.bin") w.boot

/-- The path that is typed, from the root of a disk. -/
def World.slashed (w : World) (f : CStr) : CStr :=
  if f.head? ≠ some 47 ∧ w.fw.devtype (w.boot.dev.getD w.lowString) ≠ .ok .net then 47 :: f else f

/-- The kernel and the arguments of a section with another initrd. -/
structure Yields (w : World) (label : Option CStr) (f : CStr) (params : BootParam) : Prop where
  kernel : params.kernel = (w.sectionKernel label).2
  args : params.args = some (makeParams w label none)
  rd : params.rd.file = some (w.slashed f)

/-- The default section has a kernel and an initrd to put another in place of,
and the path stands for a file and not for the boot device of the firmware. -/
structure DefaultBoots (w : World) (f : CStr) : Prop where
  conf : w.useconf = true
  image : ∃ image, w.strg w.defaultLabel "image" = some image ∧ image ≠ [] ∧
    command image = .image
  kernel : (w.sectionKernel w.defaultLabel).1 = true
  initrd : ∃ p, w.strg w.defaultLabel "initrd" = some p ∧ p ≠ []
  path : if strstr (w.slashed f) tokIscsi then
      (w.sectionInitrd w.defaultLabel (w.slashed f)).2.file = some (w.slashed f)
    else w.slashed f ≠ [] ∨
      (w.sectionDevice w.defaultLabel).map w.fw.devtype = some (.ok .net)

/-- Two sections with the same kernel and the same arguments. -/
structure SameSection (w : World) (label label' : Option CStr) : Prop where
  kernel : (w.sectionKernel label).2 = (w.sectionKernel label').2
  args : makeParams w label none = makeParams w label' none

/-- A path without a colon is a file, unless there is nothing in it. -/
theorem sectionInitrd_file (w : World) (device : w.boot.dev ≠ none) (label : Option CStr)
    (colonless : 58 ∉ path) (plain : strstr path tokIscsi = false) :
    (w.sectionInitrd label path).2.file = some path ↔
      path ≠ [] ∨ (w.sectionDevice label).map w.fw.devtype = some (.ok .net) := by
  obtain ⟨dev, held⟩ : ∃ dev, w.sectionDevice label = some dev := by
    unfold World.sectionDevice
    cases w.strg label "device" with
    | some dev => exact ⟨dev, rfl⟩
    | none => exact Option.ne_none_iff_exists'.mp device
  unfold World.sectionInitrd Fs.parseDevicePath
  rw [held]
  simp only [plain, Bool.false_eq_true, false_and, if_false, Option.map_some]
  unfold parseIpath
  split
  · rename_i net
    simp [colonless, net, withDefaults]
  · rename_i iscsi
    by_cases empty : path = []
    · simp [empty, iscsi]
    · simp [empty, withDefaults]
  · rename_i other _
    have notNet : ¬ w.fw.devtype dev = .ok .net := other
    by_cases empty : path = []
    · simp [empty, notNet, splitFile]
    · simp [empty, splitFile, colonless, withDefaults]

theorem slashed_colonless (w : World) (colonless : 58 ∉ f) : 58 ∉ w.slashed f := by
  unfold World.slashed
  split
  · simpa using colonless
  · exact colonless

/-- The condition on the path says that it is read as a file. -/
theorem DefaultBoots.path_iff (w : World) (device : w.boot.dev ≠ none) (colonless : 58 ∉ f) :
    (if strstr (w.slashed f) tokIscsi then
        (w.sectionInitrd w.defaultLabel (w.slashed f)).2.file = some (w.slashed f)
      else w.slashed f ≠ [] ∨
        (w.sectionDevice w.defaultLabel).map w.fw.devtype = some (.ok .net)) ↔
      (w.sectionInitrd w.defaultLabel (w.slashed f)).2.file = some (w.slashed f) := by
  cases iscsi : strstr (w.slashed f) tokIscsi with
  | true => rfl
  | false =>
    rw [if_neg Bool.false_ne_true]
    exact (sectionInitrd_file w device _ (slashed_colonless w colonless) iscsi).symm

/-! ### What is launched -/

/-- A section with an image is launched with its kernel and arguments. -/
theorem launch_section (w : World) (st : Statics) (label : Option CStr) (conf : w.useconf = true)
    (found : w.strg label "image" = some image) (nonempty : image ≠ [])
    (isImage : command image = .image) :
    (launch w st (select w st label none)).params =
      ⟨(w.sectionKernel label).2,
        if (w.sectionKernel label).1 then rdFspec w st (select w st label none)
        else { BootFspec.zero with part := -1 },
        some (makeParams w label none)⟩ := by
  obtain ⟨_, imagename, device, part, _⟩ := select_image w st none conf found nonempty
  have args : (select w st label none).args = some (makeParams w label none) := by
    cases image with
    | nil => exact absurd rfl nonempty
    | cons c p =>
      unfold select
      rw [if_pos conf, found]
  have kernel : kernelFspec w (select w st label none) = w.sectionKernel label := by
    unfold kernelFspec World.sectionKernel World.sectionDevice World.sectionPart
    rw [imagename, device, part, found]
    rfl
  rw [launch_image_params w st _ (by rw [imagename]; exact isImage), kernel, args]

/-- The initrd that is loaded for it. -/
theorem rdFspec_section (w : World) (st : Statics) (label : Option CStr) (conf : w.useconf = true)
    (found : w.strg label "image" = some image) (nonempty : image ≠ [])
    (path : ∀ p, initrdPath w st p = w.slashed f) :
    rdFspec w st (select w st label none) =
      if (w.strg label "initrd").getD [] = [] then { BootFspec.zero with part := -1 }
      else (w.sectionInitrd label (w.slashed f)).2 := by
  obtain ⟨same, _, device, part, _⟩ := select_image w st none conf found nonempty
  unfold rdFspec World.sectionInitrd World.sectionDevice World.sectionPart
  rw [conf, same, device, part]
  rcases w.strg label "initrd" with _ | _ | ⟨c, p⟩
  · rfl
  · rfl
  · dsimp only
    rw [path, Option.getD_some, if_neg (List.cons_ne_nil c p)]

/-- Nothing is selected without an image, and then there are no arguments. -/
theorem select_nothing (w : World) (st : Statics) (name : Option CStr)
    (missing : w.useconf = true → ∀ image, w.strg name "image" = some image → image = []) :
    (select w st name none).args = none := by
  unfold select
  cases conf : w.useconf with
  | false => rfl
  | true =>
    rw [if_pos rfl]
    cases found : w.strg name "image" with
    | none => rfl
    | some image =>
      obtain rfl := missing conf image found
      rfl

/-- A launch that hands over an initrd is that of an image. -/
theorem launch_rd (w : World) (st : Statics) (s : Selection)
    (filled : (launch w st s).params.rd.file ≠ none) :
    command (s.imagename.getD w.lowString) = .image ∧ (kernelFspec w s).1 = true := by
  by_cases image : command (s.imagename.getD w.lowString) = .image
  · refine ⟨image, ?_⟩
    rw [launch_image_params w st s image] at filled
    by_contra failed
    simp only [if_neg failed] at filled
    exact filled rfl
  · rw [launch_other_params w st s image] at filled
    exact absurd rfl filled

/-- The default section is what boots with a typed path. -/
theorem launch_yields (w : World) (device : w.boot.dev ≠ none) (colonless : 58 ∉ f) (st : Statics)
    (path : ∀ p, initrdPath w st p = w.slashed f) :
    Yields w w.defaultLabel f (launch w st (select w st w.defaultLabel none)).params ↔
      DefaultBoots w f := by
  constructor
  · intro yields
    have filled : (launch w st (select w st w.defaultLabel none)).params.rd.file ≠ none := by
      rw [yields.rd]
      exact Option.some_ne_none _
    obtain ⟨isImage, parsed⟩ := launch_rd w st _ filled
    by_cases found : w.useconf = true ∧
        ∃ image, w.strg w.defaultLabel "image" = some image ∧ image ≠ []
    · obtain ⟨conf, image, found, nonempty⟩ := found
      obtain ⟨_, imagename, _⟩ := select_image w st none conf found nonempty
      rw [imagename] at isImage
      have launched := launch_section w st w.defaultLabel conf found nonempty isImage
      have kernel : (w.sectionKernel w.defaultLabel).1 = true := by
        by_contra failed
        rw [launched, if_neg failed] at filled
        exact filled rfl
      have rd := yields.rd
      rw [launched, if_pos kernel, rdFspec_section w st _ conf found nonempty path] at rd
      dsimp only at rd
      split at rd
      · cases rd
      · rename_i initrd
        refine ⟨conf, ⟨image, found, nonempty, isImage⟩, kernel, ?_,
          (DefaultBoots.path_iff w device colonless).mpr rd⟩
        cases held : w.strg w.defaultLabel "initrd" with
        | none => simp [held] at initrd
        | some p => exact ⟨p, rfl, by simpa [held] using initrd⟩
    · have args := yields.args
      rw [launch_image_params w st _ isImage, select_nothing w st _ fun conf image named => by
        by_contra nonempty
        exact found ⟨conf, image, named, nonempty⟩] at args
      cases args
  · rintro ⟨conf, ⟨image, found, nonempty, isImage⟩, kernel, ⟨p, initrd, some_⟩, file⟩
    have launched := launch_section w st w.defaultLabel conf found nonempty isImage
    rw [if_pos kernel, rdFspec_section w st _ conf found nonempty path, initrd,
      Option.getD_some, if_neg some_] at launched
    rw [launched]
    exact ⟨rfl, rfl, (DefaultBoots.path_iff w device colonless).mp file⟩

/-! ### The call -/

theorem startsInitrd_typed (w : World) (f : CStr) : startsInitrd w (some (initrdTok ++ f)) = true := by
  unfold startsInitrd strncmpEq
  rw [Option.getD_some, List.take_append_of_le_length (by decide)]
  decide

/-- A path that was typed is the one to load from now on. -/
theorem initrdSetup_typed (w : World) (st : Statics) (choice : Choice)
    (takes : takesInitrd w st choice = true)
    (text : st.string w choice.initrdFrom = initrdTok ++ f) :
    (initrdSetup w st choice).1 = true ∧ (initrdSetup w st choice).2.1.definitrd = false ∧
      (initrdSetup w st choice).2.1.manualinitrd = f := by
  have filled : strdup (st.deref w choice.initrdFrom) ≠ [] := by
    unfold Statics.string at text
    rw [text]
    exact List.cons_ne_nil _ _
  have seven : 7 ≤ (strdup (st.deref w choice.initrdFrom)).length := by
    unfold Statics.string at text
    rw [text, List.length_append]
    exact Nat.le_add_right 7 _
  have rest : strdup ((st.deref w choice.initrdFrom).drop 7) = f := by
    rw [strdup_drop _ seven]
    unfold Statics.string at text
    rw [text]
    exact List.drop_left' rfl
  unfold initrdSetup
  simp only [takes, if_true, if_neg filled]
  exact ⟨trivial, trivial, rest⟩

/-- A typed line that names an initrd launches the default with it. -/
theorem typed_launches (typed : Types w inp st t) (names : t.names w = true)
    (text : t.initrdText w = initrdTok ++ f) (short : f.length ≤ 1024) :
    ∃ st', (∀ p, initrdPath w st' p = w.slashed f) ∧
      (getParams w inp st).1.params =
        (launch w st' (select w st' w.defaultLabel none)).params := by
  have takes : takesInitrd w (prompt w inp st).1 (prompt w inp st).2 = true := by
    rw [takesInitrd_texts, typed.texts, names, Bool.true_or]
  have shown : (prompt w inp st).1.string w (prompt w inp st).2.initrdFrom = initrdTok ++ f := by
    rw [initrdFrom_texts, typed.texts, text]
  obtain ⟨wrote, definitrd, manual⟩ := initrdSetup_typed w _ _ takes shown
  obtain ⟨⟨st', same, launched⟩, _⟩ := answer_settled w _ _ typed.apart wrote
  have settled : Choice.settled w (prompt w inp st).1 (prompt w inp st).2 =
      ⟨w.defaultLabel, none⟩ := by
    unfold Choice.settled
    rw [if_pos takes]
  rw [settled] at launched
  refine ⟨st', fun p => ?_, launched⟩
  rw [← same.path w p]
  unfold initrdPath World.slashed
  rw [definitrd, manual, List.take_of_length_le short, if_neg Bool.false_ne_true]

/-- Typing a label and an initrd, or an initrd alone, boots what was asked for
exactly when the default section can be booted with that initrd and the label
means the same kernel and arguments as the default. -/
theorem manual_initrd_iff (m : Machine) (s : Setup) (colonless : 58 ∉ f)
    (labelled : Types (s.world m) inp st ⟨some l, some (initrdTok ++ f)⟩)
    (alone : Types (s.world m) inp' st' ⟨some (initrdTok ++ f), none⟩) :
    (Yields (s.world m) (some l) f (getParams (s.world m) inp st).1.params ∧
      Yields (s.world m) (s.world m).defaultLabel f
        (getParams (s.world m) inp' st').1.params) ↔
      DefaultBoots (s.world m) f ∧ SameSection (s.world m) (s.world m).defaultLabel (some l) := by
  have device : (s.world m).boot.dev ≠ none := Option.some_ne_none s.dev
  have short : f.length ≤ 1024 := by
    have line := labelled.short.2 _ rfl
    rw [List.length_append] at line
    omega
  have named : Texts.names (s.world m) ⟨some l, some (initrdTok ++ f)⟩ = true :=
    Bool.or_eq_true_iff.mpr (.inl (startsInitrd_typed _ f))
  have named' : Texts.names (s.world m) ⟨some (initrdTok ++ f), none⟩ = true :=
    Bool.or_eq_true_iff.mpr (.inr (startsInitrd_typed _ f))
  obtain ⟨st₁, path, launched⟩ := typed_launches labelled named rfl short
  obtain ⟨st₂, path', launched'⟩ := typed_launches alone named' rfl short
  have boots := launch_yields _ device colonless st₁ path
  have boots' := launch_yields _ device colonless st₂ path'
  rw [launched, launched']
  constructor
  · rintro ⟨wanted, default⟩
    have able := boots'.mp default
    have got := boots.mpr able
    exact ⟨able, got.kernel.symm.trans wanted.kernel,
      Option.some.inj (got.args.symm.trans wanted.args)⟩
  · rintro ⟨able, same⟩
    have got := boots.mpr able
    exact ⟨⟨got.kernel.trans same.kernel, got.args.trans (congrArg some same.args), got.rd⟩,
      boots'.mpr able⟩

/-- A session with two sections that differ in their kernel. -/
def twoSections : Setup :=
  { configured with
    cfg := (cfgParse (fun _ => true)
      (cstr "image=/a\nlabel=a\ninitrd=/i\nimage=/b\nlabel=b\ninitrd=/i\n") fresh).2 }

/-- Where no key is waited for the line is typed. -/
theorem prompt_silent (w : World) (inp : Input) (st : Statics) (calm : w.fwRebootCnt = 0)
    (silent : w.timeout = -1) :
    ∃ st₀, st₀.cbuff = st.cbuff.set 0 0 ∧ prompt w inp st = typedLine w inp st₀ := by
  unfold prompt waitKey
  cases first : st.first with
  | true =>
    simp only [calm, silent, beq_self_eq_true, Bool.and_self, ne_eq, not_true_eq_false, if_false,
      if_true]
    exact ⟨_, rfl, rfl⟩
  | false =>
    simp only [calm, Bool.false_and, ne_eq, not_true_eq_false, if_false, if_true,
      Bool.false_eq_true]
    exact ⟨_, rfl, rfl⟩

theorem typing_types (line : String)
    (words : Texts.ofLine (lineOf (twoSections.world emptyDisk) (typing line) atStart) = t) :
    Types (twoSections.world emptyDisk) (typing line) atStart t := by
  obtain ⟨st₀, buffer, typed⟩ := prompt_silent (twoSections.world emptyDisk) (typing line) atStart
    rfl (by decide +kernel)
  refine ⟨st₀, typed, ?_⟩
  rw [buffer]
  exact words

/-- `a initrd=/x` and `initrd=/x` boot the default section `a` with `/x`. -/
theorem defaultLabel_boots :
    Yields (twoSections.world emptyDisk) (some (cstr "a")) (cstr "/x")
        (getParams (twoSections.world emptyDisk) (typing "a initrd=/x") atStart).1.params ∧
      Yields (twoSections.world emptyDisk) (twoSections.world emptyDisk).defaultLabel (cstr "/x")
        (getParams (twoSections.world emptyDisk) (typing "initrd=/x") atStart).1.params := by
  have default : (twoSections.world emptyDisk).defaultLabel = some (cstr "a") := by decide +kernel
  refine (manual_initrd_iff emptyDisk twoSections (by decide)
    (typing_types "a initrd=/x" ?_) (typing_types "initrd=/x" ?_)).mpr ⟨?_, ?_⟩
  · unfold Texts.ofLine
    congr 1 <;> decide +kernel
  · unfold Texts.ofLine
    congr 1 <;> decide +kernel
  · refine ⟨rfl, ⟨cstr "/a", ?_, by decide, by decide⟩, ?_, ⟨cstr "/i", ?_, by decide⟩, ?_⟩
    · decide +kernel
    · decide +kernel
    · decide +kernel
    · decide +kernel
  · rw [default]
    exact ⟨rfl, rfl⟩

/-- `b initrd=/x` boots the kernel of `a`. -/
theorem labelled_default : ¬ Yields (twoSections.world emptyDisk) (some (cstr "b")) (cstr "/x")
    (getParams (twoSections.world emptyDisk) (typing "b initrd=/x") atStart).1.params := by
  intro yields
  have kernel : (getParams (twoSections.world emptyDisk) (typing "b initrd=/x")
      atStart).1.params.kernel ≠ ((twoSections.world emptyDisk).sectionKernel (some (cstr "b"))).2 := by
    decide +kernel
  exact kernel yields.kernel

end Yaboot.Prompt
