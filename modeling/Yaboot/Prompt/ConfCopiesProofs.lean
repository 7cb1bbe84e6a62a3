import Mathlib.Data.List.Perm.Subperm
import Yaboot.Prompt.ConfCopies
import Yaboot.Prompt.ConfProofs
import Yaboot.Prompt.TypedProofs

/-! When a `conf` command fills in what it was asked to. Two settings or three do
it, as far as there is room; one setting alone runs into a null pointer. -/
namespace Yaboot.Prompt
open CString Cfg Fs Strtol Netboot Pointers

variable {m : Machine} {s : Setup} {rooms : Rooms}

/-! ### The fields that are written -/

/-- What an argument does is what `confArg` says, and all its strings are there. -/
theorem confArgRun_eq (rooms : Rooms) (temp : CStr) (f : Filling) :
    (confArgRun rooms temp f).value = some (confArg temp f.setup).isSome ∧
      (confArgRun rooms temp f).state.setup = (confArg temp f.setup).getD f.setup ∧
      ∃ strings : List CStr, (confArgRun rooms temp f).given = strings.map some := by
  unfold confArgRun confArg
  by_cases file : strncmpEq temp (cstr "file=") 5 = true
  · simp only [if_pos file]
    exact ⟨rfl, rfl, [_, _, _], rfl⟩
  · simp only [if_neg file]
    by_cases device : strncmpEq temp (cstr "device=") 7 = true
    · simp only [if_pos device]
      exact ⟨rfl, rfl, [_, _, _, _], rfl⟩
    · simp only [if_neg device]
      by_cases partition : strncmpEq temp (cstr "partition=") 10 = true
      · simp only [if_pos partition]
        exact ⟨rfl, rfl, [_, _, _], rfl⟩
      · simp only [if_neg partition]
        exact ⟨rfl, rfl, [_, _, _], rfl⟩

theorem confArgRun_given (rooms : Rooms) (temp : CStr) (f : Filling) :
    none ∉ (confArgRun rooms temp f).given := by
  obtain ⟨_, _, strings, given⟩ := confArgRun_eq rooms temp f
  rw [given]
  simp

/-- The loop writes what the arguments ask for. -/
theorem confLoop_setup (rooms : Rooms) (low : CStr) (loop : Nat) (args : CStr)
    (space : Option Nat) (f : Filling) :
    (confLoop rooms low loop args space f).state.setup =
      confArgs low loop args space f.setup := by
  induction loop generalizing args space f with
  | zero => rfl
  | succ loop ih =>
    obtain ⟨value, setup, _⟩ := confArgRun_eq rooms (confTemp args space) f
    have rest : ((space.filter fun _ => (confArg (confTemp args space) f.setup).isSome).elim low
        args.drop) = if (confArg (confTemp args space) f.setup).isSome then space.elim low args.drop
          else low := by
      cases (confArg (confTemp args space) f.setup).isSome <;> cases space <;> rfl
    unfold confLoop confArgs
    rw [hand_bind_state, bind_state value, hand_bind_state, rest]
    dsimp only
    generalize (if (confArg (confTemp args space) f.setup).isSome = true then
      space.elim low args.drop else low) = rest
    by_cases more : 1 < rest.length
    · simp only [if_pos more, hand_bind_state]
      rw [ih, setup]
    · simp only [if_neg more]
      exact setup

/-- The command fills `boot` in as `load_config_file` gets it. -/
theorem confFill_setup (m : Machine) (rooms : Rooms) (filled : args ≠ []) (s : Setup) :
    (confFill rooms (strdup m.low) (some args) ⟨s, false⟩).state.setup = requested m args s := by
  unfold confFill requested
  rw [hand_bind_state, if_pos (by simpa using filled)]
  exact confLoop_setup rooms _ 3 args _ _

/-! ### One setting -/

theorem strncmpEq_key (key value tok : CStr) (long : n ≤ key.length) :
    strncmpEq (key ++ value) tok n = strncmpEq key tok n := by
  unfold strncmpEq
  rw [List.take_append_of_le_length long]

namespace Setting

/-- The setup once a setting has been read. -/
def write (x : Setting) (s : Setup) : Setup :=
  match x.kind with
  | .device => { s with dev := x.value }
  | .partition => { s with part := (simpleStrtol x.value 10).1 }
  | .file => { s with file := x.value }

def exceeds (rooms : Rooms) (x : Setting) : Bool :=
  match x.kind with
  | .device => decide (rooms.dev < x.value.length + 1)
  | .partition => false
  | .file => decide (rooms.file < x.value.length + 1)

def fill (rooms : Rooms) (f : Filling) (x : Setting) : Filling :=
  ⟨x.write f.setup, f.overrun || x.exceeds rooms⟩

theorem spaceless_text (x : Setting) : 32 ∉ x.text := by
  unfold text
  rw [List.mem_append]
  rintro (key | value)
  · revert key
    cases x.kind <;> decide
  · exact x.spaceless value

theorem text_ne_nil (x : Setting) : x.text ≠ [] := by
  unfold text
  cases x.kind <;> exact List.cons_ne_nil _ _

/-- An argument that is a setting is read as one. -/
theorem run (rooms : Rooms) (x : Setting) (f : Filling) :
    (confArgRun rooms x.text f).value = some true ∧
      (confArgRun rooms x.text f).state = x.fill rooms f := by
  unfold confArgRun fill write exceeds text
  cases x.kind with
  | device =>
    have file : strncmpEq (Kind.device.key ++ x.value) (cstr "file=") 5 = false :=
      (strncmpEq_key _ _ _ (by decide)).trans (by decide)
    have device : strncmpEq (Kind.device.key ++ x.value) (cstr "device=") 7 = true :=
      (strncmpEq_key _ _ _ (by decide)).trans (by decide)
    simp only [file, device, Bool.false_eq_true, if_false, if_true]
    exact ⟨rfl, rfl⟩
  | partition =>
    have file : strncmpEq (Kind.partition.key ++ x.value) (cstr "file=") 5 = false :=
      (strncmpEq_key _ _ _ (by decide)).trans (by decide)
    have device : strncmpEq (Kind.partition.key ++ x.value) (cstr "device=") 7 = false :=
      (strncmpEq_key _ _ _ (by decide)).trans (by decide)
    have partition : strncmpEq (Kind.partition.key ++ x.value) (cstr "partition=") 10 = true :=
      (strncmpEq_key _ _ _ (by decide)).trans (by decide)
    simp only [file, device, partition, Bool.false_eq_true, if_false, if_true]
    exact ⟨rfl, congrArg (Filling.mk _) (Bool.or_false _).symm⟩
  | file =>
    have file : strncmpEq (Kind.file.key ++ x.value) (cstr "file=") 5 = true :=
      (strncmpEq_key _ _ _ (by decide)).trans (by decide)
    simp only [file, if_true]
    exact ⟨rfl, rfl⟩

end Setting

/-! ### The loop over settings -/

theorem settingsText_ne_nil (x : Setting) (settings : List Setting) :
    settingsText (x :: settings) ≠ [] := by
  cases settings with
  | nil => exact x.text_ne_nil
  | cons y settings => simp [settingsText]

/-- What comes behind the first setting. -/
def settingsRest : List Setting → CStr
  | [] => []
  | y :: settings => 32 :: settingsText (y :: settings)

theorem settingsText_cons (x : Setting) (settings : List Setting) :
    settingsText (x :: settings) = x.text ++ settingsRest settings := by
  cases settings with
  | nil => exact (List.append_nil _).symm
  | cons y settings => rfl

/-- The argument in front is the text of the first setting. -/
theorem settingsText_first (x : Setting) (settings : List Setting) :
    (settingsText (x :: settings)).takeWhile (· != 32) = x.text := by
  have passes : ∀ c ∈ x.text, (c != 32) = true := by
    intro c member
    rw [bne_iff_ne]
    rintro rfl
    exact x.spaceless_text member
  rw [settingsText_cons, List.takeWhile_append_of_pos passes]
  cases settings <;> simp [settingsRest]

/-- One round on an argument that is a setting. -/
theorem confLoop_step (rooms : Rooms) (low : CStr) (loop : Nat) (x : Setting) (rest : CStr) (f : Filling) :
    (confLoop rooms low (loop + 1) (x.text ++ rest) (some x.text.length) f).state =
        (if 1 < rest.length then
          (confLoop rooms low loop (rest.drop 1)
            (some ((rest.drop 1).takeWhile (· != 32)).length) (x.fill rooms f)).state
        else x.fill rooms f) ∧
      (none ∈ (confLoop rooms low (loop + 1) (x.text ++ rest) (some x.text.length) f).given ↔
        1 < rest.length ∧ none ∈ (confLoop rooms low loop (rest.drop 1)
          (some ((rest.drop 1).takeWhile (· != 32)).length) (x.fill rooms f)).given) := by
  have temp : confTemp (x.text ++ rest) (some x.text.length) = x.text := by
    cases length : x.text.length with
    | zero => exact absurd (List.length_eq_zero_iff.mp length) x.text_ne_nil
    | succ n =>
      show (x.text ++ rest).take (n + 1) = x.text
      rw [← length, List.take_left]
  obtain ⟨value, state⟩ := x.run rooms f
  have given := confArgRun_given rooms x.text f
  rw [confLoop, hand_bind_state, hand_bind_given, temp, bind_state value, bind_given value, state]
  simp only [Option.filter_some, if_true, Option.map_some, Option.elim_some, List.drop_left,
    hand_bind_state, hand_bind_given]
  by_cases more : 1 < rest.length
  · simp [more, given]
  · simp [more, given]

/-- The loop reads setting after setting. -/
theorem confLoop_settings (rooms : Rooms) (low : CStr) (settings : List Setting) (few : settings.length < loop)
    (x : Setting) (f : Filling) :
    (confLoop rooms low loop (settingsText (x :: settings)) (some x.text.length) f).state =
        (x :: settings).foldl (Setting.fill rooms) f ∧
      none ∉ (confLoop rooms low loop (settingsText (x :: settings)) (some x.text.length) f).given := by
  induction settings generalizing loop x f with
  | nil =>
    cases loop with
    | zero => cases few
    | succ loop =>
      obtain ⟨state, given⟩ := confLoop_step rooms low loop x [] f
      rw [settingsText_cons]
      exact ⟨state, fun member => absurd (given.mp member).1 (by decide)⟩
  | cons y settings ih =>
    cases loop with
    | zero => cases few
    | succ loop =>
      obtain ⟨state, given⟩ := confLoop_step rooms low loop x
        (settingsRest (y :: settings)) f
      have more : 1 < (settingsRest (y :: settings)).length := by
        have filled := List.length_pos_iff.mpr (settingsText_ne_nil y settings)
        simpa [settingsRest] using filled
      have rest : (settingsRest (y :: settings)).drop 1 = settingsText (y :: settings) := rfl
      obtain ⟨state', given'⟩ := ih (Nat.lt_of_succ_lt_succ few) y (x.fill rooms f)
      rw [rest, settingsText_first] at state given
      rw [settingsText_cons x, state, if_pos more, state']
      exact ⟨rfl, fun member => given' (given.mp member).2⟩

/-! ### The fields in the end -/

/-- What is written to the field of a setting. -/
def Setting.read (x : Setting) : CStr ⊕ Int :=
  match x.kind with
  | .partition => .inr (simpleStrtol x.value 10).1
  | _ => .inl x.value

theorem Setting.write_field (x : Setting) (kind : Kind) (s : Setup) :
    kind.field (x.write s) = if kind = x.kind then x.read else kind.field s := by
  unfold Setting.write Setting.read
  cases x.kind <;> cases kind <;> rfl

theorem foldl_fill (settings : List Setting) (f : Filling) :
    settings.foldl (Setting.fill rooms) f =
      ⟨settings.foldl (fun s x => x.write s) f.setup,
        f.overrun || settings.any (Setting.exceeds rooms)⟩ := by
  induction settings generalizing f with
  | nil => simp
  | cons x settings ih =>
    rw [List.foldl_cons, ih, List.foldl_cons, List.any_cons, ← Bool.or_assoc]
    rfl

/-- A field no setting names stays. -/
theorem foldl_others (settings : List Setting) (kind : Kind)
    (other : kind ∉ settings.map Setting.kind) (s : Setup) :
    kind.field (settings.foldl (fun s x => x.write s) s) = kind.field s := by
  induction settings generalizing s with
  | nil => rfl
  | cons x settings ih =>
    rw [List.map_cons, List.mem_cons, not_or] at other
    rw [List.foldl_cons, ih other.2, x.write_field, if_neg other.1]

/-- A field one setting names is what that one wrote. -/
theorem foldl_named (settings : List Setting) (distinct : (settings.map Setting.kind).Nodup)
    (member : x ∈ settings) (s : Setup) :
    x.kind.field (settings.foldl (fun s x => x.write s) s) = x.read := by
  induction settings generalizing s with
  | nil => cases member
  | cons y settings ih =>
    obtain ⟨fresh, distinct⟩ := List.nodup_cons.mp (List.map_cons .. ▸ distinct)
    rw [List.foldl_cons]
    rcases List.mem_cons.mp member with rfl | later
    · rw [foldl_others settings x.kind fresh, x.write_field, if_pos rfl]
    · exact ih distinct later _

theorem foldl_rest (settings : List Setting) (s : Setup) :
    ∃ dev part file,
      settings.foldl (fun s x => x.write s) s = { s with dev, part, file } := by
  induction settings generalizing s with
  | nil => exact ⟨_, _, _, rfl⟩
  | cons x settings ih =>
    obtain ⟨dev, part, file, later⟩ := ih (x.write s)
    rw [List.foldl_cons, later]
    unfold Setting.write
    cases x.kind <;> exact ⟨_, _, _, rfl⟩

theorem replaced_iff (settings : List Setting) (distinct : (settings.map Setting.kind).Nodup)
    (s : Setup) : Replaced settings s (settings.foldl (fun s x => x.write s) s) ↔
      ∀ x ∈ settings, x.read = x.asked := by
  constructor
  · intro replaced x member
    rw [← foldl_named settings distinct member s]
    exact replaced.named x member
  · intro read
    refine ⟨fun x member => ?_, fun kind other => foldl_others settings kind other s, ?_⟩
    · rw [foldl_named settings distinct member s, read x member]
    · obtain ⟨dev, part, file, rest⟩ := foldl_rest settings s
      rw [rest]

/-- A value that fits is copied in full or read as the number it is. -/
theorem Setting.fits_iff (rooms : Rooms) (x : Setting) :
    x.Fits rooms ↔ x.read = x.asked ∧ x.exceeds rooms = false := by
  unfold Setting.Fits Setting.read Setting.asked Setting.exceeds
  cases named : x.kind with
  | device => simp only [true_and, decide_eq_false_iff_not, not_lt, Nat.succ_le_iff]
  | partition =>
    dsimp only
    constructor
    · intro fits
      exact ⟨congrArg Sum.inr (simpleStrtol_number (x.number named) fits), rfl⟩
    · rintro ⟨read, _⟩
      rw [← Sum.inr.inj read]
      exact simpleStrtol_range _ _
  | file => simp only [true_and, decide_eq_false_iff_not, not_lt, Nat.succ_le_iff]

/-! ### The command -/

/-- One setting has no space behind it, and what is measured is a null pointer. -/
theorem confFill_single (low : CStr) (x : Setting) (f : Filling) :
    none ∈ (confFill rooms low (some (settingsText [x])) f).given := by
  obtain ⟨value, _⟩ := x.run rooms f
  unfold confFill
  rw [hand_bind_given, if_pos (by simpa using settingsText_ne_nil x [])]
  rw [Option.getD_some, show settingsText [x] = x.text from rfl, if_neg x.spaceless_text]
  rw [hand_bind_given, confLoop, hand_bind_given, show confTemp x.text none = x.text from rfl,
    bind_given value, Option.filter_none, Option.map_none, hand_bind_given]
  simp

theorem confFill_settings (rooms : Rooms) (low : CStr) (x y : Setting) (settings : List Setting)
    (few : settings.length < 2) (f : Filling) :
    (confFill rooms low (some (settingsText (x :: y :: settings))) f).state =
        (x :: y :: settings).foldl (Setting.fill rooms) f ∧
      none ∉ (confFill rooms low (some (settingsText (x :: y :: settings))) f).given := by
  have spaced : 32 ∈ settingsText (x :: y :: settings) := by
    rw [settingsText_cons]
    simp [settingsRest]
  have short : (y :: settings).length < 3 := Nat.succ_lt_succ few
  obtain ⟨state, given⟩ := confLoop_settings rooms low (y :: settings) short x f
  unfold confFill
  rw [hand_bind_state, hand_bind_given, if_pos (by simpa using settingsText_ne_nil x _)]
  rw [Option.getD_some, if_pos spaced, settingsText_first, hand_bind_state, hand_bind_given]
  exact ⟨state, by simpa using given⟩

/-- There are no more than three settings that differ. -/
theorem settings_few (settings : List Setting) (distinct : (settings.map Setting.kind).Nodup) :
    settings.length ≤ 3 := by
  have among : settings.map Setting.kind ⊆ [.device, .partition, .file] := by
    intro kind _
    cases kind <;> decide
  have few := (List.subperm_of_subset distinct among).length_le
  rwa [List.length_map] at few

/-- A `conf` command with settings fills `boot` in as they say exactly when there
is more than one and the values fit. -/
theorem conf_settings_iff (m : Machine) (rooms : Rooms) (s : Setup) (inp : Input) (st : Statics)
    (settled : settles (s.world m) inp st = some sel)
    (named : command (sel.imagename.getD (strdup m.low)) = .conf) (unlocked : s.password = none)
    (settings : List Setting) (some_ : settings ≠ [])
    (distinct : (settings.map Setting.kind).Nodup)
    (args : sel.args = some (settingsText settings)) :
    FillsIn m rooms s inp st settings ↔
      2 ≤ settings.length ∧ ∀ x ∈ settings, x.Fits rooms := by
  have call : confCall m rooms s inp st =
      some (confFill rooms (strdup m.low) (some (settingsText settings)) ⟨s, false⟩) := by
    unfold confCall
    rw [settled, Option.bind_some, if_pos ⟨named, unlocked⟩, args]
  have few := settings_few settings distinct
  unfold FillsIn
  rw [call]
  simp only [Option.some.injEq, exists_eq_left']
  match settings with
  | [] => exact absurd rfl some_
  | [x] =>
    constructor
    · rintro ⟨_, given, _⟩
      exact absurd (confFill_single _ x _) given
    · rintro ⟨two, _⟩
      exact absurd (List.length_singleton ▸ two) (by decide)
  | x :: y :: settings =>
    obtain ⟨state, given⟩ := confFill_settings rooms (strdup m.low) x y settings
      (by simpa [Nat.lt_succ_iff] using few) ⟨s, false⟩
    rw [state, foldl_fill, replaced_iff _ distinct]
    simp only [Bool.false_or, List.any_eq_false, Bool.not_eq_true, Setting.fits_iff]
    constructor
    · rintro ⟨read, _, fits⟩
      exact ⟨Nat.le_add_left 2 _, fun z member => ⟨read z member, fits z member⟩⟩
    · rintro ⟨_, fits⟩
      exact ⟨fun z member => (fits z member).1, given, fun z member => (fits z member).2⟩

/-! ### Lines that come to the command -/

/-- A call that takes no initrd settles on what its line says. -/
theorem settles_plain (w : World) (inp : Input) (st : Statics) (apart : (prompt w inp st).2.Apart)
    (takes : takesInitrd w (prompt w inp st).1 (prompt w inp st).2 = false) :
    ∃ st', settles w inp st = some (select w st'
      (orDefaultText w ((prompt w inp st).2.texts w (prompt w inp st).1).name)
      ((prompt w inp st).2.texts w (prompt w inp st).1).args) := by
  have ready : initrdSetup w (prompt w inp st).1 (prompt w inp st).2 =
      (true, (prompt w inp st).1, (prompt w inp st).2) := by
    unfold initrdSetup
    rw [takes, if_neg Bool.false_ne_true]
  unfold settles
  generalize prompt w inp st = line at *
  obtain ⟨st₁, choice⟩ := line
  simp only [ready, if_true]
  have apart' := orDefault_apart w st₁ apart
  have texts := texts_remember w st₁ _ (orDefault w st₁ choice) apart'
  rw [orDefault_texts] at texts
  refine ⟨remember w (orDefault w st₁ choice) st₁, ?_⟩
  exact congrArg some (congrArg₂ _ (congrArg Texts.name texts) (congrArg Texts.args texts))

theorem startsInitrd_head (w : World) (starts : startsInitrd w (some text) = true) :
    text.head? = some 105 := by
  have same : text.take 7 = initrdTok.take 7 := beq_iff_eq.mp starts
  cases text with
  | nil => cases same
  | cons c text => exact congrArg some (List.cons.inj same).1

/-- No setting is taken for an initrd. -/
theorem settings_noInitrd (w : World) (settings : List Setting) (some_ : settings ≠ []) :
    startsInitrd w (some (settingsText settings)) = false := by
  rw [← Bool.not_eq_true]
  intro starts
  have head := startsInitrd_head w starts
  cases settings with
  | nil => exact some_ rfl
  | cons x settings =>
    rw [settingsText_cons, Setting.text, List.append_assoc] at head
    cases kind : x.kind <;> rw [kind] at head <;> exact absurd head (by simp [Kind.key, cstr])

/-- A name that leads to no image is taken as it stands. -/
theorem select_name (w : World) (st : Statics) (name args : Option CStr)
    (missing : w.useconf = true → ∀ image, w.strg name "image" = some image → image = []) :
    (select w st name args).imagename = name := by
  unfold select
  cases conf : w.useconf with
  | false => rfl
  | true =>
    rw [if_pos rfl]
    cases found : w.strg name "image" with
    | none => rfl
    | some image =>
      obtain rfl := missing conf image found
      rfl

/-- A typed `conf` line with settings comes to the command with them, unless an
initrd is left over or an image goes by that name. -/
theorem conf_typed (m : Machine) (s : Setup) (inp : Input) (st : Statics)
    (settings : List Setting) (some_ : settings ≠ [])
    (typed : Types (s.world m) inp st ⟨some (cstr "conf"), some (settingsText settings)⟩)
    (idle : st.definitrd = true)
    (image : ∀ path, (s.world m).strg (some (cstr "conf")) "image" = some path → path = []) :
    ∃ sel, settles (s.world m) inp st = some sel ∧
      command (sel.imagename.getD (strdup m.low)) = .conf ∧
      sel.args = some (settingsText settings) := by
  have kept := (prompt_definitrd (s.world m) inp st).trans idle
  have takes : takesInitrd (s.world m) (prompt (s.world m) inp st).1
      (prompt (s.world m) inp st).2 = false := by
    rw [takesInitrd_texts, typed.texts, kept]
    unfold Texts.names
    rw [settings_noInitrd _ settings some_]
    rfl
  obtain ⟨st', settled⟩ := settles_plain (s.world m) inp st typed.apart takes
  have named : orDefaultText (s.world m) (some (cstr "conf")) = some (cstr "conf") := by
    unfold orDefaultText
    rw [if_neg]
    rw [Bool.and_eq_true, not_and]
    exact fun _ => by decide
  rw [typed.texts, named] at settled
  have label := select_custom (s.world m) st' (some (cstr "conf")) (some (settingsText settings))
    fun _ => image
  refine ⟨_, settled, ?_, ?_⟩
  · rw [select_name _ st' _ _ fun _ => image, Option.getD_some]
    decide
  · rw [select_args, label]
    rfl

/-- The disk of the sample session is called `hd`. -/
def diskRooms : Rooms := ⟨3, 1024⟩

def partitionSetting : Setting :=
  ⟨.partition, cstr "2", by decide, fun _ => .inl ⟨by decide, by decide +kernel⟩⟩

def fileSetting : Setting := ⟨.file, cstr "/etc/yaboot.conf", by decide, nofun⟩

/-- `conf partition=2 file=/etc/yaboot.conf` fills in both. -/
theorem twoSettings_fillIn : FillsIn emptyDisk diskRooms unconfigured
    (typing "conf partition=2 file=/etc/yaboot.conf") atStart [partitionSetting, fileSetting] := by
  have found : (settles (unconfigured.world emptyDisk)
      (typing "conf partition=2 file=/etc/yaboot.conf") atStart).isSome := by decide +kernel
  have named : (settles (unconfigured.world emptyDisk)
      (typing "conf partition=2 file=/etc/yaboot.conf") atStart).all fun sel =>
        command (sel.imagename.getD []) == .conf := by decide +kernel
  have args : (settles (unconfigured.world emptyDisk)
      (typing "conf partition=2 file=/etc/yaboot.conf") atStart).bind Selection.args =
        some (settingsText [partitionSetting, fileSetting]) := by decide +kernel
  obtain ⟨sel, settled⟩ := Option.isSome_iff_exists.mp found
  rw [settled] at named args
  refine (conf_settings_iff emptyDisk diskRooms unconfigured _ _ settled
    (beq_iff_eq.mp named) rfl _ (by decide) (by decide) args).mpr ⟨by decide, ?_⟩
  intro x member
  rcases List.mem_pair.mp member with rfl | rfl
  · exact ⟨by decide, by decide⟩
  · exact show 16 < 1024 by decide

/-- `conf partition=2` measures the string at address zero. -/
theorem oneSetting_null : ¬ FillsIn emptyDisk diskRooms unconfigured
    (typing "conf partition=2") atStart [partitionSetting] := by
  rintro ⟨run, called, _, given, _⟩
  have null : (confCall emptyDisk diskRooms unconfigured (typing "conf partition=2") atStart).any
      fun run => run.given.contains none := by decide +kernel
  rw [called] at null
  exact given (List.contains_iff_mem.mp null)

end Yaboot.Prompt
