import Yaboot.Elf.TextUiProofs
import Yaboot.Prompt.GateProofs

/-! Sessions at the prompt, over any number of rounds. -/
namespace Yaboot.Elf.TextUi
open CString Prompt

variable {fw : Firmware} {log log' log₁ log₂ : Log} {ui ui' : Ui}
  {rounds : List (World × Input × Attempt)}

/-- What every end of a round keeps holds at the end of a session. -/
theorem textUi_rule (inv : Log → Prop)
    (step : ∀ r ∈ rounds, ∀ log log', inv log → Ends fw r.2.2 log log' → inv log')
    (finished : textUi fw rounds ui = some ui') (start : inv ui.log) : inv ui'.log := by
  induction rounds generalizing ui with
  | nil =>
    obtain rfl := Option.some.inj finished
    exact start
  | cons r rest ih =>
    obtain ⟨w, inp, a⟩ := r
    unfold textUi at finished
    split at finished
    · cases finished
    · rename_i answer
      obtain rfl := Option.some.inj finished
      exact step _ List.mem_cons_self _ _ start (round_ends answer)
    · rename_i answer
      exact ih (fun r member => step r (List.mem_cons_of_mem _ member)) finished
        (step _ List.mem_cons_self _ _ start (round_ends answer))

def vmlinuxHeader : Phdr .elf32 :=
  ⟨1, 0x10000, 0xC0000000, 0x1000, 0x3000, by decide, by decide, by decide, by decide⟩

/-- A `vmlinux` with one segment. -/
def vmlinux : KernelFile where
  count := 20
  ident := elfMagic ++ [1, 2] ++ List.replicate 10 0 ++ [0, 2, 0, 20]
  elf32 := ⟨0xC0000000, some [vmlinuxHeader]⟩
  elf64 := ⟨0, none⟩
  trouble := .table
  file := ⟨fun _ => 0, 0x11000, fun _ => true⟩

/-- A file that ends in the middle of the segment. -/
def shortened : KernelFile := { vmlinux with file := { vmlinux.file with len := 0x10800 } }

/-- A ramdisk of a chunk and a bit. -/
def ramdisk : RamdiskFile := ⟨none, 0x100000 :: 0x8000 :: List.replicate 4095 0⟩

theorem ramdisk_ample : ramdisk.Ample := by
  have many : ramdisk.reads.length = 4097 := by
    unfold ramdisk
    rw [List.length_cons, List.length_cons, List.length_replicate]
  refine ⟨by decide, ?_⟩
  rw [many]
  decide

theorem ramdisk_sound : ramdisk.Sound := by
  intro read member
  rcases List.mem_cons.mp member with rfl | member
  · decide
  rcases List.mem_cons.mp member with rfl | member
  · decide
  · rw [List.eq_of_mem_replicate member]
    decide

def failing : Attempt := ⟨true, some shortened, true, none⟩
def booting : Attempt := ⟨true, some vmlinux, true, some ramdisk⟩

def sampleSession : List (World × Input × Attempt) :=
  [(sampleWorld, typing "a", failing), (sampleWorld, typing "b", booting)]

def ready : Ui where
  statics := { atStart with first := false }
  info := ⟨0, 0, 0, 0, 0, 0⟩
  ident := List.replicate 20 0
  flatVmlinux := false
  mem := fun _ => 0
  log := []

theorem sampleSession_ample :
    ∀ r ∈ sampleSession, ∀ rd, r.2.2.ramdisk = some rd → rd.Ample := by
  intro r member rd there
  rcases List.mem_cons.mp member with rfl | member
  · cases there
  · obtain rfl := List.mem_singleton.mp member
    obtain rfl := Option.some.inj there
    exact ramdisk_ample

theorem sampleSession_sound : ∀ r ∈ sampleSession, r.2.2.Sound := by
  intro r member rd there
  rcases List.mem_cons.mp member with rfl | member
  · cases there
  · obtain rfl := List.mem_singleton.mp member
    obtain rfl := Option.some.inj there
    exact ramdisk_sound

/-- In every session of `yaboot_text_ui` files are opened one at a time, read only while they are
open, and closed before the prompt is shown again or a kernel is entered. -/
theorem textUi_files (finished : textUi fw rounds ui = some ui')
    (start : files ui.log = some false) : files ui'.log = some false := by
  refine textUi_rule (fun log => files log = some false) (fun r _ log log' before ends => ?_)
    finished start
  cases ends with
  | prompt goes _ => exact goes.files before
  | entered goes _ => rw [files_append, goes.files before]; rfl

/-- A session of two rounds: the first kernel cannot be loaded, the second is entered. -/
theorem sampleSession_files : ∃ ui', textUi lending sampleSession ready = some ui' ∧
    files ui'.log = some false := by
  have finished : (textUi lending sampleSession ready).isSome := by decide +kernel
  obtain ⟨ui', finished⟩ := Option.isSome_iff_exists.mp finished
  exact ⟨ui', finished, textUi_files finished rfl⟩

/-- Over a session of `yaboot_text_ui` what was held from the firmware stays held, and nothing more
is while no kernel is entered: what was claimed for a kernel that failed to load is released. -/
theorem textUi_held (names : ∀ r ∈ rounds, r.2.2.ramdiskName = true)
    (finished : textUi fw rounds ui = some ui') :
    ∃ calls, ui'.log = ui.log ++ calls ∧ (∃ new, held ui'.log = new ++ held ui.log) ∧
      ((∀ e, .entered e ∉ calls) → held ui'.log = held ui.log) := by
  refine textUi_rule (fun log => ∃ calls, log = ui.log ++ calls ∧
    (∃ new, held log = new ++ held ui.log) ∧ ((∀ e, .entered e ∉ calls) → held log = held ui.log))
    (fun r member log log' before ends => ?_) finished
    ⟨[], (List.append_nil _).symm, ⟨[], rfl⟩, fun _ => rfl⟩
  obtain ⟨calls, rfl, ⟨new, kept⟩, same⟩ := before
  cases ends with
  | prompt goes nothing =>
    obtain rfl := nothing (names r member)
    obtain ⟨more, rfl, none⟩ := goes.calls
    have held_ : held _ = held _ := goes.held
    refine ⟨calls ++ more, List.append_assoc _ _ _, ⟨new, held_.trans kept⟩, fun quiet => ?_⟩
    exact held_.trans (same fun e old => quiet e (List.mem_append_left _ old))
  | @entered more e later goes _ =>
    obtain ⟨more, rfl, none⟩ := goes.calls
    refine ⟨calls ++ (more ++ [.entered e]), by simp only [List.append_assoc], ?_, fun quiet => ?_⟩
    · rw [held_entered, goes.held, kept, ← List.append_assoc]
      exact ⟨_, rfl⟩
    · exact absurd (by simp) (quiet e)

/-- A kernel that ends too early is dropped. -/
theorem failing_held : ∃ ui', textUi lending [(sampleWorld, typing "a", failing)] ready = some ui' ∧
    held ui'.log = [] := by
  have logged : (textUi lending [(sampleWorld, typing "a", failing)] ready).map Ui.log =
      some [.opened [47, 97], .access, .access, .malloc true, .access, .access,
        .claim ⟨0, 0x200000⟩ (some 0), .access, .access, .release ⟨0, 0x200000⟩, .closed] := by
    decide +kernel
  obtain ⟨ui', finished, log⟩ := Option.map_eq_some_iff.mp logged
  obtain ⟨calls, all, -, same⟩ := textUi_held (fun r member => by
    obtain rfl := List.mem_singleton.mp member
    rfl) finished
  refine ⟨ui', finished, same fun e member => ?_⟩
  have there : .entered e ∈ ui'.log := by
    rw [all]
    exact List.mem_append_right _ member
  rw [log] at there
  simp at there

/-- A session of `yaboot_text_ui` gets to its end when the firmware hands out free memory only:
every search for memory and every loop over the chunks of a ramdisk comes to a stop. -/
theorem textUi_returns (honest : Honest fw)
    (ample : ∀ r ∈ rounds, ∀ rd, r.2.2.ramdisk = some rd → rd.Ample) :
    ∃ ui', textUi fw rounds ui = some ui' := by
  induction rounds generalizing ui with
  | nil => exact ⟨ui, rfl⟩
  | cons r rest ih =>
    obtain ⟨w, inp, a⟩ := r
    obtain ⟨⟨stop, ui₁⟩, answer⟩ := round_returns w inp ui honest
      (ample _ List.mem_cons_self)
    unfold textUi
    rw [answer]
    cases stop with
    | true => exact ⟨ui₁, rfl⟩
    | false => exact ih fun r member => ample r (List.mem_cons_of_mem _ member)

/-- The session of two rounds gets to its end. -/
theorem sampleSession_returns : ∃ ui', textUi lending sampleSession ready = some ui' :=
  textUi_returns lending_granting.toHonest sampleSession_ample

/-- What a session keeps: nothing that is held overlaps, no file is open, and the kernels
were entered as is said. -/
structure Session (first log : Log) : Prop where
  extends_ : ∃ calls, log = first ++ calls
  separate : Separate log
  files : files log = some false
  backed : ∀ before e after, log = first ++ before ++ .entered e :: after →
    Backed (first ++ before) e ∧ TextUi.files (first ++ before) = some false

theorem Session.start (separate : Separate log) (quiet : TextUi.files log = some false) :
    Session log log where
  extends_ := ⟨[], (List.append_nil _).symm⟩
  separate := separate
  files := quiet
  backed before e after same := by
    have longer := congrArg List.length same
    simp only [List.length_append, List.length_cons] at longer
    omega

/-- An entry in a log that goes on with quiet calls was there before. -/
theorem entered_before {calls : List Call} (none : ∀ e, .entered e ∉ calls)
    (same : log ++ calls = log₁ ++ .entered e :: log₂) :
    ∃ rest, log = log₁ ++ .entered e :: rest := by
  rcases List.append_eq_append_iff.mp same with ⟨more, rfl, tail⟩ | ⟨more, rfl, tail⟩
  · exact absurd (by rw [tail]; simp) (none e)
  · cases more with
    | nil => exact absurd (by rw [← (show _ = calls from tail)]; simp) (none e)
    | cons call rest =>
      obtain ⟨rfl, -⟩ := List.cons.inj tail
      exact ⟨rest, rfl⟩

theorem Session.goes (session : Session log₁ log) (honest : Honest fw)
    (goes : Goes fw false false new log log') : Session log₁ log' := by
  obtain ⟨calls, same, none⟩ := goes.calls
  obtain ⟨old, begun⟩ := session.extends_
  refine ⟨⟨old ++ calls, by rw [same, begun, List.append_assoc]⟩,
    goes.separate honest session.separate, goes.files session.files, fun before e after there => ?_⟩
  obtain ⟨rest, earlier⟩ := entered_before none (same.symm.trans there)
  exact session.backed before e rest earlier

/-- A kernel that is entered on memory held for it keeps a session what it is. -/
theorem Session.entered (session : Session log₁ log) (backed : Backed log e) :
    Session log₁ (log ++ [.entered e]) := by
  obtain ⟨old, begun⟩ := session.extends_
  refine ⟨⟨old ++ [.entered e], by rw [begun, List.append_assoc]⟩, ?_, ?_, fun before e' after there => ?_⟩
  · unfold Separate
    rw [held_entered]
    exact session.separate
  · rw [files_append, session.files]
    rfl
  rcases List.eq_nil_or_concat after with rfl | ⟨rest, last, rfl⟩
  · obtain ⟨same, entry⟩ := List.append_inj' there rfl
    cases List.cons.inj entry |>.1
    rw [← same]
    exact ⟨backed, session.files⟩
  · have earlier : log = log₁ ++ before ++ .entered e' :: rest := by
      have split : log ++ [Call.entered e] = (log₁ ++ before ++ .entered e' :: rest) ++ [last] := by
        rw [there]
        simp
      exact (List.append_inj' split rfl).1
    exact session.backed before e' rest earlier

theorem Session.ends {a : Attempt} (session : Session log₁ log) (honest : Honest fw) (sound : a.Sound)
    (ends : Ends fw a log log') : Session log₁ log' := by
  cases ends with
  | prompt goes _ => exact session.goes honest goes
  | entered goes backed =>
    exact (session.goes honest goes).entered (backed honest sound session.separate)

/-- With firmware that hands out free memory and file systems that do not fail, nothing
that is held overlaps, and every kernel is entered with its own memory and that of its
ramdisk held, and no file open. -/
theorem textUi_backed (honest : Honest fw) (sound : ∀ r ∈ rounds, r.2.2.Sound)
    (finished : textUi fw rounds ui = some ui') (separate : Separate ui.log)
    (quiet : files ui.log = some false) :
    Separate ui'.log ∧
      ∀ before e after, ui'.log = ui.log ++ before ++ .entered e :: after →
        Backed (ui.log ++ before) e ∧ files (ui.log ++ before) = some false := by
  have whole : Session ui.log ui'.log := textUi_rule (Session ui.log)
    (fun r member log log' before ends => before.ends honest (sound r member) ends) finished
    (.start separate quiet)
  refine ⟨whole.separate, fun before e after same => ?_⟩
  exact whole.backed before e after same

/-- The second kernel is entered after the first could not be loaded. -/
theorem sampleSession_backed : ∃ ui', textUi lending sampleSession ready = some ui' ∧
    Separate ui'.log ∧ ∀ before e after, ui'.log = before ++ .entered e :: after →
      Backed before e ∧ files before = some false := by
  have finished : (textUi lending sampleSession ready).isSome := by decide +kernel
  obtain ⟨ui', finished⟩ := Option.isSome_iff_exists.mp finished
  exact ⟨ui', finished, textUi_backed lending_granting.toHonest sampleSession_sound finished
    List.Pairwise.nil rfl⟩

end Yaboot.Elf.TextUi
