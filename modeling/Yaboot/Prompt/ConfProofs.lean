import Yaboot.Cfg.HistoryProofs
import Yaboot.Prompt.Conf
import Yaboot.Prompt.GateProofs

/-! What a failed `conf` command leaves of a session. The device comes back; the
rest comes back only where the values it is put back to happen to be the old
ones. -/
namespace Yaboot.Prompt
open CString Cfg Fs Strtol Netboot

variable {m : Machine} {s : Setup} {args : CStr}

/-! ### The state the prompt is in -/

/-- The settlement of a call is what `get_params` goes on with. -/
theorem getParams_settles (w : World) (inp : Input) (st : Statics) :
    ∃ st', (getParams w inp st).1 =
      ((settles w inp st).map (launch w st')).getD ⟨0, .empty none, [], none, false⟩ := by
  unfold getParams answer settles proceed
  dsimp only
  split
  · exact ⟨_, rfl⟩
  · exact ⟨st, rfl⟩

/-- `partition` as the configuration has it for a label. -/
def World.defpart (w : World) (label : Option CStr) : Int :=
  if w.useconf then
    match label with
    | none => w.partition none w.boot.part
    | some label => w.partition (some label) (w.partition none w.boot.part)
  else w.boot.part

theorem partition_twice (w : World) (label : Option CStr) (defpart : Int) :
    w.partition label (w.partition label defpart) = w.partition label defpart := by
  unfold World.partition
  cases w.strg label "partition" with
  | none => rfl
  | some p =>
    dsimp only
    split_ifs <;> rfl

theorem select_defpart (w : World) (st : Statics) (name args : Option CStr) :
    (select w st name args).defpart = w.defpart (select w st name args).label := by
  unfold select World.defpart
  split
  · split
    · dsimp only
      cases name with
      | none => exact partition_twice w none _
      | some label => rfl
    · rfl
  · rfl

theorem settles_defpart (settled : settles w inp st = some sel) :
    sel.defpart = w.defpart sel.label := by
  unfold settles at settled
  dsimp only at settled
  split at settled
  · cases settled
    exact select_defpart w _ _ _
  · cases settled

/-! ### The load -/

/-- The lines of a text up to its end or its first error. -/
def linesOf (text : List UInt8) (st : CfgState) : List (CStr × Option CStr) :=
  (scan { st.scanner with currp := text, lineNum := 0 }).2.1

theorem cfgParse_lines (matchArch : CStr → Bool) (text : List UInt8) (st : CfgState) :
    (cfgParse matchArch text st).2.tables =
      assignAll matchArch (linesOf text st) (cfgReset st).tables := by
  unfold cfgParse
  rw [parseLoop_scan]
  rfl

/-- What opening and reading a session's file gives. -/
def Setup.opens (m : Machine) (s : Setup) : Int := m.openFile s.boot

def Setup.size (m : Machine) (s : Setup) : Int := (m.read s.boot).1

def Setup.text (m : Machine) (s : Setup) : List UInt8 :=
  (m.read s.boot).2.take (s.size m).toNat

/-- The tables the lines of that file make. -/
def Setup.lines (m : Machine) (s : Setup) (st : CfgState) : Tables :=
  assignAll m.matchArch (linesOf (s.text m) st) (cfgReset st).tables

/-- A load that fails: its result is that of opening the file, and the tables
are the old ones or those of the lines before the error. -/
theorem load_failed {st : CfgState} (failed : ¬ 0 < (loadConfigFile (m.files s) s.file st).1.result) :
    (loadConfigFile (m.files s) s.file st).1.result = s.opens m ∧
      (loadConfigFile (m.files s) s.file st).1 ≠ .parsed ∧
      (loadConfigFile (m.files s) s.file st).2.tables =
        if s.opens m = 0 ∧ 0 < s.size m then s.lines m st else st.tables := by
  have load : loadConfigFile (m.files s) s.file st =
      if s.opens m ≠ 0 then (.unopened (s.opens m), st)
      else if s.size m ≤ 0 then (.unread, st)
      else
        let parse := cfgParse m.matchArch (s.text m) st
        if parse.1 < 0 then (.unparsed, parse.2)
        else if (m.files s).net then
          (.parsed, { parse.2 with
            tables := Netboot.cfgSetDefaultByMac (m.files s).low ((m.files s).netinfo.map promGetMac)
              parse.2.tables })
        else (.parsed, parse.2) := rfl
  rw [load] at failed ⊢
  by_cases missing : s.opens m ≠ 0
  · have short : ¬ (s.opens m = 0 ∧ 0 < s.size m) := fun both => missing both.1
    rw [if_pos missing, if_neg short]
    exact ⟨rfl, by simp, rfl⟩
  · rw [if_neg missing] at failed ⊢
    have zero : s.opens m = 0 := by simpa using missing
    by_cases empty : s.size m ≤ 0
    · have short : ¬ (s.opens m = 0 ∧ 0 < s.size m) := fun both => not_lt.mpr empty both.2
      rw [if_pos empty, if_neg short]
      exact ⟨zero.symm, by simp, rfl⟩
    · rw [if_neg empty] at failed ⊢
      have long : s.opens m = 0 ∧ 0 < s.size m := ⟨zero, not_le.mp empty⟩
      rw [if_pos long]
      dsimp only at failed ⊢
      split_ifs at failed ⊢ with bad net
      · exact ⟨zero.symm, by simp, cfgParse_lines m.matchArch (s.text m) st⟩
      · simp [Stage.result] at failed
      · simp [Stage.result] at failed

/-! ### The theorem -/

/-- The answers of two configurations, asked for strings and the default. -/
def SameLookups (t t' : Tables) : Prop :=
  ∀ low image item, cfgGetStrg low t image item = cfgGetStrg low t' image item ∧
    cfgGetDefault low t = cfgGetDefault low t'

/-- What a session still has of another one. -/
structure Setup.Keeps (s s' : Setup) : Prop where
  dev : s'.dev = s.dev
  part : s'.part = s.part
  file : s'.file = s.file
  useconf : s'.useconf = s.useconf
  password : s'.password = s.password
  answers : SameLookups s'.cfg.tables s.cfg.tables

/-- The old values are the ones a failure puts back: the result of opening the
file the arguments ask for, no file name, the partition of the configuration,
and, where there is a text to parse, what its lines say in front of the error. -/
structure Setup.Restorable (m : Machine) (args : CStr) (label : Option CStr) (s : Setup) :
    Prop where
  useconf : s.useconf = (requested m args s).opens m
  file : s.file = []
  part : (s.world m).defpart label = s.part
  lines : (requested m args s).opens m = 0 → 0 < (requested m args s).size m →
    SameLookups ((requested m args s).lines m s.cfg) s.cfg.tables

/-- A `conf` command whose file cannot be opened or parsed leaves the session as it was, device,
file and partition included, exactly when the values it puts back are the old ones. -/
theorem failed_conf_iff (m : Machine) (s : Setup) (inp : Input) (st : Statics)
    (settled : settles (s.world m) inp st = some sel)
    (line : confLine (s.world m) sel = some args)
    (failed : ¬ 0 < (loadConfigFile (m.files (requested m args s)) (requested m args s).file
      s.cfg).1.result) :
    s.Keeps (getParamsSetup m s inp st).2 ↔ s.Restorable m args sel.label := by
  obtain ⟨result, stage, tables⟩ := load_failed failed
  have after : (getParamsSetup m s inp st).2 = confCommand m args sel.defpart s := by
    simp only [getParamsSetup, settled, Option.bind_some, line, Option.map_some, Option.getD_some]
  have put : confCommand m args sel.defpart s = { requested m args s with
      useconf := (requested m args s).opens m
      cfg := (loadConfigFile (m.files (requested m args s)) (requested m args s).file s.cfg).2
      password := s.password
      file := []
      dev := s.dev
      part := sel.defpart } := by
    unfold confCommand
    dsimp only
    rw [if_neg failed, if_neg stage, result]
  rw [after, put, settles_defpart settled]
  constructor
  · intro kept
    refine ⟨kept.useconf.symm, kept.file.symm, kept.part, fun opened filled => ?_⟩
    have same := kept.answers
    dsimp only at same
    rwa [tables, if_pos ⟨opened, filled⟩] at same
  · intro restorable
    refine ⟨rfl, restorable.part, restorable.file.symm, restorable.useconf.symm, rfl, ?_⟩
    dsimp only
    rw [tables]
    split
    · rename_i reached
      exact restorable.lines reached.1 reached.2
    · exact fun _ _ _ => ⟨rfl, rfl⟩

/-- A machine on which no file is found. -/
def emptyDisk : Machine where
  fw := sampleWorld.fw
  low := []
  behind := fun _ => []
  fwRebootCnt := 0
  etc := true
  netinfo := none
  matchArch := fun _ => true
  openFile := fun _ => -2
  read := fun _ => (0, [])

/-- The session after a failure to open the configuration. -/
def unconfigured : Setup where
  useconf := -2
  password := none
  dev := cstr "hd"
  part := 3
  file := []
  fspec := BootFspec.zero
  cfg := fresh

/-- Failing once more in the same way changes nothing. -/
theorem unconfigured_kept : unconfigured.Keeps
    (getParamsSetup emptyDisk unconfigured (typing "conf file=/x") atStart).2 := by
  have found : (settles (unconfigured.world emptyDisk) (typing "conf file=/x") atStart).isSome := by
    decide +kernel
  have line : (settles (unconfigured.world emptyDisk) (typing "conf file=/x") atStart).bind
      (confLine (unconfigured.world emptyDisk)) = some (cstr "file=/x") := by decide +kernel
  have label : (settles (unconfigured.world emptyDisk) (typing "conf file=/x") atStart).bind
      Selection.label = none := by decide +kernel
  obtain ⟨sel, settled⟩ := Option.isSome_iff_exists.mp found
  rw [settled] at line label
  refine (failed_conf_iff emptyDisk unconfigured _ _ settled line (by decide +kernel)).mpr ?_
  rw [show sel.label = none from label]
  exact ⟨rfl, rfl, by decide +kernel, fun opened => absurd opened (by decide +kernel)⟩

/-- The session of a machine that has read its configuration. -/
def configured : Setup :=
  { unconfigured with
    useconf := 1
    file := cstr "/etc/yaboot.conf"
    cfg := (cfgParse (fun _ => true) (cstr "image=/vmlinux\nlabel=linux\n") fresh).2 }

/-- A mistyped file name makes the prompt forget that it has a configuration. -/
theorem configured_forgotten :
    ¬ configured.Keeps (getParamsSetup emptyDisk configured (typing "conf file=/x") atStart).2 := by
  intro kept
  exact absurd kept.useconf (by decide +kernel)

end Yaboot.Prompt
