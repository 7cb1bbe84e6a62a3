import Yaboot.Fs.Probe

/-! When the check for swap space, which comes first in the table, lets the
drivers behind it decide. -/
namespace Yaboot.Fs
open Buffer CString

variable {w : World} {part : Option Partition} {fspec : Fspec} {file other : File}

/-- The device and the partition are such that `swap_open` gets to look for a
signature. -/
def Examined (w : World) (part : Option Partition) (fspec : Fspec) (file : File) : Prop :=
  file.deviceKind = .block ∧ w.promOpen (w.wholeDisk fspec) ≠ .null ∧
    ∃ p, part = some p ∧ w.malloc (p.blocksize * 2)

/-- `swap_open` finds a signature. -/
def SwapFound (w : World) (part : Option Partition) (fspec : Fspec) (file : File) : Prop :=
  Examined w part fspec file ∧
    ∃ p, part = some p ∧ findSignature w (w.promOpen (w.wholeDisk fspec)) p signatures w.heap

theorem swapOpen_examined (examined : Examined w part fspec file)
    (unfound : ¬ SwapFound w part fspec file) :
    swapOpen w part fspec file = (.badFsys, { file with ofDevice := .null }) := by
  obtain ⟨p, rfl, room⟩ := examined.2.2
  have none : findSignature w (w.promOpen (w.wholeDisk fspec)) p signatures w.heap = false := by
    rw [← Bool.not_eq_true]
    exact fun found => unfound ⟨examined, p, rfl, found⟩
  unfold swapOpen
  dsimp only
  rw [if_neg (not_not_intro examined.1), if_neg examined.2.1, if_neg (by simp [room]),
    if_neg (by simp [none])]

/-- Where it gets no chance to look, the check refuses the device with a code of
its own. -/
theorem swapOpen_unexamined (unexamined : ¬ Examined w part fspec file) :
    (swapOpen w part fspec file).1 ∈ [FileErr.badDev, .ioErr, .noMem] := by
  unfold swapOpen
  cases part with
  | none => simp
  | some p =>
    dsimp only
    by_cases kind : file.deviceKind = .block
    · rw [if_neg (not_not_intro kind)]
      by_cases null : w.promOpen (w.wholeDisk fspec) = .null
      · simp [null]
      · rw [if_neg null]
        by_cases room : w.malloc (p.blocksize * 2) = true
        · exact absurd ⟨kind, null, p, rfl, room⟩ unexamined
        · simp [room]
    · simp [kind]

/-- `swap_open` says "not found" exactly when it has found a signature. -/
theorem swapOpen_notFound_iff :
    (swapOpen w part fspec file).1 = .notFound ↔ SwapFound w part fspec file := by
  constructor
  · intro result
    by_contra unfound
    by_cases examined : Examined w part fspec file
    · rw [swapOpen_examined examined unfound] at result
      cases result
    · have refused := swapOpen_unexamined examined
      rw [result] at refused
      simp at refused
  · rintro ⟨⟨kind, some_, p, rfl, room⟩, q, same, found⟩
    cases same
    unfold swapOpen
    dsimp only
    rw [if_neg (not_not_intro kind), if_neg some_, if_neg (by simp [room]), if_pos found]

/-- All that the drivers look at in a file. -/
structure SameDevice (file other : File) : Prop where
  kind : file.deviceKind = other.deviceKind
  opened : file.opened = other.opened

/-- What a driver answers does not depend on what the driver before it left in
the file, and a volume that is not its own leaves the file as it was for the
next one. -/
structure SameAnswer (a b : FileErr × File) : Prop where
  result : a.1 = b.1
  rest : a.1 = .badFsys → SameDevice a.2 b.2

theorem openAt_same (same : SameDevice file other) (offset : Nat) (mount : Handle → Nat → Bool)
    (openFile : Handle → Nat → Option CStr → Bool × FileErr) :
    SameAnswer (openAt w fspec offset mount openFile file)
      (openAt w fspec offset mount openFile other) := by
  unfold openAt
  dsimp only
  split_ifs with refused foreign success
  · exact ⟨rfl, nofun⟩
  · exact ⟨rfl, fun _ => ⟨same.kind, same.opened⟩⟩
  · exact ⟨rfl, nofun⟩
  · exact ⟨rfl, fun _ => ⟨same.kind, same.opened⟩⟩

/-- `ext2_open` answers alike for two files on the same device. -/
theorem ext2Open_same (same : SameDevice file other) :
    SameAnswer (ext2Open w part fspec file) (ext2Open w part fspec other) := by
  unfold ext2Open
  dsimp only
  rw [same.opened, same.kind]
  split_ifs with busy foreign invalid
  · exact ⟨rfl, nofun⟩
  · exact ⟨rfl, nofun⟩
  · exact ⟨rfl, nofun⟩
  · cases w.ext2fsOpen (w.promOpen (w.wholeDisk fspec)) ((part.map Partition.offset).getD 0)
        ((part.map Partition.behind).getD 0) with
    | none => exact ⟨rfl, fun _ => ⟨rfl, rfl⟩⟩
    | some blocksize =>
      dsimp only
      split_ifs with full
      · exact ⟨rfl, nofun⟩
      · cases w.nameiFollow (w.promOpen (w.wholeDisk fspec))
          ((part.map Partition.offset).getD 0) fspec.file <;> exact ⟨rfl, nofun⟩

theorem ofOpen_same (same : SameDevice file other) :
    SameAnswer (ofOpen w part fspec file) (ofOpen w part fspec other) := by
  unfold ofOpen
  dsimp only
  split_ifs with tagged refused
  · exact ⟨rfl, fun _ => same⟩
  · exact ⟨rfl, fun _ => ⟨same.kind, same.opened⟩⟩
  · exact ⟨rfl, nofun⟩

theorem open_same (same : SameDevice file other) {fs : Driver} (member : fs ∈ fileDrivers) :
    SameAnswer (fs.open_ w part fspec file) (fs.open_ w part fspec other) := by
  cases fs with
  | swap => simp [fileDrivers] at member
  | ext2 => exact ext2Open_same same
  | xfs => exact openAt_same same _ _ _
  | reiserfs => exact openAt_same same _ _ _
  | of => exact ofOpen_same same

/-- The outcome of a search: the driver returned and `fserrorno`. -/
def Probed.outcome (p : Probed) : Option Driver × FileErr := (p.driver, p.fserrorno)

theorem probe_same (same : SameDevice file other) {drivers : List Driver}
    (known : ∀ fs ∈ drivers, fs ∈ fileDrivers) (e : FileErr) :
    (probe w part fspec drivers e file).outcome = (probe w part fspec drivers e other).outcome := by
  induction drivers generalizing file other e with
  | nil => rfl
  | cons fs rest ih =>
    have answer : SameAnswer (fs.open_ w part fspec file) (fs.open_ w part fspec other) :=
      open_same same (known fs List.mem_cons_self)
    unfold probe
    dsimp only
    rw [← answer.result]
    by_cases foreign : (fs.open_ w part fspec file).1 = .badFsys
    · rw [if_neg (not_not_intro foreign), if_neg (not_not_intro foreign)]
      exact ih (answer.rest foreign) (fun fs member => known fs (List.mem_cons_of_mem _ member)) _
    · rw [if_pos foreign, if_pos foreign]
      rfl

/-- A search names a driver of its table. -/
theorem probe_driver_mem {drivers : List Driver} {e : FileErr}
    (found : (probe w part fspec drivers e file).driver = some fs) : fs ∈ drivers := by
  induction drivers generalizing file e with
  | nil => cases found
  | cons first rest ih =>
    unfold probe at found
    dsimp only at found
    by_cases foreign : (first.open_ w part fspec file).1 = .badFsys
    · rw [if_neg (not_not_intro foreign)] at found
      exact List.mem_cons_of_mem _ (ih found)
    · rw [if_pos foreign] at found
      cases found
      exact List.mem_cons_self

theorem fsOpen_examined (examined : Examined w part fspec file)
    (unfound : ¬ SwapFound w part fspec file) :
    (fsOpen w part fspec file).outcome = (probe w part fspec fileDrivers .badFsys file).outcome := by
  unfold fsOpen blockFilesystems
  rw [probe, Driver.open_, swapOpen_examined examined unfound]
  dsimp only
  rw [if_neg (not_not_intro rfl)]
  have same : SameDevice { file with ofDevice := .null } file := ⟨rfl, rfl⟩
  exact probe_same same (fun fs member => member) _

/-- The check refuses what it cannot examine, and no other driver is asked. -/
theorem fsOpen_unexamined (unexamined : ¬ Examined w part fspec file) :
    fsOpen w part fspec file =
      ⟨some .swap, (swapOpen w part fspec file).1, (swapOpen w part fspec file).2⟩ := by
  have refused := swapOpen_unexamined unexamined
  have other : (swapOpen w part fspec file).1 ≠ .badFsys := by
    intro equal
    rw [equal] at refused
    simp at refused
  unfold fsOpen blockFilesystems
  rw [probe, Driver.open_, if_pos other]

/-- Where there is no swap space, the outcome of `fs_open` is that of the first driver that
recognises the volume, exactly when the check for swap space does not refuse the device before any
driver is asked. -/
theorem fsOpen_outcome_iff (w : World) (part : Option Partition) (fspec : Fspec) (file : File)
    (unfound : ¬ SwapFound w part fspec file) :
    (fsOpen w part fspec file).outcome = (probe w part fspec fileDrivers .badFsys file).outcome ↔
      Examined w part fspec file := by
  constructor
  · intro same
    by_contra unexamined
    rw [fsOpen_unexamined unexamined] at same
    have driver : (probe w part fspec fileDrivers .badFsys file).driver = some .swap :=
      (congrArg Prod.fst same).symm
    have member := probe_driver_mem driver
    simp [fileDrivers] at member
  · exact fun examined => fsOpen_examined examined unfound

/-- A disk with an ext2 volume on every partition that holds every file. -/
def ext2World : World where
  bplan := false
  promOpen _ := .device 1
  malloc _ := true
  heap _ := 0
  readblocks _ _ buffer := buffer
  ext2fsOpen _ _ _ := some 1024
  nameiFollow _ _ _ := .found
  xfsMount _ _ := false
  xfsDir _ _ _ := (false, .badFsys)
  reiserfsReadSuper _ _ := false
  reiserfsOpenFile _ _ _ := (false, .badFsys)
  low := ⟨0, 0, 0, 0, 0⟩
  partitionsLookup _ := [⟨1, 2048, 8192, 512, linuxNative⟩]
  devtype _ := .ok .iscsi
  netOpen _ := .ioErr

def ext2Partition : Partition := ⟨1, 2048, 8192, 512, linuxNative⟩

def kernelSpec : Fspec := ⟨cstr "/iscsi/disk", 1, some (cstr "/vmlinux")⟩

theorem ext2World_unfound (part : Option Partition) (fspec : Fspec) (file : File) :
    ¬ SwapFound ext2World part fspec file := by
  rintro ⟨-, p, -, found⟩
  have none : findSignature ext2World (ext2World.promOpen (ext2World.wholeDisk fspec)) p signatures
      ext2World.heap = false := rfl
  rw [none] at found
  cases found

/-- An ext2 file on a plain disk is opened by its driver, the search for swap space coming first. -/
theorem ext2_disk_opened :
    (fsOpen ext2World (some ext2Partition) kernelSpec ⟨.block, .null, 0, false⟩).outcome =
      (some .ext2, .ok) :=
  ((fsOpen_outcome_iff ext2World (some ext2Partition) kernelSpec ⟨.block, .null, 0, false⟩
    (ext2World_unfound _ _ _)).mpr
      ⟨rfl, by decide, ext2Partition, rfl, rfl⟩).trans rfl

/-- An ext2 file on an iSCSI disk: the driver would open it, the search refuses
the disk. -/
theorem iscsi_disk_refused :
    ¬ SwapFound ext2World (some ext2Partition) kernelSpec ⟨.iscsi, .null, 0, false⟩ ∧
    (probe ext2World (some ext2Partition) kernelSpec fileDrivers .badFsys
      ⟨.iscsi, .null, 0, false⟩).outcome = (some .ext2, .ok) ∧
    (fsOpen ext2World (some ext2Partition) kernelSpec ⟨.iscsi, .null, 0, false⟩).outcome =
      (some .swap, .badDev) :=
  ⟨ext2World_unfound _ _ _, rfl, rfl⟩

/-! ### `open_file` -/

theorem swapOpen_kind : (swapOpen w part fspec file).2.deviceKind = file.deviceKind := by
  unfold swapOpen
  cases part with
  | none => rfl
  | some p =>
    dsimp only
    split_ifs <;> rfl

theorem fsOpen_unexaminable (iscsi : file.deviceKind ≠ .block) :
    (fsOpen w part fspec file).fserrorno = .badDev ∧
      (fsOpen w part fspec file).file.deviceKind = file.deviceKind := by
  have unexamined : ¬ Examined w part fspec file := fun examined => iscsi examined.1
  rw [fsOpen_unexamined unexamined]
  refine ⟨?_, swapOpen_kind⟩
  unfold swapOpen
  cases part with
  | none => rfl
  | some p =>
    dsimp only
    rw [if_pos iscsi]

/-- No partition of a device that is not a plain block device yields a file. -/
theorem scanPartitions_unexaminable (iscsi : file.deviceKind ≠ .block) (partition : Int)
    (parts : List Partition) :
    ∃ found last, scanPartitions w fspec partition parts file = .inr (found, last) ∧
      last.deviceKind = file.deviceKind := by
  induction parts generalizing file with
  | nil => exact ⟨none, file, rfl, rfl⟩
  | cons p rest ih =>
    unfold scanPartitions
    obtain ⟨error, kind⟩ : (fsOpen w (some p) fspec file).fserrorno = .badDev ∧
        (fsOpen w (some p) fspec file).file.deviceKind = file.deviceKind :=
      fsOpen_unexaminable iscsi
    split_ifs with any matched
    · have later : (fsOpen w (some p) fspec file).file.deviceKind ≠ .block := by
        rw [kind]
        exact iscsi
      obtain ⟨found, last, run, same⟩ := ih later
      refine ⟨found, last, ?_, same.trans kind⟩
      rw [if_pos (.inr (by rw [error]; decide))]
      exact run
    · exact ⟨some p, file, rfl, rfl⟩
    · exact ih iscsi

/-- Nothing can be opened on an iSCSI device, whatever is on it. -/
theorem openFile_iscsi (w : World) (fspec : Fspec) (file : File)
    (iscsi : w.devtype fspec.dev = .ok .iscsi) : openFile w fspec file = .badDev := by
  unfold openFile fileBlockOpen
  rw [iscsi]
  dsimp only
  have other : ({ file with deviceKind := .iscsi } : File).deviceKind ≠ .block := nofun
  obtain ⟨found, last, run, kind⟩ :
      ∃ found last, scanPartitions w fspec fspec.part (w.partitionsLookup fspec.dev)
        { file with deviceKind := .iscsi } = .inr (found, last) ∧ last.deviceKind = .iscsi :=
    scanPartitions_unexaminable other _ _
  rw [run]
  exact (fsOpen_unexaminable (by rw [kind]; exact other)).1

/-- Nothing can be opened on a disk without an entry for the partition. -/
theorem openFile_no_entry (w : World) (fspec : Fspec) (file : File)
    (disk : w.devtype fspec.dev = .ok .block) (empty : w.partitionsLookup fspec.dev = []) :
    openFile w fspec file = .badDev := by
  unfold openFile fileBlockOpen
  rw [disk, empty]
  dsimp only [scanPartitions]
  rw [fsOpen_unexamined (by rintro ⟨-, -, p, none, -⟩; cases none)]
  rfl

end Yaboot.Fs
