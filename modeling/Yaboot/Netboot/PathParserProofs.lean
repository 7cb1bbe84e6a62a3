import Yaboot.Netboot.NetinfoProofs
import Yaboot.Netboot.PathParser

/-! What `parse_device_path` leaves alone, and what it always sets. -/
namespace Yaboot.Netboot
open CString Strtol Fs Pointers

variable {m : Machine} {imagepath ipath deffile : CStr} {defdev defdevice : Option CStr}
variable {defpart : Int}

/-! ### No null pointer, and nothing changed -/

theorem clean_ipv4Fields (args : CStr) (r : BootFspec) :
    Clean (handIpv4Fields m ipath args r) := by
  unfold handIpv4Fields
  refine (clean_hand _).bind fun _ => clean_if (fun _ => clean_pure _) fun _ => ?_
  exact (clean_hand _).bind fun _ => clean_pure _

theorem clean_ipv4Args (r : BootFspec) : Clean (handIpv4Args m ipath r) := by
  unfold handIpv4Args
  refine (clean_hand _).bind fun _ => ?_
  cases strrchr ipath 58 with
  | none => exact clean_pure _
  | some start =>
    refine (clean_handIf _ _).bind fun _ => ?_
    cases ipv4Start ipath with
    | none => exact clean_pure _
    | some args => exact clean_ipv4Fields args r

theorem clean_netbootArgs (r : BootFspec) : Clean (handNetbootArgs m ipath r) := by
  unfold handNetbootArgs
  have read : Clean (handIpArgs m ipath r) :=
    clean_if (fun _ => (clean_hand _).bind fun _ => clean_pure _) fun _ => clean_ipv4Args r
  exact read.bind fun _ => (clean_reading _).bind fun _ => clean_pure _

theorem clean_netFields (r : BootFspec) : Clean (handNetFields m ipath r) := by
  unfold handNetFields
  refine clean_if (fun _ => clean_netbootArgs r) fun _ => ?_
  exact (clean_reading _).bind fun _ => (clean_hand _).bind fun _ => clean_pure _

theorem clean_netdevPathToDev (path : CStr) : Clean (handNetdevPathToDev path) :=
  (clean_hand _).bind fun _ => (clean_handIf _ _).bind fun _ => clean_pure _

theorem clean_trimDefdev (d : CStr) : Clean (trimDefdev (some d)) := by
  unfold trimDefdev
  refine (clean_hand _).bind fun _ => clean_state.bind fun memory => ?_
  refine clean_if (fun _ => ?_) fun _ => clean_pure _
  exact (clean_hand _).bind fun _ => clean_pure _

theorem clean_splitFile (path : CStr) : Clean (handSplitFile path) := by
  unfold handSplitFile
  refine (clean_hand _).bind fun _ => clean_if (fun _ => ?_) fun _ => clean_pure _
  refine (clean_hand _).bind fun _ => clean_if (fun _ => ?_) fun _ => clean_pure _
  refine (clean_hand _).bind fun _ => clean_if (fun _ => ?_) fun _ => clean_pure _
  exact (clean_hand _).bind fun _ => clean_pure _

/-- The pointer to the default device is handed on only where it is tested. -/
theorem clean_defaults (r : BootFspec) : Clean (handDefaults defdev defpart deffile r) := by
  unfold handDefaults
  refine Clean.bind ?_ fun _ => (clean_handIf _ _).bind fun _ => clean_pure _
  cases defdev with
  | none => exact clean_if (fun tested => absurd rfl tested.2) fun _ => clean_pure _
  | some d => exact clean_handIf _ _

theorem clean_name (r : BootFspec) : Clean (handName ipath defdev defpart deffile r) := by
  unfold handName
  refine clean_if (fun _ => ?_) fun _ => ?_
  · exact (clean_hand _).bind fun _ => clean_defaults _
  · refine (clean_hand _).bind fun _ => clean_if (fun _ => ?_) fun _ => clean_pure _
    exact (clean_hand _).bind fun _ => clean_defaults _

theorem clean_netPath (r : BootFspec) : Clean (handNetPath m ipath defdev defpart deffile r) := by
  unfold handNetPath
  refine (clean_hand _).bind fun _ => (clean_netFields r).bind fun _ => ?_
  refine clean_if (fun _ => clean_pure _) fun _ => clean_if (fun _ => ?_) fun _ => clean_defaults _
  exact (clean_netdevPathToDev _).bind fun _ => clean_defaults _

theorem clean_localPath (d : CStr) (r : BootFspec) :
    Clean (handLocalPath ipath (some d) defpart deffile r) := by
  unfold handLocalPath
  refine (clean_trimDefdev d).bind fun _ => (clean_splitFile _).bind fun _ => ?_
  refine (clean_hand _).bind fun _ => clean_if (fun _ => ?_) fun _ => clean_name _
  exact (clean_hand _).bind fun _ => clean_defaults _

/-! ### The result -/

/-- `extract_netboot_args`, where the boot packet is read to its end. -/
def Machine.netbootArgs (m : Machine) (path : CStr) (r : BootFspec) : Bool × BootFspec :=
  let found := if strstr path tokIpv6 then extractIpv6Args path r
    else extractIpv4Args m.before path r
  (found.1, (extractNetinfoArgs m.netinfo found.2).getD found.2)

/-- What a machine answers the parser that hands on no pointers. -/
def Machine.firmware (m : Machine) (memory : Memory) : Firmware where
  devtype := m.devtype
  nasBootdevice :=
    if (m.nasBootdevice memory.bootdevice).1 then some (m.nasBootdevice memory.bootdevice).2
    else none
  extractNetbootArgs := m.netbootArgs
  extractNetinfoArgs := fun r => (extractNetinfoArgs m.netinfo r).getD r

/-- With the pointers it hands on recorded, `extract_ipv4_args` returns what it returns without.
-/
theorem ipv4Args_value (r : BootFspec) (memory : Memory) :
    (handIpv4Args m ipath r memory).value = some (extractIpv4Args m.before ipath r) := by
  unfold handIpv4Args extractIpv4Args
  rw [hand_bind_value]
  cases colon : strrchr ipath 58 with
  | none =>
    have nothing : ipv4Start ipath = none := by
      unfold ipv4Start
      rw [colon, Option.bind_none]
    rw [nothing]
    rfl
  | some start =>
    rw [handIf_bind_value]
    cases ipv4Start ipath with
    | none => rfl
    | some args =>
      show (handIpv4Fields m ipath args r memory).value = _
      unfold handIpv4Fields
      rw [hand_bind_value]
      by_cases ended : (ipv4Copies ⟨0, ipv4Source m.before ipath args⟩ r).2.source = []
      · simp only [ended, if_true, pure_value]
      · simp only [ended, if_false, hand_bind_value, pure_value]

theorem ipArgs_value (r : BootFspec) (memory : Memory) :
    (handIpArgs m ipath r memory).value = some (if strstr ipath tokIpv6 then extractIpv6Args ipath r
      else extractIpv4Args m.before ipath r) := by
  unfold handIpArgs
  split
  · rfl
  · exact ipv4Args_value r memory

theorem reading_returned {a : Option α} {f : α → Handing σ β}
    (returned : ((reading a >>= f) s).value = some b) : ∃ x, a = some x ∧ (f x s).value = some b :=
  bind_returned returned

/-- So do the fields of a network path, from the arguments or from the reply of the server. -/
theorem netFields_value {r : BootFspec} {memory : Memory}
    (returned : (handNetFields m ipath r memory).value = some found) :
    found = if 58 ∈ ipath then m.netbootArgs ipath r
      else (true, { (extractNetinfoArgs m.netinfo r).getD r with file := some ipath }) := by
  unfold handNetFields at returned
  split at returned
  next colon =>
    unfold handNetbootArgs at returned
    obtain ⟨read, first, rest⟩ := bind_returned returned
    obtain ⟨r', packet, last⟩ := reading_returned rest
    rw [ipArgs_value] at first
    cases first
    rw [if_pos colon]
    unfold Machine.netbootArgs
    simp only [packet, Option.getD_some]
    exact (Option.some.inj last).symm
  next plain =>
    obtain ⟨r', packet, last⟩ := reading_returned returned
    rw [if_neg plain, packet]
    exact (Option.some.inj last).symm

theorem defaults_value (r : BootFspec) (memory : Memory) :
    (handDefaults defdev defpart deffile r memory).value =
      some (true, withDefaults defdev defpart deffile r) := by
  unfold handDefaults
  rw [handIf_bind_value, handIf_bind_value, pure_value]

/-- A path without a colon. -/
def nameResult (ipath : CStr) (defdev : Option CStr) (defpart : Int) (deffile : CStr)
    (r : BootFspec) : Bool × BootFspec :=
  if defdev.isNone then (true, withDefaults defdev defpart deffile { r with dev := some ipath })
  else if ipath ≠ [] then (true, withDefaults defdev defpart deffile { r with file := some ipath })
  else (false, r)

theorem name_value (r : BootFspec) (memory : Memory) :
    (handName ipath defdev defpart deffile r memory).value =
      some (nameResult ipath defdev defpart deffile r) := by
  unfold handName
  cases defdev with
  | none =>
    rw [if_pos rfl, hand_bind_value]
    exact defaults_value _ memory
  | some d =>
    rw [if_neg (Option.some_ne_none d), hand_bind_value]
    by_cases empty : ipath = []
    · simp [nameResult, empty]
    · rw [if_pos empty, hand_bind_value, defaults_value]
      simp [nameResult, empty]

theorem trimDefdev_value (memory : Memory) :
    (trimDefdev defdev memory).value =
      some (defdev.map fun d => if 58 ∈ d then beforeLast d 58 else d) := by
  unfold trimDefdev
  rw [hand_bind_value, state_bind]
  cases defdev with
  | none =>
    split
    · rfl
    · rfl
  | some d =>
    rw [Option.map_some]
    by_cases colon : 58 ∈ d
    · rw [if_pos (show 58 ∈ deref memory.low (some d) from colon), if_pos colon, hand_bind_value,
        pure_value]
    · rw [if_neg (show 58 ∉ deref memory.low (some d) from colon), if_neg colon, pure_value]

theorem splitFile_value (path : CStr) (memory : Memory) :
    (handSplitFile path memory).value = some (splitFile path) := by
  unfold handSplitFile splitFile
  rw [hand_bind_value]
  by_cases colon : 58 ∈ path
  · rw [if_pos colon, hand_bind_value]
    by_cases comma : 44 ∈ path
    · rw [if_pos comma, hand_bind_value]
      by_cases behind : 58 ∈ afterLast path 44
      · rw [if_neg (not_not.mpr behind), if_neg (fun taken => taken.2.2 behind), pure_value]
      · rw [if_pos behind, if_pos ⟨colon, comma, behind⟩, hand_bind_value, pure_value]
    · rw [if_neg comma, if_neg (fun taken => comma taken.2.1), pure_value]
  · rw [if_neg colon, if_neg (fun taken => colon taken.1), pure_value]

/-- A network path whose fields are found. -/
def netResult (found : Bool × BootFspec) (ipath : CStr) (defdev : Option CStr) (defpart : Int)
    (deffile : CStr) : Bool × BootFspec :=
  if !found.1 then found
  else (true, withDefaults defdev defpart deffile
    (if defdev.isNone then { found.2 with dev := some (netdevPathToDev ipath) } else found.2))

/-- So does the whole of a network path. -/
theorem netPath_value {r : BootFspec} {memory before : Memory}
    (returned : (handNetPath m ipath defdev defpart deffile r memory).value = some out) :
    out = parseIpath (m.firmware before) (.ok .net) ipath defdev defpart deffile r := by
  unfold handNetPath at returned
  rw [hand_bind_value] at returned
  obtain ⟨found, fields, rest⟩ := bind_returned returned
  have whole : parseIpath (m.firmware before) (.ok .net) ipath defdev defpart deffile r =
      netResult found ipath defdev defpart deffile := by
    rw [netFields_value fields]
    rfl
  rw [whole]
  unfold netResult
  by_cases failed : (!found.1) = true
  · rw [if_pos failed] at rest ⊢
    exact (Option.some.inj rest).symm
  · rw [if_neg failed] at rest ⊢
    cases defdev with
    | none =>
      obtain ⟨dev, path, last⟩ := bind_returned rest
      have named : dev = netdevPathToDev ipath := by
        unfold handNetdevPathToDev at path
        rw [hand_bind_value, handIf_bind_value, pure_value] at path
        exact (Option.some.inj path).symm
      rw [defaults_value, named] at last
      exact (Option.some.inj last).symm
    | some d =>
      rw [if_neg (Option.some_ne_none d), defaults_value] at rest
      exact (Option.some.inj rest).symm

theorem localPath_value (m : Machine) (r : BootFspec) (memory before : Memory) :
    (handLocalPath ipath defdev defpart deffile r memory).value =
      some (parseIpath (m.firmware before) (.ok .block) ipath defdev defpart deffile r) := by
  unfold handLocalPath
  rw [bind_value (trimDefdev_value memory), bind_value (splitFile_value _ _), hand_bind_value]
  unfold parseIpath
  by_cases colon : 58 ∈ (splitFile ipath).1
  · simp only [if_pos colon]
    rw [hand_bind_value]
    exact defaults_value _ _
  · simp only [if_neg colon]
    rw [name_value]
    cases defdev with
    | none => rfl
    | some d => rfl

theorem ipath_value (before : Memory) {r : BootFspec} {memory : Memory}
    {kind : Except FileErr DeviceKind}
    (returned : (handIpath m kind ipath defdev defpart deffile r memory).value = some out) :
    out = parseIpath (m.firmware before) kind ipath defdev defpart deffile r := by
  cases kind with
  | error e =>
    have same := (localPath_value m r memory before).symm.trans returned
    exact (Option.some.inj same).symm
  | ok kind =>
    cases kind with
    | block =>
      have same := (localPath_value m r memory before).symm.trans returned
      exact (Option.some.inj same).symm
    | net => exact netPath_value returned
    | iscsi => exact (Option.some.inj ((name_value r memory).symm.trans returned)).symm

/-- Whatever it hands on, the parser comes to what the one without pointers does. -/
theorem parse_value {r : BootFspec} {memory : Memory}
    (returned : (parseDevicePath m (some imagepath) defdevice defpart deffile r memory).value =
      some out) :
    out = Fs.parseDevicePath (m.firmware memory) imagepath defdevice defpart deffile r := by
  unfold parseDevicePath at returned
  obtain ⟨copied, copy, rest⟩ := bind_returned returned
  unfold copyPath at copy
  unfold Fs.parseDevicePath
  by_cases iscsi : strstr imagepath tokIscsi = true
  · rw [if_pos iscsi, state_bind, modify_bind] at copy
    by_cases found : (m.nasBootdevice memory.bootdevice).1 = true
    · rw [if_pos found, hand_bind_value, pure_value] at copy
      cases copy
      rw [handIf_bind_value] at rest
      have same := ipath_value memory rest
      have answered : (m.firmware memory).nasBootdevice =
          some (m.nasBootdevice memory.bootdevice).2 := if_pos found
      simp only [deviceKind, iscsi, if_true] at same
      simp only [answered, iscsi, Option.isNone_some, Bool.false_eq_true, and_false, if_false,
        if_true, Option.getD_some]
      cases defdevice with
      | none => exact same
      | some d => exact same
    · rw [if_neg found, pure_value] at copy
      cases copy
      have missing : (m.firmware memory).nasBootdevice = none := if_neg found
      rw [missing, if_pos ⟨iscsi, rfl⟩]
      exact (Option.some.inj rest).symm
  · rw [if_neg iscsi, hand_bind_value, pure_value] at copy
    cases copy
    rw [handIf_bind_value] at rest
    have same := ipath_value memory rest
    rw [if_neg (fun both => iscsi both.1)]
    simp only [deviceKind, if_neg iscsi] at same ⊢
    cases defdevice with
    | none => exact same
    | some d => exact same

/-- Success comes with a device and a file. -/
def Filled (out : Bool × BootFspec) : Prop :=
  out.1 = true → out.2.dev ≠ none ∧ out.2.file ≠ none

theorem filled_defaults {r : BootFspec} (named : r.dev ≠ none ∨ defdev ≠ none) :
    Filled (true, withDefaults defdev defpart deffile r) := by
  intro _
  unfold withDefaults
  constructor
  · rcases named with device | default
    · obtain ⟨d, set⟩ := Option.ne_none_iff_exists'.mp device
      simp [set]
    · obtain ⟨d, rfl⟩ := Option.ne_none_iff_exists'.mp default
      cases r.dev with
      | none => simp
      | some d' => simp
  · cases r.file with
    | none => simp
    | some f => simp

theorem filled_name (r : BootFspec) : Filled (nameResult ipath defdev defpart deffile r) := by
  unfold nameResult
  cases defdev with
  | none => exact filled_defaults (.inl (by simp))
  | some d =>
    rw [if_neg (by simp)]
    split
    · exact filled_defaults (.inr (by simp))
    · exact fun success => absurd success (by simp)

theorem filled_net (found : Bool × BootFspec) :
    Filled (netResult found ipath defdev defpart deffile) := by
  unfold netResult
  by_cases failed : (!found.1) = true
  · rw [if_pos failed]
    intro success
    rw [success] at failed
    exact absurd failed (by decide)
  · rw [if_neg failed]
    cases defdev with
    | none => exact filled_defaults (.inl (by simp))
    | some d => exact filled_defaults (.inr (by simp))

theorem filled_local (fw : Firmware) (r : BootFspec) :
    Filled (parseIpath fw (.ok .block) ipath defdev defpart deffile r) := by
  unfold parseIpath
  by_cases colon : 58 ∈ (splitFile ipath).1
  · simp only [if_pos colon]
    exact filled_defaults (.inl (by simp))
  · simp only [if_neg colon]
    exact filled_name _

theorem filled_ipath (fw : Firmware) (kind : Except FileErr DeviceKind) (r : BootFspec) :
    Filled (parseIpath fw kind ipath defdev defpart deffile r) := by
  cases kind with
  | error e => exact filled_local fw r
  | ok kind =>
    cases kind with
    | block => exact filled_local fw r
    | net => exact filled_net _
    | iscsi => exact filled_name r

theorem filled_parse (fw : Firmware) (r : BootFspec) :
    Filled (Fs.parseDevicePath fw imagepath defdevice defpart deffile r) := by
  unfold Fs.parseDevicePath
  split
  · exact fun success => absurd success (by simp)
  · exact filled_ipath fw _ _

/-! ### Memory -/

theorem clean_ipath {kind : Except FileErr DeviceKind} (r : BootFspec)
    (looked : defdev = none → kind = .ok .net ∨ kind = .ok .iscsi) :
    Clean (handIpath m kind ipath defdev defpart deffile r) := by
  cases defdev with
  | none =>
    rcases looked rfl with rfl | rfl
    · exact clean_netPath r
    · exact clean_name r
  | some d =>
    cases kind with
    | error e => exact clean_localPath d r
    | ok kind =>
      cases kind with
      | block => exact clean_localPath d r
      | net => exact clean_netPath r
      | iscsi => exact clean_name r

/-- What the firmware says it booted from replaces the boot device, if the path
mentions iSCSI. -/
def renamed (m : Machine) (imagepath : Option CStr) (memory : Memory) : Memory :=
  if imagepath.any (strstr · tokIscsi) then
    { memory with bootdevice := (m.nasBootdevice memory.bootdevice).2 }
  else memory

theorem copyPath_memory (m : Machine) (imagepath : CStr) (memory : Memory) :
    (copyPath m imagepath memory).state = renamed m (some imagepath) memory ∧
      none ∉ (copyPath m imagepath memory).given := by
  unfold copyPath renamed
  rw [Option.any_some]
  by_cases iscsi : strstr imagepath tokIscsi = true
  · rw [if_pos iscsi, if_pos iscsi, state_bind, modify_bind]
    by_cases found : (m.nasBootdevice memory.bootdevice).1 = true
    · rw [if_pos found]
      exact (clean_hand _).bind (fun _ => clean_pure _) _
    · rw [if_neg found]
      exact clean_pure none _
  · rw [if_neg iscsi, if_neg iscsi]
    exact (clean_hand imagepath).bind (fun _ => clean_pure _) memory

/-- There is a default device to be looked at, or the device is one whose paths
are read otherwise. -/
def Looked (m : Machine) (imagepath defdevice : Option CStr) : Prop :=
  defdevice = none → ∀ path, imagepath = some path → strstr path tokIscsi = true ∨
    m.devtype path = .ok .net ∨ m.devtype path = .ok .iscsi

/-- Where the device was looked up, no null pointer is handed on, and of memory only the boot
device is renamed. -/
theorem parse_memory {imagepath : Option CStr} {r : BootFspec} (looked : Looked m imagepath defdevice) (memory : Memory) :
    (parseDevicePath m imagepath defdevice defpart deffile r memory).state =
        renamed m imagepath memory ∧
      none ∉ (parseDevicePath m imagepath defdevice defpart deffile r memory).given := by
  unfold parseDevicePath
  cases imagepath with
  | none => exact clean_pure _ memory
  | some path =>
    obtain ⟨renames, first⟩ := copyPath_memory m path memory
    rw [← renames]
    suffices rest : ∀ copied, (copyPath m path memory).value = some copied → Clean _ by
      obtain ⟨kept, more⟩ := bind_clean rest
      exact ⟨kept, more first⟩
    intro copied copy
    cases copied with
    | none => exact clean_pure _
    | some ipath =>
      have guarded : Clean (handIf (defdevice ≠ none) defdevice : Parsing Unit) := by
        cases defdevice with
        | none => exact clean_if (fun given => absurd rfl given) fun _ => clean_pure _
        | some d => exact clean_handIf _ d
      refine guarded.bind fun _ => clean_ipath _ fun bare => ?_
      have sort := looked bare path rfl
      unfold copyPath at copy
      subst bare
      by_cases iscsi : strstr path tokIscsi = true
      · exact .inr (if_pos iscsi)
      · rw [if_neg iscsi, hand_bind_value, pure_value] at copy
        cases copy
        unfold deviceKind
        rw [if_neg iscsi]
        exact sort.resolve_left iscsi

/-- Success comes with a device and a file. Where the default device is looked at
only if there is one, no null pointer is handed on, and of all memory that is not
the parser's own only the boot device changes, for a path that mentions iSCSI. -/
theorem parseDevicePath_safe (m : Machine) (imagepath defdevice : Option CStr) (defpart : Int)
    (deffile : CStr) (r : BootFspec) (memory : Memory) :
    (∀ r', (parseDevicePath m imagepath defdevice defpart deffile r memory).value =
      some (true, r') → r'.dev ≠ none ∧ r'.file ≠ none) ∧
    (Looked m imagepath defdevice →
      (parseDevicePath m imagepath defdevice defpart deffile r memory).state =
          renamed m imagepath memory ∧
        none ∉ (parseDevicePath m imagepath defdevice defpart deffile r memory).given) := by
  refine ⟨?_, fun looked => parse_memory looked memory⟩
  intro r' returned
  cases imagepath with
  | none => exact absurd (Option.some.inj returned) (by simp)
  | some path =>
    have same := parse_value returned
    have filled : Filled (true, r') := by
      rw [same]
      exact filled_parse (m.firmware memory) r
    exact filled rfl

/-- A disk, and an iSCSI target the firmware booted from. -/
def sanMachine : Machine where
  devtype := fun _ => .ok .block
  nasBootdevice := fun _ => (true, cstr "/vdevice/iscsi@0:lun")
  netinfo := none
  before := 0

/-- On a machine that was booted from an iSCSI disk, a path that names another disk is taken apart
without a null pointer handed on. -/
theorem sanKernel_parsed :
    none ∉ (parseDevicePath sanMachine (some (cstr "hd:2,/vmlinux")) (some (cstr "disk:")) 1
      (cstr "/vmlinux") BootFspec.zero ⟨[], cstr "disk:"⟩).given :=
  ((parseDevicePath_safe sanMachine (some (cstr "hd:2,/vmlinux")) (some (cstr "disk:")) 1
    (cstr "/vmlinux") BootFspec.zero ⟨[], cstr "disk:"⟩).2 (fun bare => by simp at bare)).2

/-- The boot device of the firmware takes the place of the one in memory. -/
theorem bootdevice_replaced :
    (parseDevicePath sanMachine (some (cstr "/vdevice/iscsi")) (some (cstr "disk:")) 1
      (cstr "/vmlinux") BootFspec.zero ⟨[], cstr "disk:"⟩).state ≠ ⟨[], cstr "disk:"⟩ := by
  decide +kernel

end Yaboot.Netboot
