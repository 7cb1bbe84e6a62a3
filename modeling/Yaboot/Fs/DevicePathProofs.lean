import Yaboot.Fs.DevicePath
import Yaboot.Lib.StrtolProofs

/-! The paths a user writes on a machine with a default disk. -/
namespace Yaboot.Fs
open CString Strtol

/-- The last `c` of a string is where nothing behind it is a `c`. -/
theorem reverse_cut {a b : CStr} {c : UInt8} (last : c ∉ b) :
    (a ++ c :: b).reverse.takeWhile (· != c) = b.reverse ∧
      (a ++ c :: b).reverse.dropWhile (· != c) = c :: a.reverse := by
  have passes : ∀ x ∈ b.reverse, (x != c) = true := by
    intro x member
    rw [bne_iff_ne]
    rintro rfl
    exact last (List.mem_reverse.mp member)
  rw [List.reverse_append, List.reverse_cons, List.append_assoc]
  constructor
  · rw [List.takeWhile_append_of_pos passes]
    simp
  · rw [List.dropWhile_append_of_pos passes]
    simp

theorem afterLast_eq {a b : CStr} {c : UInt8} (last : c ∉ b) : afterLast (a ++ c :: b) c = b := by
  unfold afterLast
  rw [(reverse_cut last).1, List.reverse_reverse]

theorem beforeLast_eq {a b : CStr} {c : UInt8} (last : c ∉ b) : beforeLast (a ++ c :: b) c = a := by
  unfold beforeLast
  rw [(reverse_cut last).2, List.drop_one, List.tail_cons, List.reverse_reverse]

theorem afterLast_free (s : CStr) (c : UInt8) : c ∉ afterLast s c := by
  unfold afterLast
  intro member
  have passed := List.mem_takeWhile_imp (List.mem_reverse.mp member)
  simp at passed

/-- The name of a default disk, without an argument it may end in. -/
def trimmed (defdevice : CStr) : CStr :=
  if 58 ∈ defdevice then beforeLast defdevice 58 else defdevice

variable {fw : Firmware} {defdevice deffile d n f g : CStr} {defpart : Int}

/-- On a disk a path without the token of iSCSI is taken apart as it is. -/
theorem parseDevicePath_block (block : fw.devtype defdevice = .ok .block)
    (plain : strstr path tokIscsi = false) (r : BootFspec) :
    parseDevicePath fw path (some defdevice) defpart deffile r =
      parseIpath fw (.ok .block) path (some defdevice) defpart deffile
        { r with dev := none, part := -1, file := none } := by
  unfold parseDevicePath
  simp [plain, block]

/-- Device and partition, with the file already taken off. -/
theorem parseIpath_device (split : splitFile path = (d ++ 58 :: n, file)) (last : 58 ∉ n)
    (r : BootFspec) :
    parseIpath fw (.ok .block) path (some defdevice) defpart deffile r =
      (true, withDefaults (some (trimmed defdevice)) defpart deffile
        { r with
          file
          dev := some d
          part := if n = [] then r.part else (simpleStrtol n 10).1 }) := by
  unfold parseIpath
  simp only [split, beforeLast_eq last, afterLast_eq last]
  rw [if_pos (by simp)]
  rfl

/-- `d:n,f` has a comma behind its last colon. -/
theorem splitFile_file (comma : 44 ∉ f) (colon : 58 ∉ f) :
    splitFile (d ++ 58 :: n ++ 44 :: f) = (d ++ 58 :: n, some f) := by
  unfold splitFile
  rw [afterLast_eq comma, beforeLast_eq comma, if_pos]
  exact ⟨by simp, by simp, colon⟩

/-- What stands behind the last `c` stays there. -/
theorem afterLast_append {a b : CStr} {c : UInt8} (absent : c ∉ b) :
    afterLast (a ++ b) c = afterLast a c ++ b := by
  have passes : ∀ x ∈ b.reverse, (x != c) = true := by
    intro x member
    rw [bne_iff_ne]
    rintro rfl
    exact absent (List.mem_reverse.mp member)
  unfold afterLast
  rw [List.reverse_append, List.takeWhile_append_of_pos passes, List.reverse_append,
    List.reverse_reverse]

/-- `d:n` has none, whatever commas are in the name of the device. -/
theorem splitFile_bare (number : 44 ∉ n) : splitFile (d ++ 58 :: n) = (d ++ 58 :: n, none) := by
  have colon : 58 ∈ afterLast (d ++ 58 :: n) 44 := by
    rw [afterLast_append (by simpa using number)]
    simp
  unfold splitFile
  rw [if_neg]
  exact fun taken => taken.2.2 colon

/-- A path without a colon keeps its commas. -/
theorem splitFile_plain (plain : 58 ∉ g) : splitFile g = (g, none) := by
  unfold splitFile
  rw [if_neg]
  exact fun taken => plain taken.1

/-- What a path stands for on a machine whose default device is a disk: device,
partition and file, or what of them is given. -/
structure ParsesPaths (fw : Firmware) (defdevice : CStr) (defpart : Int) (deffile : CStr)
    (r : BootFspec) : Prop where
  whole : ∀ d n f, 58 ∉ d → Decimal n → decimal n < 2 ^ 31 → 44 ∉ f → 58 ∉ f →
    strstr (d ++ 58 :: n ++ 44 :: f) tokIscsi = false →
    parseDevicePath fw (d ++ 58 :: n ++ 44 :: f) (some defdevice) defpart deffile r =
      (true, { r with dev := some d, part := decimal n, file := some f })
  noFile : ∀ d n, 58 ∉ d → Decimal n → decimal n < 2 ^ 31 →
    strstr (d ++ 58 :: n) tokIscsi = false →
    parseDevicePath fw (d ++ 58 :: n) (some defdevice) defpart deffile r =
      (true, { r with dev := some d, part := decimal n, file := some deffile })
  noPartition : ∀ d f, 58 ∉ d → 44 ∉ f → 58 ∉ f →
    strstr (d ++ 58 :: 44 :: f) tokIscsi = false →
    parseDevicePath fw (d ++ 58 :: 44 :: f) (some defdevice) defpart deffile r =
      (true, { r with dev := some d, part := defpart, file := some f })
  fileOnly : ∀ g, g ≠ [] → 58 ∉ g → strstr g tokIscsi = false →
    parseDevicePath fw g (some defdevice) defpart deffile r =
      (true, { r with dev := some (trimmed defdevice), part := defpart, file := some g })
  empty : (parseDevicePath fw [] (some defdevice) defpart deffile r).1 = false

/-- Every path of the forms in the comment over `parse_device_path` is taken apart into the device,
the partition and the file it was put together from. -/
theorem parseDevicePath_paths (block : fw.devtype defdevice = .ok .block) (r : BootFspec) :
    ParsesPaths fw defdevice defpart deffile r where
  whole d n f _ number small comma colon plain := by
    rw [parseDevicePath_block block plain,
      parseIpath_device (splitFile_file comma colon) (number.not_mem (by decide)),
      if_neg number.nonempty, simpleStrtol_decimal number small]
    simp [withDefaults]
  noFile d n _ number small plain := by
    rw [parseDevicePath_block block plain,
      parseIpath_device (splitFile_bare (number.not_mem (by decide)))
        (number.not_mem (by decide)),
      if_neg number.nonempty, simpleStrtol_decimal number small]
    simp [withDefaults]
  noPartition d f _ comma colon plain := by
    have split : splitFile (d ++ 58 :: 44 :: f) = (d ++ 58 :: [], some f) := by
      have whole := splitFile_file (d := d) (n := []) comma colon
      rwa [List.append_assoc] at whole
    rw [parseDevicePath_block block plain, parseIpath_device split (by simp), if_pos rfl]
    simp [withDefaults]
  fileOnly g filled colon plain := by
    rw [parseDevicePath_block block plain]
    unfold parseIpath
    simp only [splitFile_plain colon]
    rw [if_neg colon]
    simp [filled, withDefaults, trimmed]
  empty := by
    rw [parseDevicePath_block block (by decide)]
    rfl

/-- A machine with disks and nothing else. -/
def disksOnly : Firmware where
  devtype := fun _ => .ok .block
  nasBootdevice := none
  extractNetbootArgs := fun _ r => (true, r)
  extractNetinfoArgs := id

/-- A kernel in a directory of the third partition of a disk, the default device being another. -/
theorem kernelPath_parsed :
    parseDevicePath disksOnly (cstr "hd" ++ 58 :: cstr "3" ++ 44 :: cstr "/boot/vmlinux")
        (some (cstr "disk:")) 2 (cstr "/vmlinux") BootFspec.zero =
      (true, { BootFspec.zero with
        dev := some (cstr "hd"), part := 3, file := some (cstr "/boot/vmlinux") }) :=
  (parseDevicePath_paths rfl _).whole (cstr "hd") (cstr "3") (cstr "/boot/vmlinux") (by decide)
    ⟨by decide +kernel, by decide +kernel⟩ (by decide +kernel) (by decide +kernel) (by decide +kernel)
    (by decide +kernel)

end Yaboot.Fs
