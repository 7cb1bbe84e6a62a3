import Yaboot.Cfg.Default
import Yaboot.Cfg.LabelProofs

/-! When the lookups of `second/cfg.c` can do without a string, and when the
default set by `cfg_set_default_by_mac` is one that `cfg_get_strg` knows. -/
namespace Yaboot.Cfg
open CString

def Image.label (p : Image) : Option CStr := cfgGetStrgI p.table (cstr "label")

/-! ### Missing strings -/

/-- No call of the lookups is given a null pointer. `once` is the label to boot
once. -/
structure NoNull (low once : CStr) (t : Tables) : Prop where
  strg : ∀ image item, none ∉ cfgGetStrgArgs low t image item
  default : none ∉ cfgGetDefaultArgs t
  print : none ∉ cfgPrintImagesArgs low once t
  mac : ∀ macAddr, none ∉ cfgSetDefaultByMacArgs t macAddr

theorem labelled_args {p : Image} (labelled : p.label = some label) (low : CStr) :
    labelPointer low p = some label ∧ labelArgs p = [] := by
  unfold Image.label at labelled
  unfold labelPointer labelArgs
  rw [labelled]
  exact ⟨rfl, rfl⟩

/-- Where every image is labelled, the comparisons with a label are given strings only. -/
theorem strgArgs_labelled (low image : CStr) {images : List Image}
    (labelled : ∀ p ∈ images, p.label.isSome) : none ∉ strgArgs low image images := by
  induction images with
  | nil => exact List.not_mem_nil
  | cons p rest ih =>
    have later := ih fun q member => labelled q (List.mem_cons_of_mem p member)
    obtain ⟨label, own⟩ := Option.isSome_iff_exists.mp (labelled p (by simp))
    obtain ⟨pointer, args⟩ := labelled_args own low
    unfold strgArgs
    simp only [pointer, args, List.nil_append]
    split
    · exact later
    · split
      · simp
      · split
        · simpa using later
        · split
          · simp
          · simpa using later

/-- The strings are there exactly when every image has a label, and there is a
default, or else no image to print but the one to boot once. -/
theorem noNull_iff (low once : CStr) (t : Tables) :
    NoNull low once t ↔ (∀ p ∈ t.images, p.label.isSome) ∧
      ((cfgGetStrgI t.options (cstr "default")).isSome ∨
        ∀ p ∈ t.images, p.obsolete = false → p.label = some once) := by
  constructor
  · intro safe
    have labelled : ∀ p ∈ t.images, p.label.isSome := by
      intro p member
      rw [Option.isSome_iff_ne_none]
      intro missing
      refine safe.mac [] (List.mem_flatMap.mpr ⟨p, member, ?_⟩)
      rw [← missing]
      exact List.mem_cons_self
    refine ⟨labelled, ?_⟩
    by_contra unset
    rw [not_or] at unset
    obtain ⟨default_, others⟩ := unset
    rw [Option.not_isSome_iff_eq_none] at default_
    push Not at others
    obtain ⟨p, member, live, other⟩ := others
    obtain ⟨label, own⟩ := Option.isSome_iff_exists.mp (labelled p member)
    obtain ⟨pointer, args⟩ := labelled_args own low
    refine safe.print (List.mem_flatMap.mpr ⟨p, member, ?_⟩)
    have differs : ¬ once = deref low (some label) := by
      rintro rfl
      exact other own
    unfold printArgs
    simp [live, pointer, args, differs, default_]
  · rintro ⟨labelled, fallback⟩
    refine ⟨fun image item => ?_, ?_, ?_, fun macAddr null => ?_⟩
    · cases image with
      | none => exact List.not_mem_nil
      | some image => exact strgArgs_labelled low image labelled
    · unfold cfgGetDefaultArgs
      split
      · exact List.not_mem_nil
      · cases first : t.images.find? fun p => !p.obsolete with
        | none => exact List.not_mem_nil
        | some p =>
          obtain ⟨label, own⟩ := Option.isSome_iff_exists.mp
            (labelled p (List.mem_of_find?_eq_some first))
          rw [Option.map_some, Option.getD_some, (labelled_args own low).2]
          exact List.not_mem_nil
    · intro null
      obtain ⟨p, member, null⟩ := List.mem_flatMap.mp null
      obtain ⟨label, own⟩ := Option.isSome_iff_exists.mp (labelled p member)
      obtain ⟨pointer, args⟩ := labelled_args own low
      unfold printArgs at null
      cases live : p.obsolete with
      | true => simp [live] at null
      | false =>
        rcases fallback with set | same
        · obtain ⟨default_, set⟩ := Option.isSome_iff_exists.mp set
          simp only [live, pointer, args, set] at null
          split at null <;> simp at null
        · have once_ := same p member live
          rw [own, Option.some.injEq] at once_
          simp [live, pointer, args, once_, deref] at null
    · obtain ⟨p, member, null⟩ := List.mem_flatMap.mp null
      rw [List.mem_cons, List.mem_singleton] at null
      rcases null with missing | missing
      · have present := labelled p member
        rw [Image.label, ← missing] at present
        cases present
      · cases missing

/-- After any files were parsed, the lookups that `yaboot` makes hand no null pointer to a string
function exactly when every image has a label, and there is a default or no label in use but that of
the image to be booted once. -/
theorem lookups_safe_iff (matchArch : CStr → Bool) (earlier : List (List UInt8)) (buff : List UInt8)
    (low once : CStr) :
    NoNull low once (tablesAfter matchArch earlier buff) ↔
      (∀ p ∈ (tablesAfter matchArch earlier buff).images, p.label.isSome) ∧
      ((cfgGetStrgI (tablesAfter matchArch earlier buff).options (cstr "default")).isSome ∨
        ∀ p ∈ (tablesAfter matchArch earlier buff).images, p.obsolete = false →
          p.label = some once) :=
  noNull_iff low once _

/-- One labelled image and no default. -/
def withoutDefault : List UInt8 := cstr "image=/vmlinux\nlabel=linux\n"

/-- The default that is missing is compared with the label. -/
theorem withoutDefault_null : (cfgParse (fun _ => true) withoutDefault fresh).1 = 0 ∧
    none ∈ cfgPrintImagesArgs [] [] (tablesAfter (fun _ => true) [] withoutDefault) ∧
    ¬ NoNull [] [] (tablesAfter (fun _ => true) [] withoutDefault) := by
  have null : none ∈ cfgPrintImagesArgs [] [] (tablesAfter (fun _ => true) [] withoutDefault) := by
    decide +kernel
  exact ⟨by decide +kernel, null, fun safe => safe.print null⟩

/-! ### Labels of kept sections differ -/

/-- Two images that are kept have labels that differ in more than case. -/
def Apart (p q : Image) : Prop :=
  p.obsolete = false → q.obsolete = false → ∀ l l', p.label = some l → q.label = some l' →
    strcasecmpEq l l' = false

/-- What every assignment keeps: the current section is the last one, and labels
of kept sections differ. -/
structure LabelsApart (t : Tables) : Prop where
  place : t = ⟨t.options, [], none⟩ ∨ ∃ before p, t = filling t.options before p ∧
    p.table.map clearRow = cfImage
  apart : t.images.Pairwise Apart

theorem Apart.retire (labels : List CStr) (apart : Apart p q) :
    Apart (retire labels p) (retire labels q) := by
  intro live live' l l' own other
  exact apart (Bool.or_eq_false_iff.mp live).1 (Bool.or_eq_false_iff.mp live').1 l l' own other

/-- The label after an assignment. -/
theorem label_storeRow (rows : table.map clearRow = cfImage) (item : CStr) (value : Option CStr) :
    cfgGetStrgI (storeRow item value table) (cstr "label") =
      (labelsIn [(item, value)]).head?.or (cfgGetStrgI table (cstr "label")) := by
  have stored := cfgGetStrgI_storeAll [(item, value)] table (cstr "label")
  have once : storeAll [(item, value)] table = storeRow item value table := rfl
  obtain ⟨walk, row⟩ := Option.ne_none_iff_exists'.mp (label_known rows)
  have kind := label_row rows row
  have assigned : lastAssigned table [(item, value)] (cstr "label") =
      (labelsIn [(item, value)]).head? := by
    unfold rowOf at row
    unfold lastAssigned labelsIn wellTyped
    rw [row, Option.bind_some, kind]
    cases strcasecmpEq item (cstr "label") <;> cases value <;> simp
  rw [← once, stored, assigned]

/-- An image stays apart from the current one when that takes a label. -/
theorem Apart.store (apart : Apart q p) (rows : p.table.map clearRow = cfImage) (item : CStr)
    (value : Option CStr) :
    Apart (Cfg.retire (labelsIn [(item, value)]) q) { p with table := storeRow item value p.table } := by
  intro live live' l l' own other
  have other : cfgGetStrgI (storeRow item value p.table) (cstr "label") = some l' := other
  have own : cfgGetStrgI q.table (cstr "label") = some l := own
  rw [label_storeRow rows] at other
  obtain ⟨kept, free⟩ := Bool.or_eq_false_iff.mp live
  generalize taken : labelsIn [(item, value)] = labels at other free
  cases labels with
  | nil => exact apart kept live' l l' own other
  | cons label rest =>
    rw [List.head?_cons, Option.some_or, Option.some.injEq] at other
    have key : obsoleteKey q = some l := by rw [obsoleteKey, own, Option.some_or]
    rw [key, List.any_cons, Option.any_some, other] at free
    exact (Bool.or_eq_false_iff.mp free).1

/-- Storing an assignment keeps the labels in use apart: a new label makes the other images that
have it obsolete. -/
theorem LabelsApart.redo (t : Tables) (apart : LabelsApart t) (item : CStr) (value : Option CStr) :
    LabelsApart (cfgSetRedo item value t).2 := by
  obtain ⟨place, pairs⟩ := apart
  rcases place with empty | ⟨before, p, last, rows⟩
  · rw [empty, cfgSetRedo_global]
    exact ⟨.inl rfl, .nil⟩
  · rw [last] at pairs ⊢
    rw [cfgSetRedo_filling _ _ _ _ _ rows]
    have stored : ({ p with table := storeRow item value p.table } : Image).table.map clearRow =
        cfImage := (storeRow_clear item value p.table).trans rows
    refine ⟨.inr ⟨_, _, rfl, stored⟩, ?_⟩
    obtain ⟨first, -, each⟩ := List.pairwise_append.mp pairs
    have each := fun q member => each q member p (by simp)
    refine List.pairwise_append.mpr ⟨?_, List.pairwise_singleton _ _, ?_⟩
    · split
      · exact first
      · exact List.pairwise_map.mpr (first.imp (Apart.retire _))
    · intro q member q' single
      rw [List.mem_singleton.mp single]
      split at member
      next ignored =>
        intro _ live
        exact absurd (ignored.symm.trans live) (by decide)
      next =>
        obtain ⟨q, inside, rfl⟩ := List.mem_map.mp member
        exact (each q inside).store rows item value

theorem LabelsApart.cont (t : Tables) (apart : LabelsApart t) (ignore : Bool) :
    LabelsApart (cfgSetCont ignore t) := by
  have rows : cfImage.map clearRow = cfImage := by decide
  have unlabelled : (Image.mk cfImage ignore).label = none := cfgGetStrgI_cleared rows _
  refine ⟨.inr ⟨t.images, ⟨cfImage, ignore⟩, rfl, rows⟩, ?_⟩
  refine List.pairwise_append.mpr ⟨apart.apart, List.pairwise_singleton _ _, ?_⟩
  intro p _ q single _ _ l l' _ other
  rw [List.mem_singleton.mp single, unlabelled] at other
  cases other

theorem LabelsApart.set (t : Tables) (apart : LabelsApart t) (matchArch : CStr → Bool) (item : CStr)
    (value : Option CStr) : LabelsApart (cfgSet matchArch item value t).2 := by
  unfold cfgSet
  split
  · split
    · exact (apart.cont t _).redo _ _ _
    · split
      · exact apart.redo t item value
      · exact (apart.cont t _).redo _ _ _
  · exact apart.redo t item value

theorem labelsApart_after (matchArch : CStr → Bool) (earlier : List (List UInt8)) (buff : List UInt8) :
    LabelsApart (tablesAfter matchArch earlier buff) := by
  unfold tablesAfter
  rw [cfgParse_tables matchArch buff (afterParses_rows matchArch earlier)]
  have start : LabelsApart fresh.tables := ⟨.inl rfl, .nil⟩
  generalize fresh.tables = t at start
  induction (afterParses matchArch earlier).reads buff generalizing t with
  | nil => exact start
  | cons entry rest ih => exact ih _ (start.set t matchArch entry.1 entry.2)

/-! ### The default by MAC address -/

/-- Pointing the default elsewhere is an assignment to it. -/
theorem setDefault_storeRow (macAddr : CStr) (row : rowOf table (cstr "default") = some walk)
    (kind : walk.type = .strg) :
    setDefault macAddr table = some (storeRow (cstr "default") (some macAddr) table) := by
  induction table with
  | nil => cases row
  | cons first rest ih =>
    rw [storeRow_cons]
    unfold rowOf at row
    rw [List.find?_cons] at row
    unfold setDefault
    cases same : strcasecmpEq first.name (cstr "default") with
    | true =>
      rw [same] at row
      cases row
      simp [Config.assigned, wellTyped, kind]
    | false =>
      rw [same] at row
      simp only [Bool.false_eq_true, if_false]
      rw [ih row, Option.map_some]

theorem default_row (rows : table.map clearRow = cfOptions) :
    ∃ walk, rowOf table (cstr "default") = some walk ∧ walk.type = .strg := by
  have cleared := rowOf_clear table (cstr "default")
  have kind : rowOf cfOptions (cstr "default") = some (strg "default") := by decide
  rw [rows, kind] at cleared
  obtain ⟨walk, row, same⟩ := Option.map_eq_some_iff.mp cleared.symm
  exact ⟨walk, row, congrArg Config.type same⟩

/-- The options after the default was set: nothing else has changed. -/
theorem setDefault_options (rows : table.map clearRow = cfOptions) (macAddr : CStr) :
    ∃ table', setDefault macAddr table = some table' ∧
      cfgGetStrgI table' (cstr "default") = some macAddr ∧
      ∀ item, strcasecmpEq (cstr "default") item = false →
        cfgGetStrgI table' item = cfgGetStrgI table item := by
  obtain ⟨walk, row, kind⟩ := default_row rows
  refine ⟨_, setDefault_storeRow macAddr row kind, ?_, fun item other => ?_⟩
  · show (rowOf (storeRow _ _ table) _).bind Config.data = _
    rw [rowOf_storeRow_same, row]
    simp [Config.assigned, wellTyped, kind]
  · show (rowOf (storeRow _ _ table) item).bind Config.data = _
    rw [rowOf_storeRow_other other]
    rfl

/-- Where all images are labelled and none has an alias, the image found is the
one kept with that label. -/
theorem LabelsApart.find (apart : LabelsApart t) (labelled : ∀ p ∈ t.images, p.label.isSome)
    (unaliased : ∀ p ∈ t.images, cfgGetStrgI p.table (cstr "alias") = none) (low : CStr)
    (member : p ∈ t.images) (live : p.obsolete = false) (own : p.label = some name) :
    t.images.find? (answersTo low name) = some p := by
  have answers : ∀ q ∈ t.images, answersTo low name q = true ↔
      q.obsolete = false ∧ q.label = some name := by
    intro q inside
    obtain ⟨label, found⟩ := Option.isSome_iff_exists.mp (labelled q inside)
    have stored : cfgGetStrgI q.table (cstr "label") = some label := found
    unfold answersTo imageLabel
    rw [unaliased q inside, stored, found]
    simp
  obtain ⟨front, rest, whole⟩ := List.append_of_mem member
  have pairs := apart.apart
  rw [whole] at pairs answers ⊢
  obtain ⟨-, -, each⟩ := List.pairwise_append.mp pairs
  rw [List.find?_append, List.find?_eq_none.mpr, Option.none_or,
    List.find?_cons_of_pos ((answers p (by simp)).mpr ⟨live, own⟩)]
  intro q inside same
  obtain ⟨live', own'⟩ := (answers q (by simp [inside])).mp same
  have differs := each q inside p (by simp) live' live name name own' own
  rw [strcasecmpEq_refl] at differs
  cases differs

/-- Setting the default by MAC address is right: it succeeds when an image that
is kept has this label, the default is then that image, and nothing else has
changed. -/
structure SetsDefault (low macAddr : CStr) (t : Tables) : Prop where
  value : (cfgSetDefaultByMac low macAddr t).1 = 1 ↔
    ∃ p ∈ t.images, p.obsolete = false ∧ p.label = some macAddr
  default : (cfgSetDefaultByMac low macAddr t).1 = 1 →
    cfgGetDefault low (cfgSetDefaultByMac low macAddr t).2 = some macAddr
  image : (cfgSetDefaultByMac low macAddr t).1 = 1 → ∀ p ∈ t.images, p.obsolete = false →
    p.label = some macAddr →
      cfgGetStrg low (cfgSetDefaultByMac low macAddr t).2 (some macAddr) (cstr "image") =
        cfgGetStrgI p.table (cstr "image")
  failed : (cfgSetDefaultByMac low macAddr t).1 = 0 →
    cfgGetDefault low (cfgSetDefaultByMac low macAddr t).2 = cfgGetDefault low t
  images : (cfgSetDefaultByMac low macAddr t).2.images = t.images
  options : ∀ item, strcasecmpEq (cstr "default") item = false →
    cfgGetStrgI (cfgSetDefaultByMac low macAddr t).2.options item = cfgGetStrgI t.options item

theorem options_after (matchArch : CStr → Bool) (earlier : List (List UInt8)) (buff : List UInt8) :
    (tablesAfter matchArch earlier buff).options.map clearRow = cfOptions := by
  have rows := afterParses_rows matchArch (earlier ++ [buff])
  unfold afterParses at rows
  rw [List.foldl_append] at rows
  exact rows

/-- There is no global image. -/
theorem global_image (rows : table.map clearRow = cfOptions) :
    cfgGetStrgI table (cstr "image") = none := by
  have cleared := rowOf_clear table (cstr "image")
  have unknown : rowOf cfOptions (cstr "image") = none := by decide
  rw [rows, unknown] at cleared
  show (rowOf table (cstr "image")).bind Config.data = none
  rw [Option.map_eq_none_iff.mp cleared.symm]
  rfl

/-- The default is set as soon as any image has the label, kept or not. -/
theorem labelled_any {images : List Image} (labelled : ∀ p ∈ images, p.label.isSome)
    (low macAddr : CStr) :
    (images.any fun p => deref low (cfgGetStrgI p.table (cstr "label")) == macAddr) = true ↔
      ∃ p ∈ images, p.label = some macAddr := by
  rw [List.any_eq_true]
  refine exists_congr fun p => and_congr_right fun member => ?_
  obtain ⟨label, own⟩ := Option.isSome_iff_exists.mp (labelled p member)
  have stored : cfgGetStrgI p.table (cstr "label") = some label := own
  rw [stored, own]
  simp [deref]

/-- `cfg_set_default_by_mac` makes the image labelled with the MAC address the default, and leaves
the default alone where there is none, exactly when the label is not one that only obsolete images
have. -/
theorem default_by_mac_iff (matchArch : CStr → Bool) (earlier : List (List UInt8))
    (buff : List UInt8)
    (labelled : ∀ p ∈ (tablesAfter matchArch earlier buff).images, p.label.isSome)
    (unaliased : ∀ p ∈ (tablesAfter matchArch earlier buff).images,
      cfgGetStrgI p.table (cstr "alias") = none) (low macAddr : CStr) :
    SetsDefault low macAddr (tablesAfter matchArch earlier buff) ↔
      ((∃ p ∈ (tablesAfter matchArch earlier buff).images, p.label = some macAddr) →
        ∃ p ∈ (tablesAfter matchArch earlier buff).images,
          p.obsolete = false ∧ p.label = some macAddr) := by
  have apart := labelsApart_after matchArch earlier buff
  have rows := options_after matchArch earlier buff
  generalize tablesAfter matchArch earlier buff = t at *
  obtain ⟨options, set, found, others⟩ := setDefault_options rows macAddr
  by_cases any : ∃ p ∈ t.images, p.label = some macAddr
  · have moved : cfgSetDefaultByMac low macAddr t = (1, { t with options := options }) := by
      unfold cfgSetDefaultByMac
      rw [if_pos ((labelled_any labelled low macAddr).mpr any), set]
    constructor
    · exact fun right _ => right.value.mp (by rw [moved])
    · intro live
      refine ⟨?_, fun _ => ?_, fun _ p member kept own => ?_, fun failed => ?_, ?_, ?_⟩
      · rw [moved]
        exact iff_of_true rfl (live any)
      · rw [moved]
        unfold cfgGetDefault
        simp only [found]
      · have none := (others (cstr "image") (by decide)).trans (global_image rows)
        have first := apart.find labelled unaliased low member kept own
        rw [moved]
        unfold cfgGetStrg
        simp only [first, none, Option.or_none]
      · rw [moved] at failed
        cases failed
      · rw [moved]
      · rw [moved]
        exact others
  · have same : cfgSetDefaultByMac low macAddr t = (0, t) := by
      unfold cfgSetDefaultByMac
      rw [if_neg (mt (labelled_any labelled low macAddr).mp any)]
    refine iff_of_true ?_ fun some_ => absurd some_ any
    refine ⟨?_, fun one => ?_, fun one => ?_, fun _ => by rw [same], by rw [same], fun _ _ => by rw [same]⟩
    · rw [same]
      refine iff_of_false (show ¬ (0 : Int) = 1 by decide) ?_
      rintro ⟨p, member, -, own⟩
      exact any ⟨p, member, own⟩
    · rw [same] at one
      cases one
    · rw [same] at one
      cases one

/-- An image for another machine has the label. -/
def otherMachine : List UInt8 :=
  cstr "image=/vmlinux\nlabel=linux\nimage[other]=/other\nlabel=00:11\n"

/-- The label of an image for this machine becomes the default. -/
theorem otherMachine_sets : SetsDefault [] (cstr "linux") (tablesAfter (fun _ => false) [] otherMachine) :=
  (default_by_mac_iff (fun _ => false) [] otherMachine (by decide +kernel) (by decide +kernel) []
    (cstr "linux")).mpr fun _ => by decide +kernel

/-- The default becomes a label that no lookup knows. -/
theorem otherMachine_unknown : (cfgParse (fun _ => false) otherMachine fresh).1 = 0 ∧
    (cfgSetDefaultByMac [] (cstr "00:11") (tablesAfter (fun _ => false) [] otherMachine)).1 = 1 ∧
    cfgGetStrg [] (cfgSetDefaultByMac [] (cstr "00:11") (tablesAfter (fun _ => false) [] otherMachine)).2
      (some (cstr "00:11")) (cstr "image") = none ∧
    ¬ SetsDefault [] (cstr "00:11") (tablesAfter (fun _ => false) [] otherMachine) := by
  have set : (cfgSetDefaultByMac [] (cstr "00:11")
      (tablesAfter (fun _ => false) [] otherMachine)).1 = 1 := by decide +kernel
  refine ⟨by decide +kernel, set, by decide +kernel, fun right => ?_⟩
  have live := right.value.mp set
  revert live
  decide +kernel

end Yaboot.Cfg
