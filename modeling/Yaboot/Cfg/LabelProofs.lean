import Yaboot.Cfg.ScopeProofs

/-! Which labelled images are reached by their labels. `check_for_obsolete` compares
a label with whole image paths, the lookup compares it with their last component. -/
namespace Yaboot.Cfg
open CString

/-- A section's image once the file is read, at its place in the list. -/
theorem settle_getElem? (matchArch : CStr → Bool) (sections : List Section)
    (plain : ∀ s ∈ sections, ∀ entry ∈ s.body, startOf entry.1 = none) (i : Nat) :
    (settle matchArch sections)[i]? = sections[i]?.map fun s =>
      ⟨storeAll s.entries cfImage, s.obsolete matchArch (sections.drop (i + 1))⟩ := by
  induction sections generalizing i with
  | nil => rfl
  | cons s later ih =>
    have own := plain s (by simp)
    unfold settle
    cases i with
    | zero => simp [settled_image matchArch s later own]
    | succ i => simpa using ih (fun q member => plain q (by simp [member])) i

theorem lastAssigned_mem {table : List Config} {entries : List Entry} {item value : CStr}
    (found : lastAssigned table entries item = some value) :
    ∃ walk entry, rowOf table item = some walk ∧ entry ∈ entries ∧
      strcasecmpEq entry.1 item = true ∧ wellTyped walk entry.2 = true ∧
        entry.2.getD [] = value := by
  obtain ⟨walk, row, last⟩ := Option.bind_eq_some_iff.mp found
  obtain ⟨entry, hit, value'⟩ := Option.map_eq_some_iff.mp last
  have both : (strcasecmpEq entry.1 item && wellTyped walk entry.2) = true := by
    simpa using List.find?_some hit
  have kinds := Bool.and_eq_true_iff.mp both
  exact ⟨walk, entry, row, List.mem_reverse.mp (List.mem_of_find?_eq_some hit), kinds.1, kinds.2,
    value'⟩

/-- The label a section ends up with is one of those it assigns. -/
theorem Section.label_mem {s : Section} {label : CStr}
    (labelled : s.get (cstr "label") = some label) : label ∈ s.labels := by
  obtain ⟨walk, ⟨item, value⟩, row, member, named, typed, rfl⟩ := lastAssigned_mem labelled
  have strg : walk = strg "label" := Option.some.inj (row.symm.trans (by decide))
  subst strg
  rcases List.mem_cons.mp member with path | member
  · obtain rfl : item = cstr "image" := congrArg Prod.fst path
    have differs : strcasecmpEq (cstr "image") (cstr "label") = false := by decide
    exact absurd (differs.symm.trans named) (by decide)
  · cases value with
    | none => cases typed
    | some label => exact List.mem_filterMap.mpr ⟨_, member, if_pos named⟩

/-- A label that was kept is that of no other section that was kept. -/
theorem Section.key_unique {matchArch : CStr → Bool} {s l : Section} {later : List Section}
    {label : CStr} (kept : s.obsolete matchArch later = false) (member : l ∈ later)
    (live : l.live matchArch = true) (labelled : l.get (cstr "label") = some label) :
    strcasecmpEq s.key label = false := by
  rw [← Bool.not_eq_true]
  intro same
  have taken : (later.any fun l => l.live matchArch &&
      l.labels.any fun label => strcasecmpEq s.key label) = true :=
    List.any_eq_true.mpr ⟨l, member, Bool.and_eq_true_iff.mpr
      ⟨live, List.any_eq_true.mpr ⟨label, Section.label_mem labelled, same⟩⟩⟩
  unfold Section.obsolete at kept
  rw [taken, Bool.or_true] at kept
  cases kept

theorem Section.live_of_kept {matchArch : CStr → Bool} {s : Section} {later : List Section}
    (kept : s.obsolete matchArch later = false) : s.live matchArch = true := by
  unfold Section.obsolete at kept
  simpa using (Bool.or_eq_false_iff.mp kept).1

/-- Without aliases, an earlier section that was kept answers to the label of a later one
only for want of a label of its own. -/
theorem Section.answers_label {matchArch : CStr → Bool} {s l : Section} {later : List Section}
    {label : CStr} (kept : s.obsolete matchArch later = false) (member : l ∈ later)
    (live : l.live matchArch = true) (labelled : l.get (cstr "label") = some label)
    (unaliased : s.get (cstr "alias") = none) :
    s.answers label = true ↔ s.get (cstr "label") = none ∧ afterLast s.path 47 = label := by
  have differs := Section.key_unique kept member live labelled
  unfold Section.answers
  rw [unaliased]
  unfold Section.key at differs
  cases own : s.get (cstr "label") with
  | none => simp
  | some other =>
    rw [own, Option.getD_some] at differs
    have distinct : other ≠ label := fun same => by
      rw [same, strcasecmpEq_refl] at differs
      cases differs
    simp [distinct]

/-- The layout holds only assignments of the file. -/
theorem layout_mem (entries : List Entry) :
    (∀ entry ∈ (layout entries).globals, entry ∈ entries) ∧
      ∀ s ∈ (layout entries).sections, ∀ entry ∈ s.body, entry ∈ entries := by
  induction entries with
  | nil =>
    exact ⟨fun _ member => absurd member List.not_mem_nil,
      fun _ inside => absurd inside List.not_mem_nil⟩
  | cons first rest ih =>
    unfold layout
    cases startOf first.1 with
    | none =>
      refine ⟨fun entry member => ?_, fun s inside entry member =>
        List.mem_cons_of_mem _ (ih.2 s inside entry member)⟩
      rcases List.mem_cons.mp member with rfl | member
      · exact List.mem_cons_self
      · exact List.mem_cons_of_mem _ (ih.1 entry member)
    | some archs =>
      refine ⟨fun _ member => absurd member List.not_mem_nil,
        fun s inside entry member => List.mem_cons_of_mem _ ?_⟩
      rcases List.mem_cons.mp inside with rfl | inside
      · exact ih.1 entry member
      · exact ih.2 s inside entry member

theorem Section.unaliased {entries : List Entry} {s : Section}
    (none : ∀ entry ∈ entries, strcasecmpEq entry.1 (cstr "alias") = false)
    (member : s ∈ (layout entries).sections) : s.get (cstr "alias") = .none := by
  rw [← Option.not_isSome_iff_eq_none, Option.isSome_iff_exists]
  rintro ⟨value, found⟩
  obtain ⟨-, entry, -, inside, named, -, -⟩ := lastAssigned_mem found
  rcases List.mem_cons.mp inside with path | inside
  · rw [path] at named
    have differs : strcasecmpEq (cstr "image") (cstr "alias") = false := by decide
    exact absurd (differs.symm.trans named) (by decide)
  · rw [none entry ((layout_mem entries).2 s member entry inside)] at named
    cases named

/-- Some earlier section that was kept has no label, and an image path that ends in
the label of the `i`-th one. -/
def Shadowed (matchArch : CStr → Bool) (sections : List Section) (i : Nat) (label : CStr) : Prop :=
  ∃ j s, j < i ∧ sections[j]? = some s ∧ s.obsolete matchArch (sections.drop (j + 1)) = false ∧
    s.get (cstr "label") = none ∧ afterLast s.path 47 = label

theorem answersTo_settle (matchArch : CStr → Bool) (low label : CStr) {sections : List Section}
    (plain : ∀ s ∈ sections, ∀ entry ∈ s.body, startOf entry.1 = none)
    {i : Nat} {p : Image} (image : (settle matchArch sections)[i]? = some p) :
    ∃ s, sections[i]? = some s ∧ p = ⟨storeAll s.entries cfImage,
      s.obsolete matchArch (sections.drop (i + 1))⟩ ∧
        answersTo low label p =
          (!s.obsolete matchArch (sections.drop (i + 1)) && s.answers label) := by
  rw [settle_getElem? matchArch sections plain] at image
  obtain ⟨s, at_, rfl⟩ := Option.map_eq_some_iff.mp image
  exact ⟨s, at_, rfl, answersTo_settled low label s _ (plain s (List.mem_of_getElem? at_))⟩

section Shadows
variable {matchArch : CStr → Bool} (low : CStr) {entries : List Entry} {i : Nat} {p : Image}
  {label : CStr}

/-- An earlier image that answers to the label is one that shadows it. -/
theorem earlier_answers (unaliased : ∀ entry ∈ entries, strcasecmpEq entry.1 (cstr "alias") = false)
    (image : (settle matchArch (layout entries).sections)[i]? = some p) (kept : p.obsolete = false)
    (labelled : cfgGetStrgI p.table (cstr "label") = some label) {j : Nat} {q : Image} (before : j < i)
    (found : (settle matchArch (layout entries).sections)[j]? = some q) :
    answersTo low label q = true ↔
      ∃ s, (layout entries).sections[j]? = some s ∧
        q = ⟨storeAll s.entries cfImage, s.obsolete matchArch ((layout entries).sections.drop (j + 1))⟩ ∧
        s.obsolete matchArch ((layout entries).sections.drop (j + 1)) = false ∧
        s.get (cstr "label") = none ∧ afterLast s.path 47 = label := by
  have plain := (layout_plain entries).2
  obtain ⟨l, at_, rfl, -⟩ := answersTo_settle matchArch low label plain image
  obtain ⟨s, place, rfl, here⟩ := answersTo_settle matchArch low label plain found
  rw [cfgGetStrgI_image] at labelled
  have behind : l ∈ (layout entries).sections.drop (j + 1) := by
    refine List.mem_of_getElem? (i := i - (j + 1)) ?_
    rw [List.getElem?_drop, show j + 1 + (i - (j + 1)) = i by omega, at_]
  have noAlias := Section.unaliased unaliased (List.mem_of_getElem? place)
  have named := fun keptHere => Section.answers_label (s := s) keptHere behind
    (Section.live_of_kept kept) labelled noAlias
  rw [here, Bool.and_eq_true_iff, Bool.not_eq_true']
  constructor
  · rintro ⟨keptHere, answers⟩
    exact ⟨s, place, rfl, keptHere, (named keptHere).mp answers⟩
  · rintro ⟨s', place', -, keptHere, unlabelled⟩
    obtain rfl : s' = s := Option.some.inj (place'.symm.trans place)
    exact ⟨keptHere, (named keptHere).mpr unlabelled⟩

theorem own_answers (image : (settle matchArch (layout entries).sections)[i]? = some p)
    (kept : p.obsolete = false) (labelled : cfgGetStrgI p.table (cstr "label") = some label) :
    answersTo low label p = true := by
  obtain ⟨l, -, rfl, own⟩ := answersTo_settle matchArch low label (layout_plain entries).2 image
  rw [cfgGetStrgI_image] at labelled
  rw [own, show l.obsolete matchArch _ = false from kept]
  unfold Section.answers
  simp [labelled]

/-- A label nothing shadows leads to its image. -/
theorem find_unshadowed
    (unaliased : ∀ entry ∈ entries, strcasecmpEq entry.1 (cstr "alias") = false)
    (image : (settle matchArch (layout entries).sections)[i]? = some p) (kept : p.obsolete = false)
    (labelled : cfgGetStrgI p.table (cstr "label") = some label)
    (free : ¬ Shadowed matchArch (layout entries).sections i label) :
    (settle matchArch (layout entries).sections).findIdx? (answersTo low label) = some i ∧
      (settle matchArch (layout entries).sections).find? (answersTo low label) = some p := by
  obtain ⟨bound, here⟩ := List.getElem?_eq_some_iff.mp image
  have own := own_answers low image kept labelled
  have before : ∀ j (lt : j < i), ¬ answersTo low label
      ((settle matchArch (layout entries).sections).get ⟨j, lt.trans bound⟩) = true := by
    intro j lt answers
    obtain ⟨s, place, -, keptHere, unlabelled⟩ := (earlier_answers low unaliased image kept labelled lt
      (List.getElem?_eq_getElem (lt.trans bound))).mp answers
    exact free ⟨j, s, lt, place, keptHere, unlabelled⟩
  refine ⟨List.findIdx?_eq_some_iff_getElem.mpr ⟨bound, by rwa [here], before⟩,
    List.find?_eq_some_iff_getElem.mpr ⟨own, i, bound, here, fun j lt => ?_⟩⟩
  simpa using before j lt

/-- A label that is shadowed leads to an image without a label. -/
theorem find_shadowed
    (unaliased : ∀ entry ∈ entries, strcasecmpEq entry.1 (cstr "alias") = false)
    (image : (settle matchArch (layout entries).sections)[i]? = some p) (kept : p.obsolete = false)
    (labelled : cfgGetStrgI p.table (cstr "label") = some label)
    (shadowed : Shadowed matchArch (layout entries).sections i label) :
    ∃ j q, j < i ∧
      (settle matchArch (layout entries).sections).findIdx? (answersTo low label) = some j ∧
      (settle matchArch (layout entries).sections).find? (answersTo low label) = some q ∧
      cfgGetStrgI q.table (cstr "label") = none := by
  obtain ⟨k, s, lt, place, keptHere, unlabelled⟩ := shadowed
  obtain ⟨bound, here⟩ := List.getElem?_eq_some_iff.mp image
  have answers := (earlier_answers low unaliased image kept labelled lt
    (List.getElem?_eq_getElem (lt.trans bound))).mpr ⟨s, place, by
      rw [← Option.some_inj, ← List.getElem?_eq_getElem, settle_getElem? matchArch _
        (layout_plain entries).2, place]
      rfl, keptHere, unlabelled⟩
  have first := List.findIdx?_eq_some_of_exists ⟨_, List.getElem_mem _, answers⟩
  obtain ⟨bound', answers', least⟩ := List.findIdx?_eq_some_iff_getElem.mp first
  generalize List.findIdx (answersTo low label) (settle matchArch (layout entries).sections) = j
    at first bound' answers' least
  have le : j ≤ k := by
    by_contra later
    exact least k (by omega) answers
  obtain ⟨s', -, table, -, none, -⟩ := (earlier_answers low unaliased image kept labelled
    (show j < i by omega) (List.getElem?_eq_getElem bound')).mp answers'
  refine ⟨j, _, by omega, first, List.find?_eq_some_iff_getElem.mpr
    ⟨answers', j, bound', rfl, fun m lt => by simpa using least m lt⟩, ?_⟩
  rw [table, cfgGetStrgI_image, none]

end Shadows

/-- The tables after a file was parsed in a program that has parsed the files
`earlier`. -/
def tablesAfter (matchArch : CStr → Bool) (earlier : List (List UInt8)) (buff : List UInt8) :
    Tables :=
  (cfgParse matchArch buff (afterParses matchArch earlier)).2.tables

/-- `cfg_get_strg` with this label reads this image, for every item. -/
def Reads (low : CStr) (t : Tables) (label : CStr) (p : Image) : Prop :=
  ∀ item, cfgGetStrg low t (some label) item =
    (cfgGetStrgI p.table item).or (cfgGetStrgI t.options item)

/-- There is no global label to fall back to. -/
theorem global_label (globals : List Entry) :
    cfgGetStrgI (storeAll globals cfOptions) (cstr "label") = none := by
  have unknown : cfOptions.find? (fun walk => strcasecmpEq walk.name (cstr "label")) = none := by
    decide
  rw [cfgGetStrgI_storeAll, cfgGetStrgI_cleared (by decide), Option.or_none]
  unfold lastAssigned
  rw [unknown, Option.bind_none]

/-- A labelled image that was kept is the first to answer to its label, and is what
the lookup reads, unless an earlier image without a label shadows it. -/
theorem label_reached_iff (matchArch : CStr → Bool) (earlier : List (List UInt8))
    (buff : List UInt8)
    (valued : ∀ entry ∈ (afterParses matchArch earlier).reads buff,
      (startOf entry.1).isSome → entry.2.isSome)
    (unaliased : ∀ entry ∈ (afterParses matchArch earlier).reads buff,
      strcasecmpEq entry.1 (cstr "alias") = false)
    (low : CStr) (i : Nat) (p : Image) (label : CStr)
    (image : (tablesAfter matchArch earlier buff).images[i]? = some p) (kept : p.obsolete = false)
    (labelled : cfgGetStrgI p.table (cstr "label") = some label) :
    (Reads low (tablesAfter matchArch earlier buff) label p ↔
      ¬ Shadowed matchArch (layout ((afterParses matchArch earlier).reads buff)).sections i label) ∧
    ((tablesAfter matchArch earlier buff).images.findIdx? (answersTo low label) = some i ↔
      ¬ Shadowed matchArch (layout ((afterParses matchArch earlier).reads buff)).sections i
        label) := by
  unfold tablesAfter at *
  rw [cfgParse_tables matchArch buff (afterParses_rows matchArch earlier)] at *
  generalize (afterParses matchArch earlier).reads buff = entries at *
  obtain ⟨options, images⟩ := assignAll_tables matchArch entries valued
  generalize assignAll matchArch entries fresh.tables = t at *
  unfold Reads cfgGetStrg
  rw [images] at image ⊢
  by_cases shadowed : Shadowed matchArch (layout entries).sections i label
  · obtain ⟨j, q, lt, first, found, unlabelled⟩ :=
      find_shadowed low unaliased image kept labelled shadowed
    refine ⟨iff_of_false (fun reads => ?_) (not_not_intro shadowed),
      iff_of_false (fun same => ?_) (not_not_intro shadowed)⟩
    · have own := reads (cstr "label")
      simp only [found, unlabelled, labelled, options, global_label] at own
      cases own
    · rw [first] at same
      exact absurd (Option.some.inj same) (Nat.ne_of_lt lt)
  · obtain ⟨first, found⟩ := find_unshadowed low unaliased image kept labelled shadowed
    refine ⟨iff_of_true (fun item => ?_) shadowed, iff_of_true first shadowed⟩
    simp only [found]

/-- Two labelled images with different labels. -/
def labelledTwice : List UInt8 := cstr "image=/boot/old\nlabel=old\nimage=/boot/linux\nlabel=linux\n"

/-- The second of two labelled kernels answers to its label. -/
theorem labelledTwice_reads :
    Reads [] (tablesAfter (fun _ => true) [] labelledTwice) (cstr "linux")
      ⟨storeAll [(cstr "image", some (cstr "/boot/linux")),
        (cstr "label", some (cstr "linux"))] cfImage, false⟩ :=
  (label_reached_iff (fun _ => true) [] labelledTwice (by decide +kernel) (by decide +kernel) [] 1 _
    (cstr "linux") (by decide +kernel) rfl (by decide +kernel)).1.mpr <| by
    rintro ⟨j, s, lt, place, -, unlabelled, -⟩
    obtain rfl : j = 0 := by omega
    have own : ((layout ((afterParses (fun _ => true) []).reads labelledTwice)).sections[0]?.bind
        fun s => s.get (cstr "label")) = some (cstr "old") := by decide +kernel
    rw [place, Option.bind_some, unlabelled] at own
    cases own

/-- An image without a label whose path ends in the label of the next one. -/
def unlabelledFirst : List UInt8 := cstr "image=/boot/linux\nimage=/old/vmlinux\nlabel=linux\n"

/-- The second image was kept and is labelled, its label reads the first one. -/
theorem unlabelledFirst_shadows :
    (cfgParse (fun _ => true) unlabelledFirst fresh).1 = 0 ∧
    ∃ p, (tablesAfter (fun _ => true) [] unlabelledFirst).images[1]? = some p ∧
      p.obsolete = false ∧ cfgGetStrgI p.table (cstr "label") = some (cstr "linux") ∧
      cfgGetStrgI p.table (cstr "image") = some (cstr "/old/vmlinux") ∧
      cfgGetStrg [] (tablesAfter (fun _ => true) [] unlabelledFirst) (some (cstr "linux"))
        (cstr "image") = some (cstr "/boot/linux") ∧
      ¬ Reads [] (tablesAfter (fun _ => true) [] unlabelledFirst) (cstr "linux") p := by
  refine ⟨by decide +kernel, ⟨storeAll [(cstr "image", some (cstr "/old/vmlinux")),
    (cstr "label", some (cstr "linux"))] cfImage, false⟩, by decide +kernel, rfl,
    by decide +kernel, by decide +kernel, by decide +kernel, fun reads => ?_⟩
  have own := reads (cstr "image")
  revert own
  decide +kernel

end Yaboot.Cfg
