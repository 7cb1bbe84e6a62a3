import Yaboot.Cfg.Scope

/-! The tables agree with the meaning of the file: each section becomes one
image, later labels retire earlier images, and lookups find what was assigned
last. -/
namespace Yaboot.Cfg
open CString

/-! ### Rows -/

theorem strcasecmpEq_iff : strcasecmpEq s t = true ↔ s.map lower = t.map lower := beq_iff_eq

theorem strcasecmpEq_refl (s : CStr) : strcasecmpEq s s = true := strcasecmpEq_iff.mpr rfl

/-- Comparing with either of two names that agree is the same. -/
theorem strcasecmpEq_congr (same : strcasecmpEq s t = true) (name : CStr) :
    strcasecmpEq name s = strcasecmpEq name t := by
  unfold strcasecmpEq
  rw [strcasecmpEq_iff.mp same]

theorem strcasecmpEq_trans (first : strcasecmpEq name s = true) (second : strcasecmpEq name t = true) :
    strcasecmpEq s t = true :=
  strcasecmpEq_iff.mpr ((strcasecmpEq_iff.mp first).symm.trans (strcasecmpEq_iff.mp second))

/-- The row an item belongs to. -/
def rowOf (table : List Config) (item : CStr) : Option Config :=
  table.find? fun walk => strcasecmpEq walk.name item

theorem rowOf_congr (same : strcasecmpEq s t = true) (table : List Config) :
    rowOf table s = rowOf table t := by
  unfold rowOf
  simp only [strcasecmpEq_congr same]

/-- The row after an assignment to it. -/
def Config.assigned (walk : Config) (value : Option CStr) : Config :=
  if wellTyped walk value then { walk with data := some (value.getD []) } else walk

theorem assigned_name (walk : Config) (value : Option CStr) : (walk.assigned value).name = walk.name := by
  unfold Config.assigned
  split <;> rfl

theorem assigned_type (walk : Config) (value : Option CStr) : (walk.assigned value).type = walk.type := by
  unfold Config.assigned
  split <;> rfl

theorem storeRow_cons (item : CStr) (value : Option CStr) (walk : Config) (rest : List Config) :
    storeRow item value (walk :: rest) =
      if strcasecmpEq walk.name item then walk.assigned value :: rest
      else walk :: storeRow item value rest := rfl

theorem rowOf_storeRow_same (value : Option CStr) (table : List Config) :
    rowOf (storeRow item value table) item = (rowOf table item).map (·.assigned value) := by
  induction table with
  | nil => rfl
  | cons walk rest ih =>
    rw [storeRow_cons]
    by_cases found : strcasecmpEq walk.name item = true
    · have still : strcasecmpEq (walk.assigned value).name item = true := by rw [assigned_name, found]
      simp [rowOf, found, still]
    · simp only [found, Bool.false_eq_true, if_false]
      simpa [rowOf, found] using ih

/-- An assignment leaves the rows of other names alone. -/
theorem rowOf_storeRow_other (differs : strcasecmpEq item probe = false) (value : Option CStr)
    (table : List Config) : rowOf (storeRow item value table) probe = rowOf table probe := by
  induction table with
  | nil => rfl
  | cons walk rest ih =>
    rw [storeRow_cons]
    by_cases found : strcasecmpEq walk.name item = true
    · have missed : strcasecmpEq walk.name probe = false := by
        by_contra both
        have both : strcasecmpEq walk.name probe = true := by simpa using both
        rw [strcasecmpEq_trans found both] at differs
        cases differs
      have still : strcasecmpEq (walk.assigned value).name probe = false := by rw [assigned_name, missed]
      simp [rowOf, found, missed, still]
    · simp only [found, Bool.false_eq_true, if_false]
      cases other : strcasecmpEq walk.name probe with
      | true => simp [rowOf, other]
      | false => simpa [rowOf, other] using ih

/-- An item that no row has changes nothing. -/
theorem storeRow_unknown (value : Option CStr) (unknown : rowOf table item = none) :
    storeRow item value table = table := by
  induction table with
  | nil => rfl
  | cons walk rest ih =>
    unfold rowOf at unknown ih
    rw [List.find?_cons] at unknown
    cases found : strcasecmpEq walk.name item with
    | true => simp [found] at unknown
    | false =>
      simp only [found] at unknown
      rw [storeRow_cons, found, ih unknown]
      rfl

/-- Nor does a value of the wrong kind. -/
theorem storeRow_wrong (row : rowOf table item = some walk) (wrong : wellTyped walk value = false) :
    storeRow item value table = table := by
  induction table with
  | nil => rfl
  | cons first rest ih =>
    unfold rowOf at row ih
    rw [List.find?_cons] at row
    cases found : strcasecmpEq first.name item with
    | true =>
      simp only [found, Option.some.injEq] at row
      subst row
      simp [storeRow_cons, found, Config.assigned, wrong]
    | false =>
      simp only [found] at row
      rw [storeRow_cons, found, ih row]
      rfl

theorem storeRow_congr (same : strcasecmpEq s t = true) (value : Option CStr) (table : List Config) :
    storeRow s value table = storeRow t value table := by
  induction table with
  | nil => rfl
  | cons walk rest ih => rw [storeRow_cons, storeRow_cons, strcasecmpEq_congr same, ih]

/-- A table after a sequence of assignments to it. -/
def storeAll (entries : List Entry) (table : List Config) : List Config :=
  entries.foldl (fun table entry => storeRow entry.1 entry.2 table) table

theorem wellTyped_congr (same : walk.type = walk'.type) (value : Option CStr) :
    wellTyped walk value = wellTyped walk' value := by
  unfold wellTyped
  rw [same]

/-- Assignments keep the kind of every row. -/
theorem lastAssigned_storeRow (item probe : CStr) (value : Option CStr) (table : List Config)
    (entries : List Entry) :
    lastAssigned (storeRow item value table) entries probe = lastAssigned table entries probe := by
  show (rowOf (storeRow item value table) probe).bind _ = (rowOf table probe).bind _
  cases same : strcasecmpEq item probe with
  | false => rw [rowOf_storeRow_other same]
  | true =>
    rw [← rowOf_congr same, ← rowOf_congr same, rowOf_storeRow_same]
    cases rowOf table item with
    | none => rfl
    | some walk => simp only [Option.map_some, Option.bind_some, wellTyped_congr (assigned_type walk value)]

/-- One more assignment in front. -/
theorem lastAssigned_cons (table : List Config) (entry : Entry) (rest : List Entry) (item : CStr) :
    (lastAssigned table rest item).or (cfgGetStrgI (storeRow entry.1 entry.2 table) item) =
      (lastAssigned table (entry :: rest) item).or (cfgGetStrgI table item) := by
  show (lastAssigned table rest item).or ((rowOf (storeRow entry.1 entry.2 table) item).bind _) =
    (lastAssigned table (entry :: rest) item).or ((rowOf table item).bind _)
  unfold lastAssigned
  show ((rowOf table item).bind _).or _ = ((rowOf table item).bind _).or _
  cases same : strcasecmpEq entry.1 item with
  | false =>
    rw [rowOf_storeRow_other same]
    simp [List.find?_append, same]
  | true =>
    rw [← rowOf_congr same, ← rowOf_congr same, rowOf_storeRow_same]
    cases rowOf table entry.1 with
    | none => rfl
    | some walk =>
      cases typed : wellTyped walk entry.2 with
      | false => simp [List.find?_append, same, typed, Config.assigned]
      | true => simp [List.find?_append, same, typed, Config.assigned, Option.map_or]

theorem cfgGetStrgI_storeAll (entries : List Entry) (table : List Config) (item : CStr) :
    cfgGetStrgI (storeAll entries table) item =
      (lastAssigned table entries item).or (cfgGetStrgI table item) := by
  induction entries generalizing table with
  | nil => simp [storeAll, lastAssigned]
  | cons entry rest ih =>
    have tail := ih (storeRow entry.1 entry.2 table)
    rw [lastAssigned_storeRow, lastAssigned_cons] at tail
    exact tail

theorem rowOf_clear (table : List Config) (item : CStr) :
    rowOf (table.map clearRow) item = (rowOf table item).map clearRow := by
  unfold rowOf
  rw [List.find?_map]
  rfl

/-- Nothing is assigned in a table that was never stored to. -/
theorem cfgGetStrgI_cleared (cleared : table.map clearRow = table) (item : CStr) :
    cfgGetStrgI table item = none := by
  show (rowOf table item).bind Config.data = none
  rw [← cleared, rowOf_clear]
  cases rowOf table item <;> rfl

/-! ### The image being filled -/

/-- The tables while `p` is the last image and the current one. -/
def filling (options : List Config) (before : List Image) (p : Image) : Tables :=
  ⟨options, before ++ [p], some before.length⟩

/-- An image after `labels` were assigned in a section behind it. -/
def retire (labels : List CStr) (p : Image) : Image :=
  { p with
    obsolete := p.obsolete || labels.any fun label => (obsoleteKey p).any (strcasecmpEq · label) }

def labelsIn (entries : List Entry) : List CStr :=
  entries.filterMap fun entry => if strcasecmpEq entry.1 (cstr "label") then entry.2 else none

theorem retire_nil (p : Image) : retire [] p = p := by
  unfold retire
  rw [List.any_nil, Bool.or_false]

theorem retire_append (first more : List CStr) (p : Image) :
    retire (first ++ more) p = retire more (retire first p) := by
  show Image.mk _ _ = Image.mk _ _
  rw [List.any_append, ← Bool.or_assoc]
  rfl

theorem retire_single (label : CStr) (p : Image) :
    retire [label] p =
      if (obsoleteKey p).any (strcasecmpEq · label) then { p with obsolete := true } else p := by
  unfold retire
  cases taken : (obsoleteKey p).any (strcasecmpEq · label) <;> simp [taken]

theorem mapIdx_last (before : List Image) (same : ∀ i < before.length, ∀ q, f i q = g q)
    (kept : f before.length p = p) : (before ++ [p]).mapIdx f = before.map g ++ [p] := by
  rw [List.mapIdx_concat, kept]
  congr 1
  apply List.ext_getElem (by simp)
  intro i inside _
  rw [List.getElem_mapIdx, List.getElem_map, same i (by simpa using inside)]

theorem modify_last (before : List Image) (p : Image) (f : Image → Image) :
    (before ++ [p]).modify before.length f = before ++ [f p] := by
  induction before with
  | nil => rfl
  | cons q rest ih => exact congrArg (q :: ·) ih

/-- While a section is filled, `check_for_obsolete` retires the sections before it that have the
label, and nothing where the section itself is obsolete. -/
theorem checkForObsolete_filling (label : CStr) (options : List Config) (before : List Image)
    (p : Image) : checkForObsolete label (filling options before p) =
      filling options (if p.obsolete then before else before.map (retire [label])) p := by
  have current : (filling options before p).curr.bind ((filling options before p).images[·]?) =
      some p := by simp [filling]
  unfold checkForObsolete
  rw [current, Option.any_some]
  cases ignored : p.obsolete with
  | true => rfl
  | false =>
    simp only [Bool.false_eq_true, if_false]
    have marked := mapIdx_last (p := p) (g := retire [label]) before
      (f := fun i q =>
        if (filling options before p).curr = some i then q
        else if (obsoleteKey q).any (strcasecmpEq · label) then { q with obsolete := true } else q)
      (fun i earlier q => by
        have differs : ¬ (filling options before p).curr = some i := by
          simp only [filling, Option.some.injEq]
          omega
        rw [if_neg differs, retire_single])
      (if_pos rfl)
    show Tables.mk options ((before ++ [p]).mapIdx _) (some before.length) = _
    rw [marked]
    simp [filling]

theorem currTable_filling (options : List Config) (before : List Image) (p : Image) :
    (filling options before p).currTable = p.table := by
  simp [filling, Tables.currTable]

theorem setCurrTable_filling (options : List Config) (before : List Image) (p : Image)
    (table : List Config) :
    (filling options before p).setCurrTable table = filling options before { p with table } := by
  simp [filling, Tables.setCurrTable, modify_last]

/-- The row for labels takes a string. -/
theorem label_row (rows : table.map clearRow = cfImage) (row : rowOf table (cstr "label") = some walk) :
    walk.type = .strg := by
  have cleared := rowOf_clear table (cstr "label")
  rw [rows, row] at cleared
  have kind : rowOf cfImage (cstr "label") = some (strg "label") := by decide
  rw [kind] at cleared
  exact (congrArg Config.type (Option.some.inj cleared)).symm

theorem label_known (rows : table.map clearRow = cfImage) : rowOf table (cstr "label") ≠ none := by
  intro missing
  have cleared := rowOf_clear table (cstr "label")
  rw [rows, missing] at cleared
  exact absurd cleared (by decide)

/-- One assignment inside a section. -/
theorem cfgSetRedo_filling (item : CStr) (value : Option CStr) (options : List Config)
    (before : List Image) (p : Image) (rows : p.table.map clearRow = cfImage) :
    (cfgSetRedo item value (filling options before p)).2 =
      filling options
        (if p.obsolete then before else before.map (retire (labelsIn [(item, value)])))
        { p with table := storeRow item value p.table } := by
  have unmarked (none : labelsIn [(item, value)] = []) :
      (if p.obsolete then before else before.map (retire (labelsIn [(item, value)]))) = before := by
    rw [none, show retire [] = id from funext retire_nil, List.map_id, ite_self]
  unfold cfgSetRedo
  rw [currTable_filling]
  cases row : p.table.find? fun walk => strcasecmpEq walk.name item with
  | none =>
    have unlabelled : strcasecmpEq item (cstr "label") = false := by
      by_contra same
      exact label_known rows ((rowOf_congr (by simpa using same) p.table).symm.trans row)
    rw [unmarked (by simp [labelsIn, unlabelled]), storeRow_unknown value row]
  | some walk =>
    cases value with
    | none =>
      rw [unmarked (by simp [labelsIn])]
      show (filling options before p).setCurrTable
        (storeRow item none (filling options before p).currTable) = _
      rw [currTable_filling, setCurrTable_filling]
    | some label =>
      cases same : strcasecmpEq item (cstr "label") with
      | false =>
        rw [unmarked (by simp [labelsIn, same])]
        simp only [Bool.and_false, Bool.false_eq_true, if_false]
        rw [currTable_filling, setCurrTable_filling]
      | true =>
        have kind := label_row rows ((rowOf_congr same p.table).symm.trans row)
        have typed : wellTyped walk (some label) = true := by
          unfold wellTyped
          rw [kind]
          rfl
        have labels : labelsIn [(item, some label)] = [label] := by simp [labelsIn, same]
        simp only [typed, Bool.and_self, if_true]
        rw [checkForObsolete_filling, currTable_filling, setCurrTable_filling, labels]

theorem cfgSet_plain (matchArch : CStr → Bool) (plain : startOf item = none) (value : Option CStr)
    (t : Tables) : cfgSet matchArch item value t = cfgSetRedo item value t := by
  unfold startOf at plain
  unfold cfgSet
  split_ifs at plain ⊢ <;> rfl

theorem map_retire_cons (entry : Entry) (rest : List Entry) (before : List Image) :
    (before.map (retire (labelsIn [entry]))).map (retire (labelsIn rest)) =
      before.map (retire (labelsIn (entry :: rest))) := by
  have parts : labelsIn (entry :: rest) = labelsIn [entry] ++ labelsIn rest := by
    unfold labelsIn
    rw [← List.filterMap_append]
    rfl
  rw [List.map_map, parts]
  exact List.map_congr_left fun q _ => (retire_append _ _ q).symm

/-- What follows inside a section. -/
theorem assignAll_filling (matchArch : CStr → Bool) (entries : List Entry)
    (plain : ∀ entry ∈ entries, startOf entry.1 = none) (options : List Config)
    (before : List Image) (p : Image) (rows : p.table.map clearRow = cfImage) :
    assignAll matchArch entries (filling options before p) =
      filling options (if p.obsolete then before else before.map (retire (labelsIn entries)))
        { p with table := storeAll entries p.table } := by
  induction entries generalizing before p with
  | nil =>
    rw [show labelsIn [] = [] from rfl, show retire [] = id from funext retire_nil, List.map_id,
      ite_self]
    rfl
  | cons entry rest ih =>
    show assignAll matchArch rest (cfgSet matchArch entry.1 entry.2 (filling options before p)).2 = _
    rw [cfgSet_plain matchArch (plain entry (by simp)), cfgSetRedo_filling _ _ _ _ _ rows,
      ih (fun e member => plain e (by simp [member])) _ { p with table := _ }
        ((storeRow_clear _ _ _).trans rows)]
    cases ignored : p.obsolete with
    | true => rfl
    | false =>
      simp only [Bool.false_eq_true, if_false]
      rw [map_retire_cons]
      rfl

/-! ### Sections -/

/-- The image a section becomes. -/
def Section.image (matchArch : CStr → Bool) (s : Section) : Image :=
  ⟨storeAll s.entries cfImage, !s.live matchArch⟩

/-- An image after the whole of a section behind it. -/
def Section.retires (matchArch : CStr → Bool) (s : Section) (p : Image) : Image :=
  if s.live matchArch then retire s.labels p else p

/-- The tables after one more section. -/
def Section.run (matchArch : CStr → Bool) (t : Tables) (s : Section) : Tables :=
  filling t.options (t.images.map (s.retires matchArch)) (s.image matchArch)

theorem storeRow_image (named : strcasecmpEq name (cstr "image") = true) (path : CStr)
    (ignore : Bool) (t : Tables) :
    (cfgSetRedo name (some path) (cfgSetCont ignore t)).2 =
      filling t.options t.images ⟨storeRow (cstr "image") (some path) cfImage, ignore⟩ := by
  have unlabelled : strcasecmpEq name (cstr "label") = false := by
    unfold strcasecmpEq
    rw [strcasecmpEq_iff.mp named]
    decide
  have none : labelsIn [(name, some path)] = [] := by simp [labelsIn, unlabelled]
  show (cfgSetRedo name (some path) (filling t.options t.images ⟨cfImage, ignore⟩)).2 = _
  have rows : cfImage.map clearRow = cfImage := by decide
  rw [cfgSetRedo_filling _ _ _ _ _ rows, none, show retire [] = id from funext retire_nil,
    List.map_id, ite_self, storeRow_congr named]

/-- The line that starts a section. -/
theorem cfgSet_start (matchArch : CStr → Bool) (starts : startOf item = some archs) (path : CStr)
    (body : List Entry) (t : Tables) : (cfgSet matchArch item (some path) t).2 =
      filling t.options t.images
        ⟨storeRow (cstr "image") (some path) cfImage,
          !Section.live matchArch ⟨archs, path, body⟩⟩ := by
  unfold startOf at starts
  unfold cfgSet
  split_ifs at starts with image bracketed long
  · simp only [Option.some.injEq] at starts
    subst starts
    rw [if_pos image, if_pos bracketed]
    have named : strcasecmpEq (item.take 5) (cstr "image") = true := by
      rw [strcasecmpEq_iff, image]
      decide
    exact storeRow_image named path _ t
  · simp only [Option.some.injEq] at starts
    subst starts
    have whole : item.take 5 = item := List.take_of_length_le (Nat.le_of_not_lt long)
    have named : strcasecmpEq item (cstr "image") = true := by
      rw [whole] at image
      rw [strcasecmpEq_iff, image]
      decide
    rw [if_pos image, if_neg bracketed, if_neg long]
    exact storeRow_image named path false t

/-- A section as a whole. -/
theorem assignAll_section (matchArch : CStr → Bool) (starts : startOf item = some archs)
    (path : CStr) (body : List Entry) (plain : ∀ entry ∈ body, startOf entry.1 = none)
    (t : Tables) : assignAll matchArch ((item, some path) :: body) t =
      Section.run matchArch t ⟨archs, path, body⟩ := by
  have rows : (storeRow (cstr "image") (some path) cfImage).map clearRow = cfImage := by
    rw [storeRow_clear]
    decide
  show assignAll matchArch body (cfgSet matchArch item (some path) t).2 = _
  rw [cfgSet_start matchArch starts path body, assignAll_filling matchArch body plain _ _ _ rows]
  unfold Section.run Section.image Section.retires
  cases Section.live matchArch ⟨archs, path, body⟩ with
  | true => rfl
  | false =>
    simp only [Bool.false_eq_true, if_false, Bool.not_false, if_true]
    rw [show (fun p : Image => p) = id from rfl, List.map_id]
    rfl

/-- Sections hold no line that starts one, and neither do the globals. -/
theorem layout_plain (entries : List Entry) :
    (∀ entry ∈ (layout entries).globals, startOf entry.1 = none) ∧
      ∀ s ∈ (layout entries).sections, ∀ entry ∈ s.body, startOf entry.1 = none := by
  induction entries with
  | nil => exact ⟨fun _ held => (nomatch held), fun _ held => (nomatch held)⟩
  | cons entry rest ih =>
    unfold layout
    cases starts : startOf entry.1 with
    | none => exact ⟨List.forall_mem_cons.mpr ⟨starts, ih.1⟩, ih.2⟩
    | some archs => exact ⟨fun _ held => (nomatch held), List.forall_mem_cons.mpr ⟨ih.1, ih.2⟩⟩

/-- A file is its globals and then its sections one after the other. -/
theorem assignAll_layout (matchArch : CStr → Bool) (entries : List Entry)
    (valued : ∀ entry ∈ entries, (startOf entry.1).isSome → entry.2.isSome) (t : Tables) :
    assignAll matchArch entries t =
      (layout entries).sections.foldl (Section.run matchArch)
        (assignAll matchArch (layout entries).globals t) := by
  induction entries generalizing t with
  | nil => rfl
  | cons entry rest ih =>
    have tail := ih fun e member => valued e (by simp [member])
    obtain ⟨item, value⟩ := entry
    unfold layout
    cases starts : startOf item with
    | none => exact tail _
    | some archs =>
      obtain ⟨path, rfl⟩ := Option.isSome_iff_exists.mp
        (valued (item, value) (by simp) (by rw [starts]; rfl))
      simp only [Option.getD_some, List.foldl_cons]
      rw [show assignAll matchArch [] t = t from rfl,
        ← assignAll_section matchArch starts path _ (layout_plain rest).1]
      exact tail _

/-- The images the sections become, later labels taken into account. -/
def settle (matchArch : CStr → Bool) : List Section → List Image
  | [] => []
  | s :: later =>
    later.foldl (fun p l => l.retires matchArch p) (s.image matchArch) :: settle matchArch later

theorem run_sections (matchArch : CStr → Bool) (sections : List Section) (t : Tables) :
    (sections.foldl (Section.run matchArch) t).options = t.options ∧
      (sections.foldl (Section.run matchArch) t).images =
        t.images.map (fun p => sections.foldl (fun p l => l.retires matchArch p) p) ++
          settle matchArch sections := by
  induction sections generalizing t with
  | nil => simp [settle]
  | cons s later ih =>
    obtain ⟨options, images⟩ := ih (s.run matchArch t)
    refine ⟨options, ?_⟩
    rw [List.foldl_cons, images]
    simp [Section.run, filling, settle, List.map_map, Function.comp_def]

/-- All that later sections do to an image. -/
theorem retires_all (matchArch : CStr → Bool) (later : List Section) (p : Image) :
    later.foldl (fun p l => l.retires matchArch p) p =
      { p with
        obsolete := p.obsolete || later.any fun l => l.live matchArch &&
          l.labels.any fun label => (obsoleteKey p).any (strcasecmpEq · label) } := by
  induction later generalizing p with
  | nil => simp
  | cons l later ih =>
    rw [List.foldl_cons, ih, List.any_cons, ← Bool.or_assoc]
    unfold Section.retires
    cases l.live matchArch <;> simp [retire, obsoleteKey]

/-- A name that is `image` up to case starts a section. -/
theorem image_starts (named : strcasecmpEq item (cstr "image") = true) :
    (startOf item).isSome = true := by
  have folded := strcasecmpEq_iff.mp named
  have long : item.length = 5 := by
    have same := congrArg List.length folded
    rwa [List.length_map, List.length_map] at same
  have image : (item.take 5).map lower = cstr "image" := by
    rw [List.take_of_length_le (Nat.le_of_eq long), folded]
    decide
  unfold startOf
  rw [if_pos image, if_neg (by omega : ¬ 5 < item.length)]
  split <;> rfl

/-- The image of a section is the path it was started with. -/
theorem Section.get_image {s : Section} (plain : ∀ entry ∈ s.body, startOf entry.1 = none) :
    s.get (cstr "image") = some s.path := by
  have others : s.body.reverse.find? (fun entry =>
      strcasecmpEq entry.1 (cstr "image") && wellTyped (strg "image") entry.2) = none := by
    apply List.find?_eq_none.mpr
    intro entry member same
    have starts := image_starts (Bool.and_eq_true_iff.mp same).1
    rw [plain entry (List.mem_reverse.mp member)] at starts
    cases starts
  have row : cfImage.find? (fun walk => strcasecmpEq walk.name (cstr "image")) = some (strg "image") := by
    decide
  have first : (strcasecmpEq (cstr "image") (cstr "image") && wellTyped (strg "image") (some s.path)) =
      true := by
    rw [strcasecmpEq_refl]
    rfl
  unfold Section.get lastAssigned Section.entries
  rw [row, Option.bind_some, List.reverse_cons, List.find?_append, others, Option.none_or,
    List.find?_singleton, if_pos first]
  rfl

/-- What is stored in the image of a section. -/
theorem cfgGetStrgI_image (s : Section) (item : CStr) :
    cfgGetStrgI (storeAll s.entries cfImage) item = s.get item := by
  rw [cfgGetStrgI_storeAll, cfgGetStrgI_cleared (by decide), Option.or_none]
  rfl

/-- Once the file is read, an image shows what its section says. -/
theorem settled_image (matchArch : CStr → Bool) (s : Section) (later : List Section)
    (plain : ∀ entry ∈ s.body, startOf entry.1 = none) :
    later.foldl (fun p l => l.retires matchArch p) (s.image matchArch) =
      ⟨storeAll s.entries cfImage, s.obsolete matchArch later⟩ := by
  have key : obsoleteKey (s.image matchArch) = some s.key := by
    unfold obsoleteKey Section.image Section.key
    rw [cfgGetStrgI_image, cfgGetStrgI_image, s.get_image plain]
    cases s.get (cstr "label") <;> rfl
  rw [retires_all, key]
  rfl

theorem answersTo_settled (low name : CStr) (s : Section) (obsolete : Bool)
    (plain : ∀ entry ∈ s.body, startOf entry.1 = none) :
    answersTo low name ⟨storeAll s.entries cfImage, obsolete⟩ =
      (!obsolete && s.answers name) := by
  unfold answersTo imageLabel Section.answers
  simp only [cfgGetStrgI_image, s.get_image plain]
  cases s.get (cstr "label") <;> rfl

/-- The image found first belongs to the section selected. -/
theorem find_settle (matchArch : CStr → Bool) (low name : CStr) (sections : List Section)
    (plain : ∀ s ∈ sections, ∀ entry ∈ s.body, startOf entry.1 = none) :
    ((settle matchArch sections).find? (answersTo low name)).map Image.table =
      (selected matchArch name sections).map fun s => storeAll s.entries cfImage := by
  induction sections with
  | nil => rfl
  | cons s later ih =>
    have own := plain s (by simp)
    unfold settle selected
    rw [settled_image matchArch s later own, List.find?_cons, answersTo_settled low name s _ own]
    cases (!s.obsolete matchArch later && s.answers name) with
    | true => rfl
    | false => exact ih fun q member => plain q (by simp [member])

/-! ### The global section -/

theorem cfgSetRedo_global (item : CStr) (value : Option CStr) (options : List Config) :
    (cfgSetRedo item value ⟨options, [], none⟩).2 = ⟨storeRow item value options, [], none⟩ := by
  have unmarked (label : CStr) : checkForObsolete label ⟨options, [], none⟩ = ⟨options, [], none⟩ := rfl
  unfold cfgSetRedo
  rw [show Tables.currTable ⟨options, [], none⟩ = options from rfl]
  cases row : options.find? fun walk => strcasecmpEq walk.name item with
  | none => rw [storeRow_unknown value row]
  | some walk =>
    cases value with
    | none => rfl
    | some label =>
      dsimp only
      rw [unmarked, ite_self]
      rfl

theorem assignAll_global (matchArch : CStr → Bool) (entries : List Entry)
    (plain : ∀ entry ∈ entries, startOf entry.1 = none) (options : List Config) :
    assignAll matchArch entries ⟨options, [], none⟩ = ⟨storeAll entries options, [], none⟩ := by
  induction entries generalizing options with
  | nil => rfl
  | cons entry rest ih =>
    show assignAll matchArch rest (cfgSet matchArch entry.1 entry.2 ⟨options, [], none⟩).2 = _
    rw [cfgSet_plain matchArch (plain entry (by simp)), cfgSetRedo_global,
      ih fun e member => plain e (by simp [member])]
    rfl

/-! ### Lookups -/

/-- The tables are those of the global section, and an image for each section. -/
theorem assignAll_tables (matchArch : CStr → Bool) (entries : List Entry)
    (valued : ∀ entry ∈ entries, (startOf entry.1).isSome → entry.2.isSome) :
    (assignAll matchArch entries fresh.tables).options =
        storeAll (layout entries).globals cfOptions ∧
      (assignAll matchArch entries fresh.tables).images =
        settle matchArch (layout entries).sections := by
  obtain ⟨globals, sections⟩ := layout_plain entries
  obtain ⟨options, images⟩ := run_sections matchArch (layout entries).sections
    ⟨storeAll (layout entries).globals cfOptions, [], none⟩
  rw [assignAll_layout matchArch entries valued,
    show fresh.tables = ⟨cfOptions, [], none⟩ from rfl, assignAll_global matchArch _ globals]
  exact ⟨options, images⟩

/-- Lookups after a list of assignments are read off the list: the last of the globals for a name,
and for an image the options of its section, then the globals behind them. -/
theorem cfgGetStrg_assignAll (matchArch : CStr → Bool) (low : CStr) (entries : List Entry)
    (valued : ∀ entry ∈ entries, (startOf entry.1).isSome → entry.2.isSome) :
    (∀ item, cfgGetStrg low (assignAll matchArch entries fresh.tables) none item =
      lastAssigned cfOptions (layout entries).globals item) ∧
    ∀ name item, cfgGetStrg low (assignAll matchArch entries fresh.tables) (some name) item =
      (layout entries).get matchArch name item := by
  obtain ⟨options, images⟩ := assignAll_tables matchArch entries valued
  have global : ∀ item, cfgGetStrgI (storeAll (layout entries).globals cfOptions) item =
      lastAssigned cfOptions (layout entries).globals item := by
    intro item
    rw [cfgGetStrgI_storeAll, cfgGetStrgI_cleared (by decide), Option.or_none]
  refine ⟨fun item => ?_, fun name item => ?_⟩
  · unfold cfgGetStrg
    rw [options]
    exact global item
  · have found := find_settle matchArch low name (layout entries).sections (layout_plain entries).2
    unfold cfgGetStrg Layout.get
    simp only [options, images, global]
    cases image : (settle matchArch (layout entries).sections).find? (answersTo low name) with
    | none =>
      rw [image] at found
      rw [Option.map_eq_none_iff.mp found.symm]
      rfl
    | some p =>
      rw [image] at found
      obtain ⟨s, chosen, table⟩ := Option.map_eq_some_iff.mp found.symm
      rw [chosen, Option.bind_some, ← cfgGetStrgI_image, table]

/-- Storing the current table over itself. -/
theorem setCurrTable_self (t : Tables) : t.setCurrTable t.currTable = t := by
  obtain ⟨options, images, curr⟩ := t
  cases curr with
  | none => rfl
  | some i =>
    show Tables.mk options (images.modify i _) (some i) = _
    congr 1
    apply List.ext_getElem?
    intro j
    rw [List.getElem?_modify]
    by_cases here : i = j
    · subst here
      cases found : images[i]? <;> simp [Tables.currTable, found]
    · simp [here]

/-- Unknown items and items of the wrong kind change nothing. -/
theorem cfgSet_ignored (matchArch : CStr → Bool) (plain : startOf item = none)
    (ignored : ∀ walk, rowOf t.currTable item = some walk → wellTyped walk value = false) :
    (cfgSet matchArch item value t).2 = t := by
  rw [cfgSet_plain matchArch plain]
  unfold cfgSetRedo
  cases row : t.currTable.find? fun walk => strcasecmpEq walk.name item with
  | none => rfl
  | some walk =>
    have wrong := ignored walk row
    have same : t.setCurrTable (storeRow item value t.currTable) = t := by
      rw [storeRow_wrong row wrong, setCurrTable_self]
    cases value with
    | none => exact same
    | some label =>
      simp only [wrong, Bool.false_and, Bool.false_eq_true, if_false]
      exact same

/-- A parse forgets what the tables held; only their rows matter. -/
theorem cfgParse_tables (matchArch : CStr → Bool) (buff : List UInt8)
    (rows : st.tables.options.map clearRow = cfOptions) :
    (cfgParse matchArch buff st).2.tables =
      assignAll matchArch (st.reads buff) fresh.tables := by
  unfold cfgParse cfgReset
  rw [parseLoop_scan]
  show assignAll matchArch _ ⟨st.tables.options.map clearRow, [], none⟩ = _
  rw [rows]
  rfl

/-- However many files were parsed before, the rows are those of `cf_options`. -/
theorem afterParses_rows (matchArch : CStr → Bool) (earlier : List (List UInt8)) :
    (afterParses matchArch earlier).tables.options.map clearRow = cfOptions := by
  unfold afterParses
  have start : fresh.tables.options.map clearRow = cfOptions := by decide
  generalize fresh = st at *
  induction earlier generalizing st with
  | nil => exact start
  | cons buff rest ih =>
    apply ih
    show (cfgParse matchArch buff st).2.tables.options.map clearRow = cfOptions
    rw [cfgParse_tables matchArch buff start, assignAll_clear]
    decide

/-- What `cfg_parse` leaves behind is what the file says, section by section: options of a section,
of its architectures alone, and the globals behind them, whatever files were parsed before. -/
theorem config_scoping (matchArch : CStr → Bool) (earlier : List (List UInt8)) (buff : List UInt8)
    (valued : ∀ entry ∈ (afterParses matchArch earlier).reads buff,
      (startOf entry.1).isSome → entry.2.isSome) (low : CStr) :
    (∀ item,
      cfgGetStrg low (cfgParse matchArch buff (afterParses matchArch earlier)).2.tables none item =
        lastAssigned cfOptions (layout ((afterParses matchArch earlier).reads buff)).globals item) ∧
    (∀ name item,
      cfgGetStrg low (cfgParse matchArch buff (afterParses matchArch earlier)).2.tables
          (some name) item =
        (layout ((afterParses matchArch earlier).reads buff)).get matchArch name item) ∧
    ∀ t item value, startOf item = none →
      (∀ walk, rowOf t.currTable item = some walk → wellTyped walk value = false) →
      (cfgSet matchArch item value t).2 = t := by
  rw [cfgParse_tables matchArch buff (afterParses_rows matchArch earlier)]
  obtain ⟨global, named⟩ := cfgGetStrg_assignAll matchArch low
    ((afterParses matchArch earlier).reads buff) valued
  exact ⟨global, named, fun t item value plain ignored => cfgSet_ignored matchArch plain ignored⟩

/-- The second section takes the label of the first, in other letters. -/
def relabelled : List UInt8 := cstr "root=r\nimage=/a\nlabel=x\nimage=/b\nlabel=X\n"

/-- The first section is obsolete, and its own spelling of the label finds nothing; the second takes
the global `root`. -/
theorem config_scoping_relabelled :
    cfgGetStrg [] (cfgParse (fun _ => true) relabelled (afterParses (fun _ => true) [])).2.tables
        (some (cstr "x")) (cstr "image") = none ∧
      cfgGetStrg [] (cfgParse (fun _ => true) relabelled (afterParses (fun _ => true) [])).2.tables
        (some (cstr "X")) (cstr "root") = some (cstr "r") := by
  have named := (config_scoping (fun _ => true) [] relabelled (by decide +kernel) []).2.1
  refine ⟨(named (cstr "x") (cstr "image")).trans ?_, (named (cstr "X") (cstr "root")).trans ?_⟩
  · decide +kernel
  · decide +kernel

end Yaboot.Cfg
