import Yaboot.Cfg.HistoryProofs

/-! What a configuration file means, told from its assignments alone: the global
ones, and the sections with what is assigned inside each. The tables of
`cfg.c` are compared with this. -/
namespace Yaboot.Cfg
open CString

abbrev Entry := CStr × Option CStr

/-- Does an item start a section, and with which architectures in brackets? -/
def startOf (item : CStr) : Option (Option (List CStr)) :=
  if (item.take 5).map lower = cstr "image" then
    if item[5]? = some 91 ∧ item.getLast? = some 93 then
      some (some ((item.drop 6).dropLast.splitOn 124))
    else if 5 < item.length then none
    else some none
  else none

structure Section where
  archs : Option (List CStr)
  path : CStr
  body : List Entry

/-- The assignments before the first section, and the sections. -/
structure Layout where
  globals : List Entry
  sections : List Section

def layout : List Entry → Layout
  | [] => ⟨[], []⟩
  | entry :: rest =>
    match startOf entry.1 with
    | none => ⟨entry :: (layout rest).globals, (layout rest).sections⟩
    | some archs => ⟨[], ⟨archs, entry.2.getD [], (layout rest).globals⟩ :: (layout rest).sections⟩

/-- The last assignment to `item` that is of the kind `item` has in `table`. -/
def lastAssigned (table : List Config) (entries : List Entry) (item : CStr) : Option CStr :=
  (table.find? fun walk => strcasecmpEq walk.name item).bind fun walk =>
    (entries.reverse.find? fun entry => strcasecmpEq entry.1 item && wellTyped walk entry.2).map
      fun entry => entry.2.getD []

/-- What is assigned inside a section, the line that starts it counted in. -/
def Section.entries (s : Section) : List Entry := (cstr "image", some s.path) :: s.body

def Section.get (s : Section) (item : CStr) : Option CStr := lastAssigned cfImage s.entries item

/-- Every label the section assigns, not only the one it ends up with. -/
def Section.labels (s : Section) : List CStr :=
  s.body.filterMap fun entry => if strcasecmpEq entry.1 (cstr "label") then entry.2 else none

/-- Some alternative matches the machine. -/
def Section.live (matchArch : CStr → Bool) (s : Section) : Bool :=
  s.archs.all fun alternatives => alternatives.any matchArch

/-- What a later label is compared with. -/
def Section.key (s : Section) : CStr := (s.get (cstr "label")).getD s.path

/-- No alternative matches, or a section behind it that is live takes its label. -/
def Section.obsolete (matchArch : CStr → Bool) (s : Section) (later : List Section) : Bool :=
  !s.live matchArch ||
    later.any fun l => l.live matchArch && l.labels.any fun label => strcasecmpEq s.key label

def Section.answers (s : Section) (name : CStr) : Bool :=
  (s.get (cstr "label")).getD (afterLast s.path 47) == name || s.get (cstr "alias") == some name

/-- The first section in file order that answers to `name`. -/
def selected (matchArch : CStr → Bool) (name : CStr) : List Section → Option Section
  | [] => none
  | s :: later =>
    if !s.obsolete matchArch later && s.answers name then some s else selected matchArch name later

/-- What `item` is for the image called `name`. -/
def Layout.get (matchArch : CStr → Bool) (l : Layout) (name item : CStr) : Option CStr :=
  (selected matchArch name l.sections).bind fun s =>
    (s.get item).or (lastAssigned cfOptions l.globals item)

/-- The program after it has parsed the files `earlier`. -/
def afterParses (matchArch : CStr → Bool) (earlier : List (List UInt8)) : CfgState :=
  earlier.foldl (fun st buff => (cfgParse matchArch buff st).2) fresh

/-- The assignments `cfg_parse` reads from `buff`. -/
def CfgState.reads (st : CfgState) (buff : List UInt8) : List Entry :=
  (scan { st.scanner with currp := buff, lineNum := 0 }).2.1

end Yaboot.Cfg
