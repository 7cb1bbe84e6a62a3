import Yaboot.Cfg.Scanner

/-! The option tables of `second/cfg.c`: assignment, parsing and the lookups
the rest of the loader makes. Allocation is taken to succeed, and warnings and
messages, which only reach the console, are left out. -/
namespace Yaboot.Cfg
open CString

inductive ConfigType where
  | strg
  | flag
  deriving DecidableEq, Repr

/-- One row of a table. A flag that is set points at `flag_set`, a zero byte,
so it reads as the empty string. -/
structure Config where
  type : ConfigType
  name : CStr
  data : Option CStr
  deriving DecidableEq, Repr

def strg (name : String) : Config := ⟨.strg, cstr name, none⟩
def flag (name : String) : Config := ⟨.flag, cstr name, none⟩

def cfOptions : List Config :=
  [strg "device", strg "partition", strg "default", strg "timeout", strg "password",
   flag "restricted", strg "message", strg "root", strg "ramdisk", flag "read-only",
   flag "read-write", strg "append", strg "initrd", flag "initrd-prompt", strg "initrd-size",
   flag "pause-after", strg "pause-message", strg "init-code", strg "init-message",
   strg "fgcolor", strg "bgcolor", strg "ptypewarning"]

def cfImage : List Config :=
  [strg "image", strg "label", strg "alias", flag "single-key", flag "restricted",
   strg "device", strg "partition", strg "root", strg "ramdisk", flag "read-only",
   flag "read-write", strg "append", strg "literal", strg "initrd", flag "initrd-prompt",
   strg "initrd-size", flag "pause-after", strg "pause-message", flag "novideo"]

/-- `struct IMAGES`, the links being the order of the list. -/
structure Image where
  table : List Config
  obsolete : Bool
  deriving DecidableEq, Repr

/-- `curr` is `curr_table`: the global table, or the table of one image. -/
structure Tables where
  options : List Config
  images : List Image
  curr : Option Nat
  deriving DecidableEq, Repr

def cfgGetStrgI (table : List Config) (item : CStr) : Option CStr :=
  (table.find? fun walk => strcasecmpEq walk.name item).bind Config.data

/-- The label an image answers to in `check_for_obsolete`. -/
def obsoleteKey (p : Image) : Option CStr :=
  (cfgGetStrgI p.table (cstr "label")).or (cfgGetStrgI p.table (cstr "image"))

def checkForObsolete (label : CStr) (t : Tables) : Tables :=
  if (t.curr.bind (t.images[·]?)).any Image.obsolete then t
  else
    { t with
      images := t.images.mapIdx fun i p =>
        if t.curr = some i then p
        else if (obsoleteKey p).any (strcasecmpEq · label) then { p with obsolete := true }
        else p }

/-- The row an assignment meets, given the value it carries. -/
def wellTyped (walk : Config) (value : Option CStr) : Bool :=
  match walk.type with
  | .strg => value.isSome
  | .flag => value.isNone

/-- Storing through the first row whose name matches; a value of the wrong kind
only produces a warning. -/
def storeRow (item : CStr) (value : Option CStr) : List Config → List Config
  | [] => []
  | walk :: rest =>
    if strcasecmpEq walk.name item then
      (if wellTyped walk value then { walk with data := some (value.getD []) } else walk) :: rest
    else walk :: storeRow item value rest

def Tables.currTable (t : Tables) : List Config :=
  match t.curr with
  | none => t.options
  | some i => (t.images[i]?.map Image.table).getD []

def Tables.setCurrTable (t : Tables) (table : List Config) : Tables :=
  match t.curr with
  | none => { t with options := table }
  | some i => { t with images := t.images.modify i fun p => { p with table := table } }

/-- `cfg_set_redo`: the walk over the current table. -/
def cfgSetRedo (item : CStr) (value : Option CStr) (t : Tables) : Bool × Tables :=
  match t.currTable.find? fun walk => strcasecmpEq walk.name item with
  | none => (false, t)
  | some walk =>
    let t :=
      match value with
      | some label =>
        if wellTyped walk value && strcasecmpEq item (cstr "label") then checkForObsolete label t
        else t
      | none => t
    (true, t.setCurrTable (storeRow item value t.currTable))

/-- `cfg_set_cont`: a new image is linked at the end and becomes current. -/
def cfgSetCont (ignore : Bool) (t : Tables) : Tables :=
  { t with images := t.images ++ [⟨cfImage, ignore⟩], curr := some t.images.length }

/-- `cfg_set`. The alternatives of a bracketed name are tried against the
machine's `compatible` list through `matchArch`. -/
def cfgSet (matchArch : CStr → Bool) (item : CStr) (value : Option CStr) (t : Tables) :
    Bool × Tables :=
  if (item.take 5).map lower = cstr "image" then
    if item[5]? = some 91 ∧ item.getLast? = some 93 then
      let alternatives := (item.drop 6).dropLast.splitOn 124
      cfgSetRedo (item.take 5) value (cfgSetCont (!alternatives.any matchArch) t)
    else if 5 < item.length then cfgSetRedo item value t
    else cfgSetRedo item value (cfgSetCont false t)
  else cfgSetRedo item value t

/-- Everything `cfg.c` keeps between calls. -/
structure CfgState where
  scanner : Scanner
  tables : Tables
  deriving DecidableEq, Repr

/-- The state of a freshly started program. -/
def fresh : CfgState where
  scanner := ⟨0, [], none, none, none, 0⟩
  tables := ⟨cfOptions, [], none⟩

def cfgReset (st : CfgState) : CfgState where
  scanner := { st.scanner with lineNum := 0 }
  tables := ⟨st.tables.options.map fun walk => { walk with data := none }, [], none⟩

/-- The `while (1)` of `cfg_parse`, entered again through `setjmp` when an error
unwinds to it. -/
def parseLoop (matchArch : CStr → Bool) (s : Scanner) (t : Tables) : Int × CfgState :=
  match read : cfgNext s with
  | (.error _, s') => (-1, ⟨s', t⟩)
  | (.ok none, s') => (0, ⟨s', t⟩)
  | (.ok (some (item, value)), s') => parseLoop matchArch s' (cfgSet matchArch item value t).2
termination_by s.size
decreasing_by
  have found : (cfgNext s).1 = .ok (some (item, value)) := by rw [read]
  have shorter := cfgNext_size_lt found
  rwa [read] at shorter

def cfgParse (matchArch : CStr → Bool) (buff : List UInt8) (st : CfgState) : Int × CfgState :=
  let st := cfgReset { st with scanner := { st.scanner with currp := buff } }
  parseLoop matchArch st.scanner st.tables

/-! ### Lookups -/

/-- The name an image is selected by. A section with neither label nor image
reads the string at address zero. -/
def imageLabel (low : CStr) (p : Image) : CStr :=
  match cfgGetStrgI p.table (cstr "label") with
  | some label => label
  | none => afterLast (deref low (cfgGetStrgI p.table (cstr "image"))) 47

/-- The test of `cfg_get_strg` on one image. -/
def answersTo (low : CStr) (image : CStr) (p : Image) : Bool :=
  !p.obsolete && (imageLabel low p == image || cfgGetStrgI p.table (cstr "alias") == some image)

def cfgGetStrg (low : CStr) (t : Tables) (image : Option CStr) (item : CStr) : Option CStr :=
  match image with
  | none => cfgGetStrgI t.options item
  | some image =>
    match t.images.find? (answersTo low image) with
    | none => none
    | some p => (cfgGetStrgI p.table item).or (cfgGetStrgI t.options item)

def cfgGetFlag (low : CStr) (t : Tables) (image : Option CStr) (item : CStr) : Bool :=
  (cfgGetStrg low t image item).isSome

def cfgGetDefault (low : CStr) (t : Tables) : Option CStr :=
  match cfgGetStrgI t.options (cstr "default") with
  | some ret => some ret
  | none =>
    match t.images.find? fun p => !p.obsolete with
    | none => none
    | some p =>
      match cfgGetStrgI p.table (cstr "label"), cfgGetStrgI p.table (cstr "image") with
      | some label, _ => some label
      | none, some image => some (afterLast image 47)
      | none, none => if 47 ∈ low then some (afterLast low 47) else none

end Yaboot.Cfg
