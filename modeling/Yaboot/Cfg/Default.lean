import Yaboot.Cfg.Table

/-! `cfg_set_default_by_mac` of `second/cfg.c`, and the pointers the lookups of
that file pass to `strcmp`, `strrchr` and `strlen`, in the order of the calls. A
null pointer reads the string `low` at address zero. The names of rows and the
items looked for are never null, and their comparison is left out. -/
namespace Yaboot.Cfg
open CString

/-- The arguments of calls; `none` is a null pointer. -/
abbrev Pointers := List (Option CStr)

/-- `strrchr (label, '/')`, and what is behind the slash if there is one. -/
def lastComponent (low : CStr) (label : Option CStr) : Option CStr :=
  match label with
  | some label => some (afterLast label 47)
  | none => if 47 ∈ low then some (afterLast low 47) else none

/-- The label of an image, or else the last component of its path. -/
def labelPointer (low : CStr) (p : Image) : Option CStr :=
  match cfgGetStrgI p.table (cstr "label") with
  | some label => some label
  | none => lastComponent low (cfgGetStrgI p.table (cstr "image"))

def labelArgs (p : Image) : Pointers :=
  match cfgGetStrgI p.table (cstr "label") with
  | some _ => []
  | none => [cfgGetStrgI p.table (cstr "image")]

/-- The loop of `cfg_get_strg` over the images. -/
def strgArgs (low image : CStr) : List Image → Pointers
  | [] => []
  | p :: rest =>
    if p.obsolete then strgArgs low image rest
    else
      let label := labelPointer low p
      let args := labelArgs p ++ [label, some image]
      if deref low label = image then args
      else
        match cfgGetStrgI p.table (cstr "alias") with
        | none => args ++ strgArgs low image rest
        | some alias_ =>
          let args := args ++ [some alias_, some image]
          if alias_ = image then args else args ++ strgArgs low image rest

def cfgGetStrgArgs (low : CStr) (t : Tables) (image : Option CStr) (_item : CStr) : Pointers :=
  match image with
  | none => []
  | some image => strgArgs low image t.images

def cfgGetDefaultArgs (t : Tables) : Pointers :=
  match cfgGetStrgI t.options (cstr "default") with
  | some _ => []
  | none => ((t.images.find? fun p => !p.obsolete).map labelArgs).getD []

/-- A round of `cfg_print_images`; `once` is `bootoncelabel`. -/
def printArgs (low once : CStr) (default_ : Option CStr) (p : Image) : Pointers :=
  if p.obsolete then []
  else
    let label := labelPointer low p
    labelArgs p ++ [some once, label] ++
      (if once = deref low label then [] else [default_, label]) ++ [label] ++
      (cfgGetStrgI p.table (cstr "alias")).toList.map some

def cfgPrintImagesArgs (low once : CStr) (t : Tables) : Pointers :=
  t.images.flatMap (printArgs low once (cfgGetStrgI t.options (cstr "default")))

/-- The search of `cfg_set_default_by_mac` goes over all images. -/
def cfgSetDefaultByMacArgs (t : Tables) (macAddr : CStr) : Pointers :=
  t.images.flatMap fun p => [cfgGetStrgI p.table (cstr "label"), some macAddr]

/-- Pointing the first row called `default` to another string. -/
def setDefault (macAddr : CStr) : List Config → Option (List Config)
  | [] => none
  | walk :: rest =>
    if strcasecmpEq walk.name (cstr "default") then some ({ walk with data := some macAddr } :: rest)
    else (setDefault macAddr rest).map (walk :: ·)

/-- `cfg_set_default_by_mac`. -/
def cfgSetDefaultByMac (low : CStr) (macAddr : CStr) (t : Tables) : Int × Tables :=
  if t.images.any fun p => deref low (cfgGetStrgI p.table (cstr "label")) == macAddr then
    match setDefault macAddr t.options with
    | some options => (1, { t with options := options })
    | none => (0, t)
  else (0, t)

end Yaboot.Cfg
