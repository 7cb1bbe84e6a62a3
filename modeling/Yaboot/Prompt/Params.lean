import Yaboot.Cfg.Table
import Yaboot.Fs.DevicePath

/-! The boot prompt: `get_params` of `second/yaboot.c` with the line editor, and
what it hands to the loader. Pointers into the buffers a line can come from are
kept as such, since some of them are written to while others are in use. -/
namespace Yaboot.Prompt
open CString Cfg Fs Strtol

/-- What does not change while prompts are answered. `low` is what lies at
address zero, `behind` what lies after a string of the configuration. -/
structure World where
  fw : Firmware
  low : List UInt8
  behind : CStr → List UInt8
  tables : Tables
  useconf : Bool
  password : Option CStr
  boot : BootFspec
  fwRebootCnt : Int

/-- The variables that live from one call to the next. -/
structure Statics where
  first : Bool
  cbuff : List UInt8
  bootargs : List UInt8
  bootoncelabel : List UInt8
  bootlastlabel : List UInt8
  manualinitrd : CStr
  definitrd : Bool
  hasarg : Bool
  pauseAfter : Bool
  pauseMessage : Option CStr

/-- The key pressed while the timeout runs, and the keys typed after that. -/
structure Input where
  pressed : Option UInt8
  keys : List UInt8

/-- Where a string is. `text` is a string of the configuration or a literal. -/
inductive Ptr where
  | cbuff (at_ : Nat)
  | bootargs (at_ : Nat)
  | bootoncelabel
  | bootlastlabel (at_ : Nat)
  | text (s : CStr)

/-- The bytes from a pointer on. -/
def Statics.deref (w : World) (st : Statics) : Option Ptr → List UInt8
  | none => w.low
  | some (.cbuff at_) => st.cbuff.drop at_
  | some (.bootargs at_) => st.bootargs.drop at_
  | some .bootoncelabel => st.bootoncelabel
  | some (.bootlastlabel at_) => st.bootlastlabel.drop at_
  | some (.text s) => s ++ 0 :: w.behind s

/-- The string at a pointer, and at `NULL`. -/
def Statics.string (w : World) (st : Statics) (p : Option Ptr) : CStr := strdup (st.deref w p)

def World.lowString (w : World) : CStr := strdup w.low

def World.strg (w : World) (image : Option CStr) (item : String) : Option CStr :=
  cfgGetStrg w.lowString w.tables image (cstr item)

def World.flag (w : World) (image : Option CStr) (item : String) : Bool :=
  cfgGetFlag w.lowString w.tables image (cstr item)

def World.getDefault (w : World) : Option CStr := cfgGetDefault w.lowString w.tables

/-- A string written to the start of a buffer. -/
def strcpy (buf : List UInt8) (s : CStr) : List UInt8 := s ++ 0 :: buf.drop (s.length + 1)

def strcat (buf : List UInt8) (s : CStr) : List UInt8 := strcpy buf (strdup buf ++ s)

/-! ### Lines -/

/-- A buffer after `word_split`, and where its first word and the rest start. -/
structure Words where
  buf : List UInt8
  line : Option Nat
  params : Option Nat

/-- `word_split`: blanks between the first word and the rest become zeros. -/
def wordSplit (buf : List UInt8) : Words :=
  let blanks := buf.takeWhile (· == 32)
  let p := buf.dropWhile (· == 32)
  let word := p.takeWhile fun c => c != 0 && c != 32
  let gap := (p.dropWhile fun c => c != 0 && c != 32).takeWhile (· == 32)
  let rest := (p.dropWhile fun c => c != 0 && c != 32).dropWhile (· == 32)
  if strdup p = [] then ⟨buf, none, none⟩
  else
    { buf := blanks ++ word ++ List.replicate gap.length 0 ++ rest
      line := some blanks.length
      params := if strdup rest = [] then none
        else some (blanks.length + word.length + gap.length) }

/-- The loop of `cmdedit`, `x` being the cursor. A key of its own name ends the
line; byte 0xff reads as the end of the input. -/
def cmdeditLoop (w : World) : List UInt8 → Nat → List UInt8 → List UInt8
  | [], x, buff => buff.set x 0
  | c :: keys, x, buff =>
    if c = 255 ∨ c = 10 ∨ c = 13 then buff.set x 0
    else if c = 8 ∨ c = 127 then
      if 0 < x then cmdeditLoop w keys (x - 1) (buff.set (x - 1) 0) else cmdeditLoop w keys x buff
    else if c &&& 0xe0 ≠ 0 ∧ x < 511 then
      let buff := (buff.set x c).set (x + 1) 0
      if x + 1 = 1 ∧ w.useconf ∧ w.flag (some (strdup buff)) "single-key" then buff.set 1 0
      else cmdeditLoop w keys (x + 1) buff
    else cmdeditLoop w keys x buff

def cmdedit (w : World) (keys : List UInt8) (buff : List UInt8) : List UInt8 :=
  cmdeditLoop w keys (min (strdup buff).length 511) buff

/-! ### Choosing an image -/

/-- `imagename` and `params->args`. -/
structure Choice where
  imagename : Option Ptr
  args : Option Ptr

/-- Splitting a buffer that `at_` makes pointers into. -/
def Words.choice (words : Words) (at_ : Nat → Ptr) : Choice :=
  ⟨words.line.map at_, words.params.map at_⟩

/-- `timeout` of a first call. -/
def World.timeout (w : World) : Int :=
  match w.useconf, w.strg none "timeout" with
  | true, some (c :: q) => (simpleStrtol (c :: q) 0).1
  | _, _ => -1

/-- Writing a pressed key into the line. -/
def typeKey (c : UInt8) (st : Statics) : Statics :=
  { st with cbuff := (st.cbuff.set 0 c).set 1 0 }

/-- The key that ends the wait: a newline when nothing was pressed. -/
def waitKey (timeout : Int) (inp : Input) (st : Statics) : Option UInt8 × Statics :=
  if timeout = -1 then (none, st)
  else
    match (if 0 < timeout then inp.pressed.filter (· != 255) else none) with
    | none => (some 10, st)
    | some c => (some c, if c = 10 ∨ c = 9 ∨ c = 13 ∨ c = 8 then st else typeKey c st)

/-- A return at the prompt: what was given, or the label to boot once, or the
label of the last boot, or the default. -/
def enterKey (w : World) (st : Statics) (choice : Choice) : Statics × Choice :=
  if choice.imagename.isSome then (st, choice)
  else if strdup st.bootoncelabel ≠ [] then (st, { choice with imagename := some .bootoncelabel })
  else if strdup st.bootlastlabel ≠ [] then
    ({ st with bootlastlabel := (wordSplit st.bootlastlabel).buf },
      (wordSplit st.bootlastlabel).choice .bootlastlabel)
  else (st, { choice with imagename := w.getDefault.map .text })

/-- A line typed at the prompt. -/
def typedLine (w : World) (inp : Input) (st : Statics) : Statics × Choice :=
  let buff := cmdedit w inp.keys st.cbuff
  ({ st with cbuff := (wordSplit buff).buf }, (wordSplit buff).choice .cbuff)

/-- From the boot arguments, the keyboard or what was remembered to a choice. -/
def prompt (w : World) (inp : Input) (st : Statics) : Statics × Choice :=
  let st := { st with pauseAfter := false, cbuff := st.cbuff.set 0 0 }
  let given := st.first && w.fwRebootCnt == 0
  let words := wordSplit st.bootargs
  let choice := if given then words.choice .bootargs else ⟨none, some (.text [])⟩
  let timeout := if w.fwRebootCnt ≠ 0 then 1 else if given then w.timeout else -1
  let st := if given then { st with first := false, bootargs := words.buf } else st
  match waitKey timeout inp st with
  | (some c, st) =>
    if c = 10 ∨ c = 13 then enterKey w st choice
    else if c ≠ 9 ∧ 32 ≤ c ∧ c < 128 then
      let st := typeKey c st
      if w.useconf && w.flag (some (strdup st.cbuff)) "single-key" then
        (st, { choice with imagename := some (.cbuff 0) })
      else typedLine w inp st
    else typedLine w inp st
  | (none, st) => typedLine w inp st

def initrdTok : CStr := cstr "initrd="

/-- `!strncmp(p, "initrd=", 7)`. -/
def namesInitrd (w : World) (st : Statics) (p : Option Ptr) : Bool :=
  strncmpEq (st.string w p) initrdTok 7

/-- The string an initrd is taken from. -/
def Choice.initrdFrom (choice : Choice) : Option Ptr := choice.args.or choice.imagename

/-- Is the block on `initrd=` entered? `definitrd` may be left over. -/
def takesInitrd (w : World) (st : Statics) (choice : Choice) : Bool :=
  namesInitrd w st choice.args || namesInitrd w st choice.imagename || !st.definitrd

/-- The block on `initrd=`. It is left early when there is no text. -/
def initrdSetup (w : World) (st : Statics) (choice : Choice) : Bool × Statics × Choice :=
  if takesInitrd w st choice then
    let text := st.deref w choice.initrdFrom
    let hasarg := st.hasarg || choice.args.isSome
    if strdup text = [] then
      (false, { st with definitrd := true, hasarg }, { choice with args := none })
    else
      (true, { st with definitrd := false, hasarg, manualinitrd := strdup (text.drop 7) },
        ⟨w.getDefault.map .text, none⟩)
  else (true, st, choice)

/-- No name is the default name. -/
def orDefault (w : World) (st : Statics) (choice : Choice) : Choice :=
  if w.useconf && (choice.imagename.isNone || st.string w choice.imagename == []) then
    { choice with imagename := w.getDefault.map .text }
  else choice

/-- `boot-last-label`. The arguments are read back after the name was written. -/
def remember (w : World) (choice : Choice) (st : Statics) : Statics :=
  let st := { st with bootlastlabel := strcpy st.bootlastlabel (st.string w choice.imagename) }
  if choice.args.isSome && st.string w choice.args != [] then
    let st := { st with bootlastlabel := strcat st.bootlastlabel [32] }
    { st with bootlastlabel := strcat st.bootlastlabel (st.string w choice.args) }
  else st

/-! ### Booting it -/

/-- One option of `make_params`, with what comes before and after its value. -/
def stringOption (w : World) (label : Option CStr) (item text : String) : CStr :=
  match w.strg label item with
  | some p => cstr text ++ p ++ [32]
  | none => []

def flagOption (w : World) (label : Option CStr) (item text : String) : CStr :=
  if w.flag label item then cstr text else []

/-- `make_params`: the command line of the kernel. -/
def makeParams (w : World) (label : Option CStr) (params : Option CStr) : CStr :=
  match w.strg label "literal" with
  | some p =>
    match params with
    | some params => p ++ (if p = [] then [] else [32]) ++ params
    | none => p
  | none =>
    stringOption w label "root" "root=" ++ flagOption w label "read-only" "ro " ++
      flagOption w label "read-write" "rw " ++ stringOption w label "ramdisk" "ramdisk=" ++
      stringOption w label "initrd-size" "ramdisk_size=" ++
      flagOption w label "novideo" "video=ofonly " ++ stringOption w label "append" "" ++
      params.getD []

structure BootParam where
  kernel : BootFspec
  rd : BootFspec
  args : Option CStr
  deriving DecidableEq

/-- How a call ends: the value returned, what was asked for passwords, the label
it settled on, and whether it was a `conf` command, which is not followed. -/
structure Outcome where
  returned : Int
  params : BootParam
  asked : List String
  label : Option CStr
  conf : Bool

def BootParam.empty (args : Option CStr) : BootParam :=
  ⟨{ BootFspec.zero with part := -1 }, { BootFspec.zero with part := -1 }, args⟩

/-- `partition` of a section, when it is a number and nothing else. -/
def World.partition (w : World) (label : Option CStr) (defpart : Int) : Int :=
  match w.strg label "partition" with
  | some p =>
    let n := simpleStrtol p 10
    if n.2.length ≠ p.length ∧ n.2 = [] then n.1 else defpart
  | none => defpart

/-- What the configuration makes of a name. -/
structure Selection where
  label : Option CStr
  imagename : Option CStr
  defdevice : Option CStr
  defpart : Int
  args : Option CStr
  asked : List String
  pauseAfter : Bool
  pauseMessage : Option CStr

def World.restricted (w : World) (label : Option CStr) : Bool :=
  w.flag none "restricted" || w.flag label "restricted"

/-- The passwords a labelled image asks for. -/
def askForLabel (w : World) (label args : Option CStr) : List String :=
  if label.isNone then []
  else if args.isSome && w.password.isSome && w.restricted label then
    ["To specify arguments for this image you must enter the password."]
  else if w.password.isSome && !w.restricted label then ["This image is restricted."]
  else []

def select (w : World) (st : Statics) (imagename args : Option CStr) : Selection :=
  if w.useconf then
    let defpart := w.partition none w.boot.part
    let pauseMessage := (w.strg none "pause-message").or st.pauseMessage
    match w.strg imagename "image" with
    | some (c :: p) =>
      { label := imagename
        imagename := some (c :: p)
        defdevice := (w.strg imagename "device").or w.boot.dev
        defpart := w.partition imagename defpart
        args := some (makeParams w imagename args)
        asked := askForLabel w imagename args
        pauseAfter := (w.strg imagename "literal").isNone && w.flag imagename "pause-after"
        pauseMessage :=
          if (w.strg imagename "literal").isSome then pauseMessage
          else (w.strg imagename "pause-message").or pauseMessage }
    | _ => ⟨none, imagename, w.strg none "device", defpart, args, [], false, pauseMessage⟩
  else ⟨none, imagename, w.boot.dev, w.boot.part, args, [], false, st.pauseMessage⟩

/-- The initrd to load, and where it is. -/
def initrdPath (w : World) (st : Statics) (p : CStr) : CStr :=
  if st.definitrd then p.take 1024
  else if st.manualinitrd.head? ≠ some 47 ∧
      w.fw.devtype (w.boot.dev.getD w.lowString) ≠ .ok .net then
    47 :: st.manualinitrd
  else st.manualinitrd.take 1024

def kernelFspec (w : World) (s : Selection) : Bool × BootFspec :=
  parseDevicePath w.fw ((s.imagename.getD w.lowString).take 1024) s.defdevice s.defpart
    (cstr "/vmlinux") w.boot

def rdFspec (w : World) (st : Statics) (s : Selection) : BootFspec :=
  match w.useconf, w.strg s.label "initrd" with
  | true, some (c :: p) =>
    (parseDevicePath w.fw (initrdPath w st (c :: p)) s.defdevice s.defpart (cstr "/root.bin")
      w.boot).2
  | _, _ => { BootFspec.zero with part := -1 }

/-- The commands of the prompt, and everything else, which is an image. -/
inductive Command where
  | help
  | halt
  | bye
  | conf
  | forth
  | image
  deriving DecidableEq

def command (name : CStr) : Command :=
  if name = cstr "help" then .help
  else if name = cstr "halt" then .halt
  else if name = cstr "bye" then .bye
  else if strncmpEq name (cstr "conf") 4 then .conf
  else if name.head? = some 36 then .forth
  else .image

/-- `check_password`, when there is one. It returns only if it was entered. -/
def World.ask (w : World) (text : String) : List String := if w.password.isSome then [text] else []

def launch (w : World) (st : Statics) (s : Selection) : Outcome :=
  let done (returned : Int) (more : List String) : Outcome :=
    ⟨returned, .empty s.args, s.asked ++ more, s.label, false⟩
  match command (s.imagename.getD w.lowString) with
  | .help => done 0 []
  | .halt => done 0 (w.ask "Restricted command.")
  | .bye => done 1 (w.ask "Restricted command.")
  | .conf =>
    if w.password.isSome then done 1 (w.ask "Restricted command.")
    else ⟨0, .empty (some []), s.asked, s.label, true⟩
  | .forth => done 0 (w.ask "OpenFirmware commands are restricted.")
  | .image =>
    let asked := s.asked ++
      if s.label.isNone then w.ask "To boot a custom image you must enter the password." else []
    let kernel := kernelFspec w s
    ⟨0,
      { kernel := kernel.2
        rd := if kernel.1 then rdFspec w st s else { BootFspec.zero with part := -1 }
        args := s.args },
      asked, s.label, false⟩

/-- The call behind the block on `initrd=`. -/
def proceed (w : World) (st : Statics) (choice : Choice) : Outcome × Statics :=
  let choice := orDefault w st choice
  let st := remember w choice st
  let s := select w st (choice.imagename.map fun p => st.string w (some p))
    (choice.args.map fun p => st.string w (some p))
  (launch w st s, { st with pauseAfter := s.pauseAfter, pauseMessage := s.pauseMessage })

/-- The call once the line is known. -/
def answer (w : World) (st : Statics) (choice : Choice) : Outcome × Statics :=
  let ready := initrdSetup w st choice
  if ready.1 then proceed w ready.2.1 ready.2.2
  else (⟨0, .empty none, [], none, false⟩, ready.2.1)

/-- `get_params`. -/
def getParams (w : World) (inp : Input) (st : Statics) : Outcome × Statics :=
  answer w (prompt w inp st).1 (prompt w inp st).2

end Yaboot.Prompt
