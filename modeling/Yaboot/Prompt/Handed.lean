import Yaboot.Prompt.Conf
import Yaboot.Prompt.MemoryProofs

/-! The pointers `get_params` hands to `strncmp`, `strcmp`, `strcpy` and `strlen`,
apart from arrays, which are never null, and from the `conf` command. -/
namespace Yaboot.Prompt
open CString Cfg Fs

/-- The string at a pointer that may be null. -/
def Statics.text (w : World) (st : Statics) (p : Option Ptr) : Option CStr :=
  p.map fun q => st.string w (some q)

/-- The block on `initrd=`: two comparisons, a length, and a copy of what lies
behind the seventh byte. -/
def initrdHands (w : World) (st : Statics) (choice : Choice) : List (Option CStr) :=
  [st.text w choice.args, st.text w choice.imagename] ++
    if takesInitrd w st choice then
      st.text w choice.initrdFrom ::
        (if st.string w choice.initrdFrom = [] then []
        else [some (strdup ((st.deref w choice.initrdFrom).drop 7))])
    else []

/-- The comparisons with the names of commands, up to the one that fits. -/
def commandHands (low : CStr) (name : Option CStr) : List (Option CStr) :=
  match command (name.getD low) with
  | .help => [name]
  | .halt => [name, name]
  | .bye => [name, name, name]
  | _ => [name, name, name, name]

/-- Behind that block: the copies to `boot-last-label` and `defdevice_bak`, and
the command. -/
def proceedHands (w : World) (st : Statics) (choice : Choice) : List (Option CStr) :=
  let choice := orDefault w st choice
  let remembered := remember w choice st
  [st.text w choice.imagename, w.boot.dev] ++
    commandHands w.lowString (select w remembered (remembered.text w choice.imagename)
      (remembered.text w choice.args)).imagename

/-- All of a call. -/
def handed (w : World) (inp : Input) (st : Statics) : List (Option CStr) :=
  let line := prompt w inp st
  let ready := initrdSetup w line.1 line.2
  initrdHands w line.1 line.2 ++ if ready.1 then proceedHands w ready.2.1 ready.2.2 else []

/-! ### The line of a call -/

/-- Is it the call that looks at the boot arguments? -/
def World.starts (w : World) (st : Statics) : Bool := st.first && w.fwRebootCnt == 0

/-- How long a key is waited for. -/
def World.waits (w : World) (st : Statics) : Int :=
  if w.fwRebootCnt ≠ 0 then 1 else if w.starts st then w.timeout else -1

/-- The key that ends the wait, if there is one. -/
def World.key (w : World) (inp : Input) (st : Statics) : Option UInt8 :=
  if w.waits st = -1 then none
  else some ((if 0 < w.waits st then inp.pressed.filter (· != 255) else none).getD 10)

/-- Where a line comes from: the editor, with what is in its buffer already; a
return; or a key that is a label. -/
inductive Source where
  | typed (buff : List UInt8)
  | entered
  | single (label : CStr)

def World.source (w : World) (inp : Input) (st : Statics) : Source :=
  match w.key inp st with
  | none => .typed (st.cbuff.set 0 0)
  | some c =>
    if c = 10 ∨ c = 13 then .entered
    else if c = 8 ∨ c = 9 then .typed (st.cbuff.set 0 0)
    else if 32 ≤ c ∧ c < 128 ∧ w.useconf ∧
        w.flag (some (strdup (typeKey c st).cbuff)) "single-key" then
      .single (strdup (typeKey c st).cbuff)
    else .typed (typeKey c st).cbuff

/-- The words a call goes by. -/
def lineTexts (w : World) (inp : Input) (st : Statics) : Texts :=
  let given := Texts.ofLine (strdup st.bootargs)
  let args := if w.starts st then given.args else some []
  match w.source inp st with
  | .typed buff => Texts.ofLine (strdup (cmdedit w inp.keys buff))
  | .single label => ⟨some label, args⟩
  | .entered =>
    if w.starts st ∧ given.name.isSome then given
    else if strdup st.bootoncelabel ≠ [] then ⟨some (strdup st.bootoncelabel), args⟩
    else if strdup st.bootlastlabel ≠ [] then Texts.ofLine (strdup st.bootlastlabel)
    else ⟨w.defaultLabel, args⟩

/-! ### When all of it is there -/

/-- A word, and something behind it. -/
def TwoWords (line : CStr) : Prop := (otherWords line).isSome

/-- A typed line has a second word. So do the boot arguments the first call goes
by, and the label of the last boot; a label to boot once and the default can be
booted by a later call only. -/
def LineComplete (w : World) (inp : Input) (st : Statics) : Prop :=
  match w.source inp st with
  | .typed buff => TwoWords (strdup (cmdedit w inp.keys buff))
  | .single _ => w.starts st = true → TwoWords (strdup st.bootargs)
  | .entered =>
    if w.starts st then
      TwoWords (strdup st.bootargs) ∨ firstWord (strdup st.bootargs) = none ∧
        strdup st.bootoncelabel = [] ∧ TwoWords (strdup st.bootlastlabel)
    else
      strdup st.bootoncelabel ≠ [] ∨ TwoWords (strdup st.bootlastlabel) ∨
        strdup st.bootlastlabel = [] ∧ w.getDefault ≠ none

/-- The line is complete, and where the default stands in for its name there is
one: behind `initrd=`, typed now or before, and for an empty name. -/
structure HasStrings (w : World) (inp : Input) (st : Statics) : Prop where
  line : LineComplete w inp st
  default : (if (lineTexts w inp st).names w || !st.definitrd then
      (lineTexts w inp st).args ≠ some []
    else w.useconf = true ∧ (lineTexts w inp st).name = some []) → w.getDefault ≠ none

end Yaboot.Prompt
