import Yaboot.Base.Pointers
import Yaboot.Lib.StrtolProofs
import Yaboot.Prompt.Conf

/-! What the `conf` command does to `boot` before it loads a file: the fields it
writes, the pointers it hands to string functions, and the memory it copies to. -/
namespace Yaboot.Prompt
open CString Cfg Fs Strtol Netboot Pointers

/-- What `boot.dev` and `boot.file` were allocated with: a copy of the path they
were read from, or `conf_path`. -/
structure Rooms where
  dev : Nat
  file : Nat

/-- A session while its fields are written, and whether a copy was too long. -/
structure Filling where
  setup : Setup
  overrun : Bool

/-- `strcpy` to a field, its old and its new value. -/
def copyField (room : Nat) (old new : CStr) (write : Setup → Setup) : Handing Filling Unit := do
  hand (some old)
  hand (some new)
  modify fun f => ⟨write f.setup, f.overrun || decide (room < new.length + 1)⟩

/-- One argument, and whether it was one of the three. -/
def confArgRun (rooms : Rooms) (temp : CStr) : Handing Filling Bool := do
  let f ← state
  hand (some temp)
  if strncmpEq temp (cstr "file=") 5 then do
    copyField rooms.file f.setup.file (temp.drop 5) fun s => { s with file := temp.drop 5 }
    pure true
  else do
    hand (some temp)
    if strncmpEq temp (cstr "device=") 7 then do
      copyField rooms.dev f.setup.dev (temp.drop 7) fun s => { s with dev := temp.drop 7 }
      pure true
    else do
      hand (some temp)
      if strncmpEq temp (cstr "partition=") 10 then do
        modify fun f => { f with
          setup := { f.setup with part := (simpleStrtol (temp.drop 10) 10).1 } }
        pure true
      else pure false

/-- The loop over the arguments. `strlen(space)` comes behind each of them. -/
def confLoop (rooms : Rooms) (low : CStr) : Nat → CStr → Option Nat → Handing Filling Unit
  | 0, _, _ => pure ()
  | loop + 1, args, space => do
    hand (some args)
    let parsed ← confArgRun rooms (confTemp args space)
    hand ((space.filter fun _ => parsed).map args.drop)
    if 1 < ((space.filter fun _ => parsed).elim low args.drop).length then do
      let args := ((space.filter fun _ => parsed).elim low args.drop).drop 1
      hand (some args)
      confLoop rooms low loop args (some (args.takeWhile (· != 32)).length)
    else pure ()

/-- The command up to `load_config_file`. -/
def confFill (rooms : Rooms) (low : CStr) (args : Option CStr) : Handing Filling Unit := do
  hand args
  if args.getD low ≠ [] then do
    let text := args.getD low
    hand args
    confLoop rooms low 3 text
      (if 32 ∈ text then some (text.takeWhile (· != 32)).length else none)
  else pure ()

/-- The same in a call that comes to it, where there is no password. -/
def confCall (m : Machine) (rooms : Rooms) (s : Setup) (inp : Input) (st : Statics) :
    Option (Run Filling Unit) :=
  (settles (s.world m) inp st).bind fun sel =>
    if command (sel.imagename.getD (strdup m.low)) = .conf ∧ s.password = none then
      some (confFill rooms (strdup m.low) sel.args ⟨s, false⟩)
    else none

/-! ### What is asked for -/

inductive Kind where
  | device
  | partition
  | file
  deriving DecidableEq

def Kind.key : Kind → CStr
  | .device => cstr "device="
  | .partition => cstr "partition="
  | .file => cstr "file="

/-- The field of `boot`. -/
def Kind.field (s : Setup) : Kind → CStr ⊕ Int
  | .device => .inl s.dev
  | .partition => .inr s.part
  | .file => .inl s.file

/-- One setting of a `conf` line. -/
structure Setting where
  kind : Kind
  value : CStr
  spaceless : 32 ∉ value
  number : kind = .partition → Number value

namespace Setting

def text (x : Setting) : CStr := x.kind.key ++ x.value

/-- What the field is to hold. -/
def asked (x : Setting) : CStr ⊕ Int :=
  match x.kind with
  | .partition => .inr (Strtol.number x.value)
  | _ => .inl x.value

/-- The value fits the memory of its field, or its type. -/
def Fits (rooms : Rooms) (x : Setting) : Prop :=
  match x.kind with
  | .device => x.value.length < rooms.dev
  | .partition => -2 ^ 31 ≤ Strtol.number x.value ∧ Strtol.number x.value < 2 ^ 31
  | .file => x.value.length < rooms.file

end Setting

/-- The settings as they are typed, one space apart. -/
def settingsText : List Setting → CStr
  | [] => []
  | [x] => x.text
  | x :: y :: settings => x.text ++ 32 :: settingsText (y :: settings)

/-- The fields that are named have been replaced, and nothing else. -/
structure Replaced (settings : List Setting) (s s' : Setup) : Prop where
  named : ∀ x ∈ settings, x.kind.field s' = x.asked
  others : ∀ kind, kind ∉ settings.map Setting.kind → kind.field s' = kind.field s
  rest : s' = { s with dev := s'.dev, part := s'.part, file := s'.file }

/-- A call fills `boot` in as its settings say, hands on no null pointer, and
copies nothing past the end of its memory. -/
def FillsIn (m : Machine) (rooms : Rooms) (s : Setup) (inp : Input) (st : Statics)
    (settings : List Setting) : Prop :=
  ∃ run, confCall m rooms s inp st = some run ∧ Replaced settings s run.state.setup ∧
    none ∉ run.given ∧ run.state.overrun = false

end Yaboot.Prompt
