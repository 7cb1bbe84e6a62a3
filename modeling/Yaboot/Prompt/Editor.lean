import Yaboot.Base.Loop
import Yaboot.Lib.Vsprintf
import Yaboot.Md5.Password
import Yaboot.Prompt.Params

/-! The line editor `cmdedit` of `second/cmdline.c` with what it prints, and
`check_password` of `second/yaboot.c`, which reads passwords with it. -/
namespace Yaboot.Prompt.Editor
open Buffer CString Vsprintf

/-! ### Printing -/

/-- What `prom_puts` sends to the terminal. -/
def promPuts (s : CStr) : List UInt8 := s.flatMap fun c => if c = 10 then [13, 10] else [c]

/-- What `prom_printf` sends to the terminal. -/
def promPrintf (fmt : CStr) (args : List Arg) : List UInt8 :=
  promPuts ((vsprintf fmt args).getD [])

/-! ### The editor -/

/-- `CMD_LENG`. -/
def cmdLeng : Nat := 512

/-- The buffer, the cursor, and what was printed so far. -/
structure Editing where
  buff : List UInt8
  x : Nat
  out : List UInt8
  deriving DecidableEq, Repr

def Editing.print (e : Editing) (text : List UInt8) : Editing := { e with out := e.out ++ text }

/-- `buff[x] = 0` behind the loop. -/
def Editing.close (e : Editing) : Editing := { e with buff := e.buff.set e.x 0 }

/-- A character that goes into the line, if there is room for it. -/
def insertKey (password : Bool) (c : UInt8) (e : Editing) : Editing :=
  if e.x < cmdLeng - 1 then
    let buff := (e.buff.set e.x c).set (e.x + 1) 0
    { buff, x := e.x + 1
      out := e.out ++ if password then promPrintf (cstr "*") []
        else promPrintf (strdup (buff.drop e.x)) [] }
  else e

/-- `!password && useconf` and the flag of the line. -/
def singleKey (w : World) (password : Bool) (e : Editing) : Bool :=
  e.x == 1 && !password && w.useconf && w.flag (some (strdup e.buff)) "single-key"

/-- The loop of `cmdedit` with a key. `tabfunc` prints a text. -/
def editKey (w : World) (tabfunc : Option (List UInt8)) (password : Bool) (e : Editing) (c : UInt8) :
    Loop.Round Editing Editing :=
  if c = 255 ∨ c = 10 ∨ c = 13 then .out e.close
  else
    let e := if c = 9 ∧ e.x = 0 then e.print (tabfunc.getD []) else e
    if c = 8 ∨ c = 127 then
      if 0 < e.x then
        .again (({ e with buff := e.buff.set (e.x - 1) 0, x := e.x - 1 } : Editing).print
          (promPrintf [8, 32, 8] []))
      else .again e
    else if c &&& 0xe0 ≠ 0 then
      let e := insertKey password c e
      if singleKey w password e then .out e.close else .again e
    else .again e

/-- The loop over the keys: what is left of them, once it has ended. -/
def editKeys (w : World) (tabfunc : Option (List UInt8)) (password : Bool) :
    List UInt8 → Editing → Editing × Option (List UInt8)
  | [], e => (e, none)
  | c :: keys, e =>
    match editKey w tabfunc password e c with
    | .again e => editKeys w tabfunc password keys e
    | .out e => (e, some keys)

/-- The start of `cmdedit`: what is in the buffer is printed. -/
def startEdit (password : Bool) (buff : List UInt8) : Editing :=
  let x := min (strdup buff).length (cmdLeng - 1)
  { buff, x
    out := if password then (List.replicate x (promPrintf (cstr "*") [])).flatten
      else promPrintf (strdup buff) [.word x] }

/-- `cmdedit`. -/
def cmdedit (w : World) (tabfunc : Option (List UInt8)) (password : Bool) (keys buff : List UInt8) :
    Editing × Option (List UInt8) :=
  editKeys w tabfunc password keys (startEdit password buff)

/-! ### Passwords -/

/-- How `check_password` ends: it returns, the machine is reset, or an encrypted password
is not of the form it takes for granted. -/
inductive Verdict where
  | returned
  | reset
  | undefined
  deriving DecidableEq, Repr

/-- What `check_password` does with the keys: the verdict and the keys behind, unless it
waits for more, the buffer, and what was printed. -/
structure Asked where
  verdict : Option (Verdict × List UInt8)
  passwdbuff : List UInt8
  out : List UInt8
  deriving DecidableEq, Repr

/-- Is it the password? An encrypted one is compared by `check_md5_password`, `behind` being
what lies behind it in memory. -/
def accepts (md : Md5.Context) (behind : Bytes) (password typed : CStr) : Option Bool :=
  if strncmpEq password (cstr "$1$") 3 then
    (Md5.md5Password md typed password behind true).map fun r => r.1 == 0
  else some (password == typed)

/-- The loop of `check_password`, `left` being the attempts that are left. -/
def askPassword (w : World) (correct : CStr → Option Bool) :
    Nat → List UInt8 → List UInt8 → Asked
  | 0, keys, passwdbuff => ⟨some (.reset, keys), passwdbuff, []⟩
  | left + 1, keys, passwdbuff =>
    let edited := cmdedit w none true keys (passwdbuff.set 0 0)
    let out := promPrintf (cstr "\nPassword: ") [] ++ edited.1.out
    match edited.2 with
    | none => ⟨none, edited.1.buff, out⟩
    | some rest =>
      let out := out ++ promPrintf (cstr "\n") []
      match correct (strdup edited.1.buff) with
      | none => ⟨some (.undefined, rest), edited.1.buff, out⟩
      | some true => ⟨some (.returned, rest), edited.1.buff, out⟩
      | some false =>
        let later := askPassword w correct left rest edited.1.buff
        let again := if left = 0 then [] else promPrintf (cstr "Incorrect password.  Try again.") []
        { later with out := out ++ again ++ later.out }

def denied : CStr :=
  cstr (" ___________________\n< Permission denied >\n -------------------\n" ++
    "        \\   ^__^\n         \\  (oo)\\_______\n            (__)\\       )\\/\\\n" ++
    "                ||----w |\n                ||     ||\n")

/-- What is printed before a reset. -/
def farewell : Option (Verdict × List UInt8) → List UInt8
  | some (.reset, _) => promPrintf denied []
  | _ => []

/-- `check_password`. -/
def checkPassword (w : World) (correct : CStr → Option Bool) (str : CStr)
    (keys passwdbuff : List UInt8) : Asked :=
  let asked := askPassword w correct 3 keys passwdbuff
  { asked with
    out := promPrintf (cstr "\n%s") [.string (some str)] ++ asked.out ++ farewell asked.verdict }

end Yaboot.Prompt.Editor
