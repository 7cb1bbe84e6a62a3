import Yaboot.Netboot.Config
import Yaboot.Prompt.Params

/-! The `conf` command of `get_params`: its arguments are written into `boot` one
by one, `load_config_file` is tried on the result, and after a failure `boot` is
put back together. -/
namespace Yaboot.Prompt
open CString Cfg Fs Strtol Netboot

/-- What commands do not change: the firmware, and the files it can reach. -/
structure Machine where
  fw : Firmware
  low : List UInt8
  behind : CStr → List UInt8
  fwRebootCnt : Int
  etc : Bool
  netinfo : Option Packet
  matchArch : CStr → Bool
  openFile : BootFspec → Int
  read : BootFspec → Int × List UInt8

/-- What a `conf` command works on. `boot` always has a device and a file. -/
structure Setup where
  useconf : Int
  password : Option CStr
  dev : CStr
  part : Int
  file : CStr
  /-- The other fields of `boot`. -/
  fspec : BootFspec
  cfg : CfgState

def Setup.boot (s : Setup) : BootFspec :=
  { s.fspec with dev := some s.dev, part := s.part, file := some s.file }

/-- What the prompt sees of a session. -/
def Setup.world (m : Machine) (s : Setup) : Prompt.World where
  fw := m.fw
  low := m.low
  behind := m.behind
  tables := s.cfg.tables
  useconf := s.useconf != 0
  password := s.password
  boot := s.boot
  fwRebootCnt := m.fwRebootCnt

/-- The files on the device and partition of a session. -/
def Machine.files (m : Machine) (s : Setup) : Netboot.World where
  etc := m.etc
  net := decide (m.fw.devtype s.dev = .ok .net)
  netinfo := m.netinfo
  openFile file := m.openFile { s with file }.boot
  read file := m.read { s with file }.boot
  matchArch := m.matchArch
  low := strdup m.low

/-- One argument, if it is one of the three. -/
def confArg (temp : CStr) (s : Setup) : Option Setup :=
  if strncmpEq temp (cstr "file=") 5 then some { s with file := temp.drop 5 }
  else if strncmpEq temp (cstr "device=") 7 then some { s with dev := temp.drop 7 }
  else if strncmpEq temp (cstr "partition=") 10 then
    some { s with part := (simpleStrtol (temp.drop 10) 10).1 }
  else none

/-- `temp`: up to the space, or everything where there is none. An empty
argument leaves what `temp` starts with. -/
def confTemp (args : CStr) : Option Nat → CStr
  | some 0 => cstr "0"
  | some n => args.take n
  | none => args

/-- The loop over the arguments, `space` being the offset of the space in `args`.
Where it is `NULL` the string at address zero is measured, and continued with. -/
def confArgs (low : CStr) : Nat → CStr → Option Nat → Setup → Setup
  | 0, _, _, s => s
  | loop + 1, args, space, s =>
    let parsed := confArg (confTemp args space) s
    let rest := if parsed.isSome then space.elim low args.drop else low
    if 1 < rest.length then
      confArgs low loop (rest.drop 1) (some ((rest.drop 1).takeWhile (· != 32)).length)
        (parsed.getD s)
    else parsed.getD s

/-- `boot` as the arguments ask for it. -/
def requested (m : Machine) (args : CStr) (s : Setup) : Setup :=
  confArgs (strdup m.low) 3 args (if 32 ∈ args then some (args.takeWhile (· != 32)).length else none)
    s

/-- The command with arguments. -/
def confCommand (m : Machine) (args : CStr) (defpart : Int) (s : Setup) : Setup :=
  let asked := requested m args s
  let load := loadConfigFile (m.files asked) asked.file s.cfg
  let loaded := { asked with
    useconf := load.1.result
    cfg := load.2
    password := if load.1 = .parsed then cfgGetStrgI load.2.tables.options (cstr "password")
      else s.password }
  if 0 < load.1.result then loaded
  else { loaded with file := [], dev := s.dev, part := defpart }

/-- The selection a call settles on, if it gets that far. -/
def settles (w : World) (inp : Input) (st : Statics) : Option Selection :=
  let line := prompt w inp st
  let ready := initrdSetup w line.1 line.2
  if ready.1 then
    let choice := orDefault w ready.2.1 ready.2.2
    let st := remember w choice ready.2.1
    some (select w st (choice.imagename.map fun p => st.string w (some p))
      (choice.args.map fun p => st.string w (some p)))
  else none

/-- The arguments of a `conf` command that is let through. -/
def confLine (w : World) (s : Selection) : Option CStr :=
  let args := s.args.getD w.lowString
  if command (s.imagename.getD w.lowString) = .conf ∧ w.password = none ∧ args ≠ [] then some args
  else none

/-- A call of `get_params`, and the session after it. -/
def getParamsSetup (m : Machine) (s : Setup) (inp : Input) (st : Statics) :
    (Outcome × Statics) × Setup :=
  let w := s.world m
  (getParams w inp st,
    ((settles w inp st).bind fun sel => (confLine w sel).map fun args =>
      confCommand m args sel.defpart s).getD s)

end Yaboot.Prompt
