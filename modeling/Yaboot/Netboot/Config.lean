import Yaboot.Cfg.Table

/-! Choosing a configuration file in `second/yaboot.c`: `load_config_file`, the
search of `load_my_config_file` for a file of this machine, and what
`yaboot_main` makes of both. Allocation is taken to succeed; what a parsed
configuration has the firmware do (colours, messages, `init-code`) is left out. -/
namespace Yaboot.Netboot
open CString Cfg

/-- The fields of `struct bootp_packet` that are used. `chaddr` goes on into the
rest of the packet. -/
structure Packet where
  htype : UInt8
  hlen : UInt8
  yiaddr : UInt32
  chaddr : Nat → UInt8

/-- The firmware and the files it can reach. -/
structure World where
  /-- `_machine` is chrp or bplan. -/
  etc : Bool
  /-- `prom_get_devtype(boot.dev) == FILE_DEVICE_NET`. -/
  net : Bool
  netinfo : Option Packet
  openFile : CStr → Int
  /-- What `file.fs->read` returns, and what it leaves in the buffer. -/
  read : CStr → Int × List UInt8
  matchArch : CStr → Bool
  low : CStr

def hexDigit (d : Nat) : UInt8 := UInt8.ofNat (if d < 10 then 48 + d else 87 + d)

/-- `sprintf(s, "%02x", n)` of a byte and `sprintf(s, "%08x", n)` of a word: as
many digits as the type has. -/
def hex : Nat → Nat → CStr
  | 0, _ => []
  | width + 1, n => hex width (n / 16) ++ [hexDigit (n % 16)]

/-- `prom_get_mac`. -/
def promGetMac (p : Packet) : CStr :=
  hex 2 (p.chaddr 0).toNat ++
    (List.range' 1 (p.hlen.toNat - 1)).flatMap fun i => cstr "-" ++ hex 2 (p.chaddr i).toNat

/-- `prom_get_ip`. -/
def promGetIp (p : Packet) : CStr := hex 8 p.yiaddr.toNat

/-- `cfg_set_default_by_mac`. -/
def cfgSetDefaultByMac (low : CStr) (mac : Option CStr) (t : Tables) : Tables :=
  let haslabel := t.images.any fun p =>
    deref low (cfgGetStrgI p.table (cstr "label")) == deref low mac
  if haslabel then
    { t with
      options := t.options.map fun walk =>
        if strcasecmpEq walk.name (cstr "default") then { walk with data := mac } else walk }
  else t

/-! ### `load_config_file` -/

/-- How far `load_config_file` gets with a file. -/
inductive Stage where
  | unopened (result : Int)
  | unread
  | unparsed
  | parsed
  deriving DecidableEq, Repr

/-- The value of `result` it returns then. -/
def Stage.result : Stage → Int
  | .unopened result => result
  | .unread => 0
  | .unparsed => 0
  | .parsed => 1

def loadConfigFile (w : World) (file : CStr) (st : CfgState) : Stage × CfgState :=
  let result := w.openFile file
  if result ≠ 0 then (.unopened result, st)
  else
    let (sz, confFile) := w.read file
    if sz ≤ 0 then (.unread, st)
    else
      let (status, st) := cfgParse w.matchArch (confFile.take sz.toNat) st
      if status < 0 then (.unparsed, st)
      else if w.net then
        (.parsed, { st with
          tables := cfgSetDefaultByMac w.low (w.netinfo.map promGetMac) st.tables })
      else (.parsed, st)

/-! ### `load_my_config_file` -/

/-- A search as it goes: the result, `orig_fspec->file` afterwards, the files
tried with what became of each, and the configuration. -/
structure Searched where
  rc : Int
  file : CStr
  tried : List (CStr × Stage)
  st : CfgState

def World.cfgpath (w : World) : CStr := if w.etc then cstr "/etc/" else []

/-- The loop that chops one digit after the other off the name, with so many to
go. -/
def chopLoop (w : World) : Nat → CStr → CfgState → Searched
  | 0, file, st => ⟨0, file, [], st⟩
  | left + 1, file, st =>
    let (stage, st) := loadConfigFile w file st
    if stage.result ≠ 0 then ⟨stage.result, file, [(file, stage)], st⟩
    else
      let rest := chopLoop w left (file.take (file.length - 1)) st
      { rest with tried := (file, stage) :: rest.tried }

def loadMyConfigFile (w : World) (orig : CStr) (st : CfgState) : Searched :=
  match w.netinfo with
  | none => ⟨0, orig, [], st⟩
  | some packet =>
    let file := w.cfgpath ++ hex 2 packet.htype.toNat ++ cstr "-" ++ promGetMac packet
    let (stage, st) := loadConfigFile w file st
    if stage.result ≠ 0 then ⟨stage.result, file, [(file, stage)], st⟩
    else
      let ip := w.cfgpath ++ promGetIp packet
      let rest := chopLoop w (ip.length - w.cfgpath.length) ip st
      { rest with
        tried := (file, stage) :: rest.tried
        file := if rest.rc ≠ 0 then rest.file else orig }

/-! ### `yaboot_main` -/

/-- The part of `yaboot_main` that sets `useconf`, which is `rc` here. -/
def chooseConfig (w : World) (boot : CStr) (st : CfgState) : Searched :=
  let useconf := if w.net then loadMyConfigFile w boot st else ⟨0, boot, [], st⟩
  if useconf.rc = 0 then
    let (stage, st) := loadConfigFile w useconf.file useconf.st
    ⟨stage.result, useconf.file, useconf.tried ++ [(useconf.file, stage)], st⟩
  else useconf

/-! ### What the search is for -/

/-- The names a configuration of this machine may have, best first. -/
def candidates (w : World) : List CStr :=
  match w.net, w.netinfo with
  | true, some packet =>
    (w.cfgpath ++ hex 2 packet.htype.toNat ++ cstr "-" ++ promGetMac packet) ::
      [8, 7, 6, 5, 4, 3, 2, 1].map fun k => w.cfgpath ++ (promGetIp packet).take k
  | _, _ => []

/-- Trying files in order up to the first one that can be loaded. -/
def tryFiles (w : World) : List CStr → CfgState → List (CStr × Stage) × CfgState
  | [], st => ([], st)
  | file :: rest, st =>
    let (stage, st) := loadConfigFile w file st
    if stage = .parsed then ([(file, stage)], st)
    else
      let (tried, st) := tryFiles w rest st
      ((file, stage) :: tried, st)

/-- The file that was loaded, if any. -/
def loaded (tried : List (CStr × Stage)) : Option CStr :=
  (tried.find? fun t => t.2 == .parsed).map Prod.fst

/-- What is asked of the search on the network: the candidates are tried in
order, the first that loads ends it, the result tells whether there was one, and
only then does the name of the file change. -/
structure FindsMine (w : World) (orig : CStr) (st : CfgState) : Prop where
  tried : (loadMyConfigFile w orig st).tried = (tryFiles w (candidates w) st).1
  result : (loadMyConfigFile w orig st).rc ≠ 0 ↔
    (loaded (tryFiles w (candidates w) st).1).isSome
  file : (loadMyConfigFile w orig st).file =
    (loaded (tryFiles w (candidates w) st).1).getD orig

/-- What is asked of the whole: the file named in `boot` comes after the
candidates, and `useconf` tells whether a configuration was parsed. -/
structure Chooses (w : World) (boot : CStr) (st : CfgState) : Prop where
  mine : w.net → FindsMine w boot st
  tried : (chooseConfig w boot st).tried = (tryFiles w (candidates w ++ [boot]) st).1
  useconf : (chooseConfig w boot st).rc ≠ 0 ↔ (loaded (chooseConfig w boot st).tried).isSome

/-- None of the files the search has to try fails to open. -/
def AllOpen (w : World) (boot : CStr) (st : CfgState) : Prop :=
  ∀ file e, (file, Stage.unopened e) ∉ (tryFiles w (candidates w ++ [boot]) st).1

end Yaboot.Netboot
