import Yaboot.Netboot.Config

/-! The search for a configuration against what it is for. A file that fails to
open leaves a negative result, which the callers take for success. -/
namespace Yaboot.Netboot
open CString Cfg

variable {w : World} {st : CfgState} {files more : List CStr} {file boot orig : CStr}

/-- Trying files up to the first result other than zero. -/
def stopFiles (w : World) : List CStr → CfgState → Int × List (CStr × Stage) × CfgState
  | [], st => (0, [], st)
  | file :: rest, st =>
    let load := loadConfigFile w file st
    if load.1.result ≠ 0 then (load.1.result, [(file, load.1)], load.2)
    else
      let tail := stopFiles w rest load.2
      (tail.1, (file, load.1) :: tail.2.1, tail.2.2)

theorem stopFiles_stop (stop : (loadConfigFile w file st).1.result ≠ 0) :
    stopFiles w (file :: files) st = ((loadConfigFile w file st).1.result,
      [(file, (loadConfigFile w file st).1)], (loadConfigFile w file st).2) := if_pos stop

theorem stopFiles_next (next : (loadConfigFile w file st).1.result = 0) :
    stopFiles w (file :: files) st =
      ((stopFiles w files (loadConfigFile w file st).2).1,
        (file, (loadConfigFile w file st).1) :: (stopFiles w files (loadConfigFile w file st).2).2.1,
        (stopFiles w files (loadConfigFile w file st).2).2.2) := if_neg (not_not_intro next)

theorem tryFiles_parsed (parsed : (loadConfigFile w file st).1 = .parsed) :
    tryFiles w (file :: files) st =
      ([(file, (loadConfigFile w file st).1)], (loadConfigFile w file st).2) := if_pos parsed

theorem tryFiles_next (next : (loadConfigFile w file st).1 ≠ .parsed) :
    tryFiles w (file :: files) st =
      ((file, (loadConfigFile w file st).1) :: (tryFiles w files (loadConfigFile w file st).2).1,
        (tryFiles w files (loadConfigFile w file st).2).2) := if_neg next

/-- A file that cannot be opened has a result other than zero. -/
theorem loadConfigFile_unopened (given : (loadConfigFile w file st).1 = .unopened e) : e ≠ 0 := by
  unfold loadConfigFile at given
  dsimp only at given
  split_ifs at given with failed unread unparsed net
  all_goals cases given
  exact failed

theorem result_ne_zero_iff :
    (loadConfigFile w file st).1.result ≠ 0 ↔ (loadConfigFile w file st).1 = .parsed ∨
      ∃ e, (loadConfigFile w file st).1 = .unopened e := by
  cases given : (loadConfigFile w file st).1 with
  | unopened e => simp [Stage.result, loadConfigFile_unopened given]
  | unread => simp [Stage.result]
  | unparsed => simp [Stage.result]
  | parsed => simp [Stage.result]

/-- The last of the files tried stays the last behind another one. -/
theorem last_cons {tried : List (CStr × Stage)}
    (last : tried.getLast?.map Prod.fst = some file) (first : CStr × Stage) :
    (first :: tried).getLast?.map Prod.fst = some file := by
  cases tried with
  | nil => cases last
  | cons second others =>
    rw [List.getLast?_cons_cons]
    exact last

theorem loaded_nil : loaded [] = none := rfl

theorem loaded_cons_parsed (file : CStr) (rest : List (CStr × Stage)) :
    loaded ((file, .parsed) :: rest) = some file := rfl

theorem loaded_cons (other : stage ≠ .parsed) (rest : List (CStr × Stage)) :
    loaded ((file, stage) :: rest) = loaded rest := by
  unfold loaded
  rw [List.find?_cons_of_neg (by simpa using other)]

/-! ### The two ways to try files -/

/-- No file tried fails to open. -/
def Opens (tried : List (CStr × Stage)) : Prop := ∀ file e, (file, Stage.unopened e) ∉ tried

/-- While every file opens, the results tell a file that loads from one that
does not. -/
theorem stopFiles_of_opens (opens : Opens (tryFiles w files st).1) :
    (stopFiles w files st).2 = tryFiles w files st ∧
      ((stopFiles w files st).1 ≠ 0 ↔ (loaded (tryFiles w files st).1).isSome) ∧
      ∀ file, loaded (tryFiles w files st).1 = some file →
        ((tryFiles w files st).1.getLast?).map Prod.fst = some file := by
  induction files generalizing st with
  | nil => exact ⟨rfl, by simp [stopFiles, tryFiles, loaded_nil], by simp [tryFiles, loaded_nil]⟩
  | cons file rest ih =>
    by_cases parsed : (loadConfigFile w file st).1 = .parsed
    · have stop : (loadConfigFile w file st).1.result ≠ 0 := by rw [parsed]; decide
      rw [stopFiles_stop stop, tryFiles_parsed parsed, parsed]
      exact ⟨rfl, by simp [Stage.result, loaded_cons_parsed],
        fun found same => by simpa [loaded_cons_parsed] using same⟩
    · rw [tryFiles_next parsed] at opens
      have next : (loadConfigFile w file st).1.result = 0 := by
        by_contra stop
        rcases result_ne_zero_iff.mp stop with same | ⟨e, unopened⟩
        · exact parsed same
        · exact opens file e (by rw [unopened]; exact List.mem_cons_self)
      obtain ⟨same, result, last⟩ := ih fun file e member =>
        opens file e (List.mem_cons_of_mem _ member)
      rw [stopFiles_next next, tryFiles_next parsed, loaded_cons parsed, same]
      exact ⟨rfl, result, fun found given => last_cons (last found given) _⟩

/-- A file that does not open ends the search as if it had been loaded. -/
theorem stopFiles_of_unopened (unopened : ¬ Opens (tryFiles w files st).1) :
    (stopFiles w files st).1 ≠ 0 ∧ loaded (stopFiles w files st).2.1 = none := by
  induction files generalizing st with
  | nil => exact absurd (fun _ _ => List.not_mem_nil) unopened
  | cons file rest ih =>
    by_cases stop : (loadConfigFile w file st).1.result = 0
    · have other : (loadConfigFile w file st).1 ≠ .parsed := by
        intro parsed
        rw [parsed] at stop
        cases stop
      have closed : ∀ e, (loadConfigFile w file st).1 ≠ .unopened e := fun e same =>
        result_ne_zero_iff.mpr (.inr ⟨e, same⟩) stop
      rw [stopFiles_next stop, loaded_cons other]
      apply ih
      intro opens
      apply unopened
      rw [tryFiles_next other]
      intro name e member
      rcases List.mem_cons.mp member with same | later
      · exact closed e (congrArg Prod.snd same).symm
      · exact opens name e later
    · rw [stopFiles_stop stop]
      rcases result_ne_zero_iff.mp stop with parsed | ⟨e, failed⟩
      · rw [tryFiles_parsed parsed, parsed] at unopened
        refine absurd (fun name e member => ?_) unopened
        cases List.mem_singleton.mp member
      · refine ⟨stop, ?_⟩
        rw [failed, loaded_cons (by simp)]
        rfl

theorem stopFiles_append :
    stopFiles w (files ++ more) st =
      if (stopFiles w files st).1 ≠ 0 then stopFiles w files st
      else
        ((stopFiles w more (stopFiles w files st).2.2).1,
          (stopFiles w files st).2.1 ++ (stopFiles w more (stopFiles w files st).2.2).2.1,
          (stopFiles w more (stopFiles w files st).2.2).2.2) := by
  induction files generalizing st with
  | nil => rfl
  | cons file rest ih =>
    rw [List.cons_append]
    by_cases stop : (loadConfigFile w file st).1.result = 0
    · rw [stopFiles_next stop, stopFiles_next stop, ih]
      split_ifs <;> rfl
    · rw [stopFiles_stop stop, stopFiles_stop stop, if_pos stop]

theorem opens_of_append (opens : Opens (tryFiles w (files ++ more) st).1) :
    Opens (tryFiles w files st).1 := by
  induction files generalizing st with
  | nil => exact fun _ _ => List.not_mem_nil
  | cons file rest ih =>
    rw [List.cons_append] at opens
    by_cases parsed : (loadConfigFile w file st).1 = .parsed
    · rw [tryFiles_parsed parsed] at opens ⊢
      exact opens
    · rw [tryFiles_next parsed] at opens ⊢
      intro name e member
      rcases List.mem_cons.mp member with same | later
      · exact opens name e (same ▸ List.mem_cons_self)
      · exact ih (fun name e member => opens name e (List.mem_cons_of_mem _ member)) name e later

/-! ### The code as a search of that kind -/

/-- The names the loop over the address goes through. -/
def chops : Nat → CStr → List CStr
  | 0, _ => []
  | left + 1, file => file :: chops left (file.take (file.length - 1))

theorem chops_eq (path digits : CStr) (k : Nat) (short : k ≤ digits.length) :
    chops k (path ++ digits.take k) =
      (List.range k).reverse.map fun i => path ++ digits.take (i + 1) := by
  induction k with
  | zero => rfl
  | succ k ih =>
    have chopped : (path ++ digits.take (k + 1)).take ((path ++ digits.take (k + 1)).length - 1) =
        path ++ digits.take k := by
      rw [List.length_append, List.length_take, Nat.min_eq_left short, Nat.add_sub_assoc (by omega),
        List.take_length_add_append, List.take_take]
      simp
    rw [chops, chopped, ih (by omega), List.range_succ, List.reverse_append]
    rfl

/-- A search keeps the name it stopped at. -/
structure StopsLike (s : Searched) (run : Int × List (CStr × Stage) × CfgState) : Prop where
  rc : s.rc = run.1
  tried : s.tried = run.2.1
  st : s.st = run.2.2
  file : s.rc ≠ 0 → s.tried.getLast?.map Prod.fst = some s.file

theorem chopLoop_stops (w : World) (left : Nat) (file : CStr) (st : CfgState) :
    StopsLike (chopLoop w left file st) (stopFiles w (chops left file) st) := by
  induction left generalizing file st with
  | zero => exact ⟨rfl, rfl, rfl, fun stop => absurd rfl stop⟩
  | succ left ih =>
    obtain ⟨rc, tried, state, name⟩ :=
      ih (file.take (file.length - 1)) (loadConfigFile w file st).2
    unfold chopLoop chops
    dsimp only
    by_cases next : (loadConfigFile w file st).1.result = 0
    · rw [if_neg (not_not_intro next), stopFiles_next next]
      exact ⟨rc, congrArg _ tried, state, fun stop => last_cons (name stop) _⟩
    · rw [if_pos next, stopFiles_stop next]
      exact ⟨rfl, rfl, rfl, fun _ => rfl⟩

theorem hex_length (width n : Nat) : (hex width n).length = width := by
  induction width generalizing n with
  | zero => rfl
  | succ width ih => rw [hex, List.length_append, ih, List.length_singleton]

/-- The search on the network goes through the candidates. -/
theorem loadMyConfigFile_stops (net : w.net = true) (orig : CStr) (st : CfgState) :
    StopsLike (loadMyConfigFile w orig st) (stopFiles w (candidates w) st) ∧
      ((loadMyConfigFile w orig st).rc = 0 → (loadMyConfigFile w orig st).file = orig) := by
  unfold loadMyConfigFile candidates
  rw [net]
  cases w.netinfo with
  | none => exact ⟨⟨rfl, rfl, rfl, fun stop => absurd rfl stop⟩, fun _ => rfl⟩
  | some packet =>
    dsimp only
    obtain ⟨mine, named⟩ : ∃ mine, mine =
        w.cfgpath ++ hex 2 packet.htype.toNat ++ cstr "-" ++ promGetMac packet := ⟨_, rfl⟩
    rw [← named]
    have digits : (promGetIp packet).length = 8 := hex_length _ _
    have names : [8, 7, 6, 5, 4, 3, 2, 1].map (fun k => w.cfgpath ++ (promGetIp packet).take k) =
        chops 8 (w.cfgpath ++ promGetIp packet) := by
      have chopped := chops_eq w.cfgpath (promGetIp packet) 8 (by omega)
      rw [List.take_of_length_le (by omega)] at chopped
      rw [chopped]
      rfl
    have count : (w.cfgpath ++ promGetIp packet).length - w.cfgpath.length = 8 := by
      rw [List.length_append, digits]
      omega
    rw [names, count]
    by_cases next : (loadConfigFile w mine st).1.result = 0
    · rw [if_neg (not_not_intro next), stopFiles_next next]
      obtain ⟨rc, tried, state, name⟩ := chopLoop_stops w 8 (w.cfgpath ++ promGetIp packet)
        (loadConfigFile w mine st).2
      refine ⟨⟨rc, congrArg _ tried, state, fun stop => ?_⟩,
        fun none => if_neg (not_not_intro none)⟩
      dsimp only
      rw [if_pos stop]
      exact last_cons (name stop) _
    · rw [if_pos next, stopFiles_stop next]
      exact ⟨⟨rfl, rfl, rfl, fun _ => rfl⟩, fun zero => absurd zero next⟩

/-- The search ends with the first candidate whose open does not fail, or with the one from
`boot`. -/
theorem chooseConfig_stops (w : World) (boot : CStr) (st : CfgState) :
    (chooseConfig w boot st).rc = (stopFiles w (candidates w ++ [boot]) st).1 ∧
      (chooseConfig w boot st).tried = (stopFiles w (candidates w ++ [boot]) st).2.1 := by
  have last : ∀ st, (loadConfigFile w boot st).1.result = (stopFiles w [boot] st).1 ∧
      [(boot, (loadConfigFile w boot st).1)] = (stopFiles w [boot] st).2.1 := by
    intro st
    by_cases next : (loadConfigFile w boot st).1.result = 0
    · rw [stopFiles_next next]
      exact ⟨next, rfl⟩
    · rw [stopFiles_stop next]
      exact ⟨rfl, rfl⟩
  rw [stopFiles_append]
  unfold chooseConfig
  dsimp only
  by_cases net : w.net = true
  · obtain ⟨⟨rc, tried, state, -⟩, kept⟩ := loadMyConfigFile_stops net boot st
    rw [if_pos net, rc]
    by_cases none : (stopFiles w (candidates w) st).1 = 0
    · rw [if_pos none, if_neg (not_not_intro none), kept (rc.trans none), state, tried]
      exact ⟨(last _).1, by rw [(last _).2]⟩
    · rw [if_neg none, if_pos none]
      exact ⟨rc, tried⟩
  · have no : candidates w = [] := by
      unfold candidates
      rw [Bool.not_eq_true] at net
      rw [net]
    have start : ¬ (stopFiles w [] st).1 ≠ 0 := not_not_intro rfl
    rw [if_neg net, no, if_pos rfl, if_neg start]
    exact last st

/-! ### The whole search -/

theorem findsMine_of_opens (net : w.net = true) (opens : Opens (tryFiles w (candidates w) st).1) :
    FindsMine w orig st := by
  obtain ⟨⟨rc, tried, -, name⟩, kept⟩ := loadMyConfigFile_stops net orig st
  obtain ⟨same, result, last⟩ := stopFiles_of_opens opens
  refine ⟨by rw [tried, same], by rw [rc]; exact result, ?_⟩
  cases found : loaded (tryFiles w (candidates w) st).1 with
  | none =>
    rw [found] at result
    exact kept (rc.trans (not_not.mp fun stop => by simpa using result.mp stop))
  | some file =>
    rw [found] at result
    have stop := name (by rw [rc]; exact result.mpr rfl)
    rw [tried, same, last file found] at stop
    exact (Option.some.inj stop).symm

/-- The search for a configuration on the server tries the names from the whole address down and
keeps the first that is there, exactly when none of the files it has to try fails to open: such a
failure is taken for success. -/
theorem chooseConfig_iff (w : World) (boot : CStr) (st : CfgState) :
    Chooses w boot st ↔ AllOpen w boot st := by
  obtain ⟨rc, tried⟩ := chooseConfig_stops w boot st
  constructor
  · intro right
    by_contra failed
    obtain ⟨stop, nothing⟩ := stopFiles_of_unopened failed
    have found := right.useconf.mp (by rw [rc]; exact stop)
    rw [tried, nothing] at found
    cases found
  · intro opens
    obtain ⟨same, result, -⟩ := stopFiles_of_opens opens
    refine ⟨fun net => findsMine_of_opens net (opens_of_append opens), by rw [tried, same], ?_⟩
    rw [rc, tried, same]
    exact result

/-- A machine with the address 192.168.0.1 whose server has one file, named after
the first four digits. -/
def netWorld : World where
  etc := true
  net := true
  netinfo := some ⟨1, 6, 0xc0a80001, fun i => UInt8.ofNat (16 * i)⟩
  openFile file := if file = cstr "/etc/c0a8" then 0 else -8
  read _ := (14, cstr "image=/vmlinux")
  matchArch _ := false
  low := []

/-- There is no file for the hardware address, and the search ends there. -/
theorem mac_file_missing : ¬ Chooses netWorld (cstr "/etc/yaboot.conf") fresh := by
  intro right
  have nothing := right.useconf.mp (by decide)
  exact absurd nothing (by decide)

end Yaboot.Netboot
