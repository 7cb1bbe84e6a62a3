import Mathlib.Algebra.Order.BigOperators.Group.List
import Yaboot.Fs.Handles
import Yaboot.Fs.ProbeProofs

/-! Which devices are still open when `open_file` returns. -/
namespace Yaboot.Fs.Handles
open Buffer CString Word

/-! ### The calls traced are those of `open_file` -/

section Erasure
variable {w : World} {part : Option Partition} {fspec : Fspec}

/-- What a traced routine returns, without its trace. -/
def bare (r : FileErr × Traced) : FileErr × File := (r.1, r.2.file)

theorem bare_swapOpen (t : Traced) :
    bare (swapOpen (fun _ => w) part fspec t) = Fs.swapOpen w part fspec t.file := by
  cases part with
  | none => rfl
  | some p =>
    by_cases kind : t.file.deviceKind ≠ .block
    · simp [swapOpen, Fs.swapOpen, bare, kind]
    by_cases null : w.promOpen (w.wholeDisk fspec) = .null
    · simp [swapOpen, Fs.swapOpen, bare, kind, null, Traced.promOpen, Traced.now]
    by_cases room : w.malloc (p.blocksize * 2)
    · by_cases found : findSignature w (w.promOpen (w.wholeDisk fspec)) p signatures w.heap <;>
        simp [swapOpen, Fs.swapOpen, bare, kind, null, room, found, Traced.promOpen, Traced.now]
    · simp [swapOpen, Fs.swapOpen, bare, kind, null, room, Traced.promOpen, Traced.now]

/-- Without its trace, `ext2_open` is the one that was defined before. -/
theorem bare_ext2Open (t : Traced) :
    bare (ext2Open (fun _ => w) part fspec t) = Fs.ext2Open w part fspec t.file := by
  by_cases busy : t.file.opened
  · simp [ext2Open, Fs.ext2Open, bare, busy]
  by_cases kind : t.file.deviceKind ≠ .block ∧ t.file.deviceKind ≠ .iscsi
  · simp [ext2Open, Fs.ext2Open, bare, busy, kind]
  by_cases invalid : w.promOpen (w.wholeDisk fspec) = .invalid
  · simp [ext2Open, Fs.ext2Open, bare, busy, kind, invalid, Traced.promOpen, Traced.now]
  simp only [ext2Open, Fs.ext2Open, busy, kind, invalid, Traced.promOpen, Traced.now, if_false,
    Bool.false_eq_true]
  cases w.ext2fsOpen (w.promOpen (w.wholeDisk fspec)) ((part.map Partition.offset).getD 0)
      ((part.map Partition.behind).getD 0) with
  | none => rfl
  | some blocksize =>
    by_cases room : w.malloc (blocksize * 2)
    · cases w.nameiFollow (w.promOpen (w.wholeDisk fspec))
        ((part.map Partition.offset).getD 0) fspec.file <;> simp [bare, room, Traced.promClose]
    · simp [bare, room, Traced.promClose]

theorem bare_openAt (offset : Nat) (mount : World → Handle → Nat → Bool)
    (openFile : World → Handle → Nat → Option CStr → Bool × FileErr) (t : Traced) :
    bare (openAt (fun _ => w) fspec offset mount openFile t) =
      Fs.openAt w fspec offset (mount w) (openFile w) t.file := by
  by_cases bad : w.promOpen (w.wholeDisk fspec) = .invalid ∨ w.promOpen (w.wholeDisk fspec) = .null
  · simp [openAt, Fs.openAt, bare, bad, Traced.promOpen, Traced.now]
  by_cases mounted : mount w (w.promOpen (w.wholeDisk fspec)) offset
  · by_cases success : (openFile w (w.promOpen (w.wholeDisk fspec)) offset fspec.file).1 <;>
      simp [openAt, Fs.openAt, bare, bad, mounted, success, Traced.promOpen, Traced.promClose,
        Traced.now]
  · simp [openAt, Fs.openAt, bare, bad, mounted, Traced.promOpen, Traced.promClose, Traced.now]

theorem bare_ofOpen (t : Traced) :
    bare (ofOpen (fun _ => w) part fspec t) = Fs.ofOpen w part fspec t.file := by
  by_cases linux : part.any fun p => p.sysInd == linuxRaid || p.sysInd == linuxNative
  · simp only [ofOpen, Fs.ofOpen, linux, if_true]
    rfl
  by_cases bad : w.promOpen (ofPath part fspec) = .invalid ∨ w.promOpen (ofPath part fspec) = .null
  · simp only [ofOpen, Fs.ofOpen, linux, bad, Traced.promOpen, Traced.now, if_true]
    rfl
  · simp only [ofOpen, Fs.ofOpen, linux, bad, Traced.promOpen, Traced.now, if_false]
    rfl

theorem bare_open (fs : Driver) (t : Traced) :
    bare (open_ (fun _ => w) part fspec fs t) = fs.open_ w part fspec t.file := by
  cases fs with
  | swap => exact bare_swapOpen t
  | ext2 => exact bare_ext2Open t
  | xfs => exact bare_openAt _ _ _ t
  | reiserfs => exact bare_openAt _ _ _ t
  | of => exact bare_ofOpen t

/-- A search without its trace. -/
def Probed.bare (p : Probed) : Fs.Probed := ⟨p.driver, p.fserrorno, p.after.file⟩

theorem bare_probe (drivers : List Driver) (e : FileErr) (t : Traced) :
    (probe (fun _ => w) part fspec drivers e t).bare = Fs.probe w part fspec drivers e t.file := by
  induction drivers generalizing e t with
  | nil => rfl
  | cons fs rest ih =>
    have opened : bare (open_ (fun _ => w) part fspec fs t) = fs.open_ w part fspec t.file :=
      bare_open fs t
    obtain ⟨result, file⟩ := Prod.ext_iff.mp opened
    unfold probe Fs.probe
    dsimp only [bare] at result file ⊢
    rw [← result, ← file]
    split_ifs
    · rfl
    · exact ih _ _

theorem bare_fsOpen (t : Traced) :
    (fsOpen (fun _ => w) part fspec t).bare = Fs.fsOpen w part fspec t.file :=
  bare_probe _ _ _

/-- Without its trace, so is the search through the partitions. -/
theorem bare_scanPartitions (w : World) (fspec : Fspec) (partition : Int) (parts : List Partition) (t : Traced) :
    (scanPartitions (fun _ => w) fspec partition parts t).map Probed.bare
        (Prod.map id Traced.file) =
      Fs.scanPartitions w fspec partition parts t.file := by
  induction parts generalizing t with
  | nil => rfl
  | cons p rest ih =>
    have probed : (fsOpen (fun _ => w) (some p) fspec t).bare =
        Fs.fsOpen w (some p) fspec t.file := bare_fsOpen t
    unfold scanPartitions Fs.scanPartitions
    rw [← probed]
    by_cases search : partition = -1
    · by_cases next : (fsOpen (fun _ => w) (some p) fspec t).driver.isNone ∨
          (fsOpen (fun _ => w) (some p) fspec t).fserrorno ≠ .ok
      · rw [if_pos search, if_pos search]
        dsimp only [Probed.bare]
        rw [if_pos next, if_pos next]
        exact ih _
      · rw [if_pos search, if_pos search]
        dsimp only [Probed.bare]
        rw [if_neg next, if_neg next]
        rfl
    · rw [if_neg search, if_neg search]
      by_cases this : partition = p.partNumber
      · rw [if_pos this, if_pos this]
        rfl
      · rw [if_neg this, if_neg this]
        exact ih t

theorem fileBlockOpen_eq (w : History) (fspec : Fspec) (partition : Int) (t : Traced) :
    fileBlockOpen w fspec partition t =
      (scanPartitions w fspec partition (partitionsLookup w fspec.dev t).1
        (partitionsLookup w fspec.dev t).2).elim id fun r => fsOpen w r.1 fspec r.2 := by
  unfold fileBlockOpen
  rcases partitionsLookup w fspec.dev t with ⟨parts, t⟩
  dsimp only
  rcases scanPartitions w fspec partition parts t with probed | ⟨found, t⟩ <;> rfl

/-- Where the world does not change, the traced search is that of `open_file`. -/
theorem bare_fileBlockOpen (partition : Int) (t : Traced) :
    (fileBlockOpen (fun _ => w) fspec partition t).bare =
      Fs.fileBlockOpen w fspec partition t.file := by
  have scan := bare_scanPartitions w fspec partition
    (partitionsLookup (fun _ => w) fspec.dev t).1 (partitionsLookup (fun _ => w) fspec.dev t).2
  change _ = Fs.scanPartitions w fspec partition (w.partitionsLookup fspec.dev) t.file at scan
  rw [fileBlockOpen_eq, Fs.fileBlockOpen, ← scan]
  rcases scanPartitions (fun _ => w) fspec partition (partitionsLookup (fun _ => w) fspec.dev t).1
      (partitionsLookup (fun _ => w) fspec.dev t).2 with probed | ⟨found, t⟩
  · rfl
  · exact bare_fsOpen t

end Erasure

/-! ### Open devices -/

section Accounts
variable {w : History} {part : Option Partition} {fspec : Fspec} {t : Traced} {hs : List Nat}

@[simp] theorem held_append (log calls : Log) :
    held (log ++ calls) = calls.foldl heldAfter (held log) :=
  List.foldl_append ..

theorem held_promOpen_device (w : History) (name : CStr) (start : held t.log = some hs) (id : Nat)
    (opened : (t.promOpen w name).file.ofDevice = .device id) :
    held (t.promOpen w name).log = some (id :: hs) := by
  have handle : (t.now w).promOpen name = .device id := opened
  simp [Traced.promOpen, handle, start, heldAfter]

theorem held_promOpen_other (w : History) (name : CStr) (start : held t.log = some hs)
    (opened : ¬ ∃ id, (t.promOpen w name).file.ofDevice = .device id) :
    held (t.promOpen w name).log = some hs := by
  have handle : ¬ ∃ id, (t.now w).promOpen name = .device id := opened
  rcases h : (t.now w).promOpen name with _ | _ | id
  · simp [Traced.promOpen, h, start, heldAfter]
  · simp [Traced.promOpen, h, start, heldAfter]
  · exact absurd ⟨id, h⟩ handle

theorem held_passed (h : Handle) {log : Log} (start : held log = some hs) :
    held (log ++ [.opened h] ++ [.closed h]) = some hs := by
  cases h <;> simp [start, heldAfter]

theorem held_promClose (w : History) (name : CStr) (start : held t.log = some hs) :
    held (t.promOpen w name).promClose.log = some hs :=
  held_passed _ start

/-- The opposite of `Balanced`, as it is carried through a run: devices are left open, or
the file that was opened has none. -/
def Unbalanced (before : List Nat) (result : FileErr × Traced) : Prop :=
  ∃ after, held result.2.log = some after ∧ before.length ≤ after.length ∧
    (result.1 ≠ .ok → before.length < after.length) ∧
    (result.1 = .ok → before.length + 1 < after.length ∨
      ∀ id, result.2.file.ofDevice = .device id → id ∉ after)

theorem Unbalanced.not_balanced {result : FileErr × Traced} (left : Unbalanced hs result) :
    ¬ Balanced hs result := by
  intro balanced
  obtain ⟨after, open_, -, error, success⟩ := left
  by_cases ok : result.1 = .ok
  · obtain ⟨id, device, kept⟩ := balanced.success ok
    obtain rfl : after = id :: hs := Option.some.inj (open_.symm.trans kept)
    rcases success ok with longer | closed
    · simp at longer
    · exact closed id device List.mem_cons_self
  · obtain rfl : after = hs := Option.some.inj (open_.symm.trans (balanced.error ok))
    exact absurd (error ok) (lt_irrefl _)

theorem Unbalanced.mono {result : FileErr × Traced} {fewer : List Nat}
    (left : Unbalanced hs result) (le : fewer.length ≤ hs.length) : Unbalanced fewer result := by
  obtain ⟨after, open_, grown, error, success⟩ := left
  exact ⟨after, open_, by omega, fun e => by have := error e; omega,
    fun e => (success e).imp_left fun longer => by omega⟩

theorem Balanced.unbalanced {result : FileErr × Traced} {fewer : List Nat}
    (balanced : Balanced hs result) (lt : fewer.length < hs.length) :
    Unbalanced fewer result := by
  by_cases ok : result.1 = .ok
  · obtain ⟨id, -, kept⟩ := balanced.success ok
    exact ⟨_, kept, by simp; omega, fun e => absurd ok e, fun _ => .inl (by simpa using lt)⟩
  · exact ⟨_, balanced.error ok, lt.le, fun _ => lt, fun e => absurd e ok⟩

/-- A run whose driver calls all keep the balance is balanced, and one with a call
that does not is not. -/
def Accounted (w : History) (fspec : Fspec) (before : List Nat) (calls : List DriverCall)
    (result : FileErr × Traced) : Prop :=
  ((∀ call ∈ calls, ¬ call.Leaks w fspec) ∧ Balanced before result) ∨
    ((∃ call ∈ calls, call.Leaks w fspec) ∧ Unbalanced before result)

theorem Accounted.balanced_iff {calls : List DriverCall} {result : FileErr × Traced}
    (run : Accounted w fspec hs calls result) :
    Balanced hs result ↔ ∀ call ∈ calls, ¬ call.Leaks w fspec := by
  rcases run with ⟨none, balanced⟩ | ⟨⟨call, mem, leaks⟩, left⟩
  · exact ⟨fun _ => none, fun _ => balanced⟩
  · exact ⟨fun balanced => absurd balanced left.not_balanced,
      fun none => absurd leaks (none call mem)⟩

theorem Accounted.nothing {e : FileErr} (error : e ≠ .ok) (start : held t.log = some hs) :
    Accounted w fspec hs [] (e, t) :=
  .inl ⟨by simp, fun _ => start, fun ok => absurd ok error⟩

/-- After a failure the next calls start from the devices left open. -/
theorem Accounted.append {calls more : List DriverCall} {r s : FileErr × Traced}
    (first : Accounted w fspec hs calls r) (error : r.1 ≠ .ok)
    (next : ∀ hs', held r.2.log = some hs' → Accounted w fspec hs' more s) :
    Accounted w fspec hs (calls ++ more) s := by
  rcases first with ⟨none, balanced⟩ | ⟨⟨call, mem, leaks⟩, after, open_, -, grown, -⟩
  · rcases next hs (balanced.error error) with ⟨none', balanced'⟩ | ⟨⟨call, mem, leaks⟩, left⟩
    · refine .inl ⟨fun call mem => ?_, balanced'⟩
      rcases List.mem_append.mp mem with mem | mem
      · exact none call mem
      · exact none' call mem
    · exact .inr ⟨⟨call, List.mem_append_right _ mem, leaks⟩, left⟩
  · refine .inr ⟨⟨call, List.mem_append_left _ mem, leaks⟩, ?_⟩
    rcases next after open_ with ⟨-, balanced'⟩ | ⟨-, left⟩
    · exact balanced'.unbalanced (grown error)
    · exact left.mono (grown error).le

/-! ### The drivers -/

theorem Accounted.kept {call : DriverCall} {r : FileErr × Traced}
    (fine : ¬ call.Leaks w fspec) (balanced : Balanced hs r) : Accounted w fspec hs [call] r :=
  .inl ⟨by simpa using fine, balanced⟩

theorem Accounted.leaked {call : DriverCall} {r : FileErr × Traced}
    (leaks : call.Leaks w fspec) (left : Unbalanced hs r) : Accounted w fspec hs [call] r :=
  .inr ⟨⟨call, List.mem_singleton_self _, leaks⟩, left⟩

theorem Balanced.failed {e : FileErr} (error : e ≠ .ok) (start : held t.log = some hs) :
    Balanced hs (e, t) :=
  ⟨fun _ => start, fun ok => absurd ok error⟩

/-- `swap_open` keeps the balance unless it lacks memory for its buffer or finds swap space. -/
theorem swapOpen_accounted (start : held t.log = some hs) :
    Accounted w fspec hs [⟨part, .swap, t⟩] (swapOpen w part fspec t) := by
  cases part with
  | none => exact .kept (by simp [DriverCall.Leaks]) (.failed (by decide) start)
  | some p =>
    by_cases kind : t.file.deviceKind = .block
    swap
    · have run : swapOpen w (some p) fspec t = (.badDev, t) := by simp [swapOpen, kind]
      rw [run]
      exact .kept (by simp [DriverCall.Leaks, kind]) (.failed (by decide) start)
    have closed := held_promClose w ((t.now w).wholeDisk fspec) start
    generalize opening : t.promOpen w ((t.now w).wholeDisk fspec) = opened at closed
    by_cases null : opened.file.ofDevice = .null
    · have run : swapOpen w (some p) fspec t = (.ioErr, opened) := by
        simp [swapOpen, kind, opening, null]
      rw [run]
      refine .kept (by simp [DriverCall.Leaks, opening, null]) (.failed (by decide) ?_)
      rw [← opening] at null ⊢
      exact held_promOpen_other w _ start (by simp [null])
    by_cases fine : (opened.now w).malloc (p.blocksize * 2) ∧
        ¬ findSignature (opened.now w) opened.file.ofDevice p signatures (opened.now w).heap
    · have run : swapOpen w (some p) fspec t =
          (.badFsys, { opened.promClose with file := { opened.file with ofDevice := .null } }) := by
        simp [swapOpen, kind, opening, null, fine.1, fine.2]
      rw [run]
      exact .kept (by simp [DriverCall.Leaks, opening, fine]) (.failed (by decide) closed)
    · obtain ⟨e, error, run⟩ : ∃ e, e ≠ .ok ∧ swapOpen w (some p) fspec t = (e, opened) := by
        by_cases room : (opened.now w).malloc (p.blocksize * 2)
        · exact ⟨.notFound, by decide, by
            simp [swapOpen, kind, opening, null, room, not_and_not_right.mp fine room]⟩
        · exact ⟨.noMem, by decide, by simp [swapOpen, kind, opening, null, room]⟩
      rw [run]
      by_cases device : ∃ id, opened.file.ofDevice = .device id
      · obtain ⟨id, handle⟩ := device
        refine .leaked ⟨kind, ⟨id, by simp only [opening, handle]⟩, p, rfl, ?_⟩ ?_
        · dsimp only
          rw [opening, ← Bool.not_eq_true, ← imp_iff_not_or]
          exact fun room => not_and_not_right.mp fine room
        · refine ⟨id :: hs, ?_, by simp, fun _ => by simp, fun ok => absurd ok error⟩
          rw [← opening] at handle ⊢
          exact held_promOpen_device w _ start id handle
      · refine .kept (by simpa [DriverCall.Leaks, opening] using fun _ id h => absurd ⟨id, h⟩ device)
          (.failed error ?_)
        rw [← opening] at device ⊢
        exact held_promOpen_other w _ start device

/-- `ext2_open` keeps the balance unless it succeeds on a null device. -/
theorem ext2Open_accounted (start : held t.log = some hs) :
    Accounted w fspec hs [⟨part, .ext2, t⟩] (ext2Open w part fspec t) := by
  by_cases busy : t.file.opened
  · have run : ext2Open w part fspec t = (.fsBusy, t) := by simp [ext2Open, busy]
    rw [run]
    exact .kept (by simp [DriverCall.Leaks, busy]) (.failed (by decide) start)
  by_cases kind : t.file.deviceKind ≠ .block ∧ t.file.deviceKind ≠ .iscsi
  · have run : ext2Open w part fspec t = (.badDev, t) := by simp [ext2Open, busy, kind]
    rw [run]
    exact .kept (by simp [DriverCall.Leaks, kind]) (.failed (by decide) start)
  have closed := held_promClose w ((t.now w).wholeDisk fspec) start
  have device := held_promOpen_device w ((t.now w).wholeDisk fspec) start
  have other := held_promOpen_other w ((t.now w).wholeDisk fspec) start
  generalize opening : t.promOpen w ((t.now w).wholeDisk fspec) = opened at closed device other
  by_cases invalid : opened.file.ofDevice = .invalid
  · have run : ext2Open w part fspec t = (.ioErr, opened) := by
      simp [ext2Open, busy, kind, opening, invalid]
    rw [run]
    exact .kept (by simp [DriverCall.Leaks, opening, invalid])
      (.failed (by decide) (other (by simp [invalid])))
  rcases volume : (opened.now w).ext2fsOpen opened.file.ofDevice
      ((part.map Partition.offset).getD 0) ((part.map Partition.behind).getD 0) with _ | blocksize
  · have run : ext2Open w part fspec t = (.badFsys, opened.promClose) := by
      simp [ext2Open, busy, kind, opening, invalid, volume]
    rw [run]
    refine .kept ?_ (.failed (by decide) closed)
    simp [DriverCall.Leaks, opening, volume]
  by_cases found : (opened.now w).malloc (blocksize * 2) = true ∧ (opened.now w).nameiFollow
      opened.file.ofDevice ((part.map Partition.offset).getD 0) fspec.file = .found
  · have run : ext2Open w part fspec t =
        (.ok, { opened with file := { opened.file with pos := 0, opened := true } }) := by
      simp [ext2Open, busy, kind, opening, invalid, volume, found.1, found.2]
    rw [run]
    rcases handle : opened.file.ofDevice with _ | _ | id
    · refine .leaked ?_ ⟨hs, other (by simp [handle]), le_rfl, fun e => absurd rfl e, fun _ => ?_⟩
      · refine ⟨by simpa using busy, ?_, ?_, ?_, blocksize, ?_, ?_⟩
        · dsimp only
          tauto
        · simp only [opening, handle]
        · simp only [opening, found.2]
        · simp only [opening, volume]
        · simp only [opening, found.1]
      · simp [handle]
    · exact absurd handle invalid
    · refine .kept (by simp [DriverCall.Leaks, opening, handle]) ⟨fun e => absurd rfl e, fun _ => ?_⟩
      exact ⟨id, handle, device id handle⟩
  · obtain ⟨e, error, run⟩ : ∃ e, e ≠ .ok ∧ ext2Open w part fspec t = (e, opened.promClose) := by
      by_cases room : (opened.now w).malloc (blocksize * 2) = true
      · rcases namei : (opened.now w).nameiFollow opened.file.ofDevice
            ((part.map Partition.offset).getD 0) fspec.file
        · exact absurd ⟨room, namei⟩ found
        · exact ⟨.symlinkLoop, by decide, by
            simp [ext2Open, busy, kind, opening, invalid, volume, room, namei]⟩
        · exact ⟨.notFound, by decide, by
            simp [ext2Open, busy, kind, opening, invalid, volume, room, namei]⟩
        · exact ⟨.ioErr, by decide, by
            simp [ext2Open, busy, kind, opening, invalid, volume, room, namei]⟩
      · exact ⟨.ioErr, by decide, by simp [ext2Open, busy, kind, opening, invalid, volume, room]⟩
    rw [run]
    refine .kept ?_ (.failed error closed)
    rintro ⟨-, -, -, namei, size, volume', room⟩
    dsimp only at namei volume' room
    rw [opening] at namei volume' room
    obtain rfl := Option.some.inj (volume.symm.trans volume')
    exact found ⟨room, namei⟩

/-- `xfs_open` and `reiserfs_open`: only a failure without an error code is not
accounted for. -/
theorem openAt_accounted (fresh : Fresh w) (start : held t.log = some hs) {call : DriverCall}
    (offset : Nat) (mount : World → Handle → Nat → Bool)
    (openFile : World → Handle → Nat → Option CStr → Bool × FileErr)
    (silent : call.Leaks w fspec ↔ FailsSilently
      ((t.promOpen w ((t.now w).wholeDisk fspec)).now w)
      (t.promOpen w ((t.now w).wholeDisk fspec)).file.ofDevice offset fspec mount openFile) :
    Accounted w fspec hs [call] (openAt w fspec offset mount openFile t) := by
  have closed := held_promClose w ((t.now w).wholeDisk fspec) start
  have device := held_promOpen_device w ((t.now w).wholeDisk fspec) start
  have other := held_promOpen_other w ((t.now w).wholeDisk fspec) start
  have new : ∀ id, (t.promOpen w ((t.now w).wholeDisk fspec)).file.ofDevice = .device id → id ∉ hs :=
    fun id handle => fresh _ hs _ id start handle
  generalize opening : t.promOpen w ((t.now w).wholeDisk fspec) = opened
    at closed device other silent new
  by_cases bad : opened.file.ofDevice = .invalid ∨ opened.file.ofDevice = .null
  · have run : openAt w fspec offset mount openFile t = (.badDev, opened) := by
      simp [openAt, opening, bad]
    have none : ¬ ∃ id, opened.file.ofDevice = .device id := by
      rcases bad with bad | bad <;> simp [bad]
    rw [run]
    exact .kept (fun leaks => none (silent.mp leaks).1) (.failed (by decide) (other none))
  obtain ⟨id, handle⟩ : ∃ id, opened.file.ofDevice = .device id := by
    rcases handle : opened.file.ofDevice with _ | _ | id <;> simp_all
  by_cases mounted : mount (opened.now w) opened.file.ofDevice offset
  swap
  · have run : openAt w fspec offset mount openFile t = (.badFsys, opened.promClose) := by
      simp [openAt, opening, bad, mounted]
    rw [run]
    exact .kept (fun leaks => mounted (silent.mp leaks).2.1) (.failed (by decide) closed)
  rcases inner : openFile (opened.now w) opened.file.ofDevice offset fspec.file with
    ⟨success, errnum⟩
  cases success with
  | true =>
    have run : openAt w fspec offset mount openFile t =
        (.ok, { opened with file := { opened.file with pos := 0 } }) := by
      simp [openAt, opening, bad, mounted, inner]
    rw [run]
    refine .kept (fun leaks => ?_) ⟨fun e => absurd rfl e, fun _ => ⟨id, handle, device id handle⟩⟩
    simpa [inner] using (silent.mp leaks).2.2
  | false =>
    have run : openAt w fspec offset mount openFile t = (errnum, opened.promClose) := by
      simp [openAt, opening, bad, mounted, inner]
    rw [run]
    by_cases ok : errnum = .ok
    · subst ok
      refine .leaked (silent.mpr ⟨⟨id, handle⟩, mounted, inner⟩)
        ⟨hs, closed, le_rfl, fun e => absurd rfl e, fun _ => .inr fun id' handle' => ?_⟩
      exact new id' handle'
    · refine .kept (fun leaks => ok ?_) (.failed ok closed)
      exact (Prod.ext_iff.mp (inner.symm.trans (silent.mp leaks).2.2)).2

/-- `of_open` keeps the balance. -/
theorem ofOpen_accounted (start : held t.log = some hs) :
    Accounted w fspec hs [⟨part, .of, t⟩] (ofOpen w part fspec t) := by
  have fine : ¬ (⟨part, .of, t⟩ : DriverCall).Leaks w fspec := id
  by_cases linux : part.any fun p => p.sysInd == linuxRaid || p.sysInd == linuxNative
  · have run : ofOpen w part fspec t = (.badFsys, t) := by
      unfold ofOpen
      rw [if_pos linux]
    rw [run]
    exact .kept fine (.failed (by decide) start)
  have device := held_promOpen_device w (ofPath part fspec) start
  have other := held_promOpen_other w (ofPath part fspec) start
  generalize opening : t.promOpen w (ofPath part fspec) = opened at device other
  by_cases bad : opened.file.ofDevice = .invalid ∨ opened.file.ofDevice = .null
  · have run : ofOpen w part fspec t =
        (.badFsys, { opened with file := { opened.file with pos := 0 } }) := by
      unfold ofOpen
      rw [if_neg linux, opening]
      exact if_pos bad
    rw [run]
    refine .kept fine (.failed (by decide) (other ?_))
    rcases bad with bad | bad <;> simp [bad]
  · have run : ofOpen w part fspec t =
        (.ok, { opened with file := { opened.file with pos := 0 } }) := by
      unfold ofOpen
      rw [if_neg linux, opening]
      exact if_neg bad
    obtain ⟨id, handle⟩ : ∃ id, opened.file.ofDevice = .device id := by
      rcases handle : opened.file.ofDevice with _ | _ | id <;> simp_all
    rw [run]
    exact .kept fine ⟨fun e => absurd rfl e, fun _ => ⟨id, handle, device id handle⟩⟩

theorem open_accounted (fresh : Fresh w) (fs : Driver) (start : held t.log = some hs) :
    Accounted w fspec hs [⟨part, fs, t⟩] (open_ w part fspec fs t) := by
  cases fs with
  | swap => exact swapOpen_accounted start
  | ext2 => exact ext2Open_accounted start
  | xfs => exact openAt_accounted fresh start _ World.xfsMount World.xfsDir Iff.rfl
  | reiserfs =>
    exact openAt_accounted fresh start (reiserfsOffset (t.now w) part fspec)
      World.reiserfsReadSuper World.reiserfsOpenFile Iff.rfl
  | of => exact ofOpen_accounted start

/-! ### The search -/

def Probed.result (p : Probed) : FileErr × Traced := (p.fserrorno, p.after)

theorem probe_accounted (fresh : Fresh w) (drivers : List Driver) {e : FileErr} (error : e ≠ .ok)
    (start : held t.log = some hs) :
    Accounted w fspec hs (probeCalls w part fspec drivers t)
      (probe w part fspec drivers e t).result := by
  induction drivers generalizing e t hs with
  | nil => exact .nothing error start
  | cons fs rest ih =>
    have call : Accounted w fspec hs [⟨part, fs, t⟩] (open_ w part fspec fs t) :=
      open_accounted fresh fs start
    unfold probe probeCalls
    by_cases next : (open_ w part fspec fs t).1 = .badFsys
    · dsimp only
      rw [if_neg (not_not_intro next), if_neg (not_not_intro next)]
      exact call.append (by rw [next]; decide) fun hs' start' => ih (by decide) start'
    · dsimp only
      rw [if_pos next, if_pos next]
      exact call

theorem fsOpen_accounted (fresh : Fresh w) (start : held t.log = some hs) :
    Accounted w fspec hs (probeCalls w part fspec blockFilesystems t)
      (fsOpen w part fspec t).result :=
  probe_accounted (e := .badFsys) fresh blockFilesystems (by decide) start

theorem probe_none (drivers : List Driver) {e : FileErr} (error : e ≠ .ok)
    (none : (probe w part fspec drivers e t).driver.isNone) :
    (probe w part fspec drivers e t).fserrorno ≠ .ok := by
  induction drivers generalizing e t with
  | nil => exact error
  | cons fs rest ih =>
    by_cases next : (open_ w part fspec fs t).1 = .badFsys
    · rw [probe, if_neg (not_not_intro next)] at none ⊢
      exact ih (by decide) none
    · rw [probe, if_pos next] at none
      cases none

/-- What the scan has returned, taken as a failure where it goes on. -/
def scanned : Probed ⊕ (Option Partition × Traced) → FileErr × Traced :=
  Sum.elim Probed.result fun r => (.badFsys, r.2)

/-- The search through the partitions keeps the balance unless one of its calls does not. -/
theorem scanPartitions_accounted (fspec : Fspec) (fresh : Fresh w) (partition : Int) (parts : List Partition)
    (start : held t.log = some hs) :
    Accounted w fspec hs (scanCalls w fspec partition parts t)
      (scanned (scanPartitions w fspec partition parts t)) := by
  induction parts generalizing t hs with
  | nil => exact .nothing (by decide) start
  | cons p rest ih =>
    have probed : Accounted w fspec hs (probeCalls w (some p) fspec blockFilesystems t)
        (fsOpen w (some p) fspec t).result := fsOpen_accounted fresh start
    unfold scanPartitions scanCalls
    by_cases search : partition = -1
    · rw [if_pos search, if_pos search]
      by_cases next : (fsOpen w (some p) fspec t).driver.isNone ∨
          (fsOpen w (some p) fspec t).fserrorno ≠ .ok
      · dsimp only
        rw [if_pos next, if_pos next]
        refine probed.append ?_ fun hs' start' => ih start'
        exact next.elim (probe_none (e := .badFsys) blockFilesystems (by decide)) id
      · dsimp only
        rw [if_neg next, if_neg next, List.append_nil]
        exact probed
    · rw [if_neg search, if_neg search]
      by_cases this : partition = p.partNumber
      · rw [if_pos this, if_pos this]
        exact .nothing (by decide) start
      · rw [if_neg this, if_neg this]
        exact ih start

theorem partitionsLookup_held (w : History) (dev : CStr) (start : held t.log = some hs) :
    held (partitionsLookup w dev t).2.log = some hs :=
  held_passed _ start

theorem blockCalls_eq (w : History) (fspec : Fspec) (partition : Int) (t : Traced) :
    blockCalls w fspec partition t =
      scanCalls w fspec partition (partitionsLookup w fspec.dev t).1
        (partitionsLookup w fspec.dev t).2 ++
        (scanPartitions w fspec partition (partitionsLookup w fspec.dev t).1
          (partitionsLookup w fspec.dev t).2).elim (fun _ => [])
          fun r => probeCalls w r.1 fspec blockFilesystems r.2 := by
  unfold blockCalls
  rcases partitionsLookup w fspec.dev t with ⟨parts, t⟩
  dsimp only
  rcases scanPartitions w fspec partition parts t with probed | ⟨found, t⟩ <;> rfl

theorem fileBlockOpen_accounted (fresh : Fresh w) (partition : Int)
    (start : held t.log = some hs) :
    Accounted w fspec hs (blockCalls w fspec partition t)
      (fileBlockOpen w fspec partition t).result := by
  have scan := scanPartitions_accounted fspec fresh partition
    (partitionsLookup w fspec.dev t).1 (partitionsLookup_held w fspec.dev start)
  rw [blockCalls_eq, fileBlockOpen_eq]
  rcases found : scanPartitions w fspec partition (partitionsLookup w fspec.dev t).1
    (partitionsLookup w fspec.dev t).2 with probed | ⟨p, after⟩
  all_goals rw [found] at scan
  · rw [Sum.elim_inl, Sum.elim_inl, List.append_nil]
    exact scan
  · exact scan.append (show FileErr.badFsys ≠ .ok by decide) fun hs' start' =>
      fsOpen_accounted fresh start'

/-- `open_file` closes every device it opened but that of the file, whatever the firmware answers,
exactly when none of the drivers it asks leaves the balance; the check for swap space is one that
does. -/
theorem handles_balanced_iff (fresh : Fresh w) (kind : DeviceKind) (file : File) :
    Balanced [] (openFile w fspec kind file) ↔
      ∀ call ∈ openCalls w fspec kind file, ¬ call.Leaks w fspec :=
  (fileBlockOpen_accounted fresh fspec.part rfl).balanced_iff

end Accounts

/-! ### Two disks -/

/-- Firmware that numbers the devices it opens. -/
def numbering (w : World) : History := fun log =>
  { w with promOpen := fun _ => .device (((held log).getD []).sum + 1) }

theorem numbering_fresh (w : World) : Fresh (numbering w) := by
  intro log hs name id start handle
  have number : ((held log).getD []).sum + 1 = id := Handle.device.inj handle
  rw [start, Option.getD_some] at number
  intro mem
  have := List.le_sum_of_mem mem
  omega

/-- The same disk as `ext2World`, with a swap signature on the partition. -/
def swapDisk : History := numbering
  { ext2World with readblocks := fun _ _ _ i => (cstr "SWAP-SPACE").getD (i - 502) 0 }

theorem ext2World_keeps (call : DriverCall) : ¬ call.Leaks (numbering ext2World) kernelSpec := by
  obtain ⟨part, driver, before⟩ := call
  cases driver with
  | swap =>
    rintro ⟨-, -, p, -, room | found⟩
    · cases room
    · cases found
  | ext2 => exact fun ⟨_, _, null, _⟩ => nomatch null
  | xfs => exact fun ⟨_, mounted, _⟩ => nomatch mounted
  | reiserfs => exact fun ⟨_, mounted, _⟩ => nomatch mounted
  | of => exact id

/-- An ext2 disk: the device is opened for the partitions, for the swap check and for the driver. -/
theorem ext2World_balanced :
    Balanced [] (openFile (numbering ext2World) kernelSpec .block ⟨.block, .null, 0, false⟩) :=
  (handles_balanced_iff (numbering_fresh _) .block _).mpr fun call _ => ext2World_keeps call

/-- The disk is still open after `open_file` has refused a swap partition. -/
theorem swapDisk_unbalanced : Fresh swapDisk ∧
    (openFile swapDisk kernelSpec .block ⟨.block, .null, 0, false⟩).1 = .notFound ∧
    held (openFile swapDisk kernelSpec .block ⟨.block, .null, 0, false⟩).2.log = some [1] ∧
    ¬ Balanced [] (openFile swapDisk kernelSpec .block ⟨.block, .null, 0, false⟩) := by
  have result : (openFile swapDisk kernelSpec .block ⟨.block, .null, 0, false⟩).1 = .notFound := by
    decide +kernel
  have leak : held (openFile swapDisk kernelSpec .block ⟨.block, .null, 0, false⟩).2.log =
      some [1] := by
    decide +kernel
  refine ⟨numbering_fresh _, result, leak, fun balanced => ?_⟩
  have none := balanced.error (by rw [result]; decide)
  rw [leak] at none
  cases none

end Yaboot.Fs.Handles
