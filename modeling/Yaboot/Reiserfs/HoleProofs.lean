import Yaboot.Reiserfs.FileProofs

/-! Reading an open file again and again. Whatever was read and wherever the
position was moved, a read hands over the bytes at the position; only in the
holes of the file it hands over block zero of the device. -/
namespace Yaboot.Reiserfs
open Buffer CString Word

section
variable {v : Volume}

/-- The states of a driver that opened a file and then read from it and moved
in it. A read may run into the end of the file, and ends below 4 GiB. -/
inductive Uses (f : FileOf v) : State → Prop where
  | opened {o : Opening} (cached : Cached v o.s) (dirId : o.dirId = f.dirId)
      (objectid : o.objectid = f.objectid)
      (ended : o.dirname = [] ∨ isspace (o.dirname.headD 0) = true)
      (stat : (searchStat v.disk v.info f.dirId f.objectid o.s).2 = t)
      (regular : sIsReg (sdMode t.mem t.currentItem) = true)
      (call : openLoop v.disk v.info (rounds + 1) o = some (true, s)) : Uses f s
  | read (before : Uses f s) (small : len < 2 ^ 32)
      (near : s.pos + min len (v.coverage f.data - s.pos) < 2 ^ 32)
      (enough : f.data.length < fuel)
      (call : reiserfsReadData v.disk v.info fuel s len out = some (returned, t, out')) : Uses f t
  | seek (before : Uses f s) (small : newpos < 2 ^ 32) : Uses f (reiserfsSeek s newpos)

theorem not_link (regular : sIsReg mode = true) : sIsLnk mode = false := by
  unfold sIsReg at regular
  unfold sIsLnk
  rw [beq_iff_eq] at regular
  rw [regular]
  decide

/-- At the end of the path the file is opened at its first byte. -/
theorem FileOf.opens (f : FileOf v) (rounds : Nat) {o : Opening} (cached : Cached v o.s)
    (dirId : o.dirId = f.dirId)
    (objectid : o.objectid = f.objectid)
    (ended : o.dirname = [] ∨ isspace (o.dirname.headD 0) = true)
    (stat : (searchStat v.disk v.info f.dirId f.objectid o.s).2 = t)
    (regular : sIsReg (sdMode t.mem t.currentItem) = true) :
    ∃ s, openLoop v.disk v.info (rounds + 1) o = some (true, s) ∧ Opened f s ∧ s.pos = 0 := by
  obtain ⟨t', search, items, -, -⟩ := cached.findItems f.found f.walkable
  rw [search] at stat
  cases stat
  obtain ⟨u, step, ahead, file, -⟩ := (items.congr (t := { t' with
    pos := 0
    len := sdSize t'.mem t'.currentIh t'.currentItem
    fileDirId := f.dirId
    fileObjectid := f.objectid }) rfl rfl rfl rfl rfl).nextKey
  refine ⟨u, ?_, ⟨file.dirId, file.objectid, [], f.data, rfl, ahead⟩, file.pos⟩
  rw [openLoop, dirId, objectid, search]
  dsimp only
  rw [not_link regular, if_neg Bool.false_ne_true, if_pos ended, if_pos regular, step]

theorem Opened.seek {f : FileOf v} (opened : Opened f s) (newpos : Nat) :
    Opened f (reiserfsSeek s newpos) := by
  obtain ⟨done, todo, whole, stream⟩ := opened.stream
  exact ⟨opened.dirId, opened.objectid, done, todo, whole, stream.congr rfl rfl rfl rfl rfl⟩

/-- The file stays open, at a position that fits a word. -/
theorem Uses.keeps {f : FileOf v} (uses : Uses f s) : Opened f s ∧ s.pos < 2 ^ 32 := by
  induction uses with
  | @opened t rounds s o cached dirId objectid ended stat regular call =>
    obtain ⟨u, opens, opened, start⟩ :=
      f.opens rounds cached dirId objectid ended stat regular
    cases opens.symm.trans call
    exact ⟨opened, by omega⟩
  | read before small near enough call ih =>
    obtain ⟨opened, low⟩ := ih
    obtain ⟨u, outcome, after, arrived, -⟩ := opened.reiserfsReadData low small _ enough
    cases outcome.symm.trans call
    exact ⟨after, by omega⟩
  | seek before small ih => exact ⟨ih.1.seek _, small⟩

/-- A read is right: it hands over so many bytes of the file and no others. -/
def ReadRight (f : FileOf v) (fuel : Nat) (s : State) (len : Nat) (out : Bytes) : Prop :=
  ∃ t mem, reiserfsReadData v.disk v.info fuel s len out = some ((len : Int), t, mem) ∧
    (∀ i < len, mem i = f.content (s.pos + i)) ∧ (∀ i, len ≤ i → mem i = out i) ∧
    t.pos = s.pos + len

/-- A read is right exactly if its length is positive as an `int` and the bytes of block 0 it
delivers for holes are zero. -/
theorem Opened.readRight_iff {f : FileOf v} (opened : Opened f s) (low : s.pos < 2 ^ 32)
    (small : len < 2 ^ 32) (range : s.pos + len ≤ v.coverage f.data)
    (enough : f.data.length < fuel) (out : Bytes) :
    ReadRight f fuel s len out ↔
      len < 2 ^ 31 ∧ ∀ i < len, ∀ o, v.holeAt f.data (s.pos + i) = some o → v.node 0 o = 0 := by
  obtain ⟨t, outcome, -, arrived, -⟩ := opened.reiserfsReadData low small out enough
  have count : min len (v.coverage f.data - s.pos) = len := by omega
  rw [count] at outcome arrived
  have copied : ∀ i < len, blit out 0 len (fun i => v.bytesOf f.data (s.pos + i)) i =
      v.bytesOf f.data (s.pos + i) := by
    intro i inside
    rw [blit_inside _ _ (Nat.zero_le _) (by omega), Nat.sub_zero]
  constructor
  · rintro ⟨u, mem, read, bytes, -, -⟩
    rw [outcome] at read
    simp only [Option.some.injEq, Prod.mk.injEq] at read
    obtain ⟨value, -, same⟩ := read
    refine ⟨?_, fun i inside => (f.bytesOf_eq_iff _).mp ?_⟩
    · by_contra long
      rw [s32_of_ge (by omega) small] at value
      omega
    · rw [← bytes i inside, ← same, copied i inside]
  · rintro ⟨short, zero⟩
    rw [s32_of_lt short] at outcome
    refine ⟨t, _, outcome, fun i inside => ?_, fun i behind => ?_, arrived⟩
    · rw [copied i inside]
      exact (f.bytesOf_eq_iff _).mpr (zero i inside)
    · exact blit_outside _ _ (.inr (by omega))

/-- After any reads and seeks, a read inside a file is right exactly when its
length is an `int` and block zero holds zeros where the file has holes. -/
theorem read_after_seeks_iff {f : FileOf v} (uses : Uses f s) (covers : size ≤ v.coverage f.data)
    (low : size < 2 ^ 32) (range : s.pos + len ≤ size) (enough : f.data.length < fuel)
    (out : Bytes) :
    ReadRight f fuel s len out ↔
      len < 2 ^ 31 ∧ ∀ i < len, ∀ o, v.holeAt f.data (s.pos + i) = some o → v.node 0 o = 0 := by
  obtain ⟨opened, place⟩ := uses.keeps
  exact opened.readRight_iff place (by omega) (by omega) enough out

end

/-! ### A file with a hole -/

/-- A leaf with the stat item of object (1, 2) and an item with one block
pointer, which is zero. -/
def holedLeaf : List UInt8 :=
  [1, 0, 2, 0] ++ List.replicate 20 0 ++
  [1, 0, 0, 0, 2, 0, 0, 0, 0, 0, 0, 0, 0, 0, 0, 0, 0, 0, 44, 0, 76, 0, 1, 0] ++
  [1, 0, 0, 0, 2, 0, 0, 0, 1, 0, 0, 0, 0, 0, 0, 16, 0, 0, 4, 0, 72, 0, 1, 0] ++
  [0, 0, 0, 0] ++ [0xa4, 0x81]

/-- Block zero of the device holds ones. -/
def holedVolume : Volume where
  disk := fun a => if 16 * 1024 ≤ a then holedLeaf.getD (a - 16 * 1024) 0 else 1
  info := { version := 2, treeDepth := 1, blocksize := 1024, blocksizeShift := 10, cachedSlots := 27 }
  root := 16
  shift_ge := by decide
  shift_le := by decide
  blocksize_eq := by decide
  slots_eq := by decide
  empty := by decide
  depth_lt := by decide
  shaped := by decide +kernel

def holedFile : FileOf holedVolume where
  dirId := 1
  objectid := 2
  stat := (16, 0)
  data := [(16, 1)]
  tail := []
  found := by decide +kernel
  own := by decide +kernel
  ends := by
    unfold Volume.Ends
    decide +kernel
  laid := ⟨.inr (by decide +kernel), by decide +kernel, by decide +kernel, trivial⟩
  walkable := .inl (by decide)

/-- The driver asked for the file, with the root in the cache. -/
def holedOpening : Opening where
  s := {
    mem := fun i => holedVolume.node 16 (i % 1024)
    blocks := fun _ => 0
    nextKeyNr := fun _ => 0
    currentIh := 0
    currentItem := 0
    fileDirId := 0
    fileObjectid := 0
    pos := 0
    len := 0
    errnum := .ok }
  dirId := 1
  objectid := 2
  parentDirId := 0
  parentObjectid := 0
  linkCount := 0
  linkbuf := fun _ => 0
  dirname := []

theorem holedOpening_cached : Cached holedVolume holedOpening.s where
  root i inside := by
    have small : i < 1024 := inside
    have place : (0 * 1024 + i) % 1024 = i := by omega
    exact congrArg (holedVolume.node 16) place
  leaf _ i inside := by
    have small : i < 1024 := inside
    have place : (1 * 1024 + i) % 1024 = i := by omega
    exact congrArg (holedVolume.node 16) place
  nodes _ _ _ _ known := absurd rfl known

theorem holedFile_uses : ∃ s, Uses holedFile s ∧ s.pos = 0 := by
  have regular : sIsReg (sdMode
      (searchStat holedVolume.disk holedVolume.info 1 2 holedOpening.s).2.mem
      (searchStat holedVolume.disk holedVolume.info 1 2 holedOpening.s).2.currentItem) = true := by
    decide +kernel
  obtain ⟨s, opens, -, start⟩ := holedFile.opens 0 holedOpening_cached rfl rfl
    (.inl rfl) rfl regular
  exact ⟨s, .opened holedOpening_cached rfl rfl (.inl rfl) rfl regular opens, start⟩

theorem holedFile_holes : holedVolume.coverage holedFile.data = 1024 ∧
    holedVolume.holeAt holedFile.data 0 = some 0 ∧ holedVolume.node 0 0 ≠ 0 := by
  decide +kernel

/-- The hole is not read as zeros. -/
theorem holedFile_read_wrong : ∃ s, Uses holedFile s ∧ s.pos + 1 ≤ 1024 ∧
    ¬ ReadRight holedFile 2 s 1 fun _ => 0 := by
  obtain ⟨s, uses, start⟩ := holedFile_uses
  obtain ⟨covers, hole, ones⟩ := holedFile_holes
  have range : s.pos + 1 ≤ 1024 := by omega
  refine ⟨s, uses, range, fun right => ?_⟩
  obtain ⟨-, zero⟩ := (read_after_seeks_iff uses (Nat.le_of_eq covers.symm) (by decide) range
    (by decide) _).mp right
  exact ones (zero 0 (by decide) 0 (by rw [start]; exact hole))

/-- Not every file is read right after every use of it. -/
theorem holes_not_zero : ¬ ∀ (v : Volume) (f : FileOf v) (s : State) (size len fuel : Nat)
    (out : Bytes), Uses f s → size ≤ v.coverage f.data → size < 2 ^ 32 → s.pos + len ≤ size →
    f.data.length < fuel → ReadRight f fuel s len out := by
  intro right
  obtain ⟨s, uses, start⟩ := holedFile_uses
  obtain ⟨covers, hole, ones⟩ := holedFile_holes
  have low : s.pos < 2 ^ 32 := by omega
  have inside : s.pos + 1 ≤ holedVolume.coverage holedFile.data := by omega
  obtain ⟨-, zero⟩ := (uses.keeps.1.readRight_iff low (by decide) inside (by decide) _).mp
    (right holedVolume holedFile s 1024 1 2 (fun _ => 0) uses (Nat.le_of_eq covers.symm)
      (by decide) (by omega) (by decide))
  exact ones (zero 0 (by decide) 0 (by rw [start]; exact hole))

end Yaboot.Reiserfs
