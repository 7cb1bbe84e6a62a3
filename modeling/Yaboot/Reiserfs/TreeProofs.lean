import Mathlib.Data.List.Lex
import Mathlib.Tactic.IntervalCases
import Yaboot.Reiserfs.JournalProofs
import Yaboot.Reiserfs.Tree

/-! `next_key` against the items of the tree in order. A spine is the path from
the root to a node as the driver's tables record it, together with the items
that come after that node; each step of the driver moves along a spine. -/
namespace Yaboot.Reiserfs
open Buffer CString Word

/-! ### The tree on the volume -/

/-- A block of the volume. -/
def node (disk : Bytes) (info : Info) (b : Nat) : Bytes := readDiskBlock disk info b 0

def level (disk : Bytes) (info : Info) (b : Nat) : Nat := blkhLevel (node disk info b) 0
def nrItem (disk : Bytes) (info : Info) (b : Nat) : Nat := blkhNrItem (node disk info b) 0
def child (disk : Bytes) (info : Info) (b i : Nat) : Nat := dcBlockNumber (node disk info b) 0 i

/-- A block is the top of a tree of the given height: levels are right, every
node has an item or a key and fits its block, and no child is block 0. -/
def Shaped (disk : Bytes) (info : Info) : Nat → Nat → Prop
  | 0, _ => False
  | 1, b => level disk info b = 1 ∧ 0 < nrItem disk info b ∧
      24 + 24 * nrItem disk info b ≤ info.blocksize
  | height + 2, b => level disk info b = height + 2 ∧ 0 < nrItem disk info b ∧
      24 + 16 * nrItem disk info b + 8 * (nrItem disk info b + 1) ≤ info.blocksize ∧
      ∀ i ≤ nrItem disk info b,
        child disk info b i ≠ 0 ∧ Shaped disk info (height + 1) (child disk info b i)

/-- An item, by its leaf and its number in it. -/
abbrev Position := Nat × Nat

/-- The items of a leaf from the given one on. -/
def leafItems (disk : Bytes) (info : Info) (b from_ : Nat) : List Position :=
  (List.range' from_ (nrItem disk info b - from_)).map fun i => (b, i)

/-- The items below a node, in tree order. -/
def items (disk : Bytes) (info : Info) : Nat → Nat → List Position
  | 0, _ => []
  | 1, b => leafItems disk info b 0
  | height + 2, b => (List.range' 0 (nrItem disk info b + 1)).flatMap fun i =>
      items disk info (height + 1) (child disk info b i)

/-- The items below the children of a node from the given one on. -/
def itemsFrom (disk : Bytes) (info : Info) (height b from_ : Nat) : List Position :=
  (List.range' from_ (nrItem disk info b + 1 - from_)).flatMap fun i =>
    items disk info height (child disk info b i)

instance decidableShaped (disk : Bytes) (info : Info) :
    ∀ height b, Decidable (Shaped disk info height b)
  | 0, _ => inferInstanceAs (Decidable False)
  | 1, _ => inferInstanceAs (Decidable (_ ∧ _))
  | height + 2, b =>
    have := fun i => decidableShaped disk info (height + 1) (child disk info b i)
    inferInstanceAs (Decidable (_ ∧ _ ∧ _ ∧ ∀ i ≤ nrItem disk info b, _ ∧ _))

/-- `uniqueness2type`. -/
def uniqueness2type (uniqueness : Nat) : Nat :=
  if uniqueness = 0 then 0
  else if uniqueness = 0xfffffffe then 1
  else if uniqueness = 0xffffffff then 2
  else if uniqueness = 500 then 3
  else 15

/-- A key as the list of its components, in the order of their weight. A new key
has its type in the topmost bits, an old one in a word of its own. -/
def keyAt (b : Bytes) (at_ : Nat) : List Nat :=
  let uniqueness := le b (at_ + 12) 4
  let type := uniqueness / 2 ^ 28
  keyDirId b at_ :: keyObjectid b at_ ::
    if 1 ≤ type ∧ type ≤ 3 then [le b (at_ + 8) 8 % 2 ^ 60, type]
    else [le b (at_ + 8) 4, uniqueness2type uniqueness]

/-- The item head of an item in its leaf. -/
def headAt (j : Nat) : Nat := 24 + 24 * j

/-- The key of an item. -/
def itemKey (disk : Bytes) (info : Info) (p : Position) : List Nat :=
  keyAt (node disk info p.1) (headAt p.2)

/-- The key between two children of a node. -/
def delimKey (disk : Bytes) (info : Info) (b i : Nat) : List Nat :=
  keyAt (node disk info b) (24 + 16 * i)

/-- Keys are sorted, and each key of a node separates the items below the
children on its two sides. -/
def Ordered (disk : Bytes) (info : Info) : Nat → Nat → Prop
  | 0, _ => True
  | 1, b => ∀ i < nrItem disk info b - 1, itemKey disk info (b, i) < itemKey disk info (b, i + 1)
  | height + 2, b =>
      (∀ i < nrItem disk info b - 1, delimKey disk info b i < delimKey disk info b (i + 1)) ∧
      (∀ i < nrItem disk info b,
        (∀ p ∈ items disk info (height + 1) (child disk info b i),
          itemKey disk info p < delimKey disk info b i) ∧
        ∀ p ∈ items disk info (height + 1) (child disk info b (i + 1)),
          delimKey disk info b i ≤ itemKey disk info p) ∧
      ∀ i ≤ nrItem disk info b, Ordered disk info (height + 1) (child disk info b i)

instance decidableOrdered (disk : Bytes) (info : Info) :
    ∀ height b, Decidable (Ordered disk info height b)
  | 0, _ => inferInstanceAs (Decidable True)
  | 1, b => inferInstanceAs (Decidable (∀ i < nrItem disk info b - 1, _ < _))
  | height + 2, b =>
    have := fun i => decidableOrdered disk info (height + 1) (child disk info b i)
    inferInstanceAs (Decidable ((∀ i < nrItem disk info b - 1, _ < _) ∧
      (∀ i < nrItem disk info b, _ ∧ _) ∧ ∀ i ≤ nrItem disk info b, _))

/-- A volume whose journal is empty, with a tree below its root. -/
structure Volume where
  disk : Bytes
  info : Info
  root : Nat
  shift_ge : 9 ≤ info.blocksizeShift
  shift_le : info.blocksizeShift ≤ 13
  blocksize_eq : info.blocksize = 2 ^ info.blocksizeShift
  slots_eq : info.cachedSlots = fsysreiserCacheSize / 2 ^ info.blocksizeShift - 1
  empty : info.journalTransactions = 0
  depth_lt : info.treeDepth < maxTreeHeight
  shaped : Shaped disk info info.treeDepth root

namespace Volume

variable (v : Volume)

def node (b : Nat) : Bytes := Reiserfs.node v.disk v.info b
def nrItem (b : Nat) : Nat := Reiserfs.nrItem v.disk v.info b
def child (b i : Nat) : Nat := Reiserfs.child v.disk v.info b i
def Shaped (height b : Nat) : Prop := Reiserfs.Shaped v.disk v.info height b
def items (height b : Nat) : List Position := Reiserfs.items v.disk v.info height b
def leafItems (b from_ : Nat) : List Position := Reiserfs.leafItems v.disk v.info b from_
def itemsFrom (height b from_ : Nat) : List Position :=
  Reiserfs.itemsFrom v.disk v.info height b from_

theorem blocksize_ge : 512 ≤ v.info.blocksize := by
  rw [v.blocksize_eq]
  calc 512 = 2 ^ 9 := by decide
    _ ≤ 2 ^ v.info.blocksizeShift := Nat.pow_le_pow_right (by decide) v.shift_ge

theorem slots_cases : v.info.blocksize ≤ 4096 ∧ 6 ≤ v.info.cachedSlots ∨
    v.info.blocksize = 8192 ∧ v.info.cachedSlots = 2 := by
  have ge := v.shift_ge
  have le := v.shift_le
  rw [v.blocksize_eq, v.slots_eq]
  generalize v.info.blocksizeShift = k at ge le
  interval_cases k <;> decide

theorem slots_ge : 2 ≤ v.info.cachedSlots := by
  rcases v.slots_cases with ⟨-, slots⟩ | ⟨-, slots⟩ <;> omega

theorem depth_pos : 0 < v.info.treeDepth := by
  rcases depth : v.info.treeDepth with _ | n
  · have shaped := v.shaped
    rw [depth] at shaped
    exact shaped.elim
  · exact Nat.succ_pos n

end Volume

/-! ### Nodes in the cache -/

/-- The slot at `at_` of the cache holds a block. -/
def Holds (v : Volume) (mem : Bytes) (at_ b : Nat) : Prop :=
  ∀ i < v.info.blocksize, mem (at_ + i) = v.node b i

theorem le_congr {b c : Bytes} {j k n : Nat} (same : ∀ i < n, b (j + i) = c (k + i)) :
    le b j n = le c k n := by
  induction n generalizing j k with
  | zero => rfl
  | succ n ih =>
    have first : b j = c k := same 0 (Nat.succ_pos n)
    have rest : le b (j + 1) n = le c (k + 1) n := by
      apply ih
      intro i inside
      have next := same (i + 1) (Nat.succ_lt_succ inside)
      rwa [← Nat.add_assoc, Nat.add_right_comm, ← Nat.add_assoc, Nat.add_right_comm k] at next
    rw [le, le, first, rest]

section
variable {v : Volume} {mem : Bytes} {at_ b : Nat}

theorem Holds.le (holds : Holds v mem at_ b) (inside : k + n ≤ v.info.blocksize) :
    le mem (at_ + k) n = le (v.node b) k n := by
  apply le_congr
  intro i small
  rw [Nat.add_assoc]
  exact holds (k + i) (by omega)

theorem Holds.level (holds : Holds v mem at_ b) :
    blkhLevel mem at_ = level v.disk v.info b := by
  have size := v.blocksize_ge
  exact holds.le (k := 0) (n := 2) (by omega)

theorem Holds.nrItem (holds : Holds v mem at_ b) : blkhNrItem mem at_ = v.nrItem b := by
  have size := v.blocksize_ge
  have fits : 2 + 2 ≤ v.info.blocksize := by omega
  exact (holds.le fits).trans (by rw [Volume.nrItem, Reiserfs.nrItem, blkhNrItem, Nat.zero_add]; rfl)

theorem Holds.child (holds : Holds v mem at_ b)
    (fits : 24 + 16 * v.nrItem b + 8 * (v.nrItem b + 1) ≤ v.info.blocksize)
    (le : i ≤ v.nrItem b) : dcBlockNumber mem at_ i = v.child b i := by
  have number := holds.le (k := 24 + 16 * v.nrItem b + 8 * i) (n := 4) (by omega)
  rw [dcBlockNumber, holds.nrItem]
  rw [show at_ + 24 + 16 * v.nrItem b + 8 * i = at_ + (24 + 16 * v.nrItem b + 8 * i) by omega, number]
  rw [Volume.child, Reiserfs.child, dcBlockNumber, Nat.zero_add]
  rfl

/-- A node read into another slot leaves the node where it is. -/
theorem Holds.frame (holds : Holds v mem (v.info.cache j) b) (other : j ≠ k) (src : Bytes) :
    Holds v (blit mem (v.info.cache k) v.info.blocksize src) (v.info.cache j) b := by
  intro i inside
  rw [blit_outside, holds i inside]
  unfold Info.cache
  rcases Nat.lt_or_gt_of_ne other with below | above
  · left
    have slot := Nat.mul_le_mul_right v.info.blocksize (show j + 1 ≤ k from below)
    rw [Nat.succ_mul] at slot
    omega
  · right
    have slot := Nat.mul_le_mul_right v.info.blocksize (show k + 1 ≤ j from above)
    rw [Nat.succ_mul] at slot
    omega

theorem holds_read (mem : Bytes) (at_ b : Nat) :
    Holds v (blit mem at_ v.info.blocksize (v.node b)) at_ b := by
  intro i inside
  rw [blit_inside _ _ (Nat.le_add_right _ _) (by omega), Nat.add_sub_cancel_left]

end

/-- The slots of the cache hold the nodes the driver takes them to hold. -/
structure Cached (v : Volume) (s : State) : Prop where
  root : Holds v s.mem (v.info.cache 0) v.root
  leaf : v.info.treeDepth = 1 → Holds v s.mem (v.info.cache 1) v.root
  nodes : ∀ l, 0 < l → l < v.info.treeDepth → l < v.info.cachedSlots → s.blocks l ≠ 0 →
    Holds v s.mem (v.info.cache l) (s.blocks l)

/-- The slot of a level below the root. -/
def Volume.slot (v : Volume) (l : Nat) : Nat := min l v.info.cachedSlots

/-- Two states in the middle of the same file. -/
structure SameFile (s t : State) : Prop where
  dirId : t.fileDirId = s.fileDirId
  objectid : t.fileObjectid = s.fileObjectid
  pos : t.pos = s.pos
  len : t.len = s.len

theorem SameFile.refl (s : State) : SameFile s s := ⟨rfl, rfl, rfl, rfl⟩

theorem SameFile.trans (first : SameFile s t) (second : SameFile t u) : SameFile s u :=
  ⟨second.dirId.trans first.dirId, second.objectid.trans first.objectid,
    second.pos.trans first.pos, second.len.trans first.len⟩

/-- What reading a node of the right level does. -/
structure NodeRead (v : Volume) (s : State) (l b : Nat) (t : State) : Prop where
  cached : Cached v t
  holds : Holds v t.mem (v.info.cache (v.slot l)) b
  blocks : t.blocks = Function.update s.blocks l b
  nextKeyNr : t.nextKeyNr = s.nextKeyNr
  errnum : t.errnum = .ok
  file : SameFile s t
  frame : ∀ j c, j ≠ v.slot l → Holds v s.mem (v.info.cache j) c → Holds v t.mem (v.info.cache j) c

theorem Volume.blockReadInto (v : Volume) (mem : Bytes) (b len dest : Nat) :
    Reiserfs.blockReadInto v.disk v.info mem b 0 len dest = blit mem dest len (v.node b) :=
  blockReadInto_empty v.empty v.disk mem b 0 len dest

/-- Overwriting the slot of a level other than the lowest shared one. -/
theorem Cached.overwrite {v : Volume} (cached : Cached v s) (pos : 0 < l)
    (below : l < v.info.treeDepth) (b : Nat) (errnum : Errnum) :
    let mem := blit s.mem (v.info.cache (v.slot l)) v.info.blocksize (v.node b)
    Cached v { s with mem := mem, errnum := errnum, blocks := Function.update s.blocks l b } := by
  have slots := v.slots_ge
  have slot_pos : 0 ≠ v.slot l := by
    unfold Volume.slot
    omega
  refine ⟨cached.root.frame slot_pos _, fun flat => by omega, ?_⟩
  intro k kpos kbelow kslots known
  by_cases same : k = l
  · subst same
    have own : v.slot k = k := Nat.min_eq_left (by omega)
    simp only [Function.update_self, own]
    exact holds_read _ _ _
  · have other : k ≠ v.slot l := by
      unfold Volume.slot
      omega
    simp only [Function.update_of_ne same] at known ⊢
    exact (cached.nodes k kpos kbelow kslots known).frame other _

/-- A node of the right level is read into its slot, or found there, and the other slots keep
theirs. -/
theorem Cached.readTreeNode {v : Volume} (cached : Cached v s) (pos : 0 < l)
    (below : l < v.info.treeDepth) (nonzero : b ≠ 0) (right : level v.disk v.info b = l) :
    ∃ t, Reiserfs.readTreeNode v.disk v.info b l s = (some (v.info.cache (v.slot l)), t) ∧
      NodeRead v s l b t := by
  unfold Reiserfs.readTreeNode
  dsimp only
  split
  next hit =>
    obtain ⟨small, same⟩ := hit
    have own : v.slot l = l := Nat.min_eq_left (by omega)
    refine ⟨{ s with errnum := .ok }, by rw [own], ?_⟩
    refine ⟨⟨cached.root, cached.leaf, cached.nodes⟩, ?_, ?_, rfl, rfl, ⟨rfl, rfl, rfl, rfl⟩,
      fun _ _ _ held => held⟩
    · rw [own, same]
      exact cached.nodes l pos below small (by rwa [← same])
    · rw [same, Function.update_eq_self]
  next miss =>
    rw [v.blockReadInto, show min l v.info.cachedSlots = v.slot l from rfl]
    have held := holds_read (v := v) s.mem (v.info.cache (v.slot l)) b
    rw [if_neg (by rw [held.level, right]; simp)]
    refine ⟨_, rfl, ⟨cached.overwrite pos below b .ok, held, rfl, rfl, rfl,
      ⟨rfl, rfl, rfl, rfl⟩, ?_⟩⟩
    intro j c other known
    exact known.frame other _

/-! ### Spines -/

/-- The table entry for a path that takes child `i` of a node. -/
def nextNr (v : Volume) (b i : Nat) : Nat := if i = v.nrItem b then 0 else i + 1

/-- The path from the root to a node as the tables record it, and the items that
come after that node in tree order. -/
inductive Spine (v : Volume) (s : State) : Nat → Nat → List Position → Prop where
  | root : Spine v s v.info.treeDepth v.root []
  | child (up : Spine v s (l + 1) b rest) (pos : 0 < l) (inside : i ≤ v.nrItem b)
      (next : s.nextKeyNr (l + 1) = nextNr v b i) (block : s.blocks l = v.child b i)
      (holds : l ≤ v.info.cachedSlots → Holds v s.mem (v.info.cache l) (v.child b i)) :
      Spine v s l (v.child b i) (v.itemsFrom l b (i + 1) ++ rest)

section
variable {v : Volume} {s t : State} {l b : Nat} {rest : List Position}

theorem Spine.le (spine : Spine v s l b rest) : l ≤ v.info.treeDepth := by
  induction spine with
  | root => exact Nat.le_refl _
  | child up pos inside next block holds ih => omega

theorem Spine.pos (spine : Spine v s l b rest) : 0 < l := by
  cases spine with
  | root => exact v.depth_pos
  | child up pos inside next block holds => exact pos

theorem Shaped.child {v : Volume} (shaped : v.Shaped (l + 1) b) (pos : 0 < l)
    (inside : i ≤ v.nrItem b) : v.child b i ≠ 0 ∧ v.Shaped l (v.child b i) := by
  obtain ⟨l, rfl⟩ : ∃ k, l = k + 1 := ⟨l - 1, by omega⟩
  exact shaped.2.2.2 i inside

theorem Shaped.fits {v : Volume} (shaped : v.Shaped (l + 1) b) (pos : 0 < l) :
    24 + 16 * v.nrItem b + 8 * (v.nrItem b + 1) ≤ v.info.blocksize := by
  obtain ⟨l, rfl⟩ : ∃ k, l = k + 1 := ⟨l - 1, by omega⟩
  exact shaped.2.2.1

theorem Shaped.level {v : Volume} (shaped : v.Shaped l b) : level v.disk v.info b = l := by
  match l, shaped with
  | 1, shaped => exact shaped.1
  | l + 2, shaped => exact shaped.1

theorem Shaped.nrItem_pos {v : Volume} (shaped : v.Shaped l b) : 0 < v.nrItem b := by
  match l, shaped with
  | 1, shaped => exact shaped.2.1
  | l + 2, shaped => exact shaped.2.1

theorem Spine.shaped (spine : Spine v s l b rest) : v.Shaped l b := by
  induction spine with
  | root => exact v.shaped
  | child up pos inside next block holds ih => exact (Shaped.child ih pos inside).2

/-- A spine depends on the tables from its level on only. -/
theorem Spine.frame (spine : Spine v s l b rest)
    (next : ∀ k, l < k → t.nextKeyNr k = s.nextKeyNr k)
    (blocks : ∀ k, l ≤ k → t.blocks k = s.blocks k)
    (holds : ∀ k c, l ≤ k → k ≤ v.info.cachedSlots → Holds v s.mem (v.info.cache k) c →
      Holds v t.mem (v.info.cache k) c) : Spine v t l b rest := by
  induction spine with
  | root => exact .root
  | @child l b rest i up pos inside known block held ih =>
    refine .child (ih ?_ ?_ ?_) pos inside ?_ ?_ ?_
    · exact fun k above => next k (by omega)
    · exact fun k above => blocks k (by omega)
    · exact fun k c above => holds k c (by omega)
    · rw [next (l + 1) (by omega), known]
    · rw [blocks l (Nat.le_refl l), block]
    · exact fun small => holds l _ (Nat.le_refl l) small (held small)

/-- Where the node at the lower end of a path is. -/
def Volume.place (v : Volume) (l : Nat) : Nat :=
  if l = v.info.treeDepth then v.info.cache 0 else v.info.cache (v.slot l)

/-- A path whose last node is at hand. -/
structure Reached (v : Volume) (s : State) (l b : Nat) (rest : List Position) : Prop where
  cached : Cached v s
  spine : Spine v s l b rest
  holds : Holds v s.mem (v.place l) b

/-- The state in which child `i` is noted in the table. -/
def State.note (v : Volume) (l b i : Nat) (s : State) : State :=
  { s with nextKeyNr := Function.update s.nextKeyNr l (nextNr v b i) }

/-- What one step down a path does. -/
structure Down (v : Volume) (s : State) (l b i : Nat) (rest : List Position) (t : State) : Prop where
  reached : Reached v t l (v.child b i) (v.itemsFrom l b (i + 1) ++ rest)
  nextKeyNr : t.nextKeyNr = (s.note v (l + 1) b i).nextKeyNr
  errnum : t.errnum = .ok
  file : SameFile s t

/-- A child of a node that was reached is reached by reading it. -/
theorem Reached.down (here : Reached v s (l + 1) b rest) (pos : 0 < l) (inside : i ≤ v.nrItem b) :
    ∃ t, readTreeNode v.disk v.info (dcBlockNumber s.mem (v.place (l + 1)) i) l
        (s.note v (l + 1) b i) = (some (v.place l), t) ∧ Down v s l b i rest t := by
  have shaped := here.spine.shaped
  have le := here.spine.le
  obtain ⟨nonzero, below⟩ := Shaped.child shaped pos inside
  have number := here.holds.child (Shaped.fits shaped pos) inside
  have noted : Cached v (s.note v (l + 1) b i) :=
    ⟨here.cached.root, here.cached.leaf, here.cached.nodes⟩
  obtain ⟨t, read, done⟩ := noted.readTreeNode pos (by omega) nonzero (Shaped.level below)
  have lower : v.place l = v.info.cache (v.slot l) := if_neg (by omega)
  rw [number, lower]
  refine ⟨t, read, ⟨⟨done.cached, ?_, ?_⟩, ?_, done.errnum, ?_⟩⟩
  · refine .child (i := i) (here.spine.frame ?_ ?_ ?_) pos inside ?_ ?_ ?_
    · intro k above
      rw [done.nextKeyNr]
      exact Function.update_of_ne (by omega) _ _
    · intro k above
      rw [done.blocks]
      exact Function.update_of_ne (by omega) _ _
    · intro k c above small held
      refine done.frame k c ?_ held
      unfold Volume.slot
      omega
    · rw [done.nextKeyNr]
      exact Function.update_self _ _ _
    · rw [done.blocks]
      exact Function.update_self _ _ _
    · intro small
      have own : v.slot l = l := Nat.min_eq_left small
      have held := done.holds
      rwa [own] at held
  · rw [lower]
    exact done.holds
  · exact done.nextKeyNr
  · exact ⟨done.file.dirId, done.file.objectid, done.file.pos, done.file.len⟩

/-! ### `search_stat` -/

theorem find_range_lt {p : Nat → Bool} (found : (List.range n).find? p = some i) : i < n :=
  List.mem_range.mp (List.mem_of_find?_eq_some found)

theorem find_congr {list : List Nat} {p q : Nat → Bool} (same : ∀ i ∈ list, p i = q i) :
    list.find? p = list.find? q := by
  induction list with
  | nil => rfl
  | cons i list ih =>
    rw [List.find?_cons, List.find?_cons, same i List.mem_cons_self,
      ih fun k member => same k (List.mem_cons_of_mem i member)]

theorem childFor_le (mem : Bytes) (cache dirId objectid : Nat) :
    childFor mem cache dirId objectid ≤ blkhNrItem mem cache := by
  unfold childFor
  cases found : (List.range (blkhNrItem mem cache)).find? fun i =>
      keyBehind mem (cache + 24 + 16 * i) dirId objectid with
  | none => exact Nat.le_refl _
  | some i => exact Nat.le_of_lt (find_range_lt found)

/-- The child below which `search_stat` looks for an object. -/
def Volume.childFor (v : Volume) (dirId objectid b : Nat) : Nat :=
  Reiserfs.childFor (v.node b) 0 dirId objectid

theorem raw32_congr {b c : Bytes} {j k : Nat} (same : ∀ i < 4, b (j + i) = c (k + i)) :
    raw32 b j = raw32 c k := by
  have first : b j = c k := same 0 (by decide)
  rw [raw32, raw32, first, same 1 (by decide), same 2 (by decide), same 3 (by decide)]

theorem Holds.raw32 {mem : Bytes} {at_ : Nat} (holds : Holds v mem at_ b)
    (inside : k + 4 ≤ v.info.blocksize) : raw32 mem (at_ + k) = raw32 (v.node b) k := by
  apply raw32_congr
  intro i small
  rw [Nat.add_assoc]
  exact holds (k + i) (by omega)

theorem Holds.keyBehind {mem : Bytes} {at_ : Nat} (holds : Holds v mem at_ b)
    (inside : k + 16 ≤ v.info.blocksize) (dirId objectid : Nat) :
    keyBehind mem (at_ + k) dirId objectid = keyBehind (v.node b) k dirId objectid := by
  have dir : keyDirId mem (at_ + k) = keyDirId (v.node b) k := holds.le (by omega)
  have object : keyObjectid mem (at_ + k) = keyObjectid (v.node b) k := by
    rw [keyObjectid, Nat.add_assoc]
    exact holds.le (by omega)
  have offset : Reiserfs.raw32 mem (at_ + k + 8) = Reiserfs.raw32 (v.node b) (k + 8) := by
    rw [Nat.add_assoc]
    exact holds.raw32 (by omega)
  have unique : Reiserfs.raw32 mem (at_ + k + 12) = Reiserfs.raw32 (v.node b) (k + 12) := by
    rw [Nat.add_assoc]
    exact holds.raw32 (by omega)
  simp only [Reiserfs.keyBehind, dir, object, offset, unique]

theorem Holds.childFor {mem : Bytes} {at_ : Nat} (holds : Holds v mem at_ b)
    (fits : 24 + 16 * v.nrItem b + 8 * (v.nrItem b + 1) ≤ v.info.blocksize)
    (dirId objectid : Nat) :
    childFor mem at_ dirId objectid = v.childFor dirId objectid b := by
  have same : ((List.range (v.nrItem b)).find? fun i =>
      Reiserfs.keyBehind mem (at_ + 24 + 16 * i) dirId objectid) =
      (List.range (v.nrItem b)).find? fun i =>
        Reiserfs.keyBehind (v.node b) (0 + 24 + 16 * i) dirId objectid := by
    apply find_congr
    intro i member
    have small := List.mem_range.mp member
    rw [Nat.add_assoc, holds.keyBehind (by omega), Nat.zero_add]
  rw [Volume.childFor, Reiserfs.childFor, Reiserfs.childFor, holds.nrItem, same]
  rfl

/-- The search for an object takes the last child of every node above level 2. -/
def Volume.RightEdge (v : Volume) (dirId objectid : Nat) : Nat → Nat → Prop
  | h + 3, b => v.childFor dirId objectid b = v.nrItem b ∧
      v.RightEdge dirId objectid (h + 2) (v.child b (v.nrItem b))
  | _, _ => True

theorem nextNr_eq_zero : nextNr v b i = 0 ↔ i = v.nrItem b := by
  unfold nextNr
  split <;> simp_all

/-- The leaf a search from a node leads to, and the items behind that leaf. -/
def Volume.searchFrom (v : Volume) (dirId objectid : Nat) :
    Nat → Nat → List Position → Nat × List Position
  | h + 2, b, rest =>
    let i := v.childFor dirId objectid b
    v.searchFrom dirId objectid (h + 1) (v.child b i) (v.itemsFrom (h + 1) b (i + 1) ++ rest)
  | _, b, rest => (b, rest)

/-- What the descent of a search does. -/
structure Searched (v : Volume) (s : State) (dirId objectid l b : Nat) (rest : List Position)
    (t : State) : Prop where
  reached : Reached v t 1 (v.searchFrom dirId objectid l b rest).1
    (v.searchFrom dirId objectid l b rest).2
  above : ∀ k, l < k → t.nextKeyNr k = s.nextKeyNr k
  edge : v.RightEdge dirId objectid l b ↔ ∀ k, 3 ≤ k → k ≤ l → t.nextKeyNr k = 0
  errnum : s.errnum = .ok → t.errnum = .ok
  file : SameFile s t

/-- `search_leaf` goes down from a node that was reached to the place of the key. -/
theorem Reached.searchPath (here : Reached v s l b rest) (dirId objectid : Nat) :
    ∃ t, searchPath v.disk v.info dirId objectid l (v.place l) s = (true, t) ∧
      Searched v s dirId objectid l b rest t := by
  induction l generalizing s b rest with
  | zero => exact absurd here.spine.pos (Nat.lt_irrefl 0)
  | succ l ih =>
    cases l with
    | zero =>
      refine ⟨s, rfl, ⟨here, fun _ _ => rfl, ?_, id, .refl s⟩⟩
      exact ⟨fun _ k large small => by omega, fun _ => trivial⟩
    | succ l =>
      have fits := Shaped.fits here.spine.shaped (Nat.succ_pos l)
      have choice := here.holds.childFor fits dirId objectid
      obtain ⟨i, chosen⟩ : ∃ i, i = v.childFor dirId objectid b := ⟨_, rfl⟩
      have inside : i ≤ v.nrItem b := by
        rw [chosen, ← choice, ← here.holds.nrItem]
        exact childFor_le _ _ _ _
      obtain ⟨t, read, down⟩ := here.down (Nat.succ_pos l) inside
      obtain ⟨u, path, rest⟩ := ih down.reached
      have turned : u.nextKeyNr (l + 2) = nextNr v b i := by
        rw [rest.above (l + 2) (by omega), down.nextKeyNr]
        exact Function.update_self _ _ _
      refine ⟨u, ?_, ⟨?_, ?_, ?_, ?_, down.file.trans rest.file⟩⟩
      · rw [Reiserfs.searchPath]
        simp only [choice, ← chosen, here.holds.nrItem]
        rw [show (if i = v.nrItem b then 0 else i + 1) = nextNr v b i from rfl]
        unfold State.note at read
        rw [read]
        exact path
      · have reached := rest.reached
        rw [chosen] at reached
        exact reached
      · intro k above
        rw [rest.above k (by omega), down.nextKeyNr]
        exact Function.update_of_ne (by omega) _ _
      · cases l with
        | zero => exact ⟨fun _ k large small => by omega, fun _ => trivial⟩
        | succ l =>
          have last := nextNr_eq_zero (v := v) (b := b) (i := i)
          constructor
          · rintro ⟨same, edge⟩ k large small
            rw [← chosen] at same
            rw [← same] at edge
            by_cases top : k = l + 1 + 2
            · rw [top, turned, last, same]
            · exact rest.edge.mp edge k large (by omega)
          · intro zero
            have same : i = v.nrItem b := last.mp (turned ▸ zero (l + 3) (by omega) (by omega))
            refine ⟨chosen ▸ same, ?_⟩
            rw [← same]
            exact rest.edge.mpr fun k large small => zero k large (by omega)
      · exact fun _ => rest.errnum down.errnum

/-- A path depends on the cache and the tables only. -/
theorem Reached.congr (here : Reached v s l b rest) (mem : t.mem = s.mem)
    (blocks : t.blocks = s.blocks) (next : t.nextKeyNr = s.nextKeyNr) : Reached v t l b rest := by
  have cached : Cached v t := by
    obtain ⟨root, leaf, nodes⟩ := here.cached
    refine ⟨?_, ?_, ?_⟩
    · rwa [mem]
    · rwa [mem]
    · rwa [mem, blocks]
  refine ⟨cached, here.spine.frame ?_ ?_ ?_, ?_⟩
  · intro k _
    rw [next]
  · intro k _
    rw [blocks]
  · intro k c _ _ held
    rwa [mem]
  · rw [mem]
    exact here.holds

/-- The leaf at the end of a path is in its slot. -/
theorem Reached.leaf (here : Reached v s 1 b rest) : Holds v s.mem v.info.leaf b := by
  by_cases flat : 1 = v.info.treeDepth
  · have spine := here.spine
    have leaf := here.cached.leaf flat.symm
    generalize one : 1 = l at spine
    cases spine with
    | root => exact leaf
    | child up pos inside next block holds =>
      have le := up.le
      omega
  · have slots := v.slots_ge
    have own : v.slot 1 = 1 := Nat.min_eq_left (by omega)
    have place : v.place 1 = v.info.leaf := by rw [Volume.place, if_neg flat, own, Info.leaf]
    rw [← place]
    exact here.holds

/-! ### The current item -/

/-- The current item is the `j`th of leaf `b`; `rest` follows that leaf. -/
structure Cursor (v : Volume) (s : State) (b j : Nat) (rest : List Position) : Prop where
  reached : Reached v s 1 b rest
  index : j < v.nrItem b
  here : s.currentIh = v.info.itemhead j
  item : s.currentItem = v.info.leaf + ihLocation s.mem s.currentIh

/-- The items after the current one. -/
def following (v : Volume) (b j : Nat) (rest : List Position) : List Position :=
  v.leafItems b (j + 1) ++ rest

theorem Reached.arrive (here : Reached v s 1 b rest) (index : j < v.nrItem b) :
    Cursor v (s.arrive v.info (v.info.itemhead j)) b j rest :=
  ⟨here.congr rfl rfl rfl, index, rfl, rfl⟩

theorem leafItems_cons (index : j < v.nrItem b) :
    v.leafItems b j = (b, j) :: v.leafItems b (j + 1) := by
  unfold Volume.leafItems Reiserfs.leafItems
  have count : Reiserfs.nrItem v.disk v.info b - j =
      Reiserfs.nrItem v.disk v.info b - (j + 1) + 1 := by
    have index : j < Reiserfs.nrItem v.disk v.info b := index
    omega
  rw [count, List.range'_succ]
  rfl

theorem itemsFrom_cons (inside : i ≤ v.nrItem b) :
    v.itemsFrom l b i = v.items l (v.child b i) ++ v.itemsFrom l b (i + 1) := by
  unfold Volume.itemsFrom Reiserfs.itemsFrom
  have count : Reiserfs.nrItem v.disk v.info b + 1 - i =
      Reiserfs.nrItem v.disk v.info b + 1 - (i + 1) + 1 := by
    have inside : i ≤ Reiserfs.nrItem v.disk v.info b := inside
    omega
  rw [count, List.range'_succ, List.flatMap_cons]
  rfl

theorem itemsFrom_end : v.itemsFrom l b (v.nrItem b + 1) = [] := by
  unfold Volume.itemsFrom Reiserfs.itemsFrom Volume.nrItem
  rw [Nat.sub_self]
  rfl

theorem items_succ (pos : 0 < l) : v.items (l + 1) b = v.itemsFrom l b 0 := by
  obtain ⟨l, rfl⟩ : ∃ k, l = k + 1 := ⟨l - 1, by omega⟩
  rfl

/-- The items of the tree around those below a node. -/
theorem Spine.split (spine : Spine v s l b rest) :
    ∃ front, v.items v.info.treeDepth v.root = front ++ v.items l b ++ rest := by
  induction spine with
  | root => exact ⟨[], by simp⟩
  | @child l b rest i up pos inside next block holds ih =>
    obtain ⟨front, whole⟩ := ih
    have cut : ∀ k, k ≤ v.nrItem b + 1 →
        ∃ before, v.itemsFrom l b 0 = before ++ v.itemsFrom l b k := by
      intro k
      induction k with
      | zero => exact fun _ => ⟨[], rfl⟩
      | succ k step =>
        intro small
        obtain ⟨before, same⟩ := step (by omega)
        exact ⟨before ++ v.items l (v.child b k), by
          rw [same, itemsFrom_cons (by omega), List.append_assoc]⟩
    obtain ⟨before, same⟩ := cut i (by omega)
    refine ⟨front ++ before, ?_⟩
    rw [whole, items_succ pos, same, itemsFrom_cons inside]
    simp only [List.append_assoc]

/-- The current item and those after it are a part of the tree's items. -/
theorem Cursor.split (cursor : Cursor v s b j rest) : ∃ front,
    v.items v.info.treeDepth v.root = front ++ (b, j) :: following v b j rest := by
  obtain ⟨front, whole⟩ := cursor.reached.spine.split
  have cut : ∀ k, k ≤ j → ∃ before, v.leafItems b 0 = before ++ v.leafItems b k := by
    intro k
    induction k with
    | zero => exact fun _ => ⟨[], rfl⟩
    | succ k step =>
      intro small
      have index := cursor.index
      obtain ⟨before, same⟩ := step (by omega)
      refine ⟨before ++ [(b, k)], ?_⟩
      rw [same, leafItems_cons (by omega), List.append_assoc]
      rfl
  obtain ⟨before, same⟩ := cut j (Nat.le_refl j)
  refine ⟨front ++ before, ?_⟩
  rw [whole, show v.items 1 b = v.leafItems b 0 from rfl, same, leafItems_cons cursor.index]
  simp only [following, List.append_assoc, List.cons_append]

end

end Yaboot.Reiserfs
