import Yaboot.Reiserfs.TreeProofs

/-! Which items `next_key` visits. A step climbs to the first node with a later
child and goes down its left edge; above the levels that have a slot of their
own the climb reads the node anew, and asks for the wrong level. -/
namespace Yaboot.Reiserfs
open Buffer CString Word

section
variable {v : Volume} {s t : State} {l b : Nat} {rest : List Position}

/-! ### `search_stat` -/

theorem Holds.isStat {mem : Bytes} {at_ : Nat} (holds : Holds v mem at_ b)
    (inside : k + 16 ≤ v.info.blocksize) (dirId objectid : Nat) :
    isStat mem (at_ + k) dirId objectid = isStat (v.node b) k dirId objectid := by
  have dir : keyDirId mem (at_ + k) = keyDirId (v.node b) k := holds.le (by omega)
  have object : keyObjectid mem (at_ + k) = keyObjectid (v.node b) k := by
    rw [keyObjectid, Nat.add_assoc]
    exact holds.le (by omega)
  have offset : Reiserfs.raw32 mem (at_ + k + 8) = Reiserfs.raw32 (v.node b) (k + 8) := by
    rw [Nat.add_assoc]
    exact holds.raw32 (by omega)
  have unique : Reiserfs.raw32 mem (at_ + k + 12) = Reiserfs.raw32 (v.node b) (k + 12) := by
    rw [Nat.add_assoc]
    exact holds.raw32 (by omega)
  simp only [Reiserfs.isStat, dir, object, offset, unique]

/-- The number of the stat item in a leaf. -/
def Volume.statIn (v : Volume) (dirId objectid b : Nat) : Option Nat :=
  (List.range (v.nrItem b)).find? fun j => isStat (v.node b) (headAt j) dirId objectid

theorem isStat_of_statIn (found : v.statIn dirId objectid b = some j) :
    isStat (v.node b) (headAt j) dirId objectid = true := by
  unfold Volume.statIn at found
  have stat := List.find?_some found
  exact stat

theorem Shaped.leaf_fits {v : Volume} (shaped : v.Shaped 1 b) :
    24 + 24 * v.nrItem b ≤ v.info.blocksize := shaped.2.2

theorem Reached.statIn (here : Reached v s 1 b rest) (dirId objectid : Nat) :
    ((List.range (blkhNrItem s.mem v.info.leaf)).find? fun i =>
      isStat s.mem (v.info.itemhead i) dirId objectid) = v.statIn dirId objectid b := by
  rw [here.leaf.nrItem]
  apply find_congr
  intro j member
  have small := List.mem_range.mp member
  have fits := Shaped.leaf_fits here.spine.shaped
  have inside : headAt j + 16 ≤ v.info.blocksize := by
    unfold headAt
    omega
  rw [Info.itemhead, Nat.add_assoc]
  exact here.leaf.isStat inside dirId objectid

/-- The stat item `search_stat` finds, and the items behind it. -/
def Volume.findStat (v : Volume) (dirId objectid : Nat) : Option (Position × List Position) :=
  let leaf := v.searchFrom dirId objectid v.info.treeDepth v.root []
  (v.statIn dirId objectid leaf.1).map fun j => ((leaf.1, j), v.leafItems leaf.1 (j + 1) ++ leaf.2)

/-- How a search for a stat item ends. -/
structure Found (v : Volume) (s : State) (dirId objectid : Nat) (r : Bool × State) : Prop where
  cached : Cached v r.2
  file : SameFile s r.2
  errnum : r.2.errnum = if r.1 then .ok else .badFsys
  missing : r.1 = false → v.findStat dirId objectid = none
  cursor : r.1 = true → ∃ b j rest, Cursor v r.2 b j rest ∧ v.statIn dirId objectid b = some j ∧
    v.findStat dirId objectid = some ((b, j), following v b j rest) ∧
    (v.RightEdge dirId objectid v.info.treeDepth v.root ↔
      ∀ k, 3 ≤ k → k ≤ v.info.treeDepth → r.2.nextKeyNr k = 0)

theorem Cached.congr {v : Volume} (cached : Cached v s) (mem : t.mem = s.mem)
    (blocks : t.blocks = s.blocks) : Cached v t := by
  obtain ⟨root, leaf, nodes⟩ := cached
  refine ⟨?_, ?_, ?_⟩
  · rwa [mem]
  · rwa [mem]
  · rwa [mem, blocks]

theorem Cached.top {v : Volume} (cached : Cached v s) : Reached v s v.info.treeDepth v.root [] := by
  refine ⟨cached, .root, ?_⟩
  rw [Volume.place, if_pos rfl]
  exact cached.root

theorem place_top (v : Volume) : v.place v.info.treeDepth = 0 := by
  rw [Volume.place, if_pos rfl, Info.cache, Nat.zero_mul]

/-- A search for a stat item finds the one the tree has and stands behind it, or tells that there
is none. -/
theorem Cached.searchStat {v : Volume} (cached : Cached v s) (dirId objectid : Nat) :
    Found v s dirId objectid (searchStat v.disk v.info dirId objectid s) := by
  have start : Cached v { s with errnum := .ok } := cached.congr rfl rfl
  obtain ⟨t, path, searched⟩ := start.top.searchPath dirId objectid
  have reached := searched.reached
  have fine := searched.errnum rfl
  have file : SameFile s t :=
    ⟨searched.file.dirId, searched.file.objectid, searched.file.pos, searched.file.len⟩
  rw [place_top] at path
  have scan := reached.statIn dirId objectid
  unfold Reiserfs.searchStat
  rw [path]
  dsimp only
  rw [scan]
  cases found : v.statIn dirId objectid (v.searchFrom dirId objectid v.info.treeDepth v.root []).1 with
  | none =>
    refine ⟨reached.cached.congr rfl rfl, ?_, rfl, fun _ => ?_, nofun⟩
    · exact ⟨file.dirId, file.objectid, file.pos, file.len⟩
    · rw [Volume.findStat, found]
      rfl
  | some j =>
    refine ⟨reached.cached.congr rfl rfl, ?_, fine, nofun, fun _ => ?_⟩
    · exact ⟨file.dirId, file.objectid, file.pos, file.len⟩
    · refine ⟨_, j, _, reached.arrive (find_range_lt found), found, ?_, searched.edge⟩
      rw [Volume.findStat, found]
      rfl

/-! ### `next_key` -/

/-- The climb from a node: there is nothing behind it, or the first turn. -/
theorem Spine.climb (spine : Spine v s l b rest) :
    (climb s.nextKeyNr (v.info.treeDepth - l) l = none ∧ rest = [] ∧
      ∀ k, l < k → k ≤ v.info.treeDepth → s.nextKeyNr k = 0) ∨
    ∃ e p i after, l ≤ e ∧ climb s.nextKeyNr (v.info.treeDepth - l) l = some (e + 1) ∧
      Spine v s (e + 1) p after ∧ i < v.nrItem p ∧ s.nextKeyNr (e + 1) = i + 1 ∧
      rest = v.itemsFrom e p (i + 1) ++ after ∧ ∀ k, l < k → k ≤ e → s.nextKeyNr k = 0 := by
  induction spine with
  | root =>
    refine .inl ⟨by rw [Nat.sub_self]; rfl, rfl, fun k above le => by omega⟩
  | @child l b rest i up pos inside next block holds ih =>
    have le := up.le
    have count : v.info.treeDepth - l = v.info.treeDepth - (l + 1) + 1 := by omega
    rw [count, Reiserfs.climb]
    by_cases last : i = v.nrItem b
    · have zero : s.nextKeyNr (l + 1) = 0 := next.trans (nextNr_eq_zero.mpr last)
      rw [if_pos zero, last, itemsFrom_end, List.nil_append]
      rcases ih with ⟨none, nothing, zeros⟩ | ⟨e, p, k, after, above, some, spine, room, entry, same, zeros⟩
      · refine .inl ⟨none, nothing, ?_⟩
        intro k above small
        by_cases first : k = l + 1
        · rw [first, zero]
        · exact zeros k (by omega) small
      · refine .inr ⟨e, p, k, after, by omega, some, spine, room, entry, same, ?_⟩
        intro m above small
        by_cases first : m = l + 1
        · rw [first, zero]
        · exact zeros m (by omega) small
    · have entry : s.nextKeyNr (l + 1) = i + 1 := next.trans (if_neg last)
      rw [if_neg (by omega)]
      refine .inr ⟨l, b, i, rest, Nat.le_refl l, rfl, up, by omega, entry, rfl, ?_⟩
      intro k above small
      omega

/-- A round of the descent, to the child the table names. -/
theorem Reached.descend_step (here : Reached v s (l + 2) b rest) (inside : i ≤ v.nrItem b)
    (entry : s.nextKeyNr (l + 2) = i) :
    ∃ t, descend v.disk v.info (l + 2) (v.place (l + 2)) s =
        descend v.disk v.info (l + 1) (v.place (l + 1)) t ∧ Down v s (l + 1) b i rest t := by
  obtain ⟨t, read, down⟩ := here.down (Nat.succ_pos l) inside
  refine ⟨t, ?_, down⟩
  rw [descend]
  simp only [entry, here.holds.nrItem]
  rw [show (if i = v.nrItem b then 0 else i + 1) = nextNr v b i from rfl]
  unfold State.note at read
  rw [read]

/-- What a descent to the first leaf below a node does. -/
structure Leftmost (v : Volume) (s : State) (l : Nat) (ahead : List Position) (t : State) : Prop where
  reached : ∃ leaf after, Reached v t 1 leaf after ∧ ahead = v.leafItems leaf 0 ++ after
  above : ∀ k, l < k → t.nextKeyNr k = s.nextKeyNr k
  left : ∀ k, 1 < k → k ≤ l → t.nextKeyNr k = 1
  errnum : s.errnum = .ok → t.errnum = .ok
  file : SameFile s t

theorem Down.above (down : Down v s l b i rest t) (other : k ≠ l + 1) :
    t.nextKeyNr k = s.nextKeyNr k := by
  rw [down.nextKeyNr]
  exact Function.update_of_ne other _ _

theorem Down.entry (down : Down v s l b i rest t) : t.nextKeyNr (l + 1) = nextNr v b i := by
  rw [down.nextKeyNr]
  exact Function.update_self _ _ _

/-- From a node that was reached, the descent goes down the first child of each level. -/
theorem Reached.leftmost (here : Reached v s l b rest)
    (zeros : ∀ k, 1 < k → k ≤ l → s.nextKeyNr k = 0) :
    ∃ t, descend v.disk v.info l (v.place l) s = (true, t) ∧
      Leftmost v s l (v.items l b ++ rest) t := by
  induction l generalizing s b rest with
  | zero => exact absurd here.spine.pos (Nat.lt_irrefl 0)
  | succ l ih =>
    cases l with
    | zero =>
      refine ⟨s, rfl, ⟨⟨b, rest, here, rfl⟩, fun _ _ => rfl, ?_, id, .refl s⟩⟩
      intro k above small
      omega
    | succ l =>
      have room := Shaped.nrItem_pos here.spine.shaped
      obtain ⟨t, step, down⟩ := here.descend_step (Nat.zero_le _) (zeros (l + 2) (by omega) (by omega))
      obtain ⟨u, path, left⟩ := ih down.reached fun k above small => by
        rw [down.above (by omega), zeros k above (by omega)]
      refine ⟨u, step.trans path, ⟨?_, ?_, ?_, ?_, down.file.trans left.file⟩⟩
      · obtain ⟨leaf, after, reached, same⟩ := left.reached
        refine ⟨leaf, after, reached, ?_⟩
        rw [items_succ (Nat.succ_pos l), itemsFrom_cons (Nat.zero_le _), List.append_assoc]
        exact same
      · intro k above
        rw [left.above k (by omega), down.above (by omega)]
      · intro k above small
        by_cases top : k = l + 2
        · rw [top, left.above (l + 2) (by omega), down.entry, nextNr, if_neg (by omega)]
        · exact left.left k above (by omega)
      · exact fun _ => left.errnum down.errnum

theorem Spine.own (spine : Spine v s l b rest) (below : l < v.info.treeDepth) :
    s.blocks l = b ∧ (l ≤ v.info.cachedSlots → Holds v s.mem (v.info.cache l) b) := by
  cases spine with
  | root => exact absurd below (Nat.lt_irrefl _)
  | child up pos inside next block holds => exact ⟨block, holds⟩

theorem Spine.eq_root (spine : Spine v s l b rest) (top : l = v.info.treeDepth) : b = v.root := by
  cases spine with
  | root => rfl
  | child up pos inside next block holds =>
    have le := up.le
    omega

/-- The node at a level with a slot of its own, or at the root, is at hand. -/
theorem Spine.reached (spine : Spine v s l b rest) (cached : Cached v s)
    (slot : l ≤ v.info.cachedSlots ∨ l = v.info.treeDepth) : Reached v s l b rest := by
  refine ⟨cached, spine, ?_⟩
  by_cases top : l = v.info.treeDepth
  · rw [Volume.place, if_pos top, spine.eq_root top]
    exact cached.root
  · have le := spine.le
    have small : l ≤ v.info.cachedSlots := by omega
    have own : v.slot l = l := Nat.min_eq_left small
    rw [Volume.place, if_neg top, own]
    exact (spine.own (by omega)).2 small

theorem turn_eq (slot : l ≤ v.info.cachedSlots ∨ l = v.info.treeDepth) :
    turn v.disk v.info l s = (l, some (v.place l), s) := by
  unfold turn
  by_cases top : l = v.info.treeDepth
  · rw [if_pos top, top, place_top]
  · have small : l ≤ v.info.cachedSlots := by omega
    have own : v.slot l = l := Nat.min_eq_left small
    rw [if_neg top, if_pos small, Volume.place, if_neg top, own]

/-- How a step changes the tables: it turns at one level, which has a slot of
its own or is the root, and takes first children below. -/
structure Turned (v : Volume) (s t : State) (e : Nat) : Prop where
  entry : 0 < e → s.nextKeyNr (e + 1) ≠ 0
  slot : e + 1 ≤ v.info.cachedSlots ∨ e + 1 = v.info.treeDepth
  above : ∀ k, e + 1 < k → t.nextKeyNr k = s.nextKeyNr k
  below : ∀ k, 1 < k → k ≤ e → t.nextKeyNr k ≠ 0

/-- What `next_key` does at an item. -/
inductive Step (v : Volume) (s : State) (b j : Nat) (rest : List Position) : Bool × State → Prop where
  | moved (cursor : Cursor v u c k after)
      (next : following v b j rest = (c, k) :: following v c k after) (turned : Turned v s u e)
      (errnum : s.errnum = .ok → u.errnum = .ok) (file : SameFile s u) :
      Step v s b j rest (true, u)
  | last (cached : Cached v u) (leaf : Holds v u.mem v.info.leaf b)
      (dummy : u.currentIh = v.info.leaf + 8) (none : following v b j rest = [])
      (zeros : ∀ k, 1 < k → k ≤ v.info.treeDepth → s.nextKeyNr k = 0)
      (errnum : u.errnum = s.errnum) (file : SameFile s u) : Step v s b j rest (true, u)
  | stuck (cached : Cached v u) (high : v.info.cachedSlots < d) (low : d < v.info.treeDepth)
      (entry : s.nextKeyNr d ≠ 0) (errnum : u.errnum = .badFsys) (file : SameFile s u) :
      Step v s b j rest (false, u)

/-- Reading the node of a level without a slot of its own fails. -/
theorem Reached.reread (here : Reached v s l b rest) (spine : Spine v s (e + 1) p after)
    (high : v.info.cachedSlots < e + 1) (low : e + 1 < v.info.treeDepth) :
    ∃ t, readTreeNode v.disk v.info (s.blocks (e + 1)) e s = (none, t) ∧ Cached v t ∧
      t.errnum = .badFsys ∧ SameFile s t := by
  have slots := v.slots_ge
  have block := (spine.own low).1
  have held := holds_read (v := v) s.mem (v.info.cache v.info.cachedSlots) p
  unfold readTreeNode
  dsimp only
  rw [if_neg (by omega), v.blockReadInto, block, Nat.min_eq_right (by omega)]
  have wrong : blkhLevel (blit s.mem (v.info.cache v.info.cachedSlots) v.info.blocksize (v.node p))
      (v.info.cache v.info.cachedSlots) ≠ e := by
    rw [held.level, Shaped.level spine.shaped]
    omega
  rw [if_pos wrong]
  refine ⟨_, rfl, ⟨?_, ?_, ?_⟩, rfl, ⟨rfl, rfl, rfl, rfl⟩⟩
  · exact here.cached.root.frame (by omega) _
  · intro flat
    omega
  · intro k pos below small known
    exact (here.cached.nodes k pos below small known).frame (by omega) _

theorem itemhead_succ (info : Info) (j : Nat) : info.itemhead j + 24 = info.itemhead (j + 1) := by
  unfold Info.itemhead
  omega

theorem itemhead_inj {info : Info} {i j : Nat} : info.itemhead i = info.itemhead j ↔ i = j := by
  unfold Info.itemhead
  omega

/-- From a node with a later child, `next_key` goes to the first leaf below it. -/
theorem Reached.turn (here : Reached v s (e + 1) p after) (pos : 0 < e) (room : i < v.nrItem p)
    (entry : s.nextKeyNr (e + 1) = i + 1) (zeros : ∀ k, 1 < k → k ≤ e → s.nextKeyNr k = 0)
    (slot : e + 1 ≤ v.info.cachedSlots ∨ e + 1 = v.info.treeDepth) :
    ∃ t leaf behind, descend v.disk v.info (e + 1) (v.place (e + 1)) s = (true, t) ∧
      Reached v t 1 leaf behind ∧ Turned v s t e ∧ t.errnum = .ok ∧ SameFile s t ∧
      v.itemsFrom e p (i + 1) ++ after = v.leafItems leaf 0 ++ behind := by
  obtain ⟨e, rfl⟩ : ∃ k, e = k + 1 := ⟨e - 1, by omega⟩
  obtain ⟨t, step, down⟩ := here.descend_step (by omega) entry
  obtain ⟨u, path, left⟩ := down.reached.leftmost fun k above small => by
    rw [down.above (by omega), zeros k above small]
  obtain ⟨leaf, behind, reached, same⟩ := left.reached
  refine ⟨u, leaf, behind, step.trans path, reached, ⟨?_, slot, ?_, ?_⟩,
    left.errnum down.errnum, down.file.trans left.file, ?_⟩
  · intro _
    omega
  · intro k above
    rw [left.above k (by omega), down.above (by omega)]
  · intro k above small
    rw [left.left k above small]
    exact Nat.one_ne_zero
  · rw [itemsFrom_cons (by omega), List.append_assoc]
    exact same

/-- `next_key` steps to the item behind the cursor, or tells that there is none. -/
theorem Cursor.nextKey (cursor : Cursor v s b j rest) :
    Step v s b j rest (nextKey v.disk v.info s) := by
  have index := cursor.index
  have leaf := cursor.reached.leaf
  have slots := v.slots_ge
  unfold Reiserfs.nextKey
  dsimp only
  rw [cursor.here, itemhead_succ, leaf.nrItem]
  by_cases more : j + 1 < v.nrItem b
  · rw [if_neg (by rw [itemhead_inj]; omega)]
    refine .moved (e := 0) (cursor.reached.arrive more) ?_ ?_ id ⟨rfl, rfl, rfl, rfl⟩
    · rw [following, leafItems_cons more]
      rfl
    · exact ⟨fun positive => absurd positive (Nat.lt_irrefl 0), .inl (by omega), fun _ _ => rfl,
        fun k above small => by omega⟩
  · have done : following v b j rest = rest := by
      have full : j + 1 = v.nrItem b := by omega
      rw [following, Volume.leafItems, Reiserfs.leafItems, full, Volume.nrItem, Nat.sub_self]
      rfl
    rw [if_pos (by rw [itemhead_inj]; omega)]
    rcases cursor.reached.spine.climb with
      ⟨top, nothing, zeros⟩ | ⟨e, p, i, after, pos, found, spine, room, entry, same, zeros⟩
    · rw [top]
      exact .last (cursor.reached.cached.congr rfl rfl) leaf rfl (done.trans nothing) zeros rfl
        ⟨rfl, rfl, rfl, rfl⟩
    · rw [found]
      dsimp only
      have le := spine.le
      by_cases slot : e + 1 ≤ v.info.cachedSlots ∨ e + 1 = v.info.treeDepth
      · have here := spine.reached cursor.reached.cached slot
        have from_ := turn_eq (s := s) slot
        obtain ⟨t, leaf, behind, path, reached, turned, fine, file, ahead⟩ :=
          here.turn pos room entry zeros slot
        rw [from_]
        dsimp only
        rw [path]
        have first := Shaped.nrItem_pos reached.spine.shaped
        refine .moved (reached.arrive first) ?_ ⟨turned.entry, turned.slot, turned.above, turned.below⟩
          (fun _ => fine) ⟨file.dirId, file.objectid, file.pos, file.len⟩
        rw [done, same, ahead, leafItems_cons first]
        rfl
      · obtain ⟨t, read, cached, bad, file⟩ :=
          cursor.reached.reread spine (by omega) (by omega)
        have from_ : Reiserfs.turn v.disk v.info (e + 1) s = (e, none, t) := by
          rw [Reiserfs.turn, if_neg (by omega), if_neg (by omega), Nat.add_sub_cancel, read]
        rw [from_]
        have turnable : s.nextKeyNr (e + 1) ≠ 0 := by omega
        exact .stuck cached (by omega) (by omega) turnable bad file

/-! ### Runs -/

/-- The current item is the one at a position. -/
structure Shows (v : Volume) (s : State) (p : Position) : Prop where
  leaf : Holds v s.mem v.info.leaf p.1
  index : p.2 < v.nrItem p.1
  here : s.currentIh = v.info.itemhead p.2
  item : s.currentItem = v.info.leaf + ihLocation s.mem s.currentIh

theorem Cursor.shows (cursor : Cursor v s b j rest) : Shows v s (b, j) :=
  ⟨cursor.reached.leaf, cursor.index, cursor.here, cursor.item⟩

end

/-- Calls of `next_key` show the given items one after the other and then the
right delimiting key of the last leaf. -/
inductive Enumerates (v : Volume) : State → List Position → Prop where
  | last (call : nextKey v.disk v.info s = (true, t)) (dummy : t.currentIh = v.info.leaf + 8) :
      Enumerates v s []
  | item (call : nextKey v.disk v.info s = (true, t)) (shows : Shows v t p)
      (more : Enumerates v t ps) : Enumerates v s (p :: ps)

section
variable {v : Volume} {s t : State} {b j : Nat} {rest : List Position}

/-- No climb ends at a level without a slot of its own. -/
def Easy (v : Volume) (s : State) : Prop :=
  v.info.treeDepth ≤ v.info.cachedSlots + 1 ∨
    ∀ k, v.info.cachedSlots < k → k ≤ v.info.treeDepth → s.nextKeyNr k = 0

theorem Easy.turned (easy : Easy v s) (turned : Turned v s t e) : Easy v t := by
  rcases easy with shallow | zeros
  · exact .inl shallow
  · right
    intro k high low
    have slots := v.slots_ge
    have small : e + 1 ≤ v.info.cachedSlots := by
      rcases turned.slot with small | top
      · exact small
      · by_contra large
        exact turned.entry (by omega) (zeros (e + 1) (by omega) (by omega))
    rw [turned.above k (by omega), zeros k high low]

/-- Step after step, `next_key` comes to every item behind the cursor, in order. -/
theorem Cursor.enumerates (cursor : Cursor v s b j rest) (easy : Easy v s) :
    Enumerates v s (following v b j rest) := by
  induction size : (following v b j rest).length generalizing s b j rest with
  | zero =>
    have none := List.eq_nil_of_length_eq_zero size
    have step := cursor.nextKey
    generalize call : Reiserfs.nextKey v.disk v.info s = r at step
    cases step with
    | moved after next turned errnum file => rw [none] at next; cases next
    | last cached leaf dummy nothing zeros errnum file => rw [none]; exact .last call dummy
    | @stuck u d cached high low entry errnum file =>
      rcases easy with shallow | zeros
      · omega
      · exact absurd (zeros d high (by omega)) entry
  | succ n ih =>
    have step := cursor.nextKey
    generalize call : Reiserfs.nextKey v.disk v.info s = r at step
    cases step with
    | moved after next turned errnum file =>
      rw [next] at size ⊢
      refine .item call after.shows (ih after (easy.turned turned) ?_)
      simpa using size
    | last cached leaf dummy nothing zeros errnum file => rw [nothing] at size; cases size
    | @stuck u d cached high low entry errnum file =>
      rcases easy with shallow | zeros
      · omega
      · exact absurd (zeros d high (by omega)) entry

/-- A path that turns at a level above the slots meets a climb that fails. -/
theorem Cursor.not_enumerates (cursor : Cursor v s b j rest)
    (deep : v.info.cachedSlots + 1 < v.info.treeDepth) (high : v.info.cachedSlots < k)
    (low : k ≤ v.info.treeDepth) (turns : s.nextKeyNr k ≠ 0) :
    ¬ Enumerates v s (following v b j rest) := by
  intro run
  have slots := v.slots_ge
  generalize list : following v b j rest = ps at run
  induction run generalizing b j rest k with
  | @last s t call dummy =>
    have step := cursor.nextKey
    rw [call] at step
    cases step with
    | moved after next turned errnum file =>
      rw [list] at next
      cases next
    | last cached leaf dummy nothing zeros errnum file => exact turns (zeros k (by omega) low)
  | @item s t p ps call shows more ih =>
    have step := cursor.nextKey
    rw [call] at step
    cases step with
    | @moved u c i after e inner next turned errnum file =>
      rw [list] at next
      cases next
      by_cases above : e + 1 < k
      · exact ih inner high low (by rwa [turned.above k above]) rfl
      · rcases turned.slot with small | top
        · omega
        · exact ih inner (k := e) (by omega) (by omega)
            (turned.below e (by omega) (Nat.le_refl e)) rfl
    | last cached leaf dummy nothing zeros errnum file => exact turns (zeros k (by omega) low)

end

/-! ### Opening a volume -/

theorem readSuper_readRoot (mounted : reiserfsReadSuper disk offset fuel mem = some m) :
    ∃ info mem root, readRoot disk info mem root = some m := by
  unfold reiserfsReadSuper at mounted
  split at mounted
  · cases mounted
  · dsimp only at mounted
    split at mounted
    · cases mounted
    · split at mounted
      · exact ⟨_, _, _, mounted⟩
      · split at mounted
        · cases mounted
        · split at mounted
          · cases mounted
          · exact ⟨_, _, _, mounted⟩

/-- The cache is in order once a volume is open. -/
theorem cached_mounted (v : Volume)
    (mounted : reiserfsReadSuper v.disk offset fuel mem = some m) (info : m.info = v.info)
    (root : m.root = v.root) : Cached v m.state := by
  obtain ⟨before, old, block, read⟩ := readSuper_readRoot mounted
  unfold readRoot at read
  dsimp only at read
  split at read
  · cases read
  · cases read
    have transactions := congrArg Info.journalTransactions info
    have size := congrArg Info.blocksize info
    have place := congrArg Info.partitionOffset info
    have depth := congrArg Info.treeDepth info
    dsimp only at transactions size place depth root
    have whole : blockReadInto v.disk before old block 0 v.info.blocksize 0 =
        blit old (v.info.cache 0) v.info.blocksize (v.node v.root) := by
      rw [blockReadInto_empty (transactions.trans v.empty), root, Info.cache, Nat.zero_mul]
      unfold Volume.node node readDiskBlock
      rw [size, place]
    have first : v.info.cache 0 = 0 := Nat.zero_mul _
    have second : v.info.cache 1 = v.info.blocksize := Nat.one_mul _
    have held := holds_read (v := v) old (v.info.cache 0) v.root
    rw [size, whole] at depth
    refine ⟨?_, ?_, fun l pos below small known => absurd rfl known⟩
    · simp only [Mounted.state, size, whole, depth]
      split
      · have slot := held.frame (k := 1) (by decide)
        rw [second] at slot
        exact slot _
      · exact held
    · intro flat
      simp only [Mounted.state, size, whole, depth, flat, ↓reduceIte]
      intro i inside
      rw [second, blit_inside _ _ (Nat.le_add_right _ _) (by omega), Nat.add_sub_cancel_left,
        ← held i inside, first, Nat.zero_add]

/-- A volume in use: searches, and calls of `next_key` as long as there is a
current item. -/
inductive Session (v : Volume) (start : State) : State → Bool → Prop where
  | mount : Session v start start false
  | search (before : Session v start s live)
      (call : searchStat v.disk v.info dirId objectid s = (found, t)) : Session v start t found
  | next (before : Session v start s true) (call : nextKey v.disk v.info s = (done, t)) :
      Session v start t (done && decide (t.currentIh ≠ v.info.leaf + 8))

/-- Over a session of searches and steps the cache keeps holding what the disk has. -/
theorem Session.cached {v : Volume} (session : Session v start s live) (cached : Cached v start) :
    Cached v s ∧ (live = true → ∃ b j rest, Cursor v s b j rest) := by
  induction session with
  | mount => exact ⟨cached, nofun⟩
  | @search s live dirId objectid found t before call ih =>
    have result := ih.1.searchStat dirId objectid
    rw [call] at result
    refine ⟨result.cached, fun success => ?_⟩
    obtain ⟨b, j, rest, cursor, -⟩ := result.cursor success
    exact ⟨b, j, rest, cursor⟩
  | @next s done t before call ih =>
    obtain ⟨b, j, rest, cursor⟩ := ih.2 rfl
    have step := cursor.nextKey
    rw [call] at step
    cases step with
    | moved after next turned errnum file =>
      exact ⟨after.reached.cached, fun _ => ⟨_, _, _, after⟩⟩
    | last cached leaf dummy none zeros errnum file =>
      refine ⟨cached, fun live => ?_⟩
      simp [dummy] at live
    | stuck cached high low entry errnum file => exact ⟨cached, nofun⟩

/-- After a successful search, `next_key` goes through the items behind the one
found exactly when no climb has to end above the slots of the cache: blocks of
at most 4096 bytes, a tree of at most three levels, or an item below the last
node of level 2. -/
theorem nextKey_enumerates_iff (v : Volume)
    (mounted : reiserfsReadSuper v.disk offset fuel mem = some m) (info : m.info = v.info)
    (root : m.root = v.root) (session : Session v m.state s live)
    (found : searchStat v.disk v.info dirId objectid s = (true, t)) :
    ∃ front p rest, v.items v.info.treeDepth v.root = front ++ p :: rest ∧ Shows v t p ∧
      isStat (v.node p.1) (headAt p.2) dirId objectid = true ∧
      (Enumerates v t rest ↔ v.info.blocksize ≤ 4096 ∨ v.info.treeDepth ≤ 3 ∨
        v.RightEdge dirId objectid v.info.treeDepth v.root) := by
  have cached := (session.cached (cached_mounted v mounted info root)).1
  have result := cached.searchStat dirId objectid
  rw [found] at result
  obtain ⟨b, j, rest, cursor, stat, -, edge⟩ := result.cursor rfl
  obtain ⟨front, whole⟩ := cursor.split
  have depth := v.depth_lt
  unfold maxTreeHeight at depth
  refine ⟨front, (b, j), _, whole, cursor.shows, isStat_of_statIn stat, ?_⟩
  constructor
  · intro run
    rcases v.slots_cases with ⟨small, slots⟩ | ⟨large, slots⟩
    · exact .inl small
    by_cases shallow : v.info.treeDepth ≤ 3
    · exact .inr (.inl shallow)
    refine .inr (.inr (edge.mpr ?_))
    intro k high low
    by_contra turns
    exact cursor.not_enumerates (by omega) (by omega) low turns run
  · intro fine
    apply cursor.enumerates
    rcases v.slots_cases with ⟨small, slots⟩ | ⟨large, slots⟩
    · exact .inl (by omega)
    rcases fine with small | shallow | right
    · omega
    · exact .inl (by omega)
    · exact .inr fun k high low => edge.mp right k (by omega) low

/-! ### A tree of four levels in blocks of 8192 bytes -/

/-- The bytes of an inner node with one key, numbered as in a heap. -/
def deepInner (k off : Nat) : UInt8 :=
  match off with
  | 0 => if k = 0 then 4 else if k ≤ 2 then 3 else 2
  | 2 => 1
  | 24 => 1
  | 28 => [5, 3, 7, 2, 4, 6, 8].getD k 0
  | 40 => UInt8.ofNat (17 + 2 * k)
  | 48 => UInt8.ofNat (18 + 2 * k)
  | _ => 0

/-- The bytes of a leaf with the stat item of one object. -/
def deepLeaf (objectid off : Nat) : UInt8 :=
  match off with
  | 0 => 1
  | 2 => 1
  | 24 => 1
  | 28 => UInt8.ofNat objectid
  | _ => 0

def deepSuper (off : Nat) : UInt8 :=
  match off with
  | 8 => 16
  | 45 => 32
  | 72 => 2
  | _ => if 52 ≤ off then (cstr "ReIsEr2Fs").getD (off - 52) 0 else 0

/-- A tree of four levels on a volume with blocks of 8192 bytes. -/
def deepDisk : Bytes := fun a =>
  let b := a / 8192
  if b = 8 then deepSuper (a % 8192)
  else if 16 ≤ b ∧ b ≤ 22 then deepInner (b - 16) (a % 8192)
  else if 23 ≤ b ∧ b ≤ 30 then deepLeaf (b - 22) (a % 8192)
  else 0

/-- Its root is block 16 and its leaves are the blocks 23 to 30. -/
def deep : Volume where
  disk := deepDisk
  info := { version := 2, treeDepth := 4, blocksize := 8192, blocksizeShift := 13, cachedSlots := 2 }
  root := 16
  shift_ge := by decide
  shift_le := by decide
  blocksize_eq := by decide
  slots_eq := by decide
  empty := by decide
  depth_lt := by decide
  shaped := by decide +kernel

theorem deep_mounts : ∃ m, reiserfsReadSuper deep.disk 0 0 (fun _ => 0) = some m ∧
    m.info = deep.info ∧ m.root = deep.root := by
  have opens : (reiserfsReadSuper deep.disk 0 0 (fun _ => 0)).map (fun m => (m.info, m.root)) =
      some (deep.info, deep.root) := by decide +kernel
  obtain ⟨m, mounted, same⟩ := Option.map_eq_some_iff.mp opens
  exact ⟨m, mounted, congrArg Prod.fst same, congrArg Prod.snd same⟩

/-- The last two items come one after the other. -/
theorem deep_last_items : ∃ m t, reiserfsReadSuper deep.disk 0 0 (fun _ => 0) = some m ∧
    searchStat deep.disk deep.info 1 7 m.state = (true, t) ∧
    ∃ front p rest, deep.items 4 16 = front ++ p :: rest ∧ Shows deep t p ∧
      isStat (deep.node p.1) (headAt p.2) 1 7 = true ∧
      (Enumerates deep t rest ↔ deep.info.blocksize ≤ 4096 ∨ deep.info.treeDepth ≤ 3 ∨
        deep.RightEdge 1 7 4 16) := by
  obtain ⟨m, mounted, info, root⟩ := deep_mounts
  have success : ((reiserfsReadSuper deep.disk 0 0 (fun _ => 0)).map fun m =>
      (searchStat deep.disk deep.info 1 7 m.state).1) = some true := by decide +kernel
  rw [mounted] at success
  have found : searchStat deep.disk deep.info 1 7 m.state =
      (true, (searchStat deep.disk deep.info 1 7 m.state).2) := by
    rw [← Option.some.inj success]
  exact ⟨m, _, mounted, found, nextKey_enumerates_iff deep mounted info root .mount found⟩

/-- The item after the second leaf is below another node of level 2, and
`next_key` fails. -/
theorem deep_stops : Ordered deep.disk deep.info 4 16 ∧
    deep.items 4 16 =
      [(23, 0), (24, 0), (25, 0), (26, 0), (27, 0), (28, 0), (29, 0), (30, 0)] ∧
    ∃ m t, reiserfsReadSuper deep.disk 0 0 (fun _ => 0) = some m ∧
      searchStat deep.disk deep.info 1 2 m.state = (true, t) ∧ t.currentIh = deep.info.itemhead 0 ∧
      (nextKey deep.disk deep.info t).1 = false ∧
      ¬ Enumerates deep t [(25, 0), (26, 0), (27, 0), (28, 0), (29, 0), (30, 0)] := by
  obtain ⟨m, mounted, -⟩ := deep_mounts
  have run : ((reiserfsReadSuper deep.disk 0 0 (fun _ => 0)).map fun m =>
      ((searchStat deep.disk deep.info 1 2 m.state).1,
        (searchStat deep.disk deep.info 1 2 m.state).2.currentIh,
        (nextKey deep.disk deep.info (searchStat deep.disk deep.info 1 2 m.state).2).1)) =
      some (true, deep.info.itemhead 0, false) := by decide +kernel
  rw [mounted] at run
  have parts := Option.some.inj run
  simp only [Prod.mk.injEq] at parts
  obtain ⟨success, here, fails⟩ := parts
  refine ⟨by decide +kernel, by decide +kernel, m, _, mounted, ?_, here, fails, ?_⟩
  · rw [← success]
  · intro run
    cases run with
    | item call shows more =>
      rw [call] at fails
      cases fails

end Yaboot.Reiserfs
