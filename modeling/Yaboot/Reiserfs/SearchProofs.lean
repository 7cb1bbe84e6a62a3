import Yaboot.Reiserfs.FileProofs

/-! A search against the keys of the tree. In a tree whose keys are in order the
items are sorted, `search_stat` finds every object that has a stat item, and the
other items of an object come right behind it. -/
namespace Yaboot.Reiserfs
open Buffer CString Word

/-- An object, by its directory id and its object id. -/
abbrev Object := Nat × Nat

/-! ### Keys -/

/-- The key of the stat item of an object, the least of its keys. -/
def statKey (o : Object) : List Nat := [o.1, o.2, 0, 0]

theorem le_four (b : Bytes) (k : Nat) : le b k 4 = 0 ↔ raw32 b k = 0 := by
  unfold raw32
  simp only [le, Nat.add_assoc, Nat.reduceAdd]
  omega

theorem uniqueness2type_eq_zero : uniqueness2type u = 0 ↔ u = 0 := by
  unfold uniqueness2type
  split
  · simp_all
  · split
    · simp_all
    · split
      · simp_all
      · split <;> simp_all

/-- Two keys of one object: the offset and the type decide. -/
theorem keyAt_tail (b : Bytes) (k : Nat) :
    ∃ offset type, keyAt b k = [keyDirId b k, keyObjectid b k, offset, type] ∧
      (offset = 0 ∧ type = 0 ↔ raw32 b (k + 8) = 0 ∧ raw32 b (k + 12) = 0) := by
  have first := le_four b (k + 8)
  have second := le_four b (k + 12)
  have unique := @uniqueness2type_eq_zero (le b (k + 12) 4)
  unfold keyAt
  dsimp only
  split
  · refine ⟨_, _, rfl, ?_⟩
    omega
  · refine ⟨_, _, rfl, ?_⟩
    omega

/-- `search_stat` compares with the key of a stat item. -/
theorem keyBehind_iff (b : Bytes) (k : Nat) (o : Object) :
    keyBehind b k o.1 o.2 = true ↔ statKey o < keyAt b k := by
  obtain ⟨offset, type, key, zero⟩ := keyAt_tail b k
  rw [key]
  unfold keyBehind statKey
  have some_ : 0 < (raw32 b (k + 8) ||| raw32 b (k + 12)) ↔
      ¬ (raw32 b (k + 8) = 0 ∧ raw32 b (k + 12) = 0) := by
    rw [Nat.pos_iff_ne_zero, ne_eq, Nat.or_eq_zero_iff]
  simp only [Bool.or_eq_true, Bool.and_eq_true, decide_eq_true_eq, beq_iff_eq, some_, ← zero,
    List.cons_lt_cons_iff, List.not_lt_nil, and_false, or_false]
  omega

theorem isStat_key (stat : isStat b k o.1 o.2 = true) : keyAt b k = statKey o := by
  obtain ⟨offset, type, key, zero⟩ := keyAt_tail b k
  unfold isStat at stat
  simp only [Bool.and_eq_true, beq_iff_eq] at stat
  obtain ⟨⟨⟨dir, object⟩, first⟩, second⟩ := stat
  obtain ⟨offset_zero, type_zero⟩ := zero.mpr ⟨first, second⟩
  rw [key, dir, object, offset_zero, type_zero]
  rfl

theorem key_lt_of_lt_of_not_lt {a b c : List Nat} (first : a < b) (second : ¬ c < b) : a < c := by
  by_contra other
  exact second (List.lt_of_le_of_lt (List.not_lt.mp other) first)

/-- A row of keys of which each is less than the next is sorted. -/
theorem keys_sorted {f : Nat → List Nat} (step : ∀ i < n - 1, f i < f (i + 1)) (less : i < j)
    (inside : j < n) : f i < f j := by
  induction j with
  | zero => omega
  | succ j ih =>
    by_cases last : i = j
    · rw [last]
      exact step j (by omega)
    · exact List.lt_trans (ih (by omega) (by omega)) (step j (by omega))

theorem keys_not_lt {f : Nat → List Nat} (step : ∀ i < n - 1, f i < f (i + 1)) (le : i ≤ j)
    (inside : j < n) : ¬ f j < f i := by
  by_cases same : i = j
  · rw [same]
    exact List.lt_irrefl _
  · exact List.lt_asymm (keys_sorted step (by omega) inside)

/-! ### The items in order -/

namespace Volume

variable (v : Volume)

def dirIdOf (p : Position) : Nat := keyDirId (v.node p.1) (headAt p.2)
def keyOf (p : Position) : List Nat := itemKey v.disk v.info p
def allItems : List Position := v.items v.info.treeDepth v.root

/-- The stat item of an object is at `p`. -/
def isStatOf (o : Object) (p : Position) : Bool := isStat (v.node p.1) (headAt p.2) o.1 o.2

/-- The stat item of an object. -/
def stat (o : Object) : Option Position := v.allItems.find? (v.isStatOf o)

/-- The other items of an object. -/
def body (o : Object) : List Position :=
  v.allItems.filter fun p => v.dirIdOf p == o.1 && v.objectidOf p == o.2 && !v.isStatOf o p

end Volume

section
variable {v : Volume} {b : Nat}

/-- In an ordered tree the items come in the order of their keys. -/
theorem Ordered.sorted (ordered : Ordered v.disk v.info h b) :
    (v.items h b).Pairwise fun p q => v.keyOf p < v.keyOf q := by
  induction h using Nat.strongRecOn generalizing b with
  | _ h ih =>
    match h with
    | 0 => exact List.Pairwise.nil
    | 1 =>
      unfold Volume.items items leafItems
      rw [List.pairwise_map]
      refine List.Pairwise.imp_of_mem ?_ List.pairwise_lt_range'
      intro i j _ inside less
      have small := List.mem_range'_1.mp inside
      exact keys_sorted (f := fun i => v.keyOf (b, i)) ordered less (by omega)
    | h + 2 =>
      obtain ⟨delims, around, below⟩ := ordered
      unfold Volume.items items
      rw [List.pairwise_flatMap]
      refine ⟨fun i member => ?_, List.Pairwise.imp_of_mem ?_ List.pairwise_lt_range'⟩
      · have small := List.mem_range'_1.mp member
        exact ih (h + 1) (by omega) (below i (by omega))
      · intro i j first second less p inFirst q inSecond
        have small := List.mem_range'_1.mp second
        obtain ⟨k, rfl⟩ : ∃ k, j = k + 1 := ⟨j - 1, by omega⟩
        have left := (around i (by omega)).1 p inFirst
        have right := (around k (by omega)).2 q inSecond
        have between := keys_not_lt (f := fun i => delimKey v.disk v.info b i) delims
          (show i ≤ k by omega) (by omega)
        exact key_lt_of_lt_of_not_lt (key_lt_of_lt_of_not_lt left between) (not_lt.mpr right)

theorem itemKey_stat (stat : v.isStatOf o p = true) : v.keyOf p = statKey o := isStat_key stat

theorem not_stat_of_lt (o : Object) (less : v.keyOf p < statKey o) : v.isStatOf o p = false := by
  rw [Bool.eq_false_iff]
  intro stat
  rw [itemKey_stat stat] at less
  exact List.lt_irrefl _ less

theorem not_stat_of_gt (o : Object) (less : statKey o < v.keyOf p) : v.isStatOf o p = false := by
  rw [Bool.eq_false_iff]
  intro stat
  rw [itemKey_stat stat] at less
  exact List.lt_irrefl _ less

theorem delim_behind (o : Object) (i : Nat) :
    keyBehind (v.node b) (0 + 24 + 16 * i) o.1 o.2 = true ↔
      statKey o < delimKey v.disk v.info b i := by
  rw [keyBehind_iff, Nat.zero_add]
  rfl

/-- The child a search takes: keys before it are not behind the stat item, and its
own is, if it has one. -/
theorem childFor_cases (o : Object) (b : Nat) :
    (∀ i < v.childFor o.1 o.2 b, ¬ statKey o < delimKey v.disk v.info b i) ∧
      (v.childFor o.1 o.2 b < v.nrItem b →
        statKey o < delimKey v.disk v.info b (v.childFor o.1 o.2 b)) ∧
      v.childFor o.1 o.2 b ≤ v.nrItem b := by
  have count : blkhNrItem (v.node b) 0 = v.nrItem b := rfl
  have le := childFor_le (v.node b) 0 o.1 o.2
  unfold Volume.childFor
  rw [count] at le
  unfold childFor at le ⊢
  rw [count] at le ⊢
  cases found : (List.range (v.nrItem b)).find? fun i =>
      keyBehind (v.node b) (0 + 24 + 16 * i) o.1 o.2 with
  | none =>
    simp only [found, Option.getD_none] at le ⊢
    refine ⟨fun i inside => ?_, fun less => absurd less (Nat.lt_irrefl _), le⟩
    have none := List.find?_eq_none.mp found i (List.mem_range.mpr inside)
    exact fun less => none ((delim_behind o i).mpr less)
  | some k =>
    simp only [found, Option.getD_some] at le ⊢
    obtain ⟨behind, -, earlier⟩ := List.find?_range_eq_some.mp found
    refine ⟨fun i inside less => ?_, fun _ => (delim_behind o k).mp behind, le⟩
    have passed := earlier i inside
    rw [(delim_behind o i).mpr less] at passed
    cases passed

/-- The leaf a search leads to, among the items below a node: the stat item of
the object is in that leaf or nowhere. -/
theorem Ordered.search (ordered : Ordered v.disk v.info (h + 1) b) (o : Object)
    (rest : List Position) :
    ∃ leaf front mid, v.items (h + 1) b = front ++ v.leafItems leaf 0 ++ mid ∧
      v.searchFrom o.1 o.2 (h + 1) b rest = (leaf, mid ++ rest) ∧
      ∀ p ∈ front ++ mid, v.isStatOf o p = false := by
  induction h generalizing b rest with
  | zero => exact ⟨b, [], [], by simp [Volume.items, items, Volume.leafItems], rfl, by simp⟩
  | succ h ih =>
    obtain ⟨delims, around, below⟩ := ordered
    obtain ⟨before, own, inside⟩ := childFor_cases (v := v) o b
    have unfolded : v.searchFrom o.1 o.2 (h + 1 + 1) b rest =
        v.searchFrom o.1 o.2 (h + 1) (v.child b (v.childFor o.1 o.2 b))
          (v.itemsFrom (h + 1) b (v.childFor o.1 o.2 b + 1) ++ rest) := rfl
    rw [unfolded]
    generalize v.childFor o.1 o.2 b = i at before own inside
    have child : Ordered v.disk v.info (h + 1) (v.child b i) := below i inside
    obtain ⟨leaf, front, mid, whole, found, clear⟩ := ih child
      (v.itemsFrom (h + 1) b (i + 1) ++ rest)
    have split : v.items (h + 1 + 1) b =
        ((List.range' 0 i).flatMap fun k => v.items (h + 1) (v.child b k)) ++
          v.items (h + 1) (v.child b i) ++ v.itemsFrom (h + 1) b (i + 1) := by
      have cut : ∀ k ≤ i, v.itemsFrom (h + 1) b 0 =
          ((List.range' 0 k).flatMap fun k => v.items (h + 1) (v.child b k)) ++
            v.itemsFrom (h + 1) b k := by
        intro k le
        induction k with
        | zero => rfl
        | succ k step =>
          rw [step (by omega), itemsFrom_cons (by omega), List.range'_1_concat, List.flatMap_append,
            List.append_assoc]
          simp
      rw [items_succ (Nat.succ_pos h), cut i (Nat.le_refl i), itemsFrom_cons inside,
        List.append_assoc]
    refine ⟨leaf, ((List.range' 0 i).flatMap fun k => v.items (h + 1) (v.child b k)) ++ front,
      mid ++ v.itemsFrom (h + 1) b (i + 1), ?_, ?_, ?_⟩
    · rw [split, whole]
      simp only [List.append_assoc]
    · rw [found, List.append_assoc]
    · intro p member
      have count : v.nrItem b = nrItem v.disk v.info b := rfl
      simp only [List.append_assoc, List.mem_append] at member
      rcases member with early | inFront | inMid | late
      · obtain ⟨k, less, inChild⟩ := List.mem_flatMap.mp early
        have small := List.mem_range'_1.mp less
        apply not_stat_of_lt
        exact key_lt_of_lt_of_not_lt ((around k (by omega)).1 p inChild) (before k (by omega))
      · exact clear p (List.mem_append_left mid inFront)
      · exact clear p (List.mem_append_right front inMid)
      · unfold Volume.itemsFrom itemsFrom at late
        obtain ⟨k, range, inChild⟩ := List.mem_flatMap.mp late
        have small := List.mem_range'_1.mp range
        obtain ⟨k, rfl⟩ : ∃ j, k = j + 1 := ⟨k - 1, by omega⟩
        have after : i ≤ k := by omega
        have room : k < nrItem v.disk v.info b := by omega
        apply not_stat_of_gt
        have next := keys_not_lt (f := fun i => delimKey v.disk v.info b i) delims after room
        have first := key_lt_of_lt_of_not_lt (own (count ▸ after.trans_lt room)) next
        exact key_lt_of_lt_of_not_lt first (not_lt.mpr ((around k room).2 p inChild))

/-- The item before the rest of its leaf. -/
theorem leafItems_split (index : j < v.nrItem b) :
    ∃ before, v.leafItems b 0 = before ++ (b, j) :: v.leafItems b (j + 1) := by
  induction j with
  | zero => exact ⟨[], leafItems_cons index⟩
  | succ j ih =>
    obtain ⟨before, same⟩ := ih (by omega)
    refine ⟨before ++ [(b, j)], ?_⟩
    rw [same, leafItems_cons index, List.append_assoc]
    rfl

/-- `search_stat` finds the stat item of every object that has one, and the items
behind it are those of the tree. -/
theorem Ordered.findStat (ordered : Ordered v.disk v.info v.info.treeDepth v.root) (o : Object) :
    (v.stat o = none ∧ v.findStat o.1 o.2 = none) ∨
      ∃ p front rest, v.stat o = some p ∧ v.findStat o.1 o.2 = some (p, rest) ∧
        v.allItems = front ++ p :: rest := by
  obtain ⟨h, depth⟩ : ∃ h, v.info.treeDepth = h + 1 := ⟨v.info.treeDepth - 1, by
    have pos := v.depth_pos
    omega⟩
  rw [depth] at ordered
  obtain ⟨leaf, front, mid, whole, search, clear⟩ := ordered.search o []
  have stat : v.stat o = (v.statIn o.1 o.2 leaf).map fun j => (leaf, j) := by
    have none : ∀ list : List Position, (∀ p ∈ list, p ∈ front ++ mid) →
        list.find? (v.isStatOf o) = none := by
      intro list sub
      rw [List.find?_eq_none]
      intro p member stat
      rw [clear p (sub p member)] at stat
      cases stat
    unfold Volume.stat Volume.allItems
    rw [depth, whole, List.find?_append, List.find?_append,
      none front fun p => List.mem_append_left mid, none mid fun p => List.mem_append_right front,
      Option.none_or, Option.or_none]
    unfold Volume.leafItems leafItems Volume.statIn
    rw [List.find?_map, List.range_eq_range', Nat.sub_zero]
    rfl
  have found : v.findStat o.1 o.2 =
      (v.statIn o.1 o.2 leaf).map fun j => ((leaf, j), v.leafItems leaf (j + 1) ++ mid) := by
    unfold Volume.findStat
    rw [depth, search, List.append_nil]
  cases here : v.statIn o.1 o.2 leaf with
  | none =>
    rw [here] at stat found
    exact .inl ⟨stat, found⟩
  | some j =>
    rw [here] at stat found
    obtain ⟨before, split⟩ := leafItems_split (v := v) (b := leaf) (find_range_lt here)
    refine .inr ⟨(leaf, j), front ++ before, _, stat, found, ?_⟩
    unfold Volume.allItems
    rw [depth, whole, split]
    simp only [List.append_assoc, List.cons_append]

/-- Object ids are not used twice. -/
def Volume.Unique (v : Volume) : Prop :=
  ∀ p ∈ v.allItems, ∀ q ∈ v.allItems, v.objectidOf p = v.objectidOf q → v.dirIdOf p = v.dirIdOf q

/-- A key is behind a stat key in what follows, or in the object. -/
theorem statKey_lt (o : Object) (p : Position) :
    ∃ offset type, v.keyOf p = [v.dirIdOf p, v.objectidOf p, offset, type] ∧
      (statKey o < v.keyOf p ↔ o.1 < v.dirIdOf p ∨ o.1 = v.dirIdOf p ∧
        (o.2 < v.objectidOf p ∨ o.2 = v.objectidOf p ∧ (0 < offset ∨ 0 = offset ∧ 0 < type))) := by
  obtain ⟨offset, type, key, -⟩ := keyAt_tail (v.node p.1) (headAt p.2)
  have same : v.keyOf p = [v.dirIdOf p, v.objectidOf p, offset, type] := key
  refine ⟨offset, type, same, ?_⟩
  rw [same]
  simp only [statKey, List.cons_lt_cons_iff, List.not_lt_nil, and_false, or_false]

/-- Behind the stat item the items of the object come first. -/
theorem filter_run (o : Object) (list : List Position)
    (sorted : list.Pairwise fun p q => v.keyOf p < v.keyOf q)
    (behind : ∀ q ∈ list, statKey o < v.keyOf q)
    (unique : ∀ q ∈ list, v.objectidOf q = o.2 → v.dirIdOf q = o.1) :
    (list.filter fun q => v.dirIdOf q == o.1 && v.objectidOf q == o.2 && !v.isStatOf o q) =
      list.takeWhile fun q => v.objectidOf q == o.2 := by
  induction list with
  | nil => rfl
  | cons q list ih =>
    obtain ⟨first, sorted⟩ := List.pairwise_cons.mp sorted
    have after := behind q (by simp)
    have other := not_stat_of_gt o after
    rw [List.filter_cons, List.takeWhile_cons]
    by_cases own : v.objectidOf q = o.2
    · have dir := unique q (by simp) own
      simp only [own, dir, other, beq_self_eq_true, Bool.not_false, Bool.and_self, if_true]
      rw [ih sorted (fun r member => behind r (by simp [member]))
        fun r member => unique r (by simp [member])]
    · simp only [beq_eq_false_iff_ne.mpr own, Bool.and_false, Bool.false_and, Bool.false_eq_true,
        if_false]
      rw [List.filter_eq_nil_iff]
      intro r member same
      simp only [Bool.and_eq_true, beq_iff_eq] at same
      obtain ⟨⟨dir, object⟩, -⟩ := same
      have less := first r member
      obtain ⟨offset, type, key, cases_⟩ := statKey_lt (v := v) o q
      obtain ⟨offset', type', key', -⟩ := statKey_lt (v := v) o r
      rw [cases_] at after
      rw [key, key'] at less
      simp only [List.cons_lt_cons_iff, List.not_lt_nil, and_false, or_false] at less
      omega

/-- What the items of an object are, as `next_key` shows them. -/
theorem Ordered.body (ordered : Ordered v.disk v.info v.info.treeDepth v.root) (unique : v.Unique)
    (whole : v.allItems = front ++ p :: rest) (stat : v.isStatOf o p = true) :
    v.body o = rest.takeWhile fun q => v.objectidOf q == o.2 := by
  have sorted := ordered.sorted
  have key := itemKey_stat stat
  have all : v.items v.info.treeDepth v.root = v.allItems := rfl
  rw [all, whole] at sorted
  obtain ⟨-, later, across⟩ := List.pairwise_append.mp sorted
  obtain ⟨first, sorted⟩ := List.pairwise_cons.mp later
  have member : ∀ q ∈ front ++ p :: rest, q ∈ v.allItems := fun q inside => by rwa [whole]
  have ids : v.dirIdOf p = o.1 ∧ v.objectidOf p = o.2 := by
    obtain ⟨offset, type, parts, -⟩ := statKey_lt (v := v) o p
    rw [key] at parts
    unfold statKey at parts
    simp only [List.cons.injEq] at parts
    exact ⟨parts.1.symm, parts.2.1.symm⟩
  have before : (front.filter fun q =>
      v.dirIdOf q == o.1 && v.objectidOf q == o.2 && !v.isStatOf o q) = [] := by
    rw [List.filter_eq_nil_iff]
    intro q inside same
    simp only [Bool.and_eq_true, beq_iff_eq] at same
    obtain ⟨⟨dir, object⟩, -⟩ := same
    have less := across q inside p (by simp)
    obtain ⟨offset, type, parts, -⟩ := statKey_lt (v := v) o q
    rw [key, parts] at less
    simp only [statKey, List.cons_lt_cons_iff, List.not_lt_nil, and_false, or_false] at less
    omega
  unfold Volume.body
  rw [whole, List.filter_append, before, List.nil_append, List.filter_cons, stat]
  simp only [Bool.not_true, Bool.and_false, Bool.false_eq_true, if_false]
  refine filter_run o rest sorted (fun q inside => key ▸ first q inside) ?_
  intro q inside same
  rw [← ids.1]
  exact unique q (member q (by simp [inside])) p (member p (by simp)) (same.trans ids.2.symm)

/-- An item of the tree has the key of a stat item, and the search is for it. -/
theorem isStatOf_iff (o : Object) (p : Position) :
    v.isStatOf o p = true ↔ v.keyOf p = statKey o := by
  refine ⟨itemKey_stat, fun same => ?_⟩
  obtain ⟨offset, type, key, zero⟩ := keyAt_tail (v.node p.1) (headAt p.2)
  have parts : statKey o = [v.dirIdOf p, v.objectidOf p, offset, type] := same.symm.trans key
  unfold statKey at parts
  simp only [List.cons.injEq, and_true] at parts
  obtain ⟨dir, object, offset_zero, type_zero⟩ := parts
  obtain ⟨first, second⟩ := zero.mp ⟨offset_zero.symm, type_zero.symm⟩
  have dir' : keyDirId (v.node p.1) (headAt p.2) = o.1 := dir.symm
  have object' : keyObjectid (v.node p.1) (headAt p.2) = o.2 := object.symm
  unfold Volume.isStatOf isStat
  simp [dir', object', first, second]

/-- In a tree in order, a search on a volume in use succeeds exactly for the
objects that have a stat item, and makes that the current item. -/
theorem searchStat_iff (v : Volume) (ordered : Ordered v.disk v.info v.info.treeDepth v.root)
    (mounted : reiserfsReadSuper v.disk offset fuel mem = some m) (info : m.info = v.info)
    (root : m.root = v.root) (session : Session v m.state s live) (o : Object) :
    ((searchStat v.disk v.info o.1 o.2 s).1 = true ↔
      ∃ p ∈ v.allItems, v.keyOf p = statKey o) ∧
    ((searchStat v.disk v.info o.1 o.2 s).1 = true →
      ∃ p ∈ v.allItems, v.keyOf p = statKey o ∧ Shows v (searchStat v.disk v.info o.1 o.2 s).2 p) ∧
    ((searchStat v.disk v.info o.1 o.2 s).1 = false →
      (searchStat v.disk v.info o.1 o.2 s).2.errnum = .badFsys) := by
  have cached := (session.cached (cached_mounted v mounted info root)).1
  have result := cached.searchStat o.1 o.2
  generalize searchStat v.disk v.info o.1 o.2 s = r at result
  obtain ⟨success, t⟩ := r
  have finds := ordered.findStat o
  cases success with
  | false =>
    have missing := result.missing rfl
    refine ⟨⟨nofun, ?_⟩, nofun, fun _ => result.errnum⟩
    rintro ⟨p, member, key⟩
    rcases finds with ⟨none, -⟩ | ⟨q, front, rest, -, found, -⟩
    · have other := List.find?_eq_none.mp none p member
      exact absurd ((isStatOf_iff o p).mpr key) other
    · rw [missing] at found
      cases found
  | true =>
    obtain ⟨b, j, rest, cursor, -, found, -⟩ := result.cursor rfl
    have shown : ∃ p ∈ v.allItems, v.keyOf p = statKey o ∧ Shows v t p := by
      rcases finds with ⟨-, none⟩ | ⟨q, front, rest', stat, found', whole⟩
      · rw [none] at found
        cases found
      · rw [found'] at found
        cases found
        have member : (b, j) ∈ v.allItems := List.mem_of_find?_eq_some stat
        exact ⟨(b, j), member, (isStatOf_iff o _).mp (List.find?_some stat), cursor.shows⟩
    refine ⟨⟨fun _ => ?_, fun _ => rfl⟩, fun _ => shown, nofun⟩
    obtain ⟨p, member, key, -⟩ := shown
    exact ⟨p, member, key⟩

end

/-- In the tree of four levels, the search for object 7 of directory 1 succeeds exactly if the tree
has its stat item. -/
theorem searchStat_deep : ∃ m, reiserfsReadSuper deep.disk 0 0 (fun _ => 0) = some m ∧
    ((searchStat deep.disk deep.info 1 7 m.state).1 = true ↔
      ∃ p ∈ deep.allItems, deep.keyOf p = statKey (1, 7)) := by
  obtain ⟨m, mounted, info, root⟩ := deep_mounts
  exact ⟨m, mounted, (searchStat_iff deep deep_stops.1 mounted info root .mount (1, 7)).1⟩

end Yaboot.Reiserfs
