import Yaboot.Xfs.Dentry

/-! What `first_dentry` and repeated calls of `next_dentry` return. The pointer
for ".." is not one to "..", so the parent of a directory in the inode is
returned under the empty name; everything else is as it should be. -/
namespace Yaboot.Xfs
open Buffer CString Word

/-- What the calls return from a result on, up to the null pointer. -/
inductive Returns (next : Listing → Option (Option Dentry × Listing)) :
    Option Dentry → Listing → List Dentry → Prop where
  | done : Returns next none l []
  | more (call : next l = some (result, l')) (rest : Returns next result l' es) :
      Returns next (some e) l (e :: es)

/-- Reading a directory returns these entries and then a null pointer. -/
def Lists (r : DirReader) (blklog dirbsize fuel size : Nat) (format : Format) (l : Listing)
    (es : List Dentry) : Prop :=
  ∃ result l', firstDentry r blklog dirbsize fuel size format l = some (result, l') ∧
    Returns (nextDentry r dirbsize fuel format) result l' es

theorem Returns.unique (first : Returns next result l es) (second : Returns next result l es') :
    es = es' := by
  induction first generalizing es' with
  | done =>
    cases second
    rfl
  | more call rest ih =>
    cases second with
    | more call' rest' =>
      cases call.symm.trans call'
      rw [ih rest']

theorem Lists.unique (first : Lists r blklog dirbsize fuel size format l es)
    (second : Lists r blklog dirbsize fuel size format l es') : es = es' := by
  obtain ⟨result, l', call, returns⟩ := first
  obtain ⟨result', l'', call', returns'⟩ := second
  cases call.symm.trans call'
  exact returns.unique returns'

/-- The zero is stored behind the string. -/
theorem terminate_string (mem : Bytes) (name namelen : Nat) :
    (terminate mem name namelen).2 = strdup (slice mem name namelen) := by
  have kept : slice (Function.update mem (name + namelen) 0) name namelen = slice mem name namelen :=
    slice_congr mem fun i inside => Function.update_of_ne (by omega) _ _
  exact congrArg strdup kept

theorem terminate_name (stored : slice mem at_ name.length = name) (plain : 0 ∉ name) :
    (terminate mem at_ name.length).2 = name := by
  rw [terminate_string, stored]
  exact List.takeWhile_eq_self_iff.mpr fun c member => by
    rw [bne_iff_ne]
    rintro rfl
    exact plain member

/-! ### Directories in the inode -/

/-- The width of the inode numbers. -/
def inoWidth (wide : Bool) : Nat := if wide then 8 else 4

/-- Entries as a directory in the inode stores them, with inode numbers of the
given width. -/
def ShortLaid (data : Bytes) (width : Nat) : Nat → List Dentry → Prop
  | _, [] => True
  | at_, e :: es =>
    (data at_).toNat = e.1.length ∧ slice data (at_ + 3) e.1.length = e.1 ∧
      be data (at_ + 3 + e.1.length) width = e.2 ∧
      ShortLaid data width (at_ + 3 + e.1.length + width) es

/-- A directory in short form. -/
structure ShortForm where
  data : Bytes
  wide : Bool
  parent : Nat
  entries : List Dentry
  count : (data 0).toNat = entries.length
  i8count : (data 1).toNat ≠ 0 ↔ wide = true
  parent_at : be data 2 (inoWidth wide) = parent
  laid : ShortLaid data (inoWidth wide) (2 + inoWidth wide) entries
  plain : ∀ e ∈ entries, 0 ∉ e.1

/-- What is written in front of entries does not change them. -/
theorem ShortLaid.congr (laid : ShortLaid data width at_ es) (same : ∀ i, at_ ≤ i → data' i = data i) :
    ShortLaid data' width at_ es := by
  induction es generalizing at_ with
  | nil => trivial
  | cons e es ih =>
    obtain ⟨namelen, name, ino, rest⟩ := laid
    refine ⟨?_, ?_, ?_, ih rest fun i behind => same i (by omega)⟩
    · rw [same at_ (Nat.le_refl _), namelen]
    · rw [slice_congr data fun i _ => same _ (by omega), name]
    · rw [be_moved fun i _ => same _ (by omega), ino]

/-- The listing stands in front of the given entries. -/
structure InShort (wide : Bool) (l : Listing) (es : List Dentry) : Prop where
  param : l.i8param = if wide then 0 else 4
  forw : l.forw = 0
  entries : 0 ≤ l.dirpos
  left : l.dirmax = l.dirpos + es.length
  laid : ShortLaid l.data (inoWidth wide) l.sfe es
  plain : ∀ e ∈ es, 0 ∉ e.1

theorem Listing.sfNumber_eq (l : Listing) (wide : Bool) (param : l.i8param = if wide then 0 else 4)
    (at_ : Nat) : l.sfNumber at_ = be l.data at_ (inoWidth wide) := by
  unfold sfNumber
  rw [param]
  cases wide <;> rfl

/-- An inode number is read before the zero behind the name is stored on its
first byte. -/
theorem InShort.nextLocal (here : InShort wide l (e :: es)) :
    ∃ l', nextLocal l = (e, l') ∧ InShort wide l' es := by
  obtain ⟨namelen, name, ino, rest⟩ := here.laid
  have entries := here.entries
  have left := here.left
  rw [List.length_cons] at left
  have plain := here.plain e (by simp)
  have number := l.sfNumber_eq wide here.param (l.sfe + 3 + e.1.length)
  have place : l.sfe + e.1.length + 3 = l.sfe + 3 + e.1.length := by omega
  have width : l.sfe + e.1.length + 11 - l.i8param = l.sfe + 3 + e.1.length + inoWidth wide := by
    rw [here.param]
    cases wide <;> simp [inoWidth] <;> omega
  have wider : 0 < inoWidth wide := by cases wide <;> decide
  obtain ⟨l', result⟩ : ∃ l' : Listing, l' = { l with
      data := Function.update l.data (l.sfe + 3 + e.1.length) 0
      sfe := l.sfe + 3 + e.1.length + inoWidth wide
      dirpos := l.dirpos + 1 } := ⟨_, rfl⟩
  refine ⟨l', ?_, ?_⟩
  · have read := terminate_name name plain
    unfold Xfs.nextLocal sfIno
    rw [if_neg (by omega), if_neg (by omega)]
    dsimp only
    rw [namelen, read, place, number, ino, width, result]
    rfl
  · subst result
    refine ⟨here.param, here.forw, ?_, ?_, ?_, fun d member => here.plain d (by simp [member])⟩
    · show 0 ≤ l.dirpos + 1
      omega
    · show l.dirmax = l.dirpos + 1 + es.length
      omega
    · exact rest.congr fun i behind => Function.update_of_ne (by omega) _ _

/-- `next_dentry` returns the first of the entries that lie ahead in the inode. -/
theorem InShort.returns (here : InShort wide l es) (r : DirReader) (dirbsize fuel : Nat) :
    ∃ result l', nextDentry r dirbsize fuel .local l = some (result, l') ∧
      Returns (nextDentry r dirbsize fuel .local) result l' es := by
  induction es generalizing l with
  | nil =>
    have left := here.left
    refine ⟨none, l, ?_, .done⟩
    unfold nextDentry Listing.refill
    rw [if_neg (by simp at left; omega), if_pos here.forw]
  | cons e es ih =>
    obtain ⟨l', step, there⟩ := here.nextLocal
    obtain ⟨result, l'', call, rest⟩ := ih there
    have left := here.left
    rw [List.length_cons] at left
    refine ⟨some e, l', ?_, .more call rest⟩
    unfold nextDentry Listing.refill
    rw [if_pos (by omega)]
    dsimp only
    rw [if_pos rfl, step]

/-- The memory where the literal "." is. -/
def Literal (usual : Bytes) : Prop := usual 0 = 46 ∧ usual 1 = 0

/-- The calls for the directory itself and for its parent. The pointer for the
parent's name is one to the end of the literal. -/
theorem nextLocal_usual (start : l.dirpos = -2) (literal : Literal l.usual) :
    ∃ l' l'', nextLocal l = ((cstr ".", 0), l') ∧ nextLocal l' = (([], sfParentIno l), l'') ∧
      l'.dirpos = -1 ∧ l'.dirmax = l.dirmax ∧
      l'' = { l with usual := l''.usual, sfe := 10 - l.i8param, dirpos := 0 } := by
  obtain ⟨dot, ends⟩ := literal
  have first : (terminate l.usual 0 1).2 = cstr "." := by
    rw [terminate_string]
    simp only [slice, List.range_one, List.map_cons, List.map_nil, Nat.add_zero, dot]
    decide
  have second : (terminate (terminate l.usual 0 1).1 (0 + 1) 2).2 = [] := by
    have behind : (terminate l.usual 0 1).1 1 = 0 := Function.update_self 1 0 l.usual
    rw [terminate_string]
    simp [slice, List.range_succ, strdup, behind]
  obtain ⟨l', result⟩ : ∃ l' : Listing,
      l' = { l with usual := (terminate l.usual 0 1).1, dirpos := -1 } := ⟨_, rfl⟩
  have step : nextLocal l = ((cstr ".", 0), l') := by
    unfold nextLocal
    rw [if_pos start]
    dsimp only
    rw [first, result, start]
    rfl
  obtain ⟨l'', last⟩ : ∃ l'' : Listing, l'' = { l with
      usual := (terminate l'.usual (0 + 1) 2).1, sfe := 10 - l.i8param, dirpos := 0 } := ⟨_, rfl⟩
  refine ⟨l', l'', step, ?_, by rw [result], by rw [result], by rw [last]⟩
  have place : l'.dirpos = -1 := by rw [result]
  unfold nextLocal
  rw [if_neg (by omega), if_pos place]
  dsimp only
  rw [last, result]
  dsimp only
  rw [second]
  rfl

theorem nextDentry_local (more : l.dirpos < l.dirmax) :
    nextDentry r dirbsize fuel .local l = some (some (nextLocal l).1, (nextLocal l).2) := by
  unfold nextDentry Listing.refill
  rw [if_pos more]
  rfl

/-- A directory in the inode: the entry for the parent has no name. -/
theorem ShortForm.lists (d : ShortForm) (data : l.data = d.data) (literal : Literal l.usual)
    (r : DirReader) (blklog dirbsize fuel size : Nat) :
    Lists r blklog dirbsize fuel size .local l
      ((cstr ".", 0) :: ([], d.parent) :: d.entries) := by
  obtain ⟨first, start⟩ : ∃ first : Listing, first = { l with
      forw := 0
      dirmax := d.entries.length
      i8param := if d.wide then 0 else 4
      dirpos := -2 } := ⟨_, rfl⟩
  have opens : openListing r blklog dirbsize fuel size .local l = some first := by
    have param : (if (l.data 1).toNat ≠ 0 then 0 else 4) = if d.wide then 0 else 4 := by
      rw [data]
      exact if_congr d.i8count rfl rfl
    unfold openListing
    rw [if_pos rfl]
    dsimp only
    rw [param, data, d.count, start, data]
  obtain ⟨l', l'', dot, parent, place, dirmax, last⟩ :=
    nextLocal_usual (l := first) (by rw [start]) (by rw [start]; exact literal)
  have number : sfParentIno first = d.parent := by
    rw [sfParentIno, first.sfNumber_eq d.wide (by rw [start]), start, ← d.parent_at, data]
  have there : InShort d.wide l'' d.entries := by
    have sfe : 10 - (if d.wide then 0 else 4) = 2 + inoWidth d.wide := by cases d.wide <;> rfl
    rw [last, start]
    refine ⟨rfl, rfl, Int.le_refl 0, (Int.zero_add _).symm, ?_, d.plain⟩
    dsimp only
    rw [sfe, data]
    exact d.laid
  obtain ⟨result, last', call, rest⟩ := there.returns r dirbsize fuel
  have returns : Returns (nextDentry r dirbsize fuel .local) (some ([], d.parent)) l''
      (([], d.parent) :: d.entries) := .more call rest
  refine ⟨some (cstr ".", 0), l', ?_, .more ?_ returns⟩
  · unfold firstDentry
    rw [opens, Option.bind_some, nextDentry_local, dot]
    rw [start]
    dsimp only
    omega
  · rw [nextDentry_local, parent, number]
    rw [place, dirmax, start]
    dsimp only
    omega

/-- `first_dentry` and `next_dentry` never enumerate a directory in the inode right: the parent is
returned under an empty name, and this is all that is wrong with the entries. -/
theorem shortForm_wrong (d : ShortForm) (l : Listing) (data : l.data = d.data)
    (literal : Literal l.usual) (r : DirReader) (blklog dirbsize fuel size : Nat) :
    ¬ Lists r blklog dirbsize fuel size .local l
        ((cstr ".", 0) :: (cstr "..", d.parent) :: d.entries) ∧
      Lists r blklog dirbsize fuel size .local l
        ((cstr ".", 0) :: ([], d.parent) :: d.entries) := by
  have found := d.lists data literal r blklog dirbsize fuel size
  refine ⟨fun claimed => ?_, found⟩
  have same := claimed.unique found
  simp only [List.cons.injEq, Prod.mk.injEq] at same
  exact absurd same.2.1.1 (by decide)

/-- An empty directory below inode 128. -/
def emptyShort : ShortForm where
  data := fun i => if i = 5 then 128 else 0
  wide := false
  parent := 128
  entries := []
  count := rfl
  i8count := by decide
  parent_at := by decide
  laid := trivial
  plain := by decide

/-- The state of the driver once the inode is read. -/
def emptyListing : Listing where
  i8param := 0
  dirpos := 0
  dirmax := 0
  blkoff := 0
  dablk := 0
  forw := 0
  file := ⟨0, 0⟩
  sfe := 0
  usual := fun i => if i = 0 then 46 else 0
  data := emptyShort.data
  dirbuf := fun _ => 0

def noReader : DirReader where
  readData file _ _ dirbuf := (file, dirbuf)
  dabread _ dirbuf := dirbuf

/-- A directory without entries of its own still has a parent, which is not listed as `..`. -/
theorem emptyShort_wrong : ¬ Lists noReader 12 4096 1 6 .local emptyListing
    [(cstr ".", 0), (cstr "..", 128)] :=
  (shortForm_wrong emptyShort emptyListing rfl ⟨rfl, rfl⟩ noReader 12 4096 1 6).1

/-- No directory in the inode is listed with its parent under two dots. -/
theorem parent_not_named : ¬ ∀ (d : ShortForm) (l : Listing) (r : DirReader)
    (blklog dirbsize fuel size : Nat), l.data = d.data → Literal l.usual →
    Lists r blklog dirbsize fuel size .local l
      ((cstr ".", 0) :: (cstr "..", d.parent) :: d.entries) := by
  intro named
  have claimed := named emptyShort emptyListing noReader 12 4096 1 6 rfl ⟨rfl, rfl⟩
  have found : Lists noReader 12 4096 1 6 .local emptyListing
      ((cstr ".", 0) :: ([], emptyShort.parent) :: emptyShort.entries) :=
    emptyShort.lists rfl ⟨rfl, rfl⟩ _ _ _ _ _
  have same := claimed.unique found
  exact absurd same (by decide)

end Yaboot.Xfs
