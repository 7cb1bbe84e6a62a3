import Yaboot.Elf.Load

/-! Where the segments of an image end up. The scan takes a memory size of zero
for the sign that no segment was met yet, so a later segment can become the one
the others are placed by; and the room claimed is measured in the file, not in
the address space. -/
namespace Yaboot.Elf
open Buffer Word

variable {c : ElfClass} {p q a l : Phdr c} {phdrs segs rest : List (Phdr c)} {info : Loadinfo}
  {f : File} {mem : Bytes}

theorem sub32_lt (a b : Nat) : sub32 a b < 2 ^ 32 := Nat.mod_lt _ (by decide)

theorem sub32_u32_right (a b : Nat) : sub32 a (u32 b) = sub32 a b := by
  unfold sub32 u32
  omega

/-! ### The scan over the headers -/

/-- The segments of an image. -/
def segments (phdrs : List (Phdr c)) : List (Phdr c) := phdrs.filter Phdr.loadable

/-- The size the scan computes for the segments from one to another. -/
def spanOf (a l : Phdr c) : Nat := sub32 (l.pOffset + l.pMemsz) a.pOffset

/-- The segment the others are placed by and the last one, when the scan goes on
over more segments. -/
def anchorFrom (a l : Phdr c) : List (Phdr c) → Phdr c × Phdr c
  | [] => (a, l)
  | p :: rest => if spanOf a l = 0 then anchorFrom p p rest else anchorFrom a p rest

/-- What the scan has stored. -/
structure Anchored (info : Loadinfo) (a l : Phdr c) : Prop where
  memsize : info.memsize = spanOf a l
  offset : info.offset = u32 a.pOffset
  loadLoc : info.loadLoc = u32 a.pVaddr

theorem scanHeader_skip (skip : p.loadable = false) : scanHeader info p = info := by
  rw [scanHeader, skip]
  rfl

theorem spanOf_self (p : Phdr c) : spanOf p p = u32 p.pMemsz := by
  unfold spanOf sub32 u32
  omega

theorem scanHeader_first (load : p.loadable = true) (none : info.memsize = 0) :
    Anchored (scanHeader info p) p p := by
  rw [scanHeader, load, if_neg (by decide), if_pos none]
  exact ⟨(spanOf_self p).symm, rfl, rfl⟩

theorem Anchored.next (anchored : Anchored info a l) (load : p.loadable = true)
    (some_ : spanOf a l ≠ 0) : Anchored (scanHeader info p) a p := by
  have size : info.memsize ≠ 0 := by
    rw [anchored.memsize]
    exact some_
  rw [scanHeader, load, if_neg (by decide), if_neg size]
  refine ⟨?_, anchored.offset, anchored.loadLoc⟩
  dsimp only
  rw [anchored.offset, sub32_u32_right]
  rfl

/-- The scan of the program headers keeps the place of the image where the anchor of the segments
is. -/
theorem Anchored.scan (anchored : Anchored info a l) (phdrs : List (Phdr c)) :
    Anchored (phdrs.foldl scanHeader info) (anchorFrom a l (segments phdrs)).1
      (anchorFrom a l (segments phdrs)).2 := by
  induction phdrs generalizing info a l with
  | nil => exact anchored
  | cons p rest ih =>
    rw [List.foldl_cons]
    cases load : p.loadable with
    | false =>
      rw [scanHeader_skip load, segments, List.filter_cons_of_neg (by simp [load])]
      exact ih anchored
    | true =>
      rw [segments, List.filter_cons_of_pos load, anchorFrom]
      by_cases none : spanOf a l = 0
      · rw [if_pos none]
        exact ih (scanHeader_first load (anchored.memsize.trans none))
      · rw [if_neg none]
        exact ih (anchored.next load none)

theorem scan_entry (info : Loadinfo) (phdrs : List (Phdr c)) :
    (phdrs.foldl scanHeader info).entry = info.entry := by
  induction phdrs generalizing info with
  | nil => rfl
  | cons p rest ih =>
    rw [List.foldl_cons, ih]
    unfold scanHeader
    split_ifs <;> rfl

/-- The segment the others are placed by, and the last one. -/
def anchorOf (segs : List (Phdr c)) : Option (Phdr c × Phdr c) :=
  match segs with
  | [] => none
  | p :: rest => some (anchorFrom p p rest)

/-- The scan finds no segment, or the first one and what comes of it. -/
theorem scan_anchorOf (info : Loadinfo) (phdrs : List (Phdr c)) (none : info.memsize = 0) :
    (segments phdrs = [] ∧ (phdrs.foldl scanHeader info).memsize = 0) ∨
      ∃ a l, anchorOf (segments phdrs) = some (a, l) ∧
        Anchored (phdrs.foldl scanHeader info) a l := by
  induction phdrs generalizing info with
  | nil => exact .inl ⟨rfl, none⟩
  | cons p rest ih =>
    rw [List.foldl_cons]
    cases load : p.loadable with
    | false =>
      rw [scanHeader_skip load, segments, List.filter_cons_of_neg (by simp [load])]
      exact ih _ none
    | true =>
      rw [segments, List.filter_cons_of_pos load]
      exact .inr ⟨_, _, rfl, (scanHeader_first load none).scan rest⟩

/-! ### The copies -/

theorem readAll_count (count_lt : count < 2 ^ 32) (all : c.readAll count n = true) :
    count = u32 n := by
  cases c with
  | elf32 =>
    simp only [ElfClass.readAll, beq_iff_eq] at all
    rw [← all]
    unfold u32
    omega
  | elf64 =>
    simp only [ElfClass.readAll, beq_iff_eq] at all
    rw [← all]
    unfold ofInt64 s32 u32
    split <;> omega

/-- Where a segment is stored, and how much of it. -/
def Phdr.place (p : Phdr c) (info : Loadinfo) : Nat := sub32 p.pVaddr info.loadLoc

def Phdr.count (p : Phdr c) (f : File) : Nat := min (u32 p.pFilesz) (f.len - u32 p.pOffset)

theorem Phdr.count_lt (p : Phdr c) (f : File) : p.count f < 2 ^ 32 :=
  lt_of_le_of_lt (Nat.min_le_left _ _) (u32_lt _)

/-- Memory once a segment is stored. -/
def Phdr.stored (p : Phdr c) (f : File) (info : Loadinfo) (mem : Bytes) : Bytes :=
  store mem (u32 (info.base + p.place info)) (p.count f) fun k => f.content (u32 p.pOffset + k)

theorem loadSegments_skip (skip : p.loadable = false) :
    loadSegments f info (p :: rest) mem = loadSegments f info rest mem := by
  rw [loadSegments, skip]
  rfl

theorem loadSegments_filter (f : File) (info : Loadinfo) (phdrs : List (Phdr c)) (mem : Bytes) :
    loadSegments f info phdrs mem = loadSegments f info (segments phdrs) mem := by
  induction phdrs generalizing mem with
  | nil => rfl
  | cons p rest ih =>
    cases load : p.loadable with
    | false =>
      rw [loadSegments_skip load, segments, List.filter_cons_of_neg (by simp [load])]
      exact ih mem
    | true =>
      rw [segments, List.filter_cons_of_pos load, loadSegments, loadSegments, ← segments]
      simp only [ih]

/-- What becomes of one segment. -/
theorem loadSegments_cons (load : p.loadable = true) :
    loadSegments f info (p :: rest) mem =
      if f.seekable (u32 p.pOffset) = false then (false, mem, [])
      else if c.readAll (p.count f) p.pFilesz = false then
        (false, p.stored f info mem, [(p.place info, p.count f)])
      else
        ((loadSegments f info rest (p.stored f info mem)).1,
          (loadSegments f info rest (p.stored f info mem)).2.1,
          (p.place info, p.count f) :: (loadSegments f info rest (p.stored f info mem)).2.2) := by
  rw [loadSegments, load]
  simp only [Bool.not_true, Bool.false_eq_true, ↓reduceIte, Bool.not_eq_true']
  rfl

/-! ### What is in memory afterwards -/

theorem readAll_exact (count_lt : count < 2 ^ 32) (small : n ≤ 2 ^ 32)
    (all : c.readAll count n = true) : count = n := by
  cases c with
  | elf32 =>
    simp only [ElfClass.readAll, beq_iff_eq] at all
    rw [← all]
    unfold u32
    omega
  | elf64 =>
    simp only [ElfClass.readAll, beq_iff_eq] at all
    unfold ofInt64 s32 at all
    split at all <;> omega

/-- An address is one of those a segment is stored at. -/
def Phdr.Touches (p : Phdr c) (info : Loadinfo) (x : Nat) : Prop :=
  sub32 x (u32 (info.base + p.place info)) < p.pFilesz

theorem Phdr.stored_outside (read : p.count f = p.pFilesz) (outside : ¬ p.Touches info x) :
    p.stored f info mem x = mem x := by
  unfold Phdr.stored store
  rw [read]
  exact if_neg outside

theorem Phdr.stored_inside (read : p.count f = p.pFilesz) (inside : p.Touches info x) :
    p.stored f info mem x =
      f.content (u32 p.pOffset + sub32 x (u32 (info.base + p.place info))) := by
  unfold Phdr.stored store
  rw [read]
  exact if_pos inside

/-- A list of headers none of which is skipped, of segments that fit the address
space. -/
def Small (segs : List (Phdr c)) : Prop := ∀ p ∈ segs, p.loadable = true ∧ p.pFilesz ≤ 2 ^ 32

/-- What the first round of a loop that loads everything has done. -/
theorem loadSegments_step (small : Small (p :: rest))
    (success : (loadSegments f info (p :: rest) mem).1 = true) :
    (p.count f = p.pFilesz ∧ c.readAll (p.count f) p.pFilesz = true) ∧
      (loadSegments f info rest (p.stored f info mem)).1 = true ∧
      (loadSegments f info (p :: rest) mem).2.1 =
        (loadSegments f info rest (p.stored f info mem)).2.1 := by
  obtain ⟨load, short⟩ := small p List.mem_cons_self
  rw [loadSegments_cons load] at success ⊢
  split_ifs at success with unseekable failed
  rw [if_neg unseekable, if_neg failed]
  rw [Bool.not_eq_false] at failed
  exact ⟨⟨readAll_exact (p.count_lt f) short failed, failed⟩, success, rfl⟩

theorem Small.tail (small : Small (p :: rest)) : Small rest := fun q member =>
  small q (List.mem_cons_of_mem _ member)

theorem loadSegments_kept (small : Small segs) (success : (loadSegments f info segs mem).1 = true)
    (outside : ∀ p ∈ segs, ¬ p.Touches info x) : (loadSegments f info segs mem).2.1 x = mem x := by
  induction segs generalizing mem with
  | nil => rfl
  | cons p rest ih =>
    obtain ⟨⟨read, -⟩, later, final⟩ := loadSegments_step small success
    rw [final, ih small.tail later fun q member => outside q (List.mem_cons_of_mem _ member)]
    exact Phdr.stored_outside read (outside p List.mem_cons_self)

/-- Segments that do not overlap are all in memory. -/
theorem loadSegments_placed (small : Small segs)
    (success : (loadSegments f info segs mem).1 = true)
    (apart : segs.Pairwise fun p q => ∀ x, p.Touches info x → ¬ q.Touches info x)
    (member : p ∈ segs) (inside : p.Touches info x) :
    (loadSegments f info segs mem).2.1 x =
      f.content (u32 p.pOffset + sub32 x (u32 (info.base + p.place info))) := by
  induction segs generalizing mem with
  | nil => cases member
  | cons first rest ih =>
    obtain ⟨⟨read, -⟩, later, final⟩ := loadSegments_step small success
    obtain ⟨alone, apart⟩ := List.pairwise_cons.mp apart
    rw [final]
    rcases List.mem_cons.mp member with rfl | behind
    · rw [loadSegments_kept small.tail later fun q member => alone q member x inside]
      exact Phdr.stored_inside read inside
    · exact ih small.tail later apart behind

theorem loadSegments_read (small : Small segs) (success : (loadSegments f info segs mem).1 = true)
    (member : p ∈ segs) : c.readAll (u32 p.pFilesz) p.pFilesz = true := by
  induction segs generalizing mem with
  | nil => cases member
  | cons first rest ih =>
    obtain ⟨⟨-, read⟩, later, -⟩ := loadSegments_step small success
    rcases List.mem_cons.mp member with rfl | behind
    · rw [← readAll_count (p.count_lt f) read]
      exact read
    · exact ih small.tail later behind

/-- A file that is long enough for every segment. -/
structure File.Ample (f : File) : Prop where
  len : f.len = 2 ^ 33
  seekable : ∀ pos, f.seekable pos = true

theorem File.Ample.count (ample : f.Ample) (p : Phdr c) : p.count f = u32 p.pFilesz := by
  unfold Phdr.count
  rw [ample.len]
  unfold u32
  omega

theorem File.Ample.success (ample : f.Ample) (load : ∀ p ∈ segs, p.loadable = true)
    (read : ∀ p ∈ segs, c.readAll (u32 p.pFilesz) p.pFilesz = true) :
    (loadSegments f info segs mem).1 = true := by
  induction segs generalizing mem with
  | nil => rfl
  | cons p rest ih =>
    have all := read p List.mem_cons_self
    rw [loadSegments_cons (load p List.mem_cons_self), ample.seekable, ample.count, all,
      if_neg (by decide), if_neg (by decide)]
    exact ih (fun q member => load q (List.mem_cons_of_mem _ member))
      fun q member => read q (List.mem_cons_of_mem _ member)

/-! ### Before the copies -/

/-- What `loadinfo` holds when the copies begin. -/
structure Ready (e : Image c) (segs : List (Phdr c)) (info : Loadinfo) (a l : Phdr c) : Prop where
  anchor : anchorOf segs = some (a, l)
  span : spanOf a l ≠ 0
  loadLoc : info.loadLoc = u32 a.pVaddr
  entry : info.entry = u32 e.eEntry
  memsize : info.memsize = claimSize c (spanOf a l)

/-- The outcome of the copies. -/
def copied (f : File) (info : Loadinfo) (segs : List (Phdr c)) (mem : Bytes) : Loaded :=
  ⟨(loadSegments f info segs mem).1, info, (loadSegments f info segs mem).2.1,
    (loadSegments f info segs mem).2.2⟩

variable {e : Image c}

/-- What the scan of the headers comes to: the routine gives up where they name no
memory, or asks the firmware for it and copies to what is granted. -/
theorem loadElf_scan (given : e.phdrs = some phdrs) (f : File)
    (claim : Nat → Nat → Option Nat) (info : Loadinfo) (mem : Bytes) :
    ((∀ a l, anchorOf (segments phdrs) = some (a, l) → spanOf a l = 0) ∧
      (loadElf c e f claim info mem).returned = false ∧ (loadElf c e f claim info mem).copies = []) ∨
      ∃ a l sized, (∀ base, Ready e (segments phdrs) { sized with base := base } a l) ∧
        loadElf c e f claim info mem =
          match claim (if e.eEntry = c.kernelLinkAddr then kerneladdr else c.linkedAt sized)
              sized.memsize with
          | none => ⟨false, sized, mem, []⟩
          | some base => copied f { sized with base := base } (segments phdrs) mem := by
  unfold loadElf
  rw [given]
  dsimp only
  have scan := scan_anchorOf { info with
    entry := u32 e.eEntry, memsize := 0, filesize := 0, offset := 0 } phdrs rfl
  have entry := scan_entry { info with
    entry := u32 e.eEntry, memsize := 0, filesize := 0, offset := 0 } phdrs
  revert scan entry
  generalize phdrs.foldl scanHeader _ = scanned
  rintro (⟨empty, none⟩ | ⟨a, l, anchor, anchored⟩) entry
  · rw [if_pos none, empty]
    exact .inl ⟨fun a l anchor => (nomatch anchor), rfl, rfl⟩
  have size := anchored.memsize
  by_cases empty : scanned.memsize = 0
  · rw [if_pos empty, anchor]
    refine .inl ⟨fun a' l' same => ?_, rfl, rfl⟩
    cases same
    exact size.symm.trans empty
  rw [if_neg empty]
  refine .inr ⟨a, l, { scanned with memsize := claimSize c scanned.memsize },
    fun base => ⟨anchor, size ▸ empty, anchored.loadLoc, entry, congrArg (claimSize c) size⟩, ?_⟩
  cases claim (if e.eEntry = c.kernelLinkAddr then kerneladdr
      else c.linkedAt { scanned with memsize := claimSize c scanned.memsize })
      (claimSize c scanned.memsize) with
  | none => rfl
  | some base =>
    dsimp only
    rw [loadSegments_filter]
    rfl

/-- Either the routine gives up before the first copy, or it goes on with the
memory the firmware has granted. -/
theorem loadElf_cases (given : e.phdrs = some phdrs) (f : File)
    (claim : Nat → Nat → Option Nat) (info : Loadinfo) (mem : Bytes) :
    ((loadElf c e f claim info mem).returned = false ∧ (loadElf c e f claim info mem).copies = []) ∨
      ∃ a l ready, Ready e (segments phdrs) ready a l ∧
        loadElf c e f claim info mem = copied f ready (segments phdrs) mem := by
  rcases loadElf_scan given f claim info mem with ⟨-, failed⟩ | ⟨a, l, sized, ready, run⟩
  · exact .inl failed
  rw [run]
  split
  · exact .inl ⟨rfl, rfl⟩
  · next base _ => exact .inr ⟨a, l, { sized with base := base }, ready base, rfl⟩

/-- A firmware that grants some memory lets the copies begin. -/
theorem loadElf_granted (given : e.phdrs = some phdrs)
    (anchor : anchorOf (segments phdrs) = some (a, l)) (span : spanOf a l ≠ 0)
    (claim : Nat → Nat → Option Nat) (base : Nat → Nat)
    (grants : ∀ addr size, claim addr size = some (base addr))
    (f : File) (info : Loadinfo) (mem : Bytes) :
    ∃ ready, Ready e (segments phdrs) ready a l ∧
      ready.base = base (if e.eEntry = c.kernelLinkAddr then kerneladdr else c.linkedAt ready) ∧
      loadElf c e f claim info mem = copied f ready (segments phdrs) mem := by
  rcases loadElf_scan given f claim info mem with ⟨none, -⟩ | ⟨a', l', sized, ready, run⟩
  · exact absurd (none a l anchor) span
  rw [grants] at run
  have same := (ready 0).anchor.symm.trans anchor
  cases same
  refine ⟨_, ready _, ?_, run⟩
  cases c <;> rfl

/-! ### The whole image -/

/-- The segments do not overlap, the first is the lowest, and they lie within
2^32 bytes. -/
structure Separate (segs : List (Phdr c)) (v0 : Nat) : Prop where
  first : segs.head?.map Phdr.pVaddr = some v0
  lowest : ∀ p ∈ segs, v0 ≤ p.pVaddr
  near : ∀ p ∈ segs, p.pVaddr + p.pFilesz ≤ v0 + 2 ^ 32
  apart : segs.Pairwise fun p q => ∀ x, p.pVaddr ≤ x → x < p.pVaddr + p.pFilesz →
    ¬ (q.pVaddr ≤ x ∧ x < q.pVaddr + q.pFilesz)

/-- What is asked of a kernel that was loaded. -/
structure Placed (e : Image c) (segs : List (Phdr c)) (v0 : Nat) (f : File) (out : Loaded) :
    Prop where
  bytes : ∀ p ∈ segs, ∀ k < p.pFilesz,
    out.mem (u32 (out.info.base + (p.pVaddr - v0) + k)) = f.content (p.pOffset + k)
  entry : kernelEntry out.info = u32 (out.info.base + sub32 e.eEntry v0)

/-- The image is placed as it should be whenever it is loaded. -/
def LoadsRight (e : Image c) (segs : List (Phdr c)) (v0 : Nat) : Prop :=
  ∀ f claim info mem, (loadElf c e f claim info mem).returned = true →
    Placed e segs v0 f (loadElf c e f claim info mem)

/-- No file and no claim let the image be loaded: the scan ends with a size of
zero, or a segment is too large for the result of a read. -/
def Unloadable (segs : List (Phdr c)) : Prop :=
  (∀ a l, anchorOf segs = some (a, l) → spanOf a l = 0) ∨
    ∃ p ∈ segs, c.readAll (u32 p.pFilesz) p.pFilesz = false

/-- The segments are placed by one at the lowest address, and the offsets of all
that have bytes in the file fit the argument of a seek. -/
structure WellAnchored (segs : List (Phdr c)) (v0 : Nat) : Prop where
  anchor : ∀ a l, anchorOf segs = some (a, l) → a.pVaddr % 2 ^ 32 = v0 % 2 ^ 32
  offsets : ∀ p ∈ segs, p.pFilesz ≠ 0 → p.pOffset < 2 ^ 32

theorem Separate.small (separate : Separate (segments phdrs) v0) : Small (segments phdrs) := by
  intro p member
  have low := separate.lowest p member
  have near := separate.near p member
  exact ⟨(List.mem_filter.mp member).2, by omega⟩

/-- The addresses a segment is stored at, counted from `base`. -/
theorem touches_iff (lowest : v0 ≤ p.pVaddr) (near : p.pVaddr + p.pFilesz ≤ v0 + 2 ^ 32)
    (same : info.loadLoc = u32 v0) :
    p.Touches info x ↔
      p.pVaddr ≤ v0 + sub32 x info.base ∧ v0 + sub32 x info.base < p.pVaddr + p.pFilesz := by
  unfold Phdr.Touches Phdr.place
  rw [same]
  unfold sub32 u32
  omega

/-- Segments that are apart in the image are apart in memory. -/
theorem Separate.touches (separate : Separate segs v0) (same : info.loadLoc = u32 v0) :
    segs.Pairwise fun p q => ∀ x, p.Touches info x → ¬ q.Touches info x := by
  refine separate.apart.imp_of_mem fun {p q} mine yours apart x inside both => ?_
  rw [touches_iff (separate.lowest p mine) (separate.near p mine) same] at inside
  rw [touches_iff (separate.lowest q yours) (separate.near q yours) same] at both
  exact apart _ inside.1 inside.2 both

/-- Placed by the lowest address, every segment ends up where it should, with the
bytes the seek has led to. -/
theorem Separate.bytes (separate : Separate (segments phdrs) v0) (same : info.loadLoc = u32 v0)
    (success : (loadSegments f info (segments phdrs) mem).1 = true)
    (member : p ∈ segments phdrs) (inside : k < p.pFilesz) :
    (loadSegments f info (segments phdrs) mem).2.1 (u32 (info.base + (p.pVaddr - v0) + k)) =
      f.content (u32 p.pOffset + k) := by
  have low := separate.lowest p member
  have near := separate.near p member
  have index : sub32 (u32 (info.base + (p.pVaddr - v0) + k)) (u32 (info.base + p.place info)) = k := by
    unfold Phdr.place
    rw [same]
    unfold sub32 u32
    omega
  have touches : p.Touches info (u32 (info.base + (p.pVaddr - v0) + k)) := by
    unfold Phdr.Touches
    rw [index]
    exact inside
  rw [loadSegments_placed separate.small success (separate.touches same) member touches, index]

theorem entry_iff {a : Phdr c} {eEntry base v0 : Nat} :
    u32 (base + sub32 (u32 eEntry) (u32 a.pVaddr)) = u32 (base + sub32 eEntry v0) ↔
      a.pVaddr % 2 ^ 32 = v0 % 2 ^ 32 := by
  unfold sub32 u32
  omega

/-- A file that differs behind the reach of a seek. -/
def farFile : File where
  content i := if i < 2 ^ 32 then 0 else 1
  len := 2 ^ 33
  seekable _ := true

/-- The loader puts every byte of an image with separate segments where its address says, relative
to the image, and the rest of each segment to zero, from every file, exactly when it can never be
loaded, or its segments are placed by one at the lowest address and can be sought. -/
theorem loadElf_right_iff (e : Image c) (phdrs : List (Phdr c)) (given : e.phdrs = some phdrs)
    (separate : Separate (segments phdrs) v0) :
    LoadsRight e (segments phdrs) v0 ↔
      Unloadable (segments phdrs) ∨ WellAnchored (segments phdrs) v0 := by
  constructor
  · intro right
    by_contra neither
    simp only [Unloadable, not_or, not_forall, not_exists, not_and, Bool.not_eq_false] at neither
    obtain ⟨⟨⟨a, l, anchor, span⟩, read⟩, bad⟩ := neither
    have ample : farFile.Ample := ⟨rfl, fun _ => rfl⟩
    obtain ⟨ready, start, base, run⟩ :=
      loadElf_granted given anchor span (fun _ _ => some 0) (fun _ => 0) (fun _ _ => rfl) farFile
        ⟨0, 0, 0, 0, 0, 0⟩ fun _ => 0
    have success : (loadSegments farFile ready (segments phdrs) fun _ => 0).1 = true :=
      ample.success (fun p member => (List.mem_filter.mp member).2) read
    have placed := right farFile (fun _ _ => some 0) ⟨0, 0, 0, 0, 0, 0⟩ (fun _ => 0)
      (by rw [run]; exact success)
    rw [run] at placed
    have entry : u32 (ready.base + sub32 ready.entry ready.loadLoc) =
        u32 (ready.base + sub32 e.eEntry v0) := placed.entry
    rw [start.entry, start.loadLoc, entry_iff] at entry
    have same : ready.loadLoc = u32 v0 := start.loadLoc.trans entry
    refine bad ⟨fun a' l' found => ?_, fun p member bytes => ?_⟩
    · rw [anchor] at found
      cases found
      exact entry
    · by_contra far
      have wanted := placed.bytes p member 0 (Nat.pos_of_ne_zero bytes)
      have stored := separate.bytes same success member (Nat.pos_of_ne_zero bytes)
      have reach : u32 p.pOffset < 2 ^ 32 := u32_lt _
      rw [show (copied farFile ready (segments phdrs) fun _ => 0).mem =
        (loadSegments farFile ready (segments phdrs) fun _ => 0).2.1 from rfl,
        show (copied farFile ready (segments phdrs) fun _ => 0).info = ready from rfl, stored,
        Nat.add_zero, Nat.add_zero] at wanted
      simp only [farFile, if_pos reach, if_neg far] at wanted
      exact absurd wanted (by decide)
  · intro condition f claim info mem returned
    rcases loadElf_cases given f claim info mem with ⟨failed, -⟩ | ⟨a, l, ready, start, run⟩
    · rw [failed] at returned
      cases returned
    rw [run] at returned ⊢
    have success : (loadSegments f ready (segments phdrs) mem).1 = true := returned
    rcases condition with (none | ⟨p, member, unread⟩) | anchored
    · exact absurd (none a l start.anchor) start.span
    · rw [loadSegments_read separate.small success member] at unread
      cases unread
    · have same : ready.loadLoc = u32 v0 := start.loadLoc.trans (anchored.anchor a l start.anchor)
      refine ⟨fun p member k inside => ?_, ?_⟩
      · have stored := separate.bytes same success member inside
        rw [u32_of_lt (anchored.offsets p member (by omega))] at stored
        exact stored
      · show u32 (ready.base + sub32 ready.entry ready.loadLoc) = _
        rw [start.entry, start.loadLoc]
        exact entry_iff.mpr (anchored.anchor a l start.anchor)

/-- A segment of 4096 bytes. -/
def page (offset vaddr : Nat) (small : offset < 2 ^ 64 ∧ vaddr < 2 ^ 64) : Phdr .elf64 :=
  ⟨ptLoad, offset, vaddr, 4096, 4096, small.1, small.2, by decide, by decide⟩

/-- Two pages of a kernel linked at the top of the address space. -/
def twoPages : List (Phdr .elf64) :=
  [page 0x1000 0xC000000000000000 (by decide), page 0x2000 0xC000000000003000 (by decide)]

/-- Two pages in the order of their addresses are placed as they should be. -/
theorem twoPages_right : LoadsRight ⟨0xC000000000000000, some twoPages⟩ (segments twoPages)
    0xC000000000000000 := by
  have segs : segments twoPages = twoPages := rfl
  refine (loadElf_right_iff _ twoPages rfl ⟨rfl, ?_, ?_, ?_⟩).mpr (.inr ⟨?_, ?_⟩)
  · rw [segs]
    intro p member
    simp only [twoPages, List.mem_cons, List.not_mem_nil, or_false] at member
    rcases member with rfl | rfl <;> decide
  · rw [segs]
    intro p member
    simp only [twoPages, List.mem_cons, List.not_mem_nil, or_false] at member
    rcases member with rfl | rfl <;> decide
  · rw [segs]
    simp only [twoPages, List.pairwise_cons, List.mem_singleton, forall_eq, page]
    refine ⟨fun x low high both => by omega, fun q member => ?_, .nil⟩
    cases member
  · intro a l anchor
    cases anchor
    rfl
  · rw [segs]
    intro p member
    simp only [twoPages, List.mem_cons, List.not_mem_nil, or_false] at member
    rcases member with rfl | rfl <;> decide

/-- An empty segment and the page that follows it. -/
def emptyFirst : List (Phdr .elf64) :=
  [⟨ptLoad, 0x1000, 0xC000000000000000, 0, 0, by decide, by decide, by decide, by decide⟩,
   page 0x1000 0xC000000000010000 (by decide)]

/-- The page is placed where the empty segment belongs, and so is the entry. -/
theorem empty_first_misplaced :
    ¬ LoadsRight ⟨0xC000000000010000, some emptyFirst⟩ (segments emptyFirst)
      0xC000000000000000 := by
  intro right
  have placed := right ⟨fun _ => 0, 2 ^ 33, fun _ => true⟩ (fun _ _ => some 0)
    ⟨0, 0, 0, 0, 0, 0⟩ (fun _ => 0) (by decide +kernel)
  exact absurd placed.entry (by decide +kernel)

/-! ### The room claimed -/

/-- All copies stay inside the memory claimed for the image. -/
def StaysInside (e : Image c) : Prop :=
  ∀ f claim info mem, ∀ copy ∈ (loadElf c e f claim info mem).copies, ∀ k < copy.2,
    u32 (copy.1 + k) < (loadElf c e f claim info mem).info.memsize

/-- The segments up to the first whose read cannot succeed. -/
def reached : List (Phdr c) → List (Phdr c)
  | [] => []
  | p :: rest => if c.readAll (u32 p.pFilesz) p.pFilesz then p :: reached rest else [p]

/-- Every segment that is copied ends below the size of the image in the file,
rounded up. -/
def Fits (segs : List (Phdr c)) : Prop :=
  ∀ a l, anchorOf segs = some (a, l) → spanOf a l ≠ 0 → ∀ p ∈ reached segs,
    u32 p.pFilesz = 0 ∨
      sub32 p.pVaddr a.pVaddr + u32 p.pFilesz ≤ claimSize c (spanOf a l)

/-- Whatever the file delivers, only segments the loop comes to are copied, and no more of each
than it has. -/
theorem copies_reached (load : ∀ p ∈ segs, p.loadable = true)
    (member : copy ∈ (loadSegments f info segs mem).2.2) :
    ∃ p ∈ reached segs, copy.1 = p.place info ∧ copy.2 ≤ u32 p.pFilesz := by
  induction segs generalizing mem with
  | nil => cases member
  | cons p rest ih =>
    have short : p.count f ≤ u32 p.pFilesz := Nat.min_le_left _ _
    rw [loadSegments_cons (load p List.mem_cons_self)] at member
    split_ifs at member with unseekable failed
    · cases member
    · cases List.mem_singleton.mp member
      refine ⟨p, ?_, rfl, short⟩
      unfold reached
      split_ifs <;> exact List.mem_cons_self
    · rw [Bool.not_eq_false] at failed
      have read : c.readAll (u32 p.pFilesz) p.pFilesz = true := by
        rw [← readAll_count (p.count_lt f) failed]
        exact failed
      rw [reached, if_pos read]
      rcases List.mem_cons.mp member with rfl | later
      · exact ⟨p, List.mem_cons_self, rfl, short⟩
      · obtain ⟨q, found, place, size⟩ :=
          ih (fun q member => load q (List.mem_cons_of_mem _ member)) later
        exact ⟨q, List.mem_cons_of_mem _ found, place, size⟩

/-- From a file that delivers all it is asked for, every segment the loop comes to is copied. -/
theorem File.Ample.copies (ample : f.Ample) (load : ∀ p ∈ segs, p.loadable = true)
    (member : p ∈ reached segs) :
    (p.place info, u32 p.pFilesz) ∈ (loadSegments f info segs mem).2.2 := by
  induction segs generalizing mem with
  | nil => cases member
  | cons first rest ih =>
    rw [loadSegments_cons (load first List.mem_cons_self), ample.seekable, ample.count,
      if_neg (by decide)]
    by_cases read : c.readAll (u32 first.pFilesz) first.pFilesz = true
    · rw [reached, if_pos read] at member
      rw [if_neg (by rw [read]; decide)]
      rcases List.mem_cons.mp member with rfl | later
      · exact List.mem_cons_self
      · exact List.mem_cons_of_mem _
          (ih (fun q member => load q (List.mem_cons_of_mem _ member)) later)
    · rw [reached, if_neg read] at member
      cases List.mem_singleton.mp member
      rw [if_pos (Bool.not_eq_true _ ▸ read)]
      exact List.mem_cons_self

/-- The copies that the loader makes of the segments of an image stay inside the memory claimed for
it, from every file and wherever it is, exactly when the addresses of its segments span no more than
its offsets do, rounded up: the memory is counted from the one, the copies go by the other. -/
theorem loadElf_inside_iff (e : Image c) :
    StaysInside e ↔ ∀ phdrs, e.phdrs = some phdrs → Fits (segments phdrs) := by
  constructor
  · intro inside phdrs given a l anchor span p member
    by_contra neither
    rw [not_or] at neither
    obtain ⟨some_, beyond⟩ := neither
    have ample : farFile.Ample := ⟨rfl, fun _ => rfl⟩
    obtain ⟨ready, start, -, run⟩ :=
      loadElf_granted given anchor span (fun _ _ => some 0) (fun _ => 0) (fun _ _ => rfl) farFile
        ⟨0, 0, 0, 0, 0, 0⟩ fun _ => 0
    have stays := inside farFile (fun _ _ => some 0) ⟨0, 0, 0, 0, 0, 0⟩ (fun _ => 0)
      (p.place ready, u32 p.pFilesz) (by
        rw [run]
        exact ample.copies (fun q member => (List.mem_filter.mp member).2) member)
    rw [run] at stays
    have place : p.place ready = sub32 p.pVaddr a.pVaddr := by
      rw [Phdr.place, start.loadLoc, sub32_u32_right]
    have size : (copied farFile ready (segments phdrs) fun _ => 0).info.memsize =
        claimSize c (spanOf a l) := start.memsize
    have low : sub32 p.pVaddr a.pVaddr < 2 ^ 32 := sub32_lt _ _
    have room : claimSize c (spanOf a l) < 2 ^ 32 := u32_lt _
    dsimp only at stays
    rw [place, size] at stays
    have last := stays (claimSize c (spanOf a l) - sub32 p.pVaddr a.pVaddr)
    by_cases start : claimSize c (spanOf a l) ≤ sub32 p.pVaddr a.pVaddr
    · have first := stays 0 (by omega)
      rw [Nat.add_zero, u32_of_lt low] at first
      omega
    · have outside := last (by omega)
      rw [Nat.add_sub_cancel' (by omega), u32_of_lt room] at outside
      omega
  · intro fits f claim info mem copy member k less
    cases given : e.phdrs with
    | none =>
      unfold loadElf at member
      rw [given] at member
      cases member
    | some phdrs =>
      rcases loadElf_cases given f claim info mem with
        ⟨-, nothing⟩ | ⟨a, l, ready, start, run⟩
      · rw [nothing] at member
        cases member
      rw [run] at member ⊢
      obtain ⟨p, found, place, short⟩ :=
        copies_reached (fun q member => (List.mem_filter.mp member).2) member
      have size : (copied f ready (segments phdrs) mem).info.memsize = claimSize c (spanOf a l) :=
        start.memsize
      have room : claimSize c (spanOf a l) < 2 ^ 32 := u32_lt _
      rw [Phdr.place, start.loadLoc, sub32_u32_right] at place
      rw [size, place]
      rcases fits phdrs given a l start.anchor start.span p found with none | inside
      · omega
      · rw [u32_of_lt (by omega)]
        omega

/-- Two pages that are next to each other in the file but not in memory. -/
def farPages : List (Phdr .elf64) :=
  [page 0x1000 0xC000000000000000 (by decide), page 0x2000 0xC000000001000000 (by decide)]

/-- The second page is copied sixteen megabytes behind the start of an image for
which one was claimed. -/
theorem far_pages_outside : ¬ StaysInside ⟨0xC000000000000000, some farPages⟩ := by
  intro inside
  have stays := inside ⟨fun _ => 0, 2 ^ 33, fun _ => true⟩ (fun _ _ => some 0)
    ⟨0, 0, 0, 0, 0, 0⟩ (fun _ => 0) (0x1000000, 4096) (by decide +kernel) 0 (by decide)
  exact absurd stays (by decide +kernel)

end Yaboot.Elf
