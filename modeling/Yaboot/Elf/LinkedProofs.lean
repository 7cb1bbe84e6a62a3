import Yaboot.Elf.LoadProofs

/-! Images that are no `vmlinux`. The two routines ask for memory at addresses that
are only sometimes the same: that of a segment, and the entry point. -/
namespace Yaboot.Elf
open Buffer Word

variable {c : ElfClass} {p w a l : Phdr c} {phdrs segs rest : List (Phdr c)} {info : Loadinfo}
  {f : File} {mem : Bytes} {e : Image c} {x : Nat}

/-! ### What is asked of the two routines -/

/-- The firmware grants the address it is asked for. -/
def Grants (claim : Nat → Nat → Option Nat) : Prop := ∀ addr size, claim addr size = some addr

/-- An address belongs to a segment. -/
def Phdr.Covers (p : Phdr c) (x : Nat) : Prop := p.pVaddr ≤ x ∧ x < p.pVaddr + p.pFilesz

instance (p : Phdr c) (x : Nat) : Decidable (p.Covers x) :=
  inferInstanceAs (Decidable (_ ∧ _))

/-- The last segment an address belongs to. -/
def writer : List (Phdr c) → Nat → Option (Phdr c)
  | [], _ => none
  | p :: rest, x =>
    match writer rest x with
    | some w => some w
    | none => if p.Covers x then some p else none

/-- An image for 32-bit addresses that is no `vmlinux`. -/
structure Linked (e : Image c) (phdrs : List (Phdr c)) : Prop where
  given : e.phdrs = some phdrs
  other : e.eEntry ≠ c.kernelLinkAddr
  entry : e.eEntry < 2 ^ 32
  addresses : ∀ p ∈ segments phdrs, p.pVaddr < 2 ^ 32 ∧ p.pVaddr + p.pFilesz ≤ 2 ^ 32

/-- Every segment is at its own address, and the entry point is jumped to. -/
structure AtHome (e : Image c) (segs : List (Phdr c)) (f : File) (out : Loaded) : Prop where
  bytes : ∀ p ∈ segs, ∀ k < p.pFilesz, out.mem (p.pVaddr + k) = f.content (p.pOffset + k)
  entry : kernelEntry out.info = e.eEntry

/-- Two headers say the same. -/
def SameHeader (p : Phdr c) (q : Phdr c') : Prop :=
  p.pType = q.pType ∧ p.pOffset = q.pOffset ∧ p.pVaddr = q.pVaddr ∧
    p.pFilesz = q.pFilesz ∧ p.pMemsz = q.pMemsz

/-- What is asked of an image: whatever the file, it is loaded where it was linked,
and a 64-bit image as a 32-bit image with the same headers is. -/
structure LoadsLinked (e : Image c) (phdrs : List (Phdr c)) : Prop where
  home : ∀ f claim info mem, Grants claim → (loadElf c e f claim info mem).returned = true →
    AtHome e (segments phdrs) f (loadElf c e f claim info mem)
  alike : c = .elf64 → ∀ (e' : Image .elf32) (phdrs' : List (Phdr .elf32)), Linked e' phdrs' →
    e'.eEntry = e.eEntry → List.Forall₂ SameHeader phdrs phdrs' →
    ∀ f claim info mem, Grants claim → (loadElf c e f claim info mem).returned = true →
      (loadElf32 e' f claim info mem).returned = true →
      (∀ x < 2 ^ 32, (loadElf32 e' f claim info mem).mem x = (loadElf c e f claim info mem).mem x) ∧
        kernelEntry (loadElf32 e' f claim info mem).info =
          kernelEntry (loadElf c e f claim info mem).info

/-- Where segments overlap they have the same bytes of the file, and those of the
last are found through a 32-bit offset. -/
def Agree (segs : List (Phdr c)) : Prop :=
  ∀ p ∈ segs, ∀ x, p.Covers x → ∀ w, writer segs x = some w →
    u32 w.pOffset + (x - w.pVaddr) = p.pOffset + (x - p.pVaddr)

/-! ### Memory -/

theorem writer_covers (found : writer segs x = some w) : w ∈ segs ∧ w.Covers x := by
  induction segs with
  | nil => cases found
  | cons p rest ih =>
    unfold writer at found
    cases later : writer rest x with
    | some q =>
      rw [later] at found
      obtain rfl := Option.some.inj found
      exact ⟨List.mem_cons_of_mem _ (ih later).1, (ih later).2⟩
    | none =>
      rw [later] at found
      dsimp only at found
      split at found
      · obtain rfl := Option.some.inj found
        exact ⟨List.mem_cons_self, by assumption⟩
      · cases found

theorem writer_some (member : p ∈ segs) (covers : p.Covers x) : ∃ w, writer segs x = some w := by
  induction segs with
  | nil => cases member
  | cons q rest ih =>
    unfold writer
    cases later : writer rest x with
    | some w => exact ⟨w, rfl⟩
    | none =>
      rcases List.mem_cons.mp member with rfl | behind
      · exact ⟨p, if_pos covers⟩
      · obtain ⟨w, found⟩ := ih behind
        rw [later] at found
        cases found

/-- Segments that do not overlap and can be sought agree. -/
theorem Agree.of_apart (small : ∀ p ∈ segs, p.pOffset < 2 ^ 32)
    (apart : ∀ p ∈ segs, ∀ q ∈ segs, ∀ x, p.Covers x → q.Covers x → p = q) : Agree segs := by
  intro p member x covers w found
  obtain ⟨there, both⟩ := writer_covers found
  obtain rfl := apart p member w there x covers both
  rw [u32_of_lt (small p member)]

/-- With the memory it is linked for, a segment is stored at its own address. -/
theorem touches_linked (home : info.base = info.loadLoc)
    (low : p.pVaddr < 2 ^ 32 ∧ p.pVaddr + p.pFilesz ≤ 2 ^ 32) (address : x < 2 ^ 32) :
    u32 (info.base + p.place info) = p.pVaddr ∧ (p.Touches info x ↔ p.Covers x) := by
  have place : u32 (info.base + p.place info) = p.pVaddr := by
    unfold Phdr.place
    rw [home]
    unfold sub32 u32
    omega
  refine ⟨place, ?_⟩
  unfold Phdr.Touches Phdr.Covers
  rw [place]
  unfold sub32
  omega

theorem linked_small (low : ∀ p ∈ segs, p.pVaddr < 2 ^ 32 ∧ p.pVaddr + p.pFilesz ≤ 2 ^ 32)
    (load : ∀ p ∈ segs, p.loadable = true) : Small segs := by
  intro p member
  have bounds := low p member
  exact ⟨load p member, by omega⟩

/-- After the copies an address holds what the last segment it belongs to has. -/
theorem loadSegments_writer (small : Small segs)
    (low : ∀ p ∈ segs, p.pVaddr < 2 ^ 32 ∧ p.pVaddr + p.pFilesz ≤ 2 ^ 32)
    (home : info.base = info.loadLoc) (success : (loadSegments f info segs mem).1 = true)
    (address : x < 2 ^ 32) :
    (loadSegments f info segs mem).2.1 x =
      match writer segs x with
      | some w => f.content (u32 w.pOffset + (x - w.pVaddr))
      | none => mem x := by
  induction segs generalizing mem with
  | nil => rfl
  | cons p rest ih =>
    obtain ⟨⟨read, -⟩, later, final⟩ := loadSegments_step small success
    obtain ⟨place, touches⟩ := touches_linked home (low p List.mem_cons_self) address
    rw [final, ih small.tail (fun q member => low q (List.mem_cons_of_mem _ member)) later, writer]
    cases writer rest x with
    | some w => rfl
    | none =>
      dsimp only
      by_cases covers : p.Covers x
      · have bounds := low p List.mem_cons_self
        have index : sub32 x p.pVaddr = x - p.pVaddr := sub32_of_le address covers.1
        rw [if_pos covers, Phdr.stored_inside read (touches.mpr covers), place, index]
      · rw [if_neg covers, Phdr.stored_outside read (fun inside => covers (touches.mp inside))]

/-! ### Runs -/

theorem anchorFrom_mem (a l : Phdr c) (segs : List (Phdr c)) : (anchorFrom a l segs).1 ∈ a :: segs := by
  induction segs generalizing a l with
  | nil => exact List.mem_cons_self
  | cons p rest ih =>
    unfold anchorFrom
    split
    · exact List.mem_cons_of_mem _ (ih p p)
    · rcases List.mem_cons.mp (ih a p) with same | behind
      · exact List.mem_cons.mpr (.inl same)
      · exact List.mem_cons_of_mem _ (List.mem_cons_of_mem _ behind)

theorem anchorOf_mem (anchor : anchorOf segs = some (a, l)) : a ∈ segs := by
  cases segs with
  | nil => cases anchor
  | cons p rest =>
    have same : anchorFrom p p rest = (a, l) := Option.some.inj anchor
    rw [show a = (anchorFrom p p rest).1 by rw [same]]
    exact anchorFrom_mem p p rest

theorem Linked.small (linked : Linked e phdrs) : Small (segments phdrs) :=
  linked_small linked.addresses fun _ member => (List.mem_filter.mp member).2

/-- What is known when the copies begin. -/
structure Begun (e : Image c) (phdrs : List (Phdr c)) (info : Loadinfo) (a l : Phdr c) : Prop where
  ready : Ready e (segments phdrs) info a l
  base : info.base = c.linkedAt info

theorem Linked.begun (linked : Linked e phdrs) (anchor : anchorOf (segments phdrs) = some (a, l))
    (span : spanOf a l ≠ 0) (grants : Grants claim) (f : File) (info : Loadinfo) (mem : Bytes) :
    ∃ ready, Begun e phdrs ready a l ∧
      loadElf c e f claim info mem = copied f ready (segments phdrs) mem := by
  obtain ⟨ready, start, base, run⟩ :=
    loadElf_granted linked.given anchor span claim id grants f info mem
  rw [if_neg linked.other] at base
  exact ⟨ready, ⟨start, base⟩, run⟩

/-- An image that was loaded has got the memory it asked for. -/
theorem Linked.loaded (linked : Linked e phdrs) (grants : Grants claim)
    (returned : (loadElf c e f claim info mem).returned = true) :
    ∃ a l ready, Begun e phdrs ready a l ∧
      loadElf c e f claim info mem = copied f ready (segments phdrs) mem ∧
      (loadSegments f ready (segments phdrs) mem).1 = true := by
  rcases loadElf_cases linked.given f claim info mem with ⟨failed, -⟩ | ⟨a, l, old, start, -⟩
  · rw [failed] at returned
    cases returned
  · obtain ⟨ready, begun, run⟩ := linked.begun start.anchor start.span grants f info mem
    rw [run] at returned
    exact ⟨a, l, ready, begun, run, returned⟩

/-- A 32-bit image is at home, and a 64-bit image when it is entered at the segment
the others are placed by. -/
theorem Begun.home (begun : Begun e phdrs info a l) (linked : Linked e phdrs)
    (same : c = .elf64 → a.pVaddr = e.eEntry) : info.base = info.loadLoc := by
  have base := begun.base
  cases c with
  | elf32 => exact base
  | elf64 =>
    rw [base, begun.ready.loadLoc, same rfl]
    exact begun.ready.entry

theorem Begun.entry (begun : Begun e phdrs info a l) (linked : Linked e phdrs)
    (home : info.base = info.loadLoc) : kernelEntry info = e.eEntry := by
  have small := linked.entry
  unfold kernelEntry
  rw [home, begun.ready.entry]
  have loadLoc : info.loadLoc < 2 ^ 32 := by
    rw [begun.ready.loadLoc]
    exact u32_lt _
  unfold sub32 u32
  omega

/-- The entry point is right only if a 64-bit image is entered at that segment. -/
theorem Begun.same (begun : Begun e phdrs info a l) (linked : Linked e phdrs)
    (entry : kernelEntry info = e.eEntry) : c = .elf64 → a.pVaddr = e.eEntry := by
  rintro rfl
  have small := linked.entry
  have address := (linked.addresses a (anchorOf_mem begun.ready.anchor)).1
  have base : info.base = u32 e.eEntry := begun.base.trans begun.ready.entry
  unfold kernelEntry at entry
  rw [base, begun.ready.entry, begun.ready.loadLoc] at entry
  unfold sub32 u32 at entry
  omega

/-! ### The same headers -/

theorem SameHeader.loadable {p : Phdr c} {q : Phdr c'} (same : SameHeader p q) :
    p.loadable = q.loadable := by
  unfold Phdr.loadable
  rw [same.1, same.2.1]

theorem segments_same {phdrs : List (Phdr c)} {phdrs' : List (Phdr c')}
    (same : List.Forall₂ SameHeader phdrs phdrs') :
    List.Forall₂ SameHeader (segments phdrs) (segments phdrs') := by
  induction same with
  | nil => exact .nil
  | @cons p q rest rest' head tail ih =>
    unfold segments at ih ⊢
    rw [List.filter_cons, List.filter_cons, ← head.loadable]
    split
    · exact .cons head ih
    · exact ih

/-- The last segments an address belongs to are the same. -/
theorem writer_same {segs : List (Phdr c)} {segs' : List (Phdr c')}
    (same : List.Forall₂ SameHeader segs segs') (x : Nat) :
    (writer segs x = none ∧ writer segs' x = none) ∨
      ∃ w w', writer segs x = some w ∧ writer segs' x = some w' ∧ SameHeader w w' := by
  induction same with
  | nil => exact .inl ⟨rfl, rfl⟩
  | @cons p q rest rest' head tail ih =>
    have covers : p.Covers x ↔ q.Covers x := by
      unfold Phdr.Covers
      rw [head.2.2.1, head.2.2.2.1]
    unfold writer
    rcases ih with ⟨none, none'⟩ | ⟨w, w', found, found', both⟩
    · rw [none, none']
      by_cases inside : p.Covers x
      · exact .inr ⟨p, q, if_pos inside, if_pos (covers.mp inside), head⟩
      · exact .inl ⟨if_neg inside, if_neg fun yours => inside (covers.mpr yours)⟩
    · rw [found, found']
      exact .inr ⟨w, w', rfl, rfl, both⟩

/-! ### Images that can be loaded -/

/-- Nothing is asked of an image that can never be loaded. -/
theorem Linked.loadable (linked : Linked e phdrs) (grants : Grants claim)
    (returned : (loadElf c e f claim info mem).returned = true) : ¬ Unloadable (segments phdrs) := by
  obtain ⟨a, l, ready, begun, -, success⟩ := linked.loaded grants returned
  rintro (none | ⟨p, member, unread⟩)
  · exact begun.ready.span (none a l begun.ready.anchor)
  · rw [loadSegments_read linked.small success member] at unread
    cases unread

/-- Segments that agree are all at home. -/
theorem Linked.atHome (linked : Linked e phdrs) (agree : Agree (segments phdrs))
    (same : c = .elf64 → ∀ a l, anchorOf (segments phdrs) = some (a, l) → a.pVaddr = e.eEntry)
    (grants : Grants claim) (returned : (loadElf c e f claim info mem).returned = true) :
    AtHome e (segments phdrs) f (loadElf c e f claim info mem) := by
  obtain ⟨a, l, ready, begun, run, success⟩ := linked.loaded grants returned
  have home := begun.home linked fun wide => same wide a l begun.ready.anchor
  rw [run]
  refine ⟨fun p member k less => ?_, begun.entry linked home⟩
  have bounds := linked.addresses p member
  have covers : p.Covers (p.pVaddr + k) := ⟨Nat.le_add_right _ _, by omega⟩
  have stored := loadSegments_writer linked.small linked.addresses home success
    (show p.pVaddr + k < 2 ^ 32 by omega)
  obtain ⟨w, found⟩ := writer_some member covers
  rw [found] at stored
  have place := agree p member _ covers w found
  rw [Nat.add_sub_cancel_left] at place
  exact stored.trans (congrArg f.content place)

/-- A file whose bytes are zero but for one. -/
def marked (pos : Nat) : File where
  content i := if i = pos then 1 else 0
  len := 2 ^ 33
  seekable _ := true

/-- An image that is at home from every file is entered at the segment the others
are placed by, and its segments agree. -/
theorem Linked.agree (linked : Linked e phdrs) (loadable : ¬ Unloadable (segments phdrs))
    (home : ∀ f claim info mem, Grants claim → (loadElf c e f claim info mem).returned = true →
      AtHome e (segments phdrs) f (loadElf c e f claim info mem)) :
    Agree (segments phdrs) ∧
      (c = .elf64 → ∀ a l, anchorOf (segments phdrs) = some (a, l) → a.pVaddr = e.eEntry) := by
  simp only [Unloadable, not_or, not_forall, not_exists, not_and, Bool.not_eq_false] at loadable
  obtain ⟨⟨a, l, anchor, span⟩, read⟩ := loadable
  have loaded : ∀ pos, ∃ ready, Begun e phdrs ready a l ∧
      (loadSegments (marked pos) ready (segments phdrs) fun _ => 0).1 = true ∧
      AtHome e (segments phdrs) (marked pos) (copied (marked pos) ready (segments phdrs) fun _ => 0) := by
    intro pos
    have grants : Grants fun addr _ => some addr := fun _ _ => rfl
    obtain ⟨ready, begun, run⟩ :=
      linked.begun anchor span grants (marked pos) ⟨0, 0, 0, 0, 0, 0⟩ fun _ => 0
    have ample : (marked pos).Ample := ⟨rfl, fun _ => rfl⟩
    have success : (loadSegments (marked pos) ready (segments phdrs) fun _ => 0).1 = true :=
      ample.success (fun p member => (List.mem_filter.mp member).2) read
    have right := home (marked pos) _ ⟨0, 0, 0, 0, 0, 0⟩ (fun _ => 0) grants (by rw [run]; exact success)
    rw [run] at right
    exact ⟨ready, begun, success, right⟩
  have same : c = .elf64 → a.pVaddr = e.eEntry := by
    obtain ⟨ready, begun, -, right⟩ := loaded 0
    exact begun.same linked right.entry
  refine ⟨fun p member x covers w found => ?_, fun wide a' l' anchor' => ?_⟩
  · obtain ⟨ready, begun, success, right⟩ := loaded (p.pOffset + (x - p.pVaddr))
    have bounds := linked.addresses p member
    obtain ⟨low, high⟩ := covers
    have inside : x - p.pVaddr < p.pFilesz := by omega
    have address : p.pVaddr + (x - p.pVaddr) = x := Nat.add_sub_cancel' low
    have wanted := right.bytes p member (x - p.pVaddr) inside
    rw [address] at wanted
    have stored := loadSegments_writer linked.small linked.addresses (begun.home linked same) success
      (show x < 2 ^ 32 by omega)
    rw [found] at stored
    have byte : (marked (p.pOffset + (x - p.pVaddr))).content (u32 w.pOffset + (x - w.pVaddr)) = 1 :=
      stored.symm.trans (wanted.trans (if_pos rfl))
    by_contra other
    rw [show (marked (p.pOffset + (x - p.pVaddr))).content (u32 w.pOffset + (x - w.pVaddr)) = 0 from
      if_neg other] at byte
    exact absurd byte (by decide)
  · rw [anchor] at anchor'
    obtain ⟨rfl, rfl⟩ := Prod.mk.inj (Option.some.inj anchor')
    exact same wide

/-- A 64-bit image that is at home is where a 32-bit one with its headers is. -/
theorem Linked.alike {e : Image .elf64} {phdrs : List (Phdr .elf64)} {e' : Image .elf32}
    {phdrs' : List (Phdr .elf32)} (linked : Linked e phdrs) (linked' : Linked e' phdrs')
    (entry : e'.eEntry = e.eEntry) (headers : List.Forall₂ SameHeader phdrs phdrs')
    (same : ∀ a l, anchorOf (segments phdrs) = some (a, l) → a.pVaddr = e.eEntry)
    (grants : Grants claim) (returned : (loadElf .elf64 e f claim info mem).returned = true)
    (returned' : (loadElf32 e' f claim info mem).returned = true) :
    (∀ x < 2 ^ 32, (loadElf32 e' f claim info mem).mem x =
        (loadElf .elf64 e f claim info mem).mem x) ∧
      kernelEntry (loadElf32 e' f claim info mem).info =
        kernelEntry (loadElf .elf64 e f claim info mem).info := by
  obtain ⟨a, l, ready, begun, run, success⟩ := linked.loaded grants returned
  obtain ⟨a', l', ready', begun', run', success'⟩ := linked'.loaded grants returned'
  have home := begun.home linked fun _ => same a l begun.ready.anchor
  have home' := begun'.home linked' fun wide => ElfClass.noConfusion wide
  rw [run, show loadElf32 e' f claim info mem = _ from run']
  constructor
  · intro x address
    have stored := loadSegments_writer linked.small linked.addresses home success address
    have stored' := loadSegments_writer linked'.small linked'.addresses home' success' address
    refine stored'.trans (Eq.trans ?_ stored.symm)
    rcases writer_same (segments_same headers) x with ⟨none, none'⟩ | ⟨w, w', found, found', both⟩
    · rw [none, none']
    · rw [found, found']
      dsimp only
      rw [both.2.1, both.2.2.1]
  · exact (begun'.entry linked' home').trans (entry.trans (begun.entry linked home).symm)

/-- An image is loaded where it was linked exactly when it can never be loaded, or
its segments agree and, if it is a 64-bit image, it is entered at the start of the
segment the others are placed by. -/
theorem loads_linked_iff (e : Image c) (phdrs : List (Phdr c)) (linked : Linked e phdrs) :
    LoadsLinked e phdrs ↔
      Unloadable (segments phdrs) ∨
        (Agree (segments phdrs) ∧
          (c = .elf64 → ∀ a l, anchorOf (segments phdrs) = some (a, l) → a.pVaddr = e.eEntry)) := by
  constructor
  · intro right
    by_cases loadable : Unloadable (segments phdrs)
    · exact .inl loadable
    · exact .inr (linked.agree loadable right.home)
  · intro condition
    have whole : ∀ f claim info mem, Grants claim →
        (loadElf c e f claim info mem).returned = true → Agree (segments phdrs) ∧
          (c = .elf64 → ∀ a l, anchorOf (segments phdrs) = some (a, l) → a.pVaddr = e.eEntry) :=
      fun f claim info mem grants returned =>
        condition.resolve_left (linked.loadable grants returned)
    refine ⟨fun f claim info mem grants returned => ?_, ?_⟩
    · obtain ⟨agree, same⟩ := whole f claim info mem grants returned
      exact linked.atHome agree same grants returned
    · rintro rfl e' phdrs' linked' entry headers f claim info mem grants returned returned'
      exact linked.alike linked' entry headers ((whole f claim info mem grants returned).2 rfl)
        grants returned returned'

/-- A page of a boot program, entered at its start. -/
theorem zImage_linked :
    LoadsLinked ⟨0x400000, some [page 0x1000 0x400000 (by decide)]⟩
      [page 0x1000 0x400000 (by decide)] := by
  have segs : segments [page 0x1000 0x400000 (by decide)] = [page 0x1000 0x400000 (by decide)] := rfl
  refine (loads_linked_iff _ _ ⟨rfl, by decide, by decide, ?_⟩).mpr (.inr ⟨?_, fun _ a l anchor => ?_⟩)
  · rw [segs]
    intro p member
    obtain rfl := List.mem_singleton.mp member
    decide
  · rw [segs]
    apply Agree.of_apart
    · intro p member
      obtain rfl := List.mem_singleton.mp member
      decide
    · intro p member q member' _ _ _
      exact (List.mem_singleton.mp member).trans (List.mem_singleton.mp member').symm
  · cases anchor
    rfl

/-- The same page, entered behind its first bytes. -/
theorem late_entry_misplaced :
    ¬ ∀ (e : Image .elf64) (phdrs : List (Phdr .elf64)), Linked e phdrs → LoadsLinked e phdrs := by
  intro right
  have linked : Linked ⟨0x400010, some [page 0x1000 0x400000 (by decide)]⟩
      [page 0x1000 0x400000 (by decide)] := by
    refine ⟨rfl, by decide, by decide, fun p member => ?_⟩
    obtain rfl := List.mem_singleton.mp
      (show p ∈ [page 0x1000 0x400000 (by decide)] from member)
    decide
  have entry := ((right _ _ linked).home ⟨fun _ => 0, 2 ^ 33, fun _ => true⟩ (fun addr _ => some addr)
    ⟨0, 0, 0, 0, 0, 0⟩ (fun _ => 0) (fun _ _ => rfl) (by decide)).entry
  exact absurd entry (by decide)

end Yaboot.Elf
