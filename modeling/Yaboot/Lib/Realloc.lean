import Yaboot.Lib.MallocBounds

/-! What a caller may expect of `realloc`, and of `malloc` after it. In place the next
free address is not rounded, elsewhere as much is copied as the old block was long, and
before the first allocation `NULL` passes for the last one. -/
namespace Yaboot.Malloc
open Buffer Word

/-! ### The contract -/

/-- The new block ends in the pool. -/
def Pool.Fits (p : Pool) (ptr size : Nat) : Prop :=
  (if ptr ≠ 0 ∧ ptr = p.heap.lastAlloc then ptr else p.heap.mallocPtr + 4) + size ≤ p.heap.mallocTop

/-- The bytes move along, and nothing but the block and its header is written. -/
structure Pool.Resized (p : Pool) (ptr size : Nat) : Prop where
  granted : (p.heap.realloc ptr size).1 ≠ 0
  aligned : 4 ∣ (p.heap.realloc ptr size).1
  kept : ∀ b ∈ p.live, b.addr = ptr → ∀ i < min b.size size,
    (p.heap.realloc ptr size).2.mem ((p.heap.realloc ptr size).1 + i) = p.heap.mem (ptr + i)
  outside : ∀ i, i + 4 < (p.heap.realloc ptr size).1 ∨ (p.heap.realloc ptr size).1 + size ≤ i →
    (p.heap.realloc ptr size).2.mem i = p.heap.mem i
  null : ptr = 0 → p.heap.realloc ptr size = p.heap.malloc size

def Pool.Contract (p : Pool) : Call → Prop
  | .malloc size => 4 ∣ (p.heap.malloc size).1
  | .posixMemalign _ _ => True
  | .realloc ptr size => p.Fits ptr size → p.Resized ptr size
  | .free _ => True
  | .store _ => True

/-- A program that resizes and returns only what it holds or `NULL`, and writes only to
what it holds and outside the pool. -/
def Pool.Proper (bottom pool : Nat) (p : Pool) : Call → Prop
  | .malloc size => size < 2 ^ 32
  | .posixMemalign alignment size => alignment < 2 ^ 32 ∧ size < 2 ^ 32
  | .realloc ptr size => (ptr = 0 ∨ ∃ b ∈ p.live, b.addr = ptr) ∧ size < 2 ^ 32
  | .free ptr => ptr = 0 ∨ ∃ b ∈ p.live, b.addr = ptr
  | .store mem => ∀ i, mem i ≠ p.heap.mem i →
      i < bottom ∨ bottom + pool ≤ i ∨ ∃ b ∈ p.live, b.addr ≤ i ∧ i < b.addr + b.size

/-- The end of a block is in the pool, or above it also as a 32-bit word. -/
def Heap.Fair (h : Heap) (end_ : Nat) : Prop := end_ ≤ h.mallocTop ∨ h.mallocTop < u32 end_

/-- Sums do not wrap into the pool; in place the size is a multiple of 4 or nothing fits
behind; elsewhere the block does not shrink; `NULL` is not what was handed out last. -/
def Pool.Meets (p : Pool) : Call → Prop
  | .malloc size => p.heap.Fair (p.heap.mallocPtr + 4 + size)
  | .posixMemalign alignment size =>
    badAlign (minAlign alignment) = true ∨ size = 0 ∨
      p.heap.Fair (alignUp (p.heap.mallocPtr + 4) (minAlign alignment) + size)
  | .realloc ptr size =>
    (ptr = p.heap.lastAlloc → p.heap.Fair (ptr + size) ∧ (ptr + size ≤ p.heap.mallocTop →
      ptr ≠ 0 ∧ (size % 4 = 0 ∨ p.heap.mallocTop < ptr + size + 4))) ∧
    (ptr ≠ p.heap.lastAlloc → p.heap.Fair (p.heap.mallocPtr + 4 + size) ∧
      (p.heap.mallocPtr + 4 + size ≤ p.heap.mallocTop →
        ∀ b ∈ p.live, b.addr = ptr → b.size ≤ size))
  | .free ptr => ptr = p.heap.lastAlloc → ptr ≠ 0
  | .store _ => True

instance (h : Heap) (end_ : Nat) : Decidable (h.Fair end_) := inferInstanceAs (Decidable (_ ∨ _))

instance (p : Pool) : (c : Call) → Decidable (p.Meets c)
  | .malloc _ => inferInstanceAs (Decidable (Heap.Fair _ _))
  | .posixMemalign _ _ => inferInstanceAs (Decidable (_ ∨ _))
  | .realloc _ _ => inferInstanceAs (Decidable (_ ∧ _))
  | .free _ => inferInstanceAs (Decidable (_ → _))
  | .store _ => inferInstanceAs (Decidable True)

/-! ### What the calls leave -/

section Heap
variable {h : Heap} {size : Nat}

theorem four_dvd_roundUp (n : Nat) : 4 ∣ roundUp n := by
  unfold roundUp
  rw [show not32 3 = not32 (2 ^ 2 - 1) from rfl, and_not32 (u32_lt _) (by decide)]
  exact Nat.dvd_mul_left _ _

theorem Heap.malloc_granted (h : Heap) (off : h.mallocPtr ≠ 0) (word : h.mallocTop < 2 ^ 32)
    (fits : h.mallocPtr + 4 + size ≤ h.mallocTop) :
    h.malloc size = (h.mallocPtr + 4, { h with
      mem := store32 h.mem h.mallocPtr size
      lastAlloc := h.mallocPtr + 4
      mallocPtr := roundUp (h.mallocPtr + 4 + size) }) := by
  unfold Heap.malloc
  rw [if_neg off, Nat.add_right_comm, u32_of_lt (by omega : h.mallocPtr + 4 + size < 2 ^ 32),
    if_neg (Nat.not_lt.mpr fits), u32_of_lt (by omega : h.mallocPtr + 4 < 2 ^ 32), Nat.add_comm size,
    ← Nat.add_assoc, u32_of_lt (by omega : h.mallocPtr + 4 + size < 2 ^ 32)]

/-- An aligned address in the pool is reached without wrapping. -/
theorem Heap.alignedAddr_fits (h : Heap) (good : badAlign (minAlign asked) = false)
    (word : asked < 2 ^ 32) (fits : alignUp (h.mallocPtr + 4) (minAlign asked) < 2 ^ 32) :
    h.mallocPtr + 4 + (minAlign asked - 1) < 2 ^ 32 ∧
      alignedAddr h.mallocPtr (minAlign asked) =
        alignUp (h.mallocPtr + 4) (minAlign asked) := by
  obtain ⟨k, small, shape⟩ := minAlign_pow good word
  rw [shape] at fits ⊢
  refine ⟨?_, by rw [alignedAddr_wraps _ small, u32_of_lt fits]⟩
  by_contra wraps
  have whole : 2 ^ (32 - k) * 2 ^ k = 2 ^ 32 := by
    rw [← Nat.pow_add, Nat.sub_add_cancel (Nat.le_of_lt small)]
  have large := (Nat.le_div_iff_mul_le (Nat.two_pow_pos k)).mpr
    (whole.trans_le (Nat.le_of_not_lt wraps))
  have beyond := Nat.mul_le_mul_right (2 ^ k) large
  unfold alignUp at fits
  omega

theorem four_dvd_minAlign (good : badAlign (minAlign asked) = false) : 4 ∣ minAlign asked := by
  unfold badAlign at good
  simp only [Bool.or_eq_false_iff, decide_eq_false_iff_not, not_not] at good
  exact Nat.dvd_of_mod_eq_zero good.1

theorem Heap.posixMemalign_next (h : Heap) (asked size : Nat) :
    (h.posixMemalign asked size).2.mallocPtr = h.mallocPtr ∨
      4 ∣ (h.posixMemalign asked size).2.mallocPtr := by
  unfold Heap.posixMemalign
  dsimp only
  split_ifs
  · exact .inl rfl
  · exact .inl rfl
  · exact .inl rfl
  · exact .inl rfl
  · exact .inr (four_dvd_roundUp _)

/-- A request that is badly aligned, empty or behind the pool leaves the heap alone. -/
theorem Heap.posixMemalign_refuses (h : Heap) (opened : h.mallocPtr ≠ 0) (word : asked < 2 ^ 32)
    (closed : badAlign (minAlign asked) = true ∨ size = 0 ∨
      h.mallocTop < u32 (alignUp (h.mallocPtr + 4) (minAlign asked) + size)) :
    (∃ errno, h.posixMemalign asked size = (.error errno, h)) ∨
      h.posixMemalign asked size = (.ok 0, h) := by
  cases bad : badAlign (minAlign asked) with
  | true =>
    refine .inl ⟨einval, ?_⟩
    unfold Heap.posixMemalign
    simp only [if_neg opened, bad, if_true]
  | false =>
    by_cases empty : size = 0
    · refine .inr ?_
      unfold Heap.posixMemalign
      simp only [if_neg opened, bad, Bool.false_eq_true, if_false, if_pos empty]
    · obtain ⟨-, h', result⟩ :=
        h.posixMemalign_eq bad word (Nat.pos_of_ne_zero empty) opened
      have full := (closed.resolve_left (by simp [bad])).resolve_left empty
      rw [if_pos full] at result
      exact .inl ⟨enomem, result⟩

theorem Heap.realloc_null (h : Heap) (size : Nat) (some : h.lastAlloc ≠ 0) :
    h.realloc 0 size = h.malloc size := by
  unfold Heap.realloc
  split
  case isTrue off => exact (if_pos off).symm
  case isFalse off =>
    rw [if_neg some.symm]
    dsimp only
    rw [if_neg fun both => both.2 rfl]

theorem Heap.realloc_moved (h : Heap) (off : h.mallocPtr ≠ 0) (word : h.mallocTop < 2 ^ 32)
    (fits : h.mallocPtr + 4 + size ≤ h.mallocTop) (other : ptr ≠ h.lastAlloc) (some : ptr ≠ 0) :
    h.realloc ptr size = (h.mallocPtr + 4,
      (h.malloc size).2.memcpy (h.mallocPtr + 4) ptr ((h.malloc size).2.header ptr)) := by
  have moved : (h.malloc size).1 = h.mallocPtr + 4 := by rw [h.malloc_granted off word fits]
  unfold Heap.realloc
  rw [if_neg off, if_neg other]
  dsimp only
  rw [moved, if_pos ⟨Nat.succ_ne_zero _, some⟩]

theorem Heap.realloc_placed (h : Heap) (off : h.mallocPtr ≠ 0) (word : h.mallocTop < 2 ^ 32)
    (fits : ptr + size ≤ h.mallocTop) (last : ptr = h.lastAlloc) (header : 4 ≤ ptr) :
    h.realloc ptr size = (ptr, { h with
      mem := store32 h.mem (ptr - 4) size
      mallocPtr := ptr + size }) := by
  unfold Heap.realloc
  rw [if_neg off, if_pos last, u32_of_lt (by omega : ptr + size < 2 ^ 32),
    if_neg (Nat.not_lt.mpr fits), sub32_of_le (by omega) header]

end Heap

/-! ### The invariant -/

/-- Blocks lie on words, and so does what is handed out next. -/
structure Tidy (bottom pool : Nat) (p : Pool) : Prop where
  sound : Sound bottom pool p
  start : 0 < bottom
  next : 4 ∣ p.heap.mallocPtr ∨ p.heap.mallocTop < p.heap.mallocPtr + 4
  addrs : ∀ b ∈ p.live, 4 ∣ b.addr

namespace Tidy
variable {bottom pool : Nat} {p : Pool} {h h' : Heap} {live : List Block} {c : Call}

theorem opened (tidy : Tidy bottom pool p) : p.heap.mallocPtr ≠ 0 :=
  (Nat.lt_of_lt_of_le tidy.start tidy.sound.above).ne'

theorem top (tidy : Tidy bottom pool p) : p.heap.mallocTop + 3 < 2 ^ 32 := by
  rw [tidy.sound.top]
  exact tidy.sound.fits

/-- In front of a block there is room for its header. -/
theorem place (tidy : Tidy bottom pool p) (held : b ∈ p.live) : 4 ≤ b.addr :=
  (Nat.le_add_left 4 bottom).trans (tidy.sound.inside b held).1

/-- Where something fits, it starts on a word. -/
theorem dvd_next (tidy : Tidy bottom pool p) (fits : p.heap.mallocPtr + 4 ≤ p.heap.mallocTop) :
    4 ∣ p.heap.mallocPtr + 4 := by
  rcases tidy.next with aligned | full
  · exact Nat.dvd_add_right aligned |>.mpr (Nat.dvd_refl 4)
  · omega

theorem same (tidy : Tidy bottom pool ⟨h, live⟩) (same : h.Same h') :
    Tidy bottom pool ⟨h', live⟩ where
  sound := tidy.sound.same same
  start := tidy.start
  next := by
    rw [same.mallocPtr, same.mallocTop]
    exact tidy.next
  addrs := tidy.addrs

theorem fewer (tidy : Tidy bottom pool p) (ptr : Nat) :
    Tidy bottom pool ⟨p.heap, p.others ptr⟩ where
  sound := tidy.sound.fewer List.filter_sublist
  start := tidy.start
  next := tidy.next
  addrs b held := tidy.addrs b (List.mem_filter.mp held).1

theorem grown (tidy : Tidy bottom pool ⟨h, live⟩) (grown : h.Grown h' addr size)
    (aligned : 4 ∣ addr) (next : 4 ∣ h'.mallocPtr) :
    Tidy bottom pool ⟨h', ⟨addr, size⟩ :: live⟩ where
  sound := tidy.sound.grown grown
  start := tidy.start
  next := .inl next
  addrs := List.forall_mem_cons.mpr ⟨aligned, tidy.addrs⟩

/-- A block that is handed out by `malloc`. -/
theorem granted (tidy : Tidy bottom pool p)
    (fits : p.heap.mallocPtr + 4 + size ≤ p.heap.mallocTop) :
    (p.heap.malloc size).1 = p.heap.mallocPtr + 4 ∧
      p.heap.Grown (p.heap.malloc size).2 (p.heap.mallocPtr + 4) size ∧
      4 ∣ (p.heap.malloc size).2.mallocPtr := by
  have top := tidy.top
  have result := p.heap.malloc_granted tidy.opened (by omega) fits
  rcases p.heap.malloc_spec top (by omega : p.heap.mallocPtr + size + 4 < 2 ^ 32) with
    ⟨failed, -⟩ | ⟨-, grown⟩
  · rw [result] at failed
    exact absurd failed (Nat.succ_ne_zero _)
  · rw [result] at grown ⊢
    exact ⟨rfl, grown, four_dvd_roundUp _⟩

/-- A block that `realloc` moves: as many bytes are copied as it had. -/
theorem moved (tidy : Tidy bottom pool p) (held : b ∈ p.live) (other : b.addr ≠ p.heap.lastAlloc)
    (fits : p.heap.mallocPtr + 4 + size ≤ p.heap.mallocTop) :
    (p.heap.realloc b.addr size).1 = p.heap.mallocPtr + 4 ∧
      (p.heap.realloc b.addr size).2.mem =
        blit (store32 p.heap.mem p.heap.mallocPtr size) (p.heap.mallocPtr + 4) b.size
          (fun i => p.heap.mem (b.addr + i)) ∧
      p.heap.Grown (p.heap.realloc b.addr size).2 (p.heap.mallocPtr + 4) size ∧
      4 ∣ (p.heap.realloc b.addr size).2.mallocPtr := by
  have top := tidy.top
  have inside := tidy.sound.inside b held
  have below := tidy.sound.below b held
  have room := tidy.sound.fits
  have placed := p.heap.malloc_granted tidy.opened (by omega) fits
  have result := p.heap.realloc_moved tidy.opened (by omega) fits other (by omega)
  have header : (p.heap.malloc size).2.header b.addr = b.size := by
    rw [placed, ← tidy.sound.header b held, Heap.header, sub32_of_le (by omega) (by omega)]
    exact word32_congr fun i _ before => store32_outside _ _ (.inl (by omega))
  refine ⟨by rw [result], ?_, ?_, ?_⟩
  · rw [result, header, placed]
    exact blit_congr fun i before => store32_outside _ _ (.inl (by omega))
  · rcases p.heap.realloc_spec top (by omega : 4 ≤ b.addr) (by omega : b.addr + size < 2 ^ 32)
        (by omega) with
      ⟨failed, -⟩ | ⟨last, -⟩ | ⟨-, grown⟩
    · rw [result] at failed
      exact absurd failed (Nat.succ_ne_zero _)
    · exact absurd last other
    · rw [result] at grown ⊢
      exact grown
  · rw [result, placed]
    exact four_dvd_roundUp _

/-! ### Each call -/

theorem placed (tidy : Tidy bottom pool p) (held : b ∈ p.live) (last : b.addr = p.heap.lastAlloc)
    (fits : b.addr + size ≤ p.heap.mallocTop) :
    p.heap.realloc b.addr size = (b.addr, { p.heap with
      mem := store32 p.heap.mem (b.addr - 4) size
      mallocPtr := b.addr + size }) := by
  have top := tidy.top
  have inside := tidy.sound.inside b held
  exact p.heap.realloc_placed tidy.opened (by omega) fits last (by omega)

/-- The last block is resized in place. -/
theorem resized_last (tidy : Tidy bottom pool p) (held : b ∈ p.live)
    (last : b.addr = p.heap.lastAlloc) (fits : b.addr + size ≤ p.heap.mallocTop) :
    p.Resized b.addr size := by
  have header := tidy.place held
  have result := tidy.placed held last fits
  exact {
    granted := by
      rw [result]
      exact Nat.ne_of_gt (by omega)
    aligned := by
      rw [result]
      exact tidy.addrs b held
    kept := fun _ _ _ i _ => by
      rw [result]
      exact store32_outside _ _ (.inr (by omega))
    outside := fun i outside => by
      rw [result] at outside ⊢
      exact store32_outside _ _ (by omega)
    null := fun zero => by omega }

/-- Of a null pointer, `realloc` makes a new block. -/
theorem resized_null (tidy : Tidy bottom pool p) (some : p.heap.lastAlloc ≠ 0)
    (fits : p.heap.mallocPtr + 4 + size ≤ p.heap.mallocTop) : p.Resized 0 size := by
  have same := p.heap.realloc_null size some
  have top := tidy.top
  have result := p.heap.malloc_granted tidy.opened (by omega) fits
  exact {
    granted := by
      rw [same, result]
      exact Nat.succ_ne_zero _
    aligned := by
      rw [same, result]
      exact tidy.dvd_next (by omega)
    kept := fun b held zero => by
      have header := tidy.place held
      omega
    outside := fun i outside => by
      rw [same, result] at outside ⊢
      exact store32_outside _ _ (by omega)
    null := fun _ => same }

/-- Any other block moves behind the last one, its contents with it. -/
theorem resized_moved (tidy : Tidy bottom pool p) (held : b ∈ p.live)
    (other : b.addr ≠ p.heap.lastAlloc) (fits : p.heap.mallocPtr + 4 + size ≤ p.heap.mallocTop)
    (grows : b.size ≤ size) : p.Resized b.addr size := by
  have header := tidy.place held
  obtain ⟨address, mem, -, -⟩ := tidy.moved held other fits
  exact {
    granted := by
      rw [address]
      exact Nat.succ_ne_zero _
    aligned := by
      rw [address]
      exact tidy.dvd_next (by omega)
    kept := fun old live same i inside => by
      obtain ⟨-, mem, -, -⟩ := tidy.moved live (same ▸ other) fits
      rw [same] at mem
      rw [address, mem, blit_inside _ _ (by omega) (by omega), Nat.add_sub_cancel_left]
    outside := fun i outside => by
      rw [address] at outside
      rw [mem, blit_outside _ _ (by omega), store32_outside _ _ (by omega)]
    null := fun zero => by omega }

theorem resized (tidy : Tidy bottom pool p) (proper : ptr = 0 ∨ ∃ b ∈ p.live, b.addr = ptr)
    (meets : p.Meets (.realloc ptr size)) (fits : p.Fits ptr size) : p.Resized ptr size := by
  unfold Pool.Fits at fits
  by_cases last : ptr = p.heap.lastAlloc
  · have meets := meets.1 last
    rcases proper with rfl | ⟨b, held, rfl⟩
    · rw [if_neg fun both => both.1 rfl] at fits
      exact absurd rfl (meets.2 (by omega)).1
    · have header := tidy.place held
      rw [if_pos ⟨by omega, last⟩] at fits
      exact tidy.resized_last held last fits
  · rw [if_neg fun both => last both.2] at fits
    rcases proper with rfl | ⟨b, held, rfl⟩
    · exact tidy.resized_null (Ne.symm last) fits
    · exact tidy.resized_moved held last fits ((meets.2 last).2 fits b held rfl)

theorem contract (tidy : Tidy bottom pool p) (proper : p.Proper bottom pool c)
    (meets : p.Meets c) : p.Contract c := by
  cases c with
  | malloc size =>
    change 4 ∣ (p.heap.malloc size).1
    by_cases fits : p.heap.mallocPtr + 4 + size ≤ p.heap.mallocTop
    · rw [(tidy.granted fits).1]
      exact tidy.dvd_next (by omega)
    · rw [(p.heap.malloc_refuses (.inr (meets.resolve_left fits))).1]
      exact Nat.dvd_zero 4
  | posixMemalign alignment size => trivial
  | realloc ptr size => exact tidy.resized proper.1 meets
  | free ptr => trivial
  | store mem => trivial

theorem step_malloc (tidy : Tidy bottom pool p) (meets : p.Meets (.malloc size)) :
    Tidy bottom pool (p.step (.malloc size)) := by
  dsimp only [Pool.step]
  by_cases fits : p.heap.mallocPtr + 4 + size ≤ p.heap.mallocTop
  · obtain ⟨address, grown, next⟩ := tidy.granted fits
    rw [address, if_neg (Nat.succ_ne_zero _)]
    exact tidy.grown grown (tidy.dvd_next (by omega)) next
  · obtain ⟨failed, same⟩ := p.heap.malloc_refuses (.inr (meets.resolve_left fits))
    rw [if_pos failed]
    exact tidy.same same

/-- An aligned block keeps the pool tidy. -/
theorem step_posixMemalign (tidy : Tidy bottom pool p) (word : asked < 2 ^ 32)
    (meets : p.Meets (.posixMemalign asked size)) :
    Tidy bottom pool (p.step (.posixMemalign asked size)) := by
  have top := tidy.top
  have kept : (∃ errno, p.heap.posixMemalign asked size = (.error errno, p.heap)) ∨
      p.heap.posixMemalign asked size = (.ok 0, p.heap) →
        Tidy bottom pool (p.step (.posixMemalign asked size)) := by
    rintro (⟨errno, result⟩ | result)
    · simp only [Pool.step, result]
      exact tidy
    · simp only [Pool.step, result, if_true]
      exact tidy
  by_cases fits : badAlign (minAlign asked) = false ∧
      alignUp (p.heap.mallocPtr + 4) (minAlign asked) + size ≤ p.heap.mallocTop
  · obtain ⟨good, fits⟩ := fits
    obtain ⟨low, address⟩ := p.heap.alignedAddr_fits good word (by omega)
    have legal : p.Legal bottom pool (.posixMemalign asked size) := .inr ⟨low, by
      rw [address]
      omega⟩
    rcases p.heap.posixMemalign_spec legal top with
      failed | none | ⟨addr, h', result, success, multiple, grown⟩
    · exact kept (.inl failed)
    · exact kept (.inr none)
    · have next := p.heap.posixMemalign_next asked size
      have moved := grown.behind
      have above := grown.above
      rw [result] at next
      dsimp only at next
      simp only [Pool.step, result, if_neg success]
      exact tidy.grown grown ((four_dvd_minAlign good).trans multiple)
        (next.resolve_left (by omega))
  · refine kept (p.heap.posixMemalign_refuses tidy.opened word ?_)
    rcases meets with bad | empty | fair
    · exact .inl bad
    · exact .inr (.inl empty)
    · cases bad : badAlign (minAlign asked) with
      | true => exact .inl rfl
      | false => exact .inr (.inr (fair.resolve_left fun inside => fits ⟨bad, inside⟩))

/-- A refused `realloc` keeps the block. -/
theorem step_realloc_refused (tidy : Tidy bottom pool p)
    (failed : (p.heap.realloc ptr size).1 = 0) (same : p.heap.Same (p.heap.realloc ptr size).2) :
    Tidy bottom pool (p.step (.realloc ptr size)) := by
  dsimp only [Pool.step]
  rw [if_pos failed]
  exact tidy.same same

/-- Resizing the last block keeps the pool tidy where the next one still begins at a word. -/
theorem step_realloc_last (tidy : Tidy bottom pool p) (held : b ∈ p.live)
    (last : b.addr = p.heap.lastAlloc) (fits : b.addr + size ≤ p.heap.mallocTop)
    (spaced : size % 4 = 0 ∨ p.heap.mallocTop < b.addr + size + 4) :
    Tidy bottom pool (p.step (.realloc b.addr size)) := by
  have top := tidy.top
  have header := tidy.place held
  have result := tidy.placed held last fits
  have grown := p.heap.grown_placed header last fits (by omega)
  have sound := (tidy.sound.returned held last).grown grown
  dsimp only [Pool.step]
  rw [result, if_neg (by omega)]
  exact {
    sound
    start := tidy.start
    next := by
      rcases spaced with words | full
      · exact .inl (Nat.dvd_add (tidy.addrs b held) (Nat.dvd_of_mod_eq_zero words))
      · exact .inr full
    addrs := List.forall_mem_cons.mpr ⟨tidy.addrs b held, (tidy.fewer b.addr).addrs⟩ }

theorem step_realloc_other (tidy : Tidy bottom pool p)
    (proper : ptr = 0 ∨ ∃ b ∈ p.live, b.addr = ptr) (other : ptr ≠ p.heap.lastAlloc)
    (fits : p.heap.mallocPtr + 4 + size ≤ p.heap.mallocTop) :
    Tidy bottom pool (p.step (.realloc ptr size)) := by
  have aligned : 4 ∣ p.heap.mallocPtr + 4 := tidy.dvd_next (by omega)
  have fewer := tidy.fewer ptr
  dsimp only [Pool.step]
  rcases proper with rfl | ⟨b, held, rfl⟩
  · obtain ⟨address, grown, next⟩ := tidy.granted fits
    rw [p.heap.realloc_null size (Ne.symm other), address, if_neg (Nat.succ_ne_zero _)]
    exact fewer.grown grown aligned next
  · obtain ⟨address, -, grown, next⟩ := tidy.moved held other fits
    rw [address, if_neg (Nat.succ_ne_zero _)]
    exact fewer.grown grown aligned next

/-- A call of `realloc` that meets its condition keeps the pool tidy. -/
theorem step_realloc (tidy : Tidy bottom pool p) (proper : ptr = 0 ∨ ∃ b ∈ p.live, b.addr = ptr)
    (meets : p.Meets (.realloc ptr size)) : Tidy bottom pool (p.step (.realloc ptr size)) := by
  have opened := tidy.opened
  by_cases last : ptr = p.heap.lastAlloc
  · obtain ⟨fair, meets⟩ := meets.1 last
    by_cases fits : ptr + size ≤ p.heap.mallocTop
    · obtain ⟨some, spaced⟩ := meets fits
      obtain ⟨b, held, rfl⟩ := proper.resolve_left some
      exact tidy.step_realloc_last held last fits spaced
    · obtain ⟨failed, same⟩ :=
        (p.heap.realloc_last ptr size opened last).1 (fair.resolve_left fits)
      exact tidy.step_realloc_refused failed same
  · obtain ⟨fair, -⟩ := meets.2 last
    by_cases fits : p.heap.mallocPtr + 4 + size ≤ p.heap.mallocTop
    · exact tidy.step_realloc_other proper last fits
    · obtain ⟨failed, same⟩ := p.heap.malloc_refuses (.inr (fair.resolve_left fits))
      obtain ⟨result, unchanged⟩ := p.heap.realloc_moves size opened last
      refine tidy.step_realloc_refused (result.trans failed) ?_
      rw [unchanged failed]
      exact same

/-- So does a call of `free`. -/
theorem step_free (tidy : Tidy bottom pool p) (proper : ptr = 0 ∨ ∃ b ∈ p.live, b.addr = ptr)
    (meets : p.Meets (.free ptr)) : Tidy bottom pool (p.step (.free ptr)) := by
  change Tidy bottom pool ⟨p.heap.free ptr, p.others ptr⟩
  have top := tidy.top
  by_cases last : ptr = p.heap.lastAlloc
  · obtain ⟨b, held, rfl⟩ := proper.resolve_left (meets last)
    have inside := tidy.sound.inside b held
    have aligned := tidy.addrs b held
    have room := tidy.sound.fits
    have result : p.heap.free b.addr = { p.heap with mallocPtr := b.addr - 4 } := by
      unfold Heap.free
      rw [if_neg tidy.opened, if_pos last, sub32_of_le (by omega) (by omega), last]
    rw [result]
    exact {
      sound := tidy.sound.returned held last
      start := tidy.start
      next := .inl (Nat.dvd_sub aligned (Nat.dvd_refl 4))
      addrs := (tidy.fewer b.addr).addrs }
  · have result : p.heap.free ptr = p.heap := by
      unfold Heap.free
      rw [if_neg tidy.opened, if_neg last]
    rw [result]
    exact tidy.fewer ptr

theorem step (tidy : Tidy bottom pool p) (proper : p.Proper bottom pool c) (meets : p.Meets c) :
    Tidy bottom pool (p.step c) := by
  cases c with
  | malloc size => exact tidy.step_malloc meets
  | posixMemalign alignment size => exact tidy.step_posixMemalign proper.1 meets
  | realloc ptr size => exact tidy.step_realloc proper.1 meets
  | free ptr => exact tidy.step_free proper meets
  | store mem => exact ⟨tidy.sound.stored proper, tidy.start, tidy.next, tidy.addrs⟩

end Tidy

/-- In every run whose steps meet the conditions, `realloc` keeps the contents of a block up to the
smaller size and leaves the others alone, and `malloc` hands out words; the conditions are on sizes
and on the state before a step. -/
theorem realloc_contract (h : Heap) (bottom pool : Nat) (start : 0 < bottom) (aligned : 4 ∣ bottom)
    (fits : bottom + pool + 3 < 2 ^ 32) (calls : List Call)
    (careful : (h.start bottom pool).All (fun p c => p.Proper bottom pool c ∧ p.Meets c) calls) :
    (h.start bottom pool).All Pool.Contract calls := by
  have tidy : Tidy bottom pool (h.start bottom pool) :=
    ⟨.init h fits, start, .inl aligned, nofun⟩
  refine Pool.All.of_invariant (fun p c tidy careful => ?_) (fun p c tidy careful => ?_) tidy careful
  · exact tidy.step careful.1 careful.2
  · exact tidy.contract careful.1 careful.2

/-- A block that is not the last grows, and its contents move with it; then it grows in place, is
freed and asked for again. -/
theorem realloc_contract_moved : (blank.start 4096 256).All Pool.Contract
    [.malloc 10, .malloc 8, .realloc 4100 20, .realloc 4128 24, .free 4128, .realloc 0 4] :=
  realloc_contract blank 4096 256 (by decide) (by decide) (by decide) _
    ⟨⟨(by decide : 10 < 2 ^ 32), by decide⟩, ⟨(by decide : 8 < 2 ^ 32), by decide⟩,
      ⟨⟨.inr (by decide), by decide⟩, by decide⟩, ⟨⟨.inr (by decide), by decide⟩, by decide⟩,
      ⟨.inr (by decide), by decide⟩, ⟨⟨.inl rfl, by decide⟩, by decide⟩, trivial⟩

/-- Five bytes are left of eight, and the next block starts behind them. -/
theorem malloc_odd : ¬ ∀ (h : Heap) (bottom pool : Nat) (calls : List Call), 0 < bottom →
    4 ∣ bottom → bottom + pool + 3 < 2 ^ 32 →
    (h.start bottom pool).All (fun p c => p.Proper bottom pool c) calls →
    (h.start bottom pool).All Pool.Contract calls := by
  intro contract
  have all := contract blank 4096 256 [.malloc 8, .realloc 4100 5, .malloc 4] (by decide)
    (by decide) (by decide)
    ⟨(by decide : 8 < 2 ^ 32), ⟨.inr (by decide), by decide⟩, (by decide : 4 < 2 ^ 32), trivial⟩
  have aligned : 4 ∣ 4109 := all.2.2.1
  exact absurd aligned (by decide)

end Yaboot.Malloc
