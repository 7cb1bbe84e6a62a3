import Mathlib.Algebra.Order.Ring.Nat
import Mathlib.Data.List.Pairwise
import Yaboot.Lib.Malloc

/-! What a program may rely on whatever it calls: the blocks it holds stay apart
from each other and inside the pool, and their headers hold their sizes. -/
namespace Yaboot.Malloc
open Buffer Word

/-! ### Alignment -/

/-- Clearing the low bits rounds down. -/
theorem and_not32 (fits : x < 2 ^ 32) (small : k ≤ 32) :
    x &&& not32 (2 ^ k - 1) = x / 2 ^ k * 2 ^ k := by
  have bound : 2 ^ k - 1 < 2 ^ 32 := by
    have := Nat.pow_le_pow_right (by decide : 0 < 2) small
    have := Nat.two_pow_pos k
    omega
  have shape : not32 (2 ^ k - 1) = 2 ^ 32 - (2 ^ k - 1 + 1) := by
    unfold not32
    omega
  apply Nat.eq_of_testBit_eq
  intro i
  rw [shape, Nat.testBit_and, Nat.testBit_two_pow_sub_succ bound, Nat.testBit_two_pow_sub_one,
    Nat.testBit_mul_two_pow, Nat.testBit_div_two_pow]
  by_cases low : i < k
  · simp [low, Nat.not_le.mpr low]
  · have high : k ≤ i := Nat.le_of_not_lt low
    rw [Nat.sub_add_cancel high]
    by_cases inside : i < 32
    · simp [low, high, inside]
    · have zero : x.testBit i = false :=
        Nat.testBit_lt_two_pow (Nat.lt_of_lt_of_le fits (Nat.pow_le_pow_right (by decide) (by omega)))
      simp [zero]

theorem roundUp_eq (fits : p + 3 < 2 ^ 32) : roundUp p = (p + 3) / 4 * 4 := by
  unfold roundUp
  rw [u32_of_lt fits]
  exact and_not32 (k := 2) fits (by decide)

/-- What passes the check of `posix_memalign` is a power of two. -/
theorem pow_of_not_badAlign (good : badAlign (minAlign asked) = false) :
    ∃ k, minAlign asked = 2 ^ k := by
  have positive : minAlign asked ≠ 0 := by
    unfold minAlign
    split <;> omega
  unfold badAlign at good
  simp only [Bool.or_eq_false_iff, decide_eq_false_iff_not, not_not] at good
  obtain ⟨_, bits⟩ := good
  rw [Nat.and_comm] at bits
  obtain ⟨k, shape⟩ := (Nat.and_sub_one_eq_zero_iff_isPowerOfTwo positive).mp bits
  exact ⟨k, shape⟩

theorem alignedAddr_eq (fits : p + 4 + (2 ^ k - 1) < 2 ^ 32) :
    alignedAddr p (2 ^ k) = (p + 4 + (2 ^ k - 1)) / 2 ^ k * 2 ^ k := by
  have small : k ≤ 32 := by
    by_contra large
    have := Nat.pow_le_pow_right (by decide : 0 < 2) (Nat.le_of_not_le large)
    omega
  unfold alignedAddr
  rw [u32_of_lt fits]
  exact and_not32 fits small

theorem alignedAddr_ge (fits : p + 4 + (2 ^ k - 1) < 2 ^ 32) : p + 4 ≤ alignedAddr p (2 ^ k) := by
  rw [alignedAddr_eq fits]
  have positive := Nat.two_pow_pos k
  have split := Nat.div_add_mod (p + 4 + (2 ^ k - 1)) (2 ^ k)
  have rest := Nat.mod_lt (p + 4 + (2 ^ k - 1)) positive
  rw [Nat.mul_comm] at split
  omega

theorem dvd_alignedAddr (fits : p + 4 + (2 ^ k - 1) < 2 ^ 32) : 2 ^ k ∣ alignedAddr p (2 ^ k) := by
  rw [alignedAddr_eq fits]
  exact Nat.dvd_mul_left _ _

/-- A power of two divides the alignment it is raised to. -/
theorem dvd_minAlign (power : asked.isPowerOfTwo) : asked ∣ minAlign asked := by
  unfold minAlign
  split
  · rename_i below
    obtain ⟨k, rfl⟩ := power
    have small : k < 2 := by
      by_contra large
      have := Nat.pow_le_pow_right (by decide : 0 < 2) (Nat.le_of_not_lt large)
      omega
    exact Nat.pow_dvd_pow 2 (Nat.le_of_lt small)
  · exact Nat.dvd_refl _

/-! ### What each call does -/

/-- Nothing but the console differs. -/
structure Heap.Same (h h' : Heap) : Prop where
  mallocPtr : h'.mallocPtr = h.mallocPtr
  mallocTop : h'.mallocTop = h.mallocTop
  lastAlloc : h'.lastAlloc = h.lastAlloc
  mem : h'.mem = h.mem

/-- A block was set up at `addr`, above everything handed out before. -/
structure Heap.Grown (h h' : Heap) (addr size : Nat) : Prop where
  mallocTop : h'.mallocTop = h.mallocTop
  lastAlloc : h'.lastAlloc = addr
  above : h.mallocPtr + 4 ≤ addr
  inside : addr + size ≤ h.mallocTop
  behind : addr + size ≤ h'.mallocPtr
  rounded : h'.mallocPtr ≤ addr + size + 3
  header : word32 h'.mem (addr - 4) = size
  kept : ∀ i < addr - 4, h'.mem i = h.mem i

theorem Heap.Same.refl (h : Heap) : h.Same h := ⟨rfl, rfl, rfl, rfl⟩

/-- Setting up a block: its header, and the next free address behind it. -/
theorem Heap.grown (h : Heap) (above : h.mallocPtr + 4 ≤ addr) (inside : addr + size ≤ h.mallocTop)
    (fits : h.mallocTop + 3 < 2 ^ 32) :
    h.Grown { h with
      mem := store32 h.mem (addr - 4) size
      lastAlloc := addr
      mallocPtr := roundUp (addr + size) } addr size where
  mallocTop := rfl
  lastAlloc := rfl
  above := above
  inside := inside
  behind := by
    show addr + size ≤ roundUp (addr + size)
    rw [roundUp_eq (by omega)]
    omega
  rounded := by
    show roundUp (addr + size) ≤ addr + size + 3
    rw [roundUp_eq (by omega)]
    omega
  header := word32_store32 _ _ (by omega)
  kept i below := store32_outside _ _ (.inl below)

/-- `malloc` fails and changes nothing, or puts one block behind the others. -/
theorem Heap.malloc_spec (h : Heap) (top : h.mallocTop + 3 < 2 ^ 32)
    (fits : h.mallocPtr + size + 4 < 2 ^ 32) :
    ((h.malloc size).1 = 0 ∧ h.Same (h.malloc size).2) ∨
      ((h.malloc size).1 ≠ 0 ∧ h.Grown (h.malloc size).2 (h.malloc size).1 size) := by
  by_cases off : h.mallocPtr = 0
  · have result : h.malloc size = (0, h) := if_pos off
    rw [result]
    exact .inl ⟨rfl, .refl h⟩
  by_cases full : u32 (h.mallocPtr + size + 4) > h.mallocTop
  · have result : h.malloc size = (0, h.promPrintf "malloc failed\n") := by
      unfold Heap.malloc
      rw [if_neg off, if_pos full]
    rw [result]
    exact .inl ⟨rfl, rfl, rfl, rfl, rfl⟩
  · have result : h.malloc size = (h.mallocPtr + 4, { h with
        mem := store32 h.mem (h.mallocPtr + 4 - 4) size
        lastAlloc := h.mallocPtr + 4
        mallocPtr := roundUp (h.mallocPtr + 4 + size) }) := by
      unfold Heap.malloc
      rw [if_neg off, if_neg full, u32_of_lt (by omega), u32_of_lt (by omega),
        Nat.add_sub_cancel, Nat.add_comm size 4, ← Nat.add_assoc]
    rw [u32_of_lt fits] at full
    rw [result]
    exact .inr ⟨Nat.succ_ne_zero _, h.grown (Nat.le_refl _) (by omega) top⟩

/-- `posix_memalign` fails, stores a null pointer, or puts one aligned block behind the others. -/
theorem Heap.posixMemalign_spec (h : Heap)
    (fits : badAlign (minAlign asked) = true ∨
      (h.mallocPtr + 4 + (minAlign asked - 1) < 2 ^ 32 ∧
        alignedAddr h.mallocPtr (minAlign asked) + size < 2 ^ 32))
    (top : h.mallocTop + 3 < 2 ^ 32) :
    (∃ errno, h.posixMemalign asked size = (.error errno, h)) ∨
      h.posixMemalign asked size = (.ok 0, h) ∨
      ∃ addr h', h.posixMemalign asked size = (.ok addr, h') ∧ addr ≠ 0 ∧
        minAlign asked ∣ addr ∧ h.Grown h' addr size := by
  by_cases off : h.mallocPtr = 0
  · exact .inl ⟨einval, if_pos off⟩
  cases bad : badAlign (minAlign asked) with
  | true =>
    refine .inl ⟨einval, ?_⟩
    unfold Heap.posixMemalign
    simp only [if_neg off, bad, if_true]
  | false =>
    obtain ⟨low, high⟩ := fits.resolve_left (by simp [bad])
    by_cases empty : size = 0
    · refine .inr (.inl ?_)
      unfold Heap.posixMemalign
      simp only [if_neg off, bad, Bool.false_eq_true, if_false, if_pos empty]
    obtain ⟨k, shape⟩ := pow_of_not_badAlign bad
    have above : h.mallocPtr + 4 ≤ alignedAddr h.mallocPtr (minAlign asked) := by
      rw [shape] at low ⊢
      exact alignedAddr_ge low
    have multiple : minAlign asked ∣ alignedAddr h.mallocPtr (minAlign asked) := by
      rw [shape] at low ⊢
      exact dvd_alignedAddr low
    generalize alignedAt : alignedAddr h.mallocPtr (minAlign asked) = addr at *
    have alloc : u32 (size + sub32 addr (u32 (h.mallocPtr + 4))) =
        size + (addr - (h.mallocPtr + 4)) := by
      rw [u32_of_lt (by omega : h.mallocPtr + 4 < 2 ^ 32), sub32_of_le (by omega) above,
        u32_of_lt (by omega)]
    have behind : h.mallocPtr + (size + (addr - (h.mallocPtr + 4))) + 4 = addr + size := by omega
    by_cases full : addr + size > h.mallocTop
    · refine .inl ⟨enomem, ?_⟩
      unfold Heap.posixMemalign
      simp only [if_neg off, bad, Bool.false_eq_true, if_false, if_neg empty, alignedAt, alloc, behind,
        u32_of_lt high, if_pos full]
    · refine .inr (.inr ⟨addr, _, ?_, by omega, multiple, h.grown above (by omega) top⟩)
      unfold Heap.posixMemalign
      rw [← Nat.add_assoc] at *
      simp only [if_neg off, bad, Bool.false_eq_true, if_false, if_neg empty, alignedAt, alloc, behind,
        u32_of_lt high, if_neg full, sub32_of_le (by omega : addr < 2 ^ 32) (by omega : 4 ≤ addr),
        ← Nat.add_assoc]

theorem Heap.memcpy_below (h : Heap) (src n : Nat) (below : i < dst) :
    (h.memcpy dst src n).mem i = h.mem i :=
  blit_outside h.mem (fun i => h.mem (src + i)) (.inl below)

/-- The block handed out last, resized where it is. -/
theorem Heap.grown_placed (h : Heap) (header : 4 ≤ ptr) (last : ptr = h.lastAlloc)
    (inside : ptr + size ≤ h.mallocTop) (word : size < 2 ^ 32) :
    Heap.Grown { h with mallocPtr := ptr - 4 }
      { h with mem := store32 h.mem (ptr - 4) size, mallocPtr := ptr + size } ptr size where
  mallocTop := rfl
  lastAlloc := last.symm
  above := Nat.le_of_eq (Nat.sub_add_cancel header)
  inside := inside
  behind := Nat.le_refl _
  rounded := Nat.le_add_right _ _
  header := word32_store32 _ _ (by omega)
  kept := fun i below => store32_outside _ _ (.inl below)

/-- In place the block is set up again where it is; elsewhere a new one takes
the bytes of the old one. -/
theorem Heap.realloc_spec (h : Heap) (top : h.mallocTop + 3 < 2 ^ 32) (header : 4 ≤ ptr)
    (place : ptr + size < 2 ^ 32) (fits : h.mallocPtr + size + 4 < 2 ^ 32) :
    ((h.realloc ptr size).1 = 0 ∧ h.Same (h.realloc ptr size).2) ∨
      (ptr = h.lastAlloc ∧ (h.realloc ptr size).1 = ptr ∧
        Heap.Grown { h with mallocPtr := ptr - 4 } (h.realloc ptr size).2 ptr size) ∨
      ((h.realloc ptr size).1 ≠ 0 ∧
        h.Grown (h.realloc ptr size).2 (h.realloc ptr size).1 size) := by
  by_cases off : h.mallocPtr = 0
  · have result : h.realloc ptr size = (0, h) := if_pos off
    rw [result]
    exact .inl ⟨rfl, .refl h⟩
  by_cases last : ptr = h.lastAlloc
  · by_cases full : u32 (ptr + size) > h.mallocTop
    · have result : h.realloc ptr size = (0, h.promPrintf "realloc failed\n") := by
        unfold Heap.realloc
        rw [if_neg off, if_pos last, if_pos full]
      rw [result]
      exact .inl ⟨rfl, rfl, rfl, rfl, rfl⟩
    · have result : h.realloc ptr size = (ptr, { h with
          mem := store32 h.mem (ptr - 4) size
          mallocPtr := ptr + size }) := by
        unfold Heap.realloc
        rw [if_neg off, if_pos last, if_neg full, u32_of_lt place, sub32_of_le (by omega) header]
      rw [u32_of_lt place] at full
      rw [result]
      exact .inr (.inl ⟨last, rfl, h.grown_placed header last (Nat.le_of_not_lt full) (by omega)⟩)
  · have result : h.realloc ptr size =
        if (h.malloc size).1 ≠ 0 ∧ ptr ≠ 0 then
          ((h.malloc size).1,
            (h.malloc size).2.memcpy (h.malloc size).1 ptr ((h.malloc size).2.header ptr))
        else h.malloc size := by
      unfold Heap.realloc
      rw [if_neg off, if_neg last]
    rw [result]
    rcases h.malloc_spec top fits with ⟨failed, same⟩ | ⟨moved, grown⟩
    · rw [if_neg (fun both => both.1 failed)]
      exact .inl ⟨failed, same⟩
    · rw [if_pos ⟨moved, by omega⟩]
      refine .inr (.inr ⟨moved, { grown with header := ?_, kept := ?_ }⟩)
      · have above := grown.above
        exact (word32_congr fun i _ below => Heap.memcpy_below _ _ _ (by omega)).trans grown.header
      · intro i below
        exact (Heap.memcpy_below _ _ _ (Nat.lt_of_lt_of_le below (Nat.sub_le _ _))).trans
          (grown.kept i below)

/-! ### The invariant -/

instance : Std.Symm Block.Apart := ⟨fun _ _ apart => apart.symm⟩

/-- What holds of the pool at `[bottom, bottom + pool)` between calls. Only the
last allocation is given back or resized, so all others lie below it. -/
structure Sound (bottom pool : Nat) (p : Pool) : Prop where
  top : p.heap.mallocTop = bottom + pool
  above : bottom ≤ p.heap.mallocPtr
  fits : bottom + pool + 3 < 2 ^ 32
  apart : p.live.Pairwise Block.Apart
  inside : ∀ b ∈ p.live, bottom + 4 ≤ b.addr ∧ b.addr + b.size ≤ bottom + pool
  header : ∀ b ∈ p.live, word32 p.heap.mem (b.addr - 4) = b.size
  below : ∀ b ∈ p.live, b.addr + b.size ≤ p.heap.mallocPtr
  last : ∀ b ∈ p.live, b.addr = p.heap.lastAlloc →
    ∀ c ∈ p.live, c.addr ≠ b.addr → c.addr + c.size + 4 ≤ b.addr

theorem Sound.init (h : Heap) (fits : bottom + pool + 3 < 2 ^ 32) :
    Sound bottom pool ⟨h.mallocInit bottom pool, []⟩ where
  top := u32_of_lt (by omega)
  above := Nat.le_refl _
  fits := fits
  apart := .nil
  inside b held := nomatch held
  header b held := nomatch held
  below b held := nomatch held
  last b held := nomatch held

/-- Less held, and nothing else changed. -/
theorem Sound.fewer (sound : Sound bottom pool ⟨h, live⟩) (sub : live'.Sublist live) :
    Sound bottom pool ⟨h, live'⟩ where
  top := sound.top
  above := sound.above
  fits := sound.fits
  apart := sound.apart.sublist sub
  inside b held := sound.inside b (sub.subset held)
  header b held := sound.header b (sub.subset held)
  below b held := sound.below b (sub.subset held)
  last b held last c other := sound.last b (sub.subset held) last c (sub.subset other)

theorem Sound.same (sound : Sound bottom pool ⟨h, live⟩) (same : h.Same h') :
    Sound bottom pool ⟨h', live⟩ where
  top := same.mallocTop.trans sound.top
  above := by
    rw [same.mallocPtr]
    exact sound.above
  fits := sound.fits
  apart := sound.apart
  inside := sound.inside
  header b held := by
    rw [same.mem]
    exact sound.header b held
  below b held := by
    rw [same.mallocPtr]
    exact sound.below b held
  last b held last := sound.last b held (last.trans same.lastAlloc)

/-- A new block lies above everything held so far. -/
theorem Sound.grown (sound : Sound bottom pool ⟨h, live⟩) (grown : h.Grown h' addr size) :
    Sound bottom pool ⟨h', ⟨addr, size⟩ :: live⟩ := by
  have above := grown.above
  have start : bottom ≤ h.mallocPtr := sound.above
  have under : ∀ b ∈ live, b.addr + b.size + 4 ≤ addr := by
    intro b held
    have := sound.below b held
    simp only at this
    omega
  exact {
    top := grown.mallocTop.trans sound.top
    above := by
      have := grown.behind
      simp only
      omega
    fits := sound.fits
    apart := .cons (fun b held => .inr (under b held)) sound.apart
    inside := by
      intro b held
      rcases List.mem_cons.mp held with rfl | held
      · have inside := grown.inside
        rw [sound.top] at inside
        exact ⟨by simp only; omega, inside⟩
      · exact sound.inside b held
    header := by
      intro b held
      rcases List.mem_cons.mp held with rfl | held
      · exact grown.header
      · rw [← sound.header b held]
        apply word32_congr
        intro i _ before
        have := under b held
        have := (sound.inside b held).1
        exact grown.kept i (by omega)
    below := by
      intro b held
      have behind := grown.behind
      rcases List.mem_cons.mp held with rfl | held
      · exact behind
      · have := under b held
        simp only
        omega
    last := by
      intro b held last c other apart
      have newest : h'.lastAlloc = addr := grown.lastAlloc
      simp only at last
      rcases List.mem_cons.mp held with rfl | held
      · rcases List.mem_cons.mp other with rfl | other
        · exact absurd rfl apart
        · exact under c other
      · have := under b held
        omega }

/-- Giving the last block back frees everything above the others. -/
theorem Sound.returned (sound : Sound bottom pool p) (held : b ∈ p.live)
    (last : b.addr = p.heap.lastAlloc) :
    Sound bottom pool ⟨{ p.heap with mallocPtr := b.addr - 4 }, p.others b.addr⟩ := by
  have fewer : (p.others b.addr).Sublist p.live := List.filter_sublist
  have rest := sound.fewer fewer
  exact {
    top := rest.top
    above := by
      have := (sound.inside b held).1
      simp only
      omega
    fits := rest.fits
    apart := rest.apart
    inside := rest.inside
    header := rest.header
    below := by
      intro c other
      have differs : c.addr ≠ b.addr := by simpa using (List.mem_filter.mp other).2
      have := sound.last b held last c (fewer.subset other) differs
      simp only
      omega
    last := rest.last }

/-- The program's own stores reach no header. -/
theorem Sound.stored (sound : Sound bottom pool p) (legal : p.Legal bottom pool (.store mem)) :
    Sound bottom pool (p.step (.store mem)) := by
  refine { sound with header := ?_ }
  intro b held
  rw [← sound.header b held]
  apply word32_congr
  intro i after before
  by_contra touched
  have start := sound.inside b held
  rcases legal i touched with low | high | ⟨c, other, first, past⟩
  · omega
  · omega
  by_cases self : c = b
  · subst self
    omega
  have apart : b.Apart c := sound.apart.forall held other (Ne.symm self)
  unfold Block.Apart at apart
  omega

/-- Every call of the program that is legal keeps the pool sound. -/
theorem Sound.step (sound : Sound bottom pool p) (legal : p.Legal bottom pool c) :
    Sound bottom pool (p.step c) := by
  have top : p.heap.mallocTop + 3 < 2 ^ 32 := by
    rw [sound.top]
    exact sound.fits
  cases c with
  | malloc size =>
    rcases p.heap.malloc_spec top legal with ⟨failed, same⟩ | ⟨success, grown⟩
    · simp only [Pool.step, if_pos failed]
      exact sound.same same
    · simp only [Pool.step, if_neg success]
      exact sound.grown grown
  | posixMemalign alignment size =>
    rcases p.heap.posixMemalign_spec legal top with
      ⟨errno, result⟩ | result | ⟨addr, h', result, success, _, grown⟩
    · simp only [Pool.step, result]
      exact sound
    · simp only [Pool.step, result, if_true]
      exact sound
    · simp only [Pool.step, result, if_neg success]
      exact sound.grown grown
  | realloc ptr size =>
    obtain ⟨b, held, rfl, place, fits, _⟩ := legal
    have header := (sound.inside b held).1
    have fewer : Sound bottom pool ⟨p.heap, p.others b.addr⟩ := sound.fewer List.filter_sublist
    rcases p.heap.realloc_spec top (by omega) place fits with
      ⟨failed, same⟩ | ⟨last, result, grown⟩ | ⟨success, grown⟩
    · simp only [Pool.step, if_pos failed]
      exact sound.same same
    · simp only [Pool.step, result, if_neg (by omega : b.addr ≠ 0)]
      exact (sound.returned held last).grown grown
    · simp only [Pool.step, if_neg success]
      exact fewer.grown grown
  | free ptr =>
    obtain ⟨b, held, rfl⟩ := legal
    have start := sound.inside b held
    have below := sound.below b held
    have positive : p.heap.mallocPtr ≠ 0 := by omega
    show Sound bottom pool ⟨p.heap.free b.addr, p.others b.addr⟩
    by_cases last : b.addr = p.heap.lastAlloc
    · have fits := sound.fits
      have result : p.heap.free b.addr = { p.heap with mallocPtr := b.addr - 4 } := by
        unfold Heap.free
        rw [if_neg positive, if_pos last, sub32_of_le (by omega) (by omega), last]
      rw [result]
      exact sound.returned held last
    · have result : p.heap.free b.addr = p.heap := by
        unfold Heap.free
        rw [if_neg positive, if_neg last]
      rw [result]
      exact sound.fewer List.filter_sublist
  | store mem => exact sound.stored legal

theorem Reachable.sound (run : Reachable bottom pool p) : Sound bottom pool p := by
  induction run with
  | init h fits => exact Sound.init h fits
  | step c _ legal ih => exact ih.step legal

/-- A call that fails has done nothing but print. -/
theorem Sound.failed (sound : Sound bottom pool p) (legal : p.Legal bottom pool c)
    (fails : p.Fails c) : p.heap.Same (p.step c).heap ∧ (p.step c).live = p.live := by
  have top : p.heap.mallocTop + 3 < 2 ^ 32 := by
    rw [sound.top]
    exact sound.fits
  cases c with
  | malloc size =>
    rcases p.heap.malloc_spec top legal with ⟨failed, same⟩ | ⟨success, _⟩
    · exact ⟨same, if_pos failed⟩
    · exact absurd fails success
  | posixMemalign alignment size =>
    obtain ⟨errno, error⟩ := fails
    rcases p.heap.posixMemalign_spec legal top with
      ⟨_, result⟩ | result | ⟨addr, h', result, _⟩
    · simp only [Pool.step, result]
      exact ⟨.refl _, trivial⟩
    · simp [result] at error
    · simp [result] at error
  | realloc ptr size =>
    obtain ⟨b, held, rfl, place, fits, _⟩ := legal
    have header := (sound.inside b held).1
    rcases p.heap.realloc_spec top (by omega) place fits with
      ⟨failed, same⟩ | ⟨_, result, _⟩ | ⟨success, _⟩
    · exact ⟨same, if_pos failed⟩
    · have zero : b.addr = 0 := result.symm.trans fails
      omega
    · exact absurd fails success
  | free ptr => exact fails.elim
  | store mem => exact fails.elim

theorem Sound.aligned (sound : Sound bottom pool p)
    (legal : p.Legal bottom pool (.posixMemalign alignment size))
    (result : (p.heap.posixMemalign alignment size).1 = .ok addr) :
    minAlign alignment ∣ addr := by
  have top : p.heap.mallocTop + 3 < 2 ^ 32 := by
    rw [sound.top]
    exact sound.fits
  rcases p.heap.posixMemalign_spec legal top with
    ⟨_, failed⟩ | none | ⟨_, _, granted, _, multiple, _⟩
  · simp [failed] at result
  · simp only [none, Except.ok.injEq] at result
    subst result
    exact Nat.dvd_zero _
  · simp only [granted, Except.ok.injEq] at result
    subst result
    exact multiple

/-! ### Disposal -/

/-- Without a pool no call hands anything out, and none brings the pool back. -/
theorem Pool.step_disposed {p : Pool} (gone : p.heap.mallocPtr = 0) (c : Call) :
    (p.step c).heap.mallocPtr = 0 ∧ (p.step c).live ⊆ p.live := by
  cases c with
  | malloc size =>
    have refused : p.heap.malloc size = (0, p.heap) := if_pos gone
    simp [Pool.step, refused, gone]
  | posixMemalign alignment size =>
    have refused : p.heap.posixMemalign alignment size = (.error einval, p.heap) := if_pos gone
    simp [Pool.step, refused, gone]
  | realloc ptr size =>
    have refused : p.heap.realloc ptr size = (0, p.heap) := if_pos gone
    simp [Pool.step, refused, gone]
  | free ptr =>
    have kept : p.heap.free ptr = p.heap := if_pos gone
    simp only [Pool.step, kept, gone, true_and]
    exact List.filter_sublist.subset
  | store mem => exact ⟨gone, List.Subset.refl _⟩

/-- Nothing is handed out after `malloc_dispose`, whatever is called. -/
theorem mallocDispose_run (h : Heap) (live : List Block) (calls : List Call) :
    (calls.foldl Pool.step ⟨h.mallocDispose, live⟩).live ⊆ live := by
  suffices run : ∀ p : Pool, p.heap.mallocPtr = 0 → (calls.foldl Pool.step p).live ⊆ p.live from
    run _ rfl
  induction calls with
  | nil => exact fun p _ => List.Subset.refl _
  | cons c calls ih =>
    intro p gone
    obtain ⟨still, fewer⟩ := Pool.step_disposed gone c
    exact List.Subset.trans (ih _ still) fewer

/-! ### The allocator as its callers see it -/

/-- Whatever the program called of `malloc`, `posix_memalign`, `realloc` and `free`: live blocks and
their headers lie apart and inside the pool, headers hold the sizes, failures change nothing, and
alignments of less than a pointer are raised to one. -/
theorem allocator_invariant (run : Reachable bottom pool p) :
    p.live.Pairwise Block.Apart ∧
      (∀ b ∈ p.live, bottom ≤ b.addr - 4 ∧ 4 ≤ b.addr ∧ b.addr + b.size ≤ bottom + pool ∧
        p.heap.header b.addr = b.size) ∧
      (∀ c, p.Legal bottom pool c → p.Fails c →
        p.heap.Same (p.step c).heap ∧ (p.step c).live = p.live) ∧
      ∀ alignment size addr, p.Legal bottom pool (.posixMemalign alignment size) →
        (p.heap.posixMemalign alignment size).1 = .ok addr →
        minAlign alignment ∣ addr ∧ (alignment.isPowerOfTwo → alignment ∣ addr) := by
  have sound := run.sound
  refine ⟨sound.apart, ?_, fun c => sound.failed, ?_⟩
  · intro b held
    have start := sound.inside b held
    have fits := sound.fits
    refine ⟨by omega, by omega, start.2, ?_⟩
    unfold Heap.header
    rw [sub32_of_le (by omega) (by omega)]
    exact sound.header b held
  · intro alignment size addr legal result
    have multiple := sound.aligned legal result
    exact ⟨multiple, fun power => (dvd_minAlign power).trans multiple⟩

/-- Memory before the allocator is set up. -/
def blank : Heap :=
  { mallocPtr := 0, mallocTop := 0, lastAlloc := 0, mem := fun _ => 0, console := [] }

/-- A pool of 256 bytes after two allocations. -/
def twoBlocks : Pool :=
  ((⟨blank.mallocInit 4096 256, []⟩ : Pool).step (.malloc 10)).step (.posixMemalign 16 8)

theorem twoBlocks_reachable : Reachable 4096 256 twoBlocks :=
  .step (.posixMemalign 16 8)
    (.step (.malloc 10) (.init blank (by decide)) (show 4096 + 10 + 4 < 2 ^ 32 by decide))
    (.inr (by decide))

/-- The first of the two grows, which moves it behind the second. -/
theorem allocator_invariant_moved :
    (twoBlocks.step (.realloc 4100 20)).live.map Block.addr = [4140, 4128] ∧
      (twoBlocks.step (.realloc 4100 20)).live.Pairwise Block.Apart :=
  ⟨by decide, (allocator_invariant (.step (.realloc 4100 20) twoBlocks_reachable
    ⟨⟨4100, 10⟩, .tail _ (.head _), rfl, by decide⟩)).1⟩

/-- Asked for a multiple of 3, the allocator hands out 4100. -/
theorem posixMemalign_three :
    ¬ ∀ bottom pool p alignment size addr, Reachable bottom pool p →
      p.Legal bottom pool (.posixMemalign alignment size) →
      (p.heap.posixMemalign alignment size).1 = .ok addr → alignment ∣ addr := by
  intro aligned
  have multiple := aligned 4096 256 _ 3 8 4100 (.init blank (by decide)) (.inr (by decide)) rfl
  revert multiple
  decide

end Yaboot.Malloc
