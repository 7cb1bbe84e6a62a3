import Yaboot.Lib.MallocProofs

/-! Requests that do not fit. What is compared with `malloc_top` is a sum of 32-bit
words, so it tells a block that ends above the pool only where the sum does not wrap
to an address below. -/
namespace Yaboot.Malloc
open Buffer Word

/-- The first multiple of `a` from `n` on. -/
def alignUp (n a : Nat) : Nat := (n + (a - 1)) / a * a

/-- Where the block that is asked for ends, in exact arithmetic. -/
def Heap.blockEnd (h : Heap) : Call → Nat
  | .malloc size => h.mallocPtr + 4 + size
  | .posixMemalign alignment size => alignUp (h.mallocPtr + 4) (minAlign alignment) + size
  | .realloc ptr size => (if ptr = h.lastAlloc then ptr else h.mallocPtr + 4) + size
  | .free _ => 0
  | .store _ => 0

/-- A call that asks for a block. Only a live one is resized. -/
def Pool.Requests (p : Pool) : Call → Prop
  | .malloc size => size < 2 ^ 32
  | .posixMemalign alignment size =>
    alignment.isPowerOfTwo ∧ alignment < 2 ^ 32 ∧ 0 < size ∧ size < 2 ^ 32
  | .realloc ptr size => (∃ b ∈ p.live, b.addr = ptr) ∧ size < 2 ^ 32
  | .free _ => False
  | .store _ => False

/-- What fits is granted, and what does not is refused with nothing changed. -/
structure Pool.Answers (p : Pool) (c : Call) : Prop where
  granted : p.heap.blockEnd c ≤ p.heap.mallocTop → ¬ p.Fails c
  refused : p.heap.mallocTop < p.heap.blockEnd c → p.Fails c ∧ p.heap.Same (p.step c).heap

/-- The pool is open for what fits, and the end of what does not is above it also as a
32-bit word. -/
structure Pool.Compares (p : Pool) (c : Call) : Prop where
  opened : p.heap.blockEnd c ≤ p.heap.mallocTop → p.heap.mallocPtr ≠ 0
  above : p.heap.mallocTop < p.heap.blockEnd c →
    p.heap.mallocPtr = 0 ∨ p.heap.mallocTop < u32 (p.heap.blockEnd c)

/-- After `malloc_init(bottom, size)`. -/
def Heap.start (h : Heap) (bottom size : Nat) : Pool := ⟨h.mallocInit bottom size, []⟩

/-- `P` holds of each call when it is made. -/
def Pool.All (P : Pool → Call → Prop) (p : Pool) : List Call → Prop
  | [] => True
  | c :: calls => P p c ∧ (p.step c).All P calls

/-- Each step that is as `P` says keeps `I`, so a run of such steps is as `Q` says. -/
theorem Pool.All.of_invariant {I : Pool → Prop} {P Q : Pool → Call → Prop}
    (step : ∀ p c, I p → P p c → I (p.step c)) (each : ∀ p c, I p → P p c → Q p c)
    {p : Pool} (start : I p) {calls : List Call} (all : p.All P calls) : p.All Q calls := by
  induction calls generalizing p with
  | nil => trivial
  | cons c calls ih => exact ⟨each p c start all.1, ih (step p c start all.1) all.2⟩

/-! ### One request -/

section Request
variable {h : Heap} {p : Pool} {size : Nat}

theorem Heap.malloc_refuses
    (closed : h.mallocPtr = 0 ∨ h.mallocTop < u32 (h.mallocPtr + 4 + size)) :
    (h.malloc size).1 = 0 ∧ h.Same (h.malloc size).2 := by
  rw [Nat.add_right_comm] at closed
  by_cases off : h.mallocPtr = 0
  · rw [show h.malloc size = (0, h) from if_pos off]
    exact ⟨rfl, .refl h⟩
  · have full := closed.resolve_left off
    unfold Heap.malloc
    rw [if_neg off, if_pos full]
    exact ⟨rfl, rfl, rfl, rfl, rfl⟩

theorem Heap.malloc_grants (off : h.mallocPtr ≠ 0)
    (room : u32 (h.mallocPtr + 4 + size) ≤ h.mallocTop) :
    (h.malloc size).1 = u32 (h.mallocPtr + 4) ∧
      (h.malloc size).2.mallocPtr = roundUp (u32 (h.mallocPtr + 4 + size)) := by
  rw [Nat.add_right_comm] at room ⊢
  unfold Heap.malloc
  rw [if_neg off, if_neg (Nat.not_lt.mpr room), ← Nat.add_assoc]
  exact ⟨rfl, rfl⟩

/-- A block that fits does not start at `NULL`. -/
theorem Heap.malloc_fits (off : h.mallocPtr ≠ 0) (word : h.mallocTop < 2 ^ 32)
    (fits : h.mallocPtr + 4 + size ≤ h.mallocTop) : (h.malloc size).1 ≠ 0 := by
  have room : u32 (h.mallocPtr + 4 + size) ≤ h.mallocTop := by
    rw [u32_of_lt (by omega)]
    exact fits
  have granted := h.malloc_grants off room
  rw [granted.1, u32_of_lt (by omega)]
  omega

theorem roundUp_le (low : n + 3 < 2 ^ 32) : roundUp n ≤ n + 3 := by
  rw [roundUp_eq low]
  omega

/-- Where the sum wraps to an address in the pool, something is handed out there. -/
theorem Heap.malloc_wraps (off : h.mallocPtr ≠ 0) (word : h.mallocPtr < 2 ^ 32)
    (low : h.mallocTop + 8 ≤ 2 ^ 32) (room : u32 (h.mallocPtr + 4 + size) ≤ h.mallocTop) :
    ¬ ((h.malloc size).1 = 0 ∧ h.Same (h.malloc size).2) := by
  rintro ⟨failed, same⟩
  obtain ⟨result, next⟩ := h.malloc_grants off room
  have rounded := roundUp_le (n := u32 (h.mallocPtr + 4 + size)) (by omega)
  rw [← next, same.mallocPtr] at rounded
  rw [result] at failed
  unfold u32 at failed
  omega

/-- A power of two passes the check. -/
theorem minAlign_good (power : asked.isPowerOfTwo) : badAlign (minAlign asked) = false := by
  have shape : ∃ k, 2 ≤ k ∧ minAlign asked = 2 ^ k := by
    unfold minAlign
    split
    case isTrue below => exact ⟨2, le_rfl, rfl⟩
    case isFalse above =>
      obtain ⟨k, rfl⟩ := power
      refine ⟨k, ?_, rfl⟩
      by_contra small
      have := Nat.pow_le_pow_right (by decide : 0 < 2) (Nat.le_of_lt_succ (Nat.lt_of_not_le small))
      omega
  obtain ⟨k, large, shape⟩ := shape
  have multiple : 2 ^ k % 4 = 0 := Nat.mod_eq_zero_of_dvd (Nat.pow_dvd_pow 2 large)
  have bits : (2 ^ k - 1) &&& 2 ^ k = 0 := by
    rw [Nat.and_comm]
    exact (Nat.and_sub_one_eq_zero_iff_isPowerOfTwo (Nat.two_pow_pos k).ne').mpr ⟨k, rfl⟩
  rw [shape]
  simp [badAlign, multiple, bits]

theorem minAlign_pow (good : badAlign (minAlign asked) = false) (word : asked < 2 ^ 32) :
    ∃ k < 32, minAlign asked = 2 ^ k := by
  obtain ⟨k, shape⟩ := pow_of_not_badAlign good
  refine ⟨k, (Nat.pow_lt_pow_iff_right (by decide : 1 < 2)).mp ?_, shape⟩
  rw [← shape]
  unfold minAlign
  split <;> omega

/-- The aligned address, whether or not it is a word. -/
theorem alignedAddr_wraps (n : Nat) (small : k < 32) :
    alignedAddr n (2 ^ k) = u32 (alignUp (n + 4) (2 ^ k)) := by
  unfold alignedAddr alignUp
  rw [and_not32 (u32_lt _) (Nat.le_of_lt small)]
  have whole : 2 ^ 32 = 2 ^ k * 2 ^ (32 - k) := by
    rw [← Nat.pow_add, Nat.add_sub_cancel' (Nat.le_of_lt small)]
  unfold u32
  rw [whole, Nat.mod_mul_right_div_self, ← Nat.mul_mod_mul_right, Nat.mul_comm (2 ^ (32 - k))]

theorem le_alignUp (n k : Nat) : n ≤ alignUp n (2 ^ k) := by
  have positive := Nat.two_pow_pos k
  have split := Nat.div_add_mod (n + (2 ^ k - 1)) (2 ^ k)
  have rest := Nat.mod_lt (n + (2 ^ k - 1)) positive
  rw [Nat.mul_comm] at split
  unfold alignUp
  omega

/-- The sum that is compared is the end of the block modulo 2^32. -/
theorem Heap.posixMemalign_eq (h : Heap) (good : badAlign (minAlign asked) = false)
    (word : asked < 2 ^ 32) (some : 0 < size) (off : h.mallocPtr ≠ 0) :
    h.mallocPtr + 4 ≤ alignUp (h.mallocPtr + 4) (minAlign asked) ∧
    ∃ h', h.posixMemalign asked size =
      if u32 (alignUp (h.mallocPtr + 4) (minAlign asked) + size) > h.mallocTop then
        (.error enomem, h)
      else (.ok (u32 (alignUp (h.mallocPtr + 4) (minAlign asked))), h') := by
  obtain ⟨k, small, shape⟩ := minAlign_pow good word
  unfold Heap.posixMemalign
  rw [shape] at good
  simp only [if_neg off, shape, good, Bool.false_eq_true, if_false, if_neg some.ne',
    alignedAddr_wraps _ small]
  have above := le_alignUp (h.mallocPtr + 4) k
  generalize alignUp (h.mallocPtr + 4) (2 ^ k) = addr at above ⊢
  have sum : u32 (h.mallocPtr + u32 (size + sub32 (u32 addr) (u32 (h.mallocPtr + 4))) + 4) =
      u32 (addr + size) := by
    unfold u32 sub32
    omega
  rw [sum]
  exact ⟨above, _, rfl⟩

/-- In place, the sum is the end of the block as well. -/
theorem Heap.realloc_last (h : Heap) (ptr size : Nat) (off : h.mallocPtr ≠ 0)
    (last : ptr = h.lastAlloc) :
    (h.mallocTop < u32 (ptr + size) → (h.realloc ptr size).1 = 0 ∧ h.Same (h.realloc ptr size).2) ∧
      (u32 (ptr + size) ≤ h.mallocTop → (h.realloc ptr size).1 = ptr) := by
  unfold Heap.realloc
  rw [if_neg off, if_pos last]
  constructor
  · intro full
    rw [if_pos full]
    exact ⟨rfl, rfl, rfl, rfl, rfl⟩
  · intro room
    rw [if_neg (Nat.not_lt.mpr room)]

/-- Elsewhere it is granted when `malloc` grants it, and refused with it. -/
theorem Heap.realloc_moves (h : Heap) (size : Nat) (off : h.mallocPtr ≠ 0)
    (other : ptr ≠ h.lastAlloc) :
    (h.realloc ptr size).1 = (h.malloc size).1 ∧
      ((h.malloc size).1 = 0 → (h.realloc ptr size).2 = (h.malloc size).2) := by
  unfold Heap.realloc
  rw [if_neg off, if_neg other]
  dsimp only
  split
  case isTrue moved => exact ⟨rfl, fun failed => absurd failed moved.1⟩
  case isFalse failed => exact ⟨rfl, fun _ => rfl⟩

end Request

/-- What the statics hold in every run. -/
structure Pool.Words (top : Nat) (p : Pool) : Prop where
  ptr : p.heap.mallocPtr < 2 ^ 32
  top : p.heap.mallocTop = top
  live : ∀ b ∈ p.live, b.addr ≠ 0

namespace Pool.Words
variable {p : Pool} {c : Call} {top : Nat}

/-- A request that ends behind the pool, or comes before the pool is set up, fails and changes
nothing. -/
theorem refuses (requests : p.Requests c)
    (closed : p.heap.mallocPtr = 0 ∨ p.heap.mallocTop < u32 (p.heap.blockEnd c)) :
    p.Fails c ∧ p.heap.Same (p.step c).heap := by
  cases c with
  | malloc size => exact p.heap.malloc_refuses closed
  | posixMemalign alignment size =>
    obtain ⟨power, fits, some, -⟩ := requests
    dsimp only [Fails, step, Heap.blockEnd] at closed ⊢
    by_cases off : p.heap.mallocPtr = 0
    · have result : p.heap.posixMemalign alignment size = (.error einval, p.heap) := if_pos off
      rw [result]
      exact ⟨⟨einval, rfl⟩, .refl _⟩
    · obtain ⟨-, h', result⟩ := p.heap.posixMemalign_eq (minAlign_good power) fits some off
      rw [result, if_pos (closed.resolve_left off)]
      exact ⟨⟨enomem, rfl⟩, .refl _⟩
  | realloc ptr size =>
    dsimp only [Fails, step, Heap.blockEnd] at closed ⊢
    by_cases off : p.heap.mallocPtr = 0
    · have result : p.heap.realloc ptr size = (0, p.heap) := if_pos off
      rw [result]
      exact ⟨rfl, .refl _⟩
    by_cases last : ptr = p.heap.lastAlloc
    · rw [if_pos last] at closed
      exact (p.heap.realloc_last ptr size off last).1 (closed.resolve_left off)
    · rw [if_neg last] at closed
      obtain ⟨result, failed⟩ := p.heap.realloc_moves size off last
      have refused := p.heap.malloc_refuses closed
      rw [result, failed refused.1]
      exact refused
  | free ptr => exact requests.elim
  | store mem => exact requests.elim

/-- A request that ends inside the pool is granted. -/
theorem grants (words : p.Words top) (word : top < 2 ^ 32) (requests : p.Requests c)
    (opened : p.heap.mallocPtr ≠ 0) (fits : p.heap.blockEnd c ≤ p.heap.mallocTop) :
    ¬ p.Fails c := by
  have low : p.heap.mallocTop < 2 ^ 32 := words.top ▸ word
  cases c with
  | malloc size => exact p.heap.malloc_fits opened low fits
  | posixMemalign alignment size =>
    obtain ⟨power, asked, some, -⟩ := requests
    dsimp only [Fails, Heap.blockEnd] at fits ⊢
    obtain ⟨-, h', result⟩ := p.heap.posixMemalign_eq (minAlign_good power) asked some opened
    rw [result, if_neg (by rw [u32_of_lt (by omega)]; omega)]
    exact nofun
  | realloc ptr size =>
    obtain ⟨⟨b, held, rfl⟩, -⟩ := requests
    dsimp only [Fails, Heap.blockEnd] at fits ⊢
    by_cases last : b.addr = p.heap.lastAlloc
    · rw [if_pos last] at fits
      have room : u32 (b.addr + size) ≤ p.heap.mallocTop := by
        rw [u32_of_lt (by omega)]
        exact fits
      rw [(p.heap.realloc_last b.addr size opened last).2 room]
      exact words.live b held
    · rw [if_neg last] at fits
      rw [(p.heap.realloc_moves size opened last).1]
      exact p.heap.malloc_fits opened low fits
  | free ptr => exact requests.elim
  | store mem => exact requests.elim

/-- Where the sum wraps to an address in the pool, something is handed out there. -/
theorem wraps (words : p.Words top) (low : top + 8 ≤ 2 ^ 32) (requests : p.Requests c)
    (opened : p.heap.mallocPtr ≠ 0) (room : u32 (p.heap.blockEnd c) ≤ p.heap.mallocTop) :
    ¬ (p.Fails c ∧ p.heap.Same (p.step c).heap) := by
  have low : p.heap.mallocTop + 8 ≤ 2 ^ 32 := words.top ▸ low
  cases c with
  | malloc size => exact p.heap.malloc_wraps opened words.ptr low room
  | posixMemalign alignment size =>
    obtain ⟨power, fits, some, -⟩ := requests
    dsimp only [Fails, Heap.blockEnd] at room ⊢
    obtain ⟨-, h', result⟩ := p.heap.posixMemalign_eq (minAlign_good power) fits some opened
    rw [result, if_neg (Nat.not_lt.mpr room)]
    rintro ⟨⟨errno, error⟩, -⟩
    exact nomatch error
  | realloc ptr size =>
    obtain ⟨⟨b, held, rfl⟩, -⟩ := requests
    dsimp only [Fails, step, Heap.blockEnd] at room ⊢
    by_cases last : b.addr = p.heap.lastAlloc
    · rw [if_pos last] at room
      rw [(p.heap.realloc_last b.addr size opened last).2 room]
      exact fun both => words.live b held both.1
    · rw [if_neg last] at room
      obtain ⟨result, failed⟩ := p.heap.realloc_moves size opened last
      rintro ⟨zero, same⟩
      rw [result] at zero
      rw [failed zero] at same
      exact p.heap.malloc_wraps opened words.ptr low room ⟨zero, same⟩
  | free ptr => exact requests.elim
  | store mem => exact requests.elim

/-- A request that is compared as it should be is answered as it should be. -/
theorem answers (words : p.Words top) (word : top < 2 ^ 32) (requests : p.Requests c)
    (compares : p.Compares c) : p.Answers c where
  granted fits := words.grants word requests (compares.opened fits) fits
  refused beyond := refuses requests (compares.above beyond)

/-- Below the last words of the address space, only such a request is. -/
theorem compares (words : p.Words top) (low : top + 8 ≤ 2 ^ 32) (requests : p.Requests c)
    (answers : p.Answers c) : p.Compares c where
  opened fits off := answers.granted fits (refuses requests (.inl off)).1
  above beyond := by
    by_contra inside
    rw [not_or, Nat.not_lt] at inside
    exact words.wraps low requests inside.1 inside.2 (answers.refused beyond)

end Pool.Words

/-! ### Runs -/

/-- The statics are words again. -/
structure Heap.Kept (h h' : Heap) : Prop where
  ptr : h.mallocPtr < 2 ^ 32 → h'.mallocPtr < 2 ^ 32
  top : h'.mallocTop = h.mallocTop

theorem Heap.Kept.refl (h : Heap) : h.Kept h := ⟨id, rfl⟩

theorem roundUp_lt (n : Nat) : roundUp n < 2 ^ 32 := Nat.and_le_left.trans_lt (u32_lt _)

theorem Heap.malloc_kept (h : Heap) (size : Nat) : h.Kept (h.malloc size).2 := by
  unfold Heap.malloc
  split
  · exact .refl h
  split
  · exact ⟨id, rfl⟩
  · exact ⟨fun _ => roundUp_lt _, rfl⟩

theorem Heap.posixMemalign_kept (h : Heap) (alignment size : Nat) :
    h.Kept (h.posixMemalign alignment size).2 := by
  unfold Heap.posixMemalign
  split
  · exact .refl h
  dsimp only
  split
  · exact .refl h
  split
  · exact .refl h
  split
  · exact .refl h
  · exact ⟨fun _ => roundUp_lt _, rfl⟩

theorem Heap.realloc_kept (h : Heap) (ptr size : Nat) : h.Kept (h.realloc ptr size).2 := by
  have moved := h.malloc_kept size
  unfold Heap.realloc
  split
  · exact .refl h
  split
  · split
    · exact ⟨id, rfl⟩
    · exact ⟨fun _ => u32_lt _, rfl⟩
  · dsimp only
    split
    · exact ⟨moved.ptr, moved.top⟩
    · exact moved

theorem Heap.free_kept (h : Heap) (m : Nat) : h.Kept (h.free m) := by
  unfold Heap.free
  split
  · exact .refl h
  split
  · exact ⟨fun _ => Nat.mod_lt _ (by decide), rfl⟩
  · exact .refl h

section Run
variable {p : Pool} {top : Nat}

/-- The pointers of the allocator stay words, and inside the pool. -/
theorem Pool.Words.step (words : p.Words top) (c : Call) : (p.step c).Words top := by
  have of_kept {h' : Heap} (kept : p.heap.Kept h') :
      h'.mallocPtr < 2 ^ 32 ∧ h'.mallocTop = top := ⟨kept.ptr words.ptr, kept.top.trans words.top⟩
  have fewer (ptr : Nat) : ∀ b ∈ p.others ptr, b.addr ≠ 0 :=
    fun b held => words.live b (List.mem_filter.mp held).1
  cases c with
  | malloc size =>
    obtain ⟨ptr, top⟩ := of_kept (p.heap.malloc_kept size)
    refine ⟨ptr, top, ?_⟩
    dsimp only [Pool.step]
    split
    case isTrue failed => exact words.live
    case isFalse granted => exact List.forall_mem_cons.mpr ⟨granted, words.live⟩
  | posixMemalign alignment size =>
    obtain ⟨ptr, top⟩ := of_kept (p.heap.posixMemalign_kept alignment size)
    refine ⟨ptr, top, ?_⟩
    dsimp only [Pool.step]
    split
    case h_1 => exact words.live
    case h_2 addr _ =>
      split
      case isTrue none => exact words.live
      case isFalse granted => exact List.forall_mem_cons.mpr ⟨granted, words.live⟩
  | realloc ptr size =>
    obtain ⟨word, top⟩ := of_kept (p.heap.realloc_kept ptr size)
    refine ⟨word, top, ?_⟩
    dsimp only [Pool.step]
    split
    case isTrue failed => exact words.live
    case isFalse granted => exact List.forall_mem_cons.mpr ⟨granted, fewer ptr⟩
  | free ptr =>
    obtain ⟨word, top⟩ := of_kept (p.heap.free_kept ptr)
    exact ⟨word, top, fewer ptr⟩
  | store mem => exact ⟨words.ptr, words.top, words.live⟩

end Run

/-- In every run from `malloc_init`, requests that are compared as they should be are
answered as they should be, and no others where the pool ends below the last words of
the address space. -/
theorem requests_answered (h : Heap) (bottom size : Nat) (word : bottom < 2 ^ 32)
    (calls : List Call) :
    ((h.start bottom size).All (fun p c => p.Requests c → p.Compares c) calls →
      (h.start bottom size).All (fun p c => p.Requests c → p.Answers c) calls) ∧
    (bottom + size + 8 ≤ 2 ^ 32 →
      (h.start bottom size).All (fun p c => p.Requests c → p.Answers c) calls →
      (h.start bottom size).All (fun p c => p.Requests c → p.Compares c) calls) := by
  have words : (h.start bottom size).Words (u32 (bottom + size)) := ⟨word, rfl, nofun⟩
  constructor
  · intro compares
    refine Pool.All.of_invariant (fun p c words _ => words.step c) ?_ words compares
    exact fun p c words compares requests => words.answers (u32_lt _) requests (compares requests)
  · intro low answers
    refine Pool.All.of_invariant (fun p c words _ => words.step c) ?_ words answers
    refine fun p c words answers requests => words.compares ?_ requests (answers requests)
    rwa [u32_of_lt (by omega)]

/-- Three requests, the last of which asks for more than is left. -/
theorem requests_answered_three : (blank.start 4096 256).All (fun p c => p.Requests c → p.Answers c)
    [.malloc 10, .posixMemalign 16 8, .realloc 4128 400] :=
  (requests_answered blank 4096 256 (by decide) _).1
    ⟨fun _ => ⟨by decide, by decide⟩, fun _ => ⟨by decide, by decide⟩,
      fun _ => ⟨by decide, by decide⟩, trivial⟩

/-- All of the address space is asked for, and granted. -/
theorem malloc_all : ¬ ∀ (h : Heap) (bottom size : Nat) (calls : List Call), bottom < 2 ^ 32 →
    (h.start bottom size).All (fun p c => p.Requests c → p.Answers c) calls := by
  intro answered
  have first := (answered blank 4096 256 [.malloc 0xffffffff] (by decide)).1
    (show 0xffffffff < 2 ^ 32 by decide)
  have granted : ((blank.mallocInit 4096 256).malloc 0xffffffff).1 ≠ 0 := by decide
  exact granted (first.refused (by decide)).1

end Yaboot.Malloc
