import Yaboot.Base.Buffer
import Yaboot.Base.Word

/-! The allocator of `lib/malloc.c`. It hands out a pool from the bottom up, and
only what was handed out last can be given back or resized in place. Addresses
are 32-bit words, and `NULL` is 0. -/
namespace Yaboot.Malloc
open Buffer Word

/-- The statics of the allocator, the memory, and what was printed. -/
structure Heap where
  mallocPtr : Nat
  mallocTop : Nat
  lastAlloc : Nat
  mem : Bytes
  console : List String

def enomem : Nat := 12
def einval : Nat := 22

/-- `~n`. -/
def not32 (n : Nat) : Nat := 2 ^ 32 - 1 - n

/-- `(p + 3) & (~3)`. -/
def roundUp (p : Nat) : Nat := u32 (p + 3) &&& not32 3

def Heap.promPrintf (h : Heap) (text : String) : Heap :=
  { h with console := h.console ++ [text] }

/-- `malloc_init`. -/
def Heap.mallocInit (h : Heap) (bottom size : Nat) : Heap :=
  { h with mallocPtr := bottom, mallocTop := u32 (bottom + size) }

/-- `malloc_dispose`. -/
def Heap.mallocDispose (h : Heap) : Heap := { h with mallocPtr := 0, lastAlloc := 0 }

/-- `malloc`: the address, and the heap it leaves. -/
def Heap.malloc (h : Heap) (size : Nat) : Nat × Heap :=
  if h.mallocPtr = 0 then (0, h)
  else if u32 (h.mallocPtr + size + 4) > h.mallocTop then (0, h.promPrintf "malloc failed\n")
  else
    (u32 (h.mallocPtr + 4),
      { h with
        mem := store32 h.mem h.mallocPtr size
        lastAlloc := u32 (h.mallocPtr + 4)
        mallocPtr := roundUp (u32 (h.mallocPtr + (size + 4))) })

/-- Minimal alignment is `sizeof(void *)`. -/
def minAlign (alignment : Nat) : Nat := if alignment < 4 then 4 else alignment

/-- Not a multiple of `sizeof(void *)`, or not a power of two. -/
def badAlign (alignment : Nat) : Bool :=
  alignment % 4 ≠ 0 || (alignment - 1) &&& alignment ≠ 0

/-- The first address above a header that is a multiple of `alignment`. -/
def alignedAddr (mallocPtr alignment : Nat) : Nat :=
  u32 (mallocPtr + 4 + (alignment - 1)) &&& not32 (alignment - 1)

/-- `posix_memalign`: the error, or what is stored in `*memptr`. -/
def Heap.posixMemalign (h : Heap) (asked size : Nat) : Except Nat Nat × Heap :=
  if h.mallocPtr = 0 then (.error einval, h)
  else
    let alignment := minAlign asked
    if badAlign alignment then (.error einval, h)
    else if size = 0 then (.ok 0, h)
    else
      let caddr := alignedAddr h.mallocPtr alignment
      let allocSize := u32 (size + sub32 caddr (u32 (h.mallocPtr + 4)))
      if u32 (h.mallocPtr + allocSize + 4) > h.mallocTop then (.error enomem, h)
      else
        (.ok caddr,
          { h with
            mem := store32 h.mem (sub32 caddr 4) size
            lastAlloc := caddr
            mallocPtr := roundUp (u32 (h.mallocPtr + (allocSize + 4))) })

/-- The size in the header of the block at `addr`. -/
def Heap.header (h : Heap) (addr : Nat) : Nat := word32 h.mem (sub32 addr 4)

/-- `memcpy` between blocks that do not overlap. -/
def Heap.memcpy (h : Heap) (dst src n : Nat) : Heap :=
  { h with mem := blit h.mem dst n fun i => h.mem (src + i) }

/-- `realloc`. What is copied is as long as the old block was. -/
def Heap.realloc (h : Heap) (oaddr size : Nat) : Nat × Heap :=
  if h.mallocPtr = 0 then (0, h)
  else if oaddr = h.lastAlloc then
    if u32 (oaddr + size) > h.mallocTop then (0, h.promPrintf "realloc failed\n")
    else
      (oaddr,
        { h with
          mem := store32 h.mem (sub32 oaddr 4) size
          mallocPtr := u32 (oaddr + size) })
  else
    let moved := h.malloc size
    if moved.1 ≠ 0 ∧ oaddr ≠ 0 then
      (moved.1, moved.2.memcpy moved.1 oaddr (moved.2.header oaddr))
    else moved

/-- `free`. Only the last allocation comes back; `last_alloc` keeps its value. -/
def Heap.free (h : Heap) (m : Nat) : Heap :=
  if h.mallocPtr = 0 then h
  else if m = h.lastAlloc then { h with mallocPtr := sub32 h.lastAlloc 4 }
  else h

/-! ### Programs that use it -/

/-- What a caller holds: an address, and the size it asked for. -/
structure Block where
  addr : Nat
  size : Nat

/-- Apart from each other, the headers counted in. -/
def Block.Apart (b c : Block) : Prop := b.addr + b.size + 4 ≤ c.addr ∨ c.addr + c.size + 4 ≤ b.addr

/-- `store` is the program writing to memory on its own. -/
inductive Call
  | malloc (size : Nat)
  | posixMemalign (alignment size : Nat)
  | realloc (ptr size : Nat)
  | free (ptr : Nat)
  | store (mem : Bytes)

/-- The allocator and the blocks that were handed out and not yet returned. -/
structure Pool where
  heap : Heap
  live : List Block

/-- The pool without the block at `ptr`. -/
def Pool.others (p : Pool) (ptr : Nat) : List Block := p.live.filter fun b => b.addr ≠ ptr

def Pool.step (p : Pool) : Call → Pool
  | .malloc size =>
    let r := p.heap.malloc size
    ⟨r.2, if r.1 = 0 then p.live else ⟨r.1, size⟩ :: p.live⟩
  | .posixMemalign alignment size =>
    let r := p.heap.posixMemalign alignment size
    ⟨r.2, match r.1 with
      | .error _ => p.live
      | .ok addr => if addr = 0 then p.live else ⟨addr, size⟩ :: p.live⟩
  | .realloc ptr size =>
    let r := p.heap.realloc ptr size
    ⟨r.2, if r.1 = 0 then p.live else ⟨r.1, size⟩ :: p.others ptr⟩
  | .free ptr => ⟨p.heap.free ptr, p.others ptr⟩
  | .store mem => ⟨{ p.heap with mem }, p.live⟩

/-- The call reports a failure. -/
def Pool.Fails (p : Pool) : Call → Prop
  | .malloc size => (p.heap.malloc size).1 = 0
  | .posixMemalign alignment size => ∃ errno, (p.heap.posixMemalign alignment size).1 = .error errno
  | .realloc ptr size => (p.heap.realloc ptr size).1 = 0
  | .free _ => False
  | .store _ => False

/-- What a call may ask for: only live blocks are resized or returned, no
address wraps, and the program's own stores stay out of what the pool keeps for
itself. -/
def Pool.Legal (bottom pool : Nat) (p : Pool) : Call → Prop
  | .malloc size => p.heap.mallocPtr + size + 4 < 2 ^ 32
  | .posixMemalign alignment size =>
    badAlign (minAlign alignment) = true ∨
      (p.heap.mallocPtr + 4 + (minAlign alignment - 1) < 2 ^ 32 ∧
        alignedAddr p.heap.mallocPtr (minAlign alignment) + size < 2 ^ 32)
  | .realloc ptr size =>
    ∃ b ∈ p.live, b.addr = ptr ∧ ptr + size < 2 ^ 32 ∧
      p.heap.mallocPtr + size + 4 < 2 ^ 32 ∧ p.heap.mallocPtr + b.size + 4 < 2 ^ 32
  | .free ptr => ∃ b ∈ p.live, b.addr = ptr
  | .store mem => ∀ i, mem i ≠ p.heap.mem i →
      i < bottom ∨ bottom + pool ≤ i ∨ ∃ b ∈ p.live, b.addr ≤ i ∧ i < b.addr + b.size

/-- The states of a program that starts with `malloc_init(bottom, pool)`. -/
inductive Reachable (bottom pool : Nat) : Pool → Prop
  | init (h : Heap) : bottom + pool + 3 < 2 ^ 32 → Reachable bottom pool ⟨h.mallocInit bottom pool, []⟩
  | step (c : Call) : Reachable bottom pool p → p.Legal bottom pool c →
      Reachable bottom pool (p.step c)

end Yaboot.Malloc
