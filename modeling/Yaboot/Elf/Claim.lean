import Yaboot.Base.Loop
import Yaboot.Elf.Load

/-! Memory from the firmware: `prom_claim_chunk` and `prom_claim_chunk_top` of
`second/prom.c`, with a log of what was asked and what was answered. -/
namespace Yaboot.Elf.TextUi
open Word

/-- A block of memory. -/
structure Region where
  base : Nat
  size : Nat
  deriving DecidableEq, Repr

/-- No byte is in both. -/
def Region.Apart (r s : Region) : Prop := r.base + r.size ≤ s.base ∨ s.base + s.size ≤ r.base

instance (r s : Region) : Decidable (r.Apart s) :=
  inferInstanceAs (Decidable (r.base + r.size ≤ s.base ∨ s.base + s.size ≤ r.base))

/-- What the kernel is entered with, `info` being what its loading has left. -/
structure Entry where
  info : Loadinfo
  address : Nat
  arg1 : Nat
  arg2 : Nat
  args : Option (List UInt8)
  deriving DecidableEq, Repr

/-- What is asked of the firmware, the files and the heap. A claim that is refused
finds nothing. -/
inductive Call where
  | opened (file : List UInt8)
  | access
  | closed
  | claim (asked : Region) (found : Option Nat)
  | release (r : Region)
  | malloc (given : Bool)
  | entered (e : Entry)
  deriving DecidableEq, Repr

abbrev Log := List Call

/-- What the firmware answers to `claim`, after what was asked before. -/
abbrev Firmware := Log → Nat → Nat → Option Nat

/-- `call_prom("claim", 3, 1, addr, size, 0)`. -/
def claim (fw : Firmware) (addr size : Nat) (log : Log) : Option Nat × Log :=
  (fw log addr size, log ++ [.claim ⟨addr, size⟩ (fw log addr size)])

/-- `PROM_CLAIM_MAX_ADDR`. -/
def promClaimMaxAddr : Nat := 0x10000000

/-- `0x100000/sizeof(addr)`. -/
def promClaimStep : Nat := 0x100000 / 4

/-- The loop of `prom_claim_chunk` from `addr` on. -/
def promClaimChunk (fw : Firmware) (size addr : Nat) (log : Log) : Option Nat × Log :=
  if addr ≤ promClaimMaxAddr then
    match claim fw addr size log with
    | (some found, log) => (some found, log)
    | (none, log) => promClaimChunk fw size (addr + promClaimStep) log
  else (none, log)
termination_by promClaimMaxAddr + 1 - addr
decreasing_by
  unfold promClaimStep
  omega

/-- A round of `prom_claim_chunk_top`. The address is unsigned. -/
def promClaimChunkTopRound (fw : Firmware) (size : Nat) (s : Nat × Log) :
    Loop.Round (Nat × Log) (Option Nat × Log) :=
  if size ≤ s.1 then
    match claim fw s.1 size s.2 with
    | (some found, log) => .out (some found, log)
    | (none, log) => .again (sub32 s.1 promClaimStep, log)
  else .out (none, s.2)

def promClaimChunkTop (fw : Firmware) (size fuel : Nat) (log : Log) : Option (Option Nat × Log) :=
  Loop.spin (promClaimChunkTopRound fw size) fuel (promClaimMaxAddr, log)

/-! ### What is asked of them -/

/-- The blocks that are held after a call, the newest first. -/
def heldAfter (held : List Region) : Call → List Region
  | .claim asked (some found) => ⟨found, asked.size⟩ :: held
  | .release r => held.erase r
  | _ => held

/-- The blocks that are held after some calls. -/
def held (log : Log) : List Region := log.foldl heldAfter []

/-- A block that is apart from those held. There is an address behind it, and the last
one is none, since it stands for an error. -/
def Free (log : Log) (r : Region) : Prop :=
  r.base + r.size < 2 ^ 32 - 1 ∧ ∀ s ∈ held log, s.Apart r

instance (log : Log) (r : Region) : Decidable (Free log r) :=
  inferInstanceAs (Decidable (r.base + r.size < 2 ^ 32 - 1 ∧ ∀ s ∈ held log, s.Apart r))

/-- A claim is granted where it was asked for, when the memory is free. -/
structure Honest (fw : Firmware) : Prop where
  there : fw log addr size = some found → found = addr
  free : fw log addr size = some found → Free log ⟨addr, size⟩

/-- Free memory is granted as well. -/
structure Granting (fw : Firmware) : Prop extends Honest fw where
  granted : Free log ⟨addr, size⟩ → fw log addr size = some addr

end Yaboot.Elf.TextUi
