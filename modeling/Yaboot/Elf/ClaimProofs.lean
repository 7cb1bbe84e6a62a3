import Mathlib.Order.Bounds.Basic
import Yaboot.Elf.Claim

/-! The search for memory goes over addresses a quarter of a megabyte apart, upwards
from the address asked for or downwards from the top, and takes the first that is
free. -/
namespace Yaboot.Elf.TextUi
open Word Loop

variable {fw : Firmware} {log : Log} {size addr virt : Nat}

/-! ### The log -/

theorem held_append (log : Log) (call : Call) : held (log ++ [call]) = heldAfter (held log) call :=
  List.foldl_append

theorem held_refused (asked : Region) (log : Log) : held (log ++ [.claim asked none]) = held log :=
  held_append log _

theorem Free.congr (same : held log' = held log) : Free log' r ↔ Free log r := by
  unfold Free
  rw [same]

/-- A search that came to an end: it found what is said of a block there, or nothing.
Nothing but the block is held in addition. -/
structure Searched (log : Log) (size : Nat) (places : Set Nat) (least : Set Nat → Nat → Prop)
    (result : Option Nat × Log) : Prop where
  found : ∀ base, result.1 = some base →
    least {a | a ∈ places ∧ Free log ⟨a, size⟩} base ∧ held result.2 = ⟨base, size⟩ :: held log
  nothing : result.1 = none →
    (∀ a ∈ places, ¬ Free log ⟨a, size⟩) ∧ held result.2 = held log

theorem Granting.refuses (granting : Granting fw) (refused : fw log addr size = none) :
    ¬ Free log ⟨addr, size⟩ := fun free =>
  absurd ((granting.granted free).symm.trans refused) (by simp)

/-! ### Upwards -/

/-- The addresses `prom_claim_chunk` tries. -/
def upwards (virt : Nat) : Set Nat :=
  {a | a ≤ promClaimMaxAddr ∧ ∃ i, a = virt + i * promClaimStep}

theorem mem_upwards :
    a ∈ upwards virt ↔ (a = virt ∧ virt ≤ promClaimMaxAddr) ∨ a ∈ upwards (virt + promClaimStep) := by
  unfold upwards
  constructor
  · rintro ⟨low, i, rfl⟩
    cases i with
    | zero => exact .inl ⟨by omega, by omega⟩
    | succ i => exact .inr ⟨low, i, by rw [Nat.succ_mul]; omega⟩
  · rintro (⟨rfl, low⟩ | ⟨low, i, rfl⟩)
    · exact ⟨low, 0, by omega⟩
    · exact ⟨low, i + 1, by rw [Nat.succ_mul]; omega⟩

theorem le_of_mem_upwards (member : a ∈ upwards virt) : virt ≤ a := by
  obtain ⟨-, i, rfl⟩ := member
  exact Nat.le_add_right _ _

/-- The block that `prom_claim_chunk` returns is the lowest free one among the addresses it tries,
it is held afterwards and nothing else is; and when none is returned there is none. -/
theorem promClaimChunk_lowest (granting : Granting fw) (size virt : Nat) (log : Log) :
    Searched log size (upwards virt) IsLeast (promClaimChunk fw size virt log) := by
  induction virt, log using promClaimChunk.induct fw size with
  | case1 addr log low found log' answer =>
    rw [promClaimChunk, if_pos low, answer]
    unfold claim at answer
    obtain ⟨granted, rfl⟩ := Prod.mk.inj answer
    obtain rfl := granting.there granted
    refine ⟨fun base same => ?_, fun none => nomatch none⟩
    obtain rfl := Option.some.inj same
    refine ⟨⟨⟨mem_upwards.mpr (.inl ⟨rfl, low⟩), granting.free granted⟩, fun a member => ?_⟩, ?_⟩
    · exact le_of_mem_upwards member.1
    · rw [granted, held_append]
      rfl
  | case2 addr log low log' answer ih =>
    rw [promClaimChunk, if_pos low, answer]
    unfold claim at answer
    obtain ⟨refused, rfl⟩ := Prod.mk.inj answer
    rw [refused] at ih ⊢
    have same := held_refused ⟨addr, size⟩ log
    have taken : ¬ Free log ⟨addr, size⟩ := granting.refuses refused
    refine ⟨fun base found => ?_, fun none => ?_⟩
    · obtain ⟨⟨⟨member, free⟩, least⟩, holds⟩ := ih.found base found
      refine ⟨⟨⟨mem_upwards.mpr (.inr member), (Free.congr same).mp free⟩, ?_⟩, same ▸ holds⟩
      rintro a ⟨place, lower⟩
      rcases mem_upwards.mp place with ⟨rfl, -⟩ | later
      · exact absurd lower taken
      · exact least ⟨later, (Free.congr same).mpr lower⟩
    · obtain ⟨all, holds⟩ := ih.nothing none
      refine ⟨fun a place free => ?_, holds.trans same⟩
      rcases mem_upwards.mp place with ⟨rfl, -⟩ | later
      · exact taken free
      · exact all a later ((Free.congr same).mpr free)
  | case3 addr log high =>
    rw [promClaimChunk, if_neg high]
    refine ⟨fun _ none => (nomatch none), fun _ => ⟨fun a place _ => ?_, rfl⟩⟩
    exact high (Nat.le_trans (le_of_mem_upwards place) place.1)

/-- Firmware that hands out what is free. -/
def lending : Firmware := fun log addr size => if Free log ⟨addr, size⟩ then some addr else none

theorem lending_granting : Granting lending where
  there granted := by
    unfold lending at granted
    split at granted
    · exact (Option.some.inj granted).symm
    · cases granted
  free granted := by
    unfold lending at granted
    split at granted
    · assumption
    · cases granted
  granted free := if_pos free

/-- A chunk behind a kernel. -/
theorem promClaimChunk_behind :
    Searched [.claim ⟨0, 0x500000⟩ (some 0)] 0x100000 (upwards 0x400000) IsLeast
      (promClaimChunk lending 0x100000 0x400000 [.claim ⟨0, 0x500000⟩ (some 0)]) :=
  promClaimChunk_lowest lending_granting _ _ _

/-! ### Downwards -/

/-- The addresses `prom_claim_chunk_top` tries from `top` on. -/
def downwards (size top : Nat) : Set Nat := {a | size ≤ a ∧ ∃ i, a + i * promClaimStep = top}

theorem mem_downwards (fits : size ≤ top) :
    a ∈ downwards size top ↔
      a = top ∨ (promClaimStep ≤ top ∧ a ∈ downwards size (top - promClaimStep)) := by
  unfold downwards
  constructor
  · rintro ⟨low, i, there⟩
    cases i with
    | zero => exact .inl (by omega)
    | succ i =>
      rw [Nat.succ_mul] at there
      exact .inr ⟨by omega, low, i, by omega⟩
  · rintro (rfl | ⟨high, low, i, there⟩)
    · exact ⟨fits, 0, by omega⟩
    · exact ⟨low, i + 1, by rw [Nat.succ_mul]; omega⟩

theorem le_of_mem_downwards (member : a ∈ downwards size top) : a ≤ top := by
  obtain ⟨-, i, rfl⟩ := member
  exact Nat.le_add_right _ _

/-- What the search below an address still has to do: that of the whole. -/
structure Below (log : Log) (size steps : Nat) (s : Nat × Log) : Prop where
  grid : s.1 = steps * promClaimStep
  low : s.1 ≤ promClaimMaxAddr
  same : held s.2 = held log
  taken : ∀ a ∈ downwards size promClaimMaxAddr, s.1 < a → ¬ Free log ⟨a, size⟩
  rest : ∀ a ∈ downwards size promClaimMaxAddr, a ≤ s.1 → a ∈ downwards size s.1
  member : size ≤ s.1 → s.1 ∈ downwards size promClaimMaxAddr

theorem Below.start (log : Log) (size : Nat) : Below log size 1024 (promClaimMaxAddr, log) where
  grid := rfl
  low := Nat.le_refl _
  same := rfl
  taken a place above := absurd (le_of_mem_downwards place) (Nat.not_le_of_lt above)
  rest a place _ := place
  member fits := ⟨fits, 0, by omega⟩

/-- A refused address goes down by one step of the search, and is one of the addresses that were
not free. -/
theorem Below.next (below : Below log size steps (addr, log')) (some_ : 0 < size)
    (fits : size ≤ addr) (refused : ¬ Free log ⟨addr, size⟩) :
    Below log size (steps - 1)
      (sub32 addr promClaimStep, log' ++ [.claim ⟨addr, size⟩ none]) ∧ 0 < steps := by
  obtain ⟨grid, low, same, taken, rest, member⟩ := below
  dsimp only at grid low same taken rest member
  have steps_pos : 0 < steps := by
    rcases Nat.eq_zero_or_pos steps with rfl | more
    · omega
    · exact more
  have step_le : promClaimStep ≤ addr := by
    rw [grid]
    exact Nat.le_mul_of_pos_left _ steps_pos
  have next : sub32 addr promClaimStep = addr - promClaimStep :=
    sub32_of_le (by unfold promClaimMaxAddr at low; omega) step_le
  rw [next]
  have place := member fits
  refine ⟨⟨?_, by dsimp only; omega, (held_refused _ _).trans same, ?_, ?_, ?_⟩, steps_pos⟩
  · rw [grid, Nat.sub_one_mul]
  · intro a there above
    by_cases higher : addr < a
    · exact taken a there higher
    · rcases (mem_downwards fits).mp (rest a there (Nat.le_of_not_lt higher)) with rfl | ⟨-, lower⟩
      · exact refused
      · exact absurd (le_of_mem_downwards lower) (Nat.not_le_of_lt above)
  · intro a there under
    rcases (mem_downwards fits).mp (rest a there (Nat.le_trans under (Nat.sub_le _ _))) with
      rfl | ⟨-, lower⟩
    · unfold promClaimStep at under step_le
      omega
    · exact lower
  · intro more
    obtain ⟨-, i, there⟩ := place
    exact ⟨more, i + 1, by rw [Nat.succ_mul]; dsimp only; omega⟩

/-- The block that `prom_claim_chunk_top` returns is the highest free one among the addresses it
tries. The search ends, unless nothing is asked for. -/
theorem promClaimChunkTop_highest (granting : Granting fw) (log : Log) (some_ : 0 < size)
    (enough : 1024 < fuel) :
    Returns (promClaimChunkTop fw size fuel log)
      (Searched log size (downwards size promClaimMaxAddr) IsGreatest) := by
  refine spin_rule (Below log size) _ (fun steps s below => ?_) (Below.start log size) enough
  obtain ⟨addr, log'⟩ := s
  unfold promClaimChunkTopRound
  split
  · rename_i fits
    unfold claim
    dsimp only at fits ⊢
    cases answer : fw log' addr size with
    | some found =>
      obtain rfl := granting.there answer
      have free := (Free.congr below.same).mp (granting.free answer)
      refine .out ⟨fun base same => ?_, fun none => nomatch none⟩
      obtain rfl := Option.some.inj same
      refine ⟨⟨⟨below.member fits, free⟩, fun a member => ?_⟩, ?_⟩
      · by_contra above
        exact below.taken a member.1 (Nat.lt_of_not_le above) member.2
      · rw [held_append, below.same]
        rfl
    | none =>
      have refused : ¬ Free log ⟨addr, size⟩ := fun free =>
        granting.refuses answer ((Free.congr below.same).mpr free)
      obtain ⟨next, more⟩ := below.next some_ fits refused
      exact .again ⟨steps - 1, by omega, next⟩
  · rename_i short
    refine .out ⟨fun _ none => (nomatch none), fun _ => ⟨fun a place free => ?_, below.same⟩⟩
    by_cases above : addr < a
    · exact below.taken a place above free
    · exact short (Nat.le_trans place.1 (Nat.le_of_not_lt above))

/-- The heap of the loader. -/
theorem promClaimChunkTop_heap :
    Returns (promClaimChunkTop lending 0x100000 1025 [])
      (Searched [] 0x100000 (downwards 0x100000 promClaimMaxAddr) IsGreatest) :=
  promClaimChunkTop_highest lending_granting [] (by decide) (by decide)

/-- A search for nothing goes around the address space for as long as the firmware
refuses it. -/
theorem promClaimChunkTop_unending (refuses : ∀ log addr, fw log addr 0 = none) (fuel : Nat)
    (log : Log) : promClaimChunkTop fw 0 fuel log = none := by
  unfold promClaimChunkTop
  generalize promClaimMaxAddr = addr
  induction fuel generalizing addr log with
  | zero => rfl
  | succ fuel ih =>
    have round : promClaimChunkTopRound fw 0 (addr, log) =
        .again (sub32 addr promClaimStep, log ++ [.claim ⟨addr, 0⟩ none]) := by
      unfold promClaimChunkTopRound claim
      rw [if_pos (Nat.zero_le _)]
      dsimp only
      rw [refuses]
    rw [spin, round]
    exact ih _ _

end Yaboot.Elf.TextUi
