import Mathlib.Data.List.Basic
import Mathlib.Algebra.Order.Ring.Nat

/-! Block-wise compression of a message that arrives in pieces. The whole blocks of
what has arrived are compressed, the rest is pending; both depend on the message
only, not on the pieces. -/
namespace Yaboot.Streaming

variable {α σ : Type} {size : Nat} {compress : σ → List α → σ}

/-- The whole blocks of a message, compressed one after the other. -/
def absorb (size : Nat) (compress : σ → List α → σ) (h : σ) (m : List α) : σ :=
  (List.range (m.length / size)).foldl (fun h i => compress h ((m.drop (i * size)).take size)) h

/-- What is left of a message behind its whole blocks. -/
def pending (size : Nat) (m : List α) : List α := m.drop (m.length / size * size)

theorem absorb_short (h : σ) {m : List α} (short : m.length < size) :
    absorb size compress h m = h := by
  unfold absorb
  rw [Nat.div_eq_of_lt short]
  rfl

theorem pending_short {m : List α} (short : m.length < size) : pending size m = m := by
  unfold pending
  rw [Nat.div_eq_of_lt short, Nat.zero_mul, List.drop_zero]

theorem pending_length (size : Nat) (m : List α) : (pending size m).length = m.length % size := by
  unfold pending
  rw [List.length_drop, Nat.mod_eq_sub_div_mul]

/-- Whole blocks may be absorbed first, and the rest behind them. -/
theorem absorb_append (h : σ) {m : List α} (whole : m.length % size = 0) (rest : List α) :
    absorb size compress h (m ++ rest) =
      absorb size compress (absorb size compress h m) rest := by
  by_cases empty : size = 0
  · simp [absorb, empty]
  have pos : 0 < size := Nat.pos_of_ne_zero empty
  obtain ⟨blocks, length⟩ := Nat.dvd_of_mod_eq_zero whole
  have count : (m ++ rest).length / size = blocks + rest.length / size := by
    rw [List.length_append, length, Nat.mul_add_div pos]
  unfold absorb
  rw [count, List.range_add, List.foldl_append, length, Nat.mul_div_cancel_left _ pos,
    List.foldl_map]
  have front : ∀ i ∈ List.range blocks,
      ((m ++ rest).drop (i * size)).take size = (m.drop (i * size)).take size := by
    intro i inside
    have below : (i + 1) * size ≤ size * blocks := by
      rw [Nat.mul_comm size]
      exact Nat.mul_le_mul_right _ (List.mem_range.mp inside)
    rw [Nat.add_mul, Nat.one_mul] at below
    rw [List.drop_append_of_le_length (by omega), List.take_append_of_le_length]
    rw [List.length_drop]
    omega
  have behind : ∀ i, ((m ++ rest).drop ((blocks + i) * size)).take size =
      (rest.drop (i * size)).take size := by
    intro i
    rw [Nat.add_mul, Nat.mul_comm blocks, ← length, List.drop_append, List.drop_eq_nil_of_le (by omega),
      List.nil_append, Nat.add_sub_cancel_left]
  simp only [behind]
  congr 1
  exact List.foldl_ext _ _ _ fun h i inside => by rw [front i inside]

theorem pending_append {m : List α} (whole : m.length % size = 0) (rest : List α) :
    pending size (m ++ rest) = pending size rest := by
  by_cases empty : size = 0
  · subst empty
    simp only [Nat.mod_zero, List.length_eq_zero_iff] at whole
    rw [whole, List.nil_append]
  have pos : 0 < size := Nat.pos_of_ne_zero empty
  obtain ⟨blocks, length⟩ := Nat.dvd_of_mod_eq_zero whole
  unfold pending
  rw [List.length_append, length, Nat.mul_add_div pos, Nat.add_mul, Nat.mul_comm blocks, ← length,
    List.drop_append, List.drop_eq_nil_of_le (by omega), List.nil_append, Nat.add_sub_cancel_left]

theorem absorb_block (compress : σ → List α → σ) (h : σ) (pos : 0 < size) {block : List α}
    (whole : block.length = size) :
    absorb size compress h block = compress h block := by
  unfold absorb
  rw [whole, Nat.div_self pos]
  simp [← whole]

/-- The first block comes first. -/
theorem absorb_first (compress : σ → List α → σ) (h : σ) (pos : 0 < size) {block : List α}
    (whole : block.length = size) (rest : List α) :
    absorb size compress h (block ++ rest) = absorb size compress (compress h block) rest := by
  rw [absorb_append h (by rw [whole, Nat.mod_self]), absorb_block compress h pos whole]

/-- Every message consists of whole blocks and what is pending. -/
theorem whole_pending (size : Nat) (m : List α) :
    ∃ whole, m = whole ++ pending size m ∧ whole.length % size = 0 := by
  refine ⟨m.take (m.length / size * size), (List.take_append_drop ..).symm, ?_⟩
  rw [List.length_take, Nat.min_eq_left (Nat.div_mul_le_self ..), Nat.mul_mod_left]

/-- What has arrived so far decides how the next piece is absorbed. -/
theorem absorb_piece (size : Nat) (compress : σ → List α → σ) (h : σ) (m piece : List α) :
    absorb size compress h (m ++ piece) =
      absorb size compress (absorb size compress h m) (pending size m ++ piece) := by
  by_cases empty : size = 0
  · simp [absorb, empty]
  obtain ⟨whole, split, length⟩ := whole_pending size m
  have short : (pending size m).length < size := by
    rw [pending_length]
    exact Nat.mod_lt _ (Nat.pos_of_ne_zero empty)
  generalize pending size m = tail at split short
  subst split
  rw [List.append_assoc, absorb_append h length, absorb_append h length, absorb_short _ short]

theorem pending_piece (size : Nat) (m piece : List α) :
    pending size (m ++ piece) = pending size (pending size m ++ piece) := by
  obtain ⟨whole, split, length⟩ := whole_pending size m
  generalize pending size m = tail at split
  subst split
  rw [List.append_assoc, pending_append length]

end Yaboot.Streaming
