import Yaboot.Xfs.Extents

/-! The records of extents as the format packs them, and what `second/fs_xfs.c`
unpacks. -/
namespace Yaboot.Xfs
open Buffer Word

/-! ### The format -/

/-- What a record says of an extent, in fields as wide as those of the format. -/
structure Extent where
  flag : Bool
  startoff : Nat
  startoff_lt : startoff < 2 ^ 54
  startblock : Nat
  startblock_lt : startblock < 2 ^ 52
  blockcount : Nat
  blockcount_lt : blockcount < 2 ^ 21

/-- The 128 bits of the record. -/
def Extent.bits (e : Extent) : Nat :=
  e.flag.toNat * 2 ^ 127 + e.startoff * 2 ^ 73 + e.startblock * 2 ^ 21 + e.blockcount

/-- Its sixteen bytes, the most significant first. -/
def Extent.packed (e : Extent) : Bytes := fun i => UInt8.ofNat (e.bits / 256 ^ (15 - i))

/-! ### Words -/

variable {x y : Nat} {b : Bytes}

/-- Four bytes of a big-endian number are a word of it. -/
theorem be_digits (stored : ∀ i < 4, b (start + i) = UInt8.ofNat (x / 256 ^ (3 - i))) :
    be b start 4 = x % 2 ^ 32 := by
  have first := stored 0 (by omega)
  have second := stored 1 (by omega)
  have third := stored 2 (by omega)
  have last := stored 3 (by omega)
  simp only [be, Nat.add_zero] at first ⊢
  rw [first, second, third, last]
  simp only [UInt8.toNat_ofNat']
  omega

theorem and_mask32lo (small : k < 32) : x &&& mask32lo k = x % 2 ^ k := by
  have bound : 2 ^ k < 2 ^ 32 := Nat.pow_lt_pow_right (by decide) small
  unfold mask32lo
  rw [Nat.one_shiftLeft, u32_of_lt bound, Nat.and_two_pow_sub_one_eq_mod]

/-- Where the low bits are free, setting them is adding. -/
theorem shiftLeft_or (low : y < 2 ^ k) : x <<< k ||| y = x * 2 ^ k + y := by
  rw [Nat.shiftLeft_eq, Nat.mul_comm, Nat.two_pow_add_eq_or_of_lt low]

/-! ### Records -/

/-- The words of the record. -/
theorem recordAt_packed (e : Extent) (old : Bytes) (at_ : Nat) :
    recordAt (blit old at_ 16 e.packed) at_ =
      ⟨e.bits / 2 ^ 96 % 2 ^ 32, e.bits / 2 ^ 64 % 2 ^ 32, e.bits / 2 ^ 32 % 2 ^ 32,
        e.bits % 2 ^ 32⟩ := by
  have byte : ∀ j < 16, blit old at_ 16 e.packed (at_ + j) =
      UInt8.ofNat (e.bits / 256 ^ (15 - j)) := by
    intro j inside
    rw [blit_inside _ _ (by omega) (by omega), Nat.add_sub_cancel_left]
    rfl
  have word : ∀ k < 4, be (blit old at_ 16 e.packed) (at_ + 4 * k) 4 =
      e.bits / 256 ^ (12 - 4 * k) % 2 ^ 32 := by
    intro k inside
    refine be_digits fun i less => ?_
    rw [Nat.add_assoc, byte _ (by omega), Nat.div_div_eq_div_mul, ← Nat.pow_add]
    congr 3
    omega
  have first := word 0 (by omega)
  have second := word 1 (by omega)
  have third := word 2 (by omega)
  have last := word 3 (by omega)
  unfold recordAt
  rw [show be (blit old at_ 16 e.packed) at_ 4 = _ from first, second, third, last]
  simp

theorem xtOffset_eq (r : BmbtRec) (word : r.l1 < 2 ^ 32) :
    xtOffset r = r.l0 % 2 ^ 31 * 2 ^ 23 + r.l1 / 2 ^ 9 := by
  unfold xtOffset
  rw [and_mask32lo (by decide), Nat.shiftRight_eq_div_pow, shiftLeft_or (by omega)]

theorem xtStart_eq (r : BmbtRec) (second : r.l2 < 2 ^ 32) (third : r.l3 < 2 ^ 32) :
    xtStart r = r.l1 % 2 ^ 9 * 2 ^ 43 + r.l2 * 2 ^ 11 + r.l3 / 2 ^ 21 := by
  have low : r.l2 <<< 11 ||| r.l3 / 2 ^ 21 = r.l2 * 2 ^ 11 + r.l3 / 2 ^ 21 :=
    shiftLeft_or (by omega)
  unfold xtStart
  rw [and_mask32lo (by decide), Nat.shiftRight_eq_div_pow, Nat.or_assoc, low,
    shiftLeft_or (by omega), Nat.add_assoc]

theorem xtLen_eq (r : BmbtRec) : xtLen r = r.l3 % 2 ^ 21 := and_mask32lo (by decide)

/-- What the format of an extent record packs into its four words is what `xt_start`, `xt_offset`
and `xt_len` unpack, for every value of the fields and wherever the record lies. -/
theorem packed_unpacked (e : Extent) (old : Bytes) (at_ : Nat) :
    xtOffset (recordAt (blit old at_ 16 e.packed) at_) = e.startoff ∧
      xtStart (recordAt (blit old at_ 16 e.packed) at_) = e.startblock ∧
      xtLen (recordAt (blit old at_ 16 e.packed) at_) = e.blockcount := by
  have bits : e.bits =
      e.flag.toNat * 2 ^ 127 + e.startoff * 2 ^ 73 + e.startblock * 2 ^ 21 + e.blockcount := rfl
  have offset := e.startoff_lt
  have block := e.startblock_lt
  have count := e.blockcount_lt
  have flag := e.flag.toNat_le
  rw [recordAt_packed]
  refine ⟨?_, ?_, ?_⟩
  · rw [xtOffset_eq _ (Nat.mod_lt _ (by decide))]
    dsimp only
    omega
  · rw [xtStart_eq _ (Nat.mod_lt _ (by decide)) (Nat.mod_lt _ (by decide))]
    dsimp only
    omega
  · rw [xtLen_eq]
    dsimp only
    omega

end Yaboot.Xfs
