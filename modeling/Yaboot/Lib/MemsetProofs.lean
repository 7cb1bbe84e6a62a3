import Yaboot.Lib.StringsProofs

/-! `memset` stores a word, then the words of the aligned part, then single bytes. Wherever
these overlap they store the same, so that the range holds the byte and nothing else changes. -/
namespace Yaboot.Lib.Strings
open Buffer PowerPC Word

variable {mem : Bytes} {s t : State} {c : UInt8} {dst n a b k i x z : Nat}

/-! ### A byte in every place of a word -/

theorem testBit_mask {mb me : Nat} (order : mb ≤ me) (inside : me ≤ 31) :
    (mask mb me).testBit i = (decide (31 - me ≤ i) && decide (i < 32 - mb)) := by
  have low := Nat.two_pow_pos (31 - me)
  have small : 2 ^ (31 - me) - 1 < 2 ^ (32 - mb) := by
    have grows : 2 ^ (31 - me) ≤ 2 ^ (32 - mb) :=
      Nat.pow_le_pow_right (by decide) (by omega)
    omega
  have shape : mask mb me = 2 ^ (32 - mb) - (2 ^ (31 - me) - 1 + 1) := by
    rw [Nat.sub_add_cancel low, mask]
  rw [shape, Nat.testBit_two_pow_sub_succ small, Nat.testBit_two_pow_sub_one, ← decide_not,
    Bool.and_comm]
  simp only [Nat.not_lt]

theorem mask_lt (mb me : Nat) : mask mb me < 2 ^ 32 := by
  have high : 2 ^ (32 - mb) ≤ 2 ^ 32 := Nat.pow_le_pow_right (by decide) (Nat.sub_le 32 mb)
  have low := Nat.two_pow_pos (31 - me)
  unfold mask
  omega

theorem testBit_rotl {sh : Nat} (word : x < 2 ^ 32) (inside : i < 32) :
    (rotl x sh).testBit i = x.testBit (if i < sh then 32 - sh + i else i - sh) := by
  unfold rotl u32
  rw [Nat.testBit_or, Nat.testBit_mod_two_pow, Nat.testBit_shiftLeft, Nat.testBit_shiftRight]
  split
  case isTrue around => simp [inside, Nat.not_le.mpr around]
  case isFalse shifted =>
    have high : x.testBit (32 - sh + i) = false :=
      Nat.testBit_lt_two_pow (word.trans_le (Nat.pow_le_pow_right (by decide) (by omega)))
    simp [inside, Nat.le_of_not_lt shifted, high]

/-- The bits under the mask are those of the rotated word. -/
theorem testBit_rlwimi {d r : Reg} {sh mb me : Nat} (order : mb ≤ me) (last : me ≤ 31)
    (inside : i < 32) : ((rlwimi d r sh mb me s).reg d).testBit i =
      if 31 - me ≤ i ∧ i < 32 - mb
        then (s.reg r).testBit (if i < sh then 32 - sh + i else i - sh)
        else (s.reg d).testBit i := by
  have other : (2 ^ 32 - 1 - mask mb me).testBit i = !(mask mb me).testBit i := by
    rw [Nat.sub_sub, Nat.add_comm 1, Nat.testBit_two_pow_sub_succ (mask_lt mb me)]
    simp [inside]
  rw [rlwimi, State.set_reg, if_pos rfl, u32, Nat.testBit_mod_two_pow, Nat.testBit_or,
    Nat.testBit_and, Nat.testBit_and, other, testBit_mask order last,
    testBit_rotl (s.word r) inside]
  generalize (s.reg r).testBit _ = rotated
  by_cases above : 31 - me ≤ i
  · by_cases below : i < 32 - mb
    · simp only [inside, above, below, decide_true, and_self, if_true, Bool.and_true,
        Bool.not_true, Bool.and_false, Bool.or_false, Bool.true_and]
    · simp only [inside, below, decide_true, decide_false, and_false, if_false, Bool.and_false,
        Bool.not_false, Bool.and_true, Bool.false_or, Bool.true_and]
  · simp only [inside, above, decide_true, decide_false, false_and, if_false, Bool.and_false,
      Bool.false_and, Bool.not_false, Bool.and_true, Bool.false_or, Bool.true_and]

/-- Each byte of the word is the low byte of `x`. -/
def Spread (x z : Nat) : Prop := ∀ i < 32, z.testBit i = x.testBit (i % 8)

/-- Two rotations with insertion put the low byte of a register into all four. -/
theorem spread_word (s : State) : Spread (s.reg .r4)
    ((rlwimi .r4 .r4 16 0 15 (rlwimi .r4 .r4 8 16 23 s)).reg .r4) := by
  intro i inside
  rw [testBit_rlwimi (by decide) (by decide) inside]
  split
  case isTrue high =>
    rw [if_neg (by omega), testBit_rlwimi (by decide) (by decide) (by omega)]
    split
    case isTrue second =>
      rw [if_neg (by omega)]
      congr 1
      omega
    case isFalse first =>
      congr 1
      omega
  case isFalse low =>
    rw [testBit_rlwimi (by decide) (by decide) inside]
    split
    case isTrue second =>
      rw [if_neg (by omega)]
      congr 1
      omega
    case isFalse first =>
      congr 1
      omega

theorem Spread.byte (spread : Spread x z) (inside : k < 4) :
    UInt8.ofNat (z / 2 ^ (8 * k)) = UInt8.ofNat x := by
  apply UInt8.toNat_inj.mp
  rw [UInt8.toNat_ofNat', UInt8.toNat_ofNat']
  apply Nat.eq_of_testBit_eq
  intro i
  rw [Nat.testBit_mod_two_pow, Nat.testBit_mod_two_pow, Nat.testBit_div_two_pow]
  by_cases small : i < 8
  · rw [spread _ (by omega)]
    congr 2
    omega
  · simp [small]

theorem Spread.store32 (spread : Spread x z) (mem : Bytes) (at_ : Nat) :
    store32 mem at_ z = blit mem at_ 4 fun _ => UInt8.ofNat x := by
  have first := spread.byte (k := 3) (by decide)
  have second := spread.byte (k := 2) (by decide)
  have third := spread.byte (k := 1) (by decide)
  have last := spread.byte (k := 0) (by decide)
  refine blit_congr fun k inside => ?_
  match k with
  | 0 => exact first
  | 1 => exact second
  | 2 => exact third
  | 3 => simpa using last

/-! ### Filled memory -/

/-- The first `b` bytes at `dst` are `c`. -/
def filled (mem : Bytes) (dst : Nat) (c : UInt8) (b : Nat) : Bytes := blit mem dst b fun _ => c

theorem filled_store (le : a ≤ b) :
    (blit (filled mem dst c b) (dst + a) k fun _ => c) = filled mem dst c (max b (a + k)) := by
  funext i
  unfold filled blit
  split
  case isTrue new => rw [if_pos (by omega)]
  case isFalse old =>
    split
    case isTrue before => rw [if_pos (by omega)]
    case isFalse outside => rw [if_neg (by omega)]

/-- At least the first `b` of `n` bytes are filled, and `r6` stands `bias` bytes before the
next. -/
structure Filling (mem : Bytes) (dst : Nat) (c : UInt8) (n : Nat) (bias : Int) (b : Nat)
    (t : State) : Prop where
  target : t.reg .r6 = add32 (dst + b) (-bias)
  within : b ≤ n
  filled : ∃ e, b ≤ e ∧ e ≤ n ∧ t.mem = filled mem dst c e

namespace Filling
variable {bias : Int}

theorem stores (filling : Filling mem dst c n bias b t) (fits : dst + b < 2 ^ 32) :
    add32 (t.reg .r6) bias = dst + b := by
  rw [filling.target, add32_add32]
  exact add32_of_eq (by omega) fits

theorem done (filling : Filling mem dst c n bias n t) :
    t.mem = Strings.filled mem dst c n := by
  obtain ⟨e, above, below, kept⟩ := filling.filled
  rw [kept, Nat.le_antisymm below above]

theorem step (filling : Filling mem dst c n bias b t) (room : b + k ≤ n)
    (moved : s.reg .r6 = add32 (t.reg .r6) k)
    (stored : s.mem = blit t.mem (dst + b) k fun _ => c) :
    Filling mem dst c n bias (b + k) s := by
  obtain ⟨e, above, below, kept⟩ := filling.filled
  refine ⟨?_, room, max e (b + k), Nat.le_max_right _ _, Nat.max_le.mpr ⟨below, room⟩, ?_⟩
  · rw [moved, filling.target, add32_add32]
    exact add32_congr (by omega)
  · rw [stored, kept, filled_store above]

theorem countDown (filling : Filling mem dst c n bias b t) :
    Filling mem dst c n bias b t.countDown := by
  refine ⟨?_, filling.within, ?_⟩
  · rw [State.countDown_reg, filling.target]
  · rw [State.countDown_mem]
    exact filling.filled

theorem of_reg (filling : Filling mem dst c n bias b t) {bias' : Int}
    (target : s.reg .r6 = add32 (t.reg .r6) (bias - bias')) (same : s.mem = t.mem) :
    Filling mem dst c n bias' b s := by
  refine ⟨?_, filling.within, ?_⟩
  · rw [target, filling.target, add32_add32]
    exact add32_congr (by omega)
  · rw [same]
    exact filling.filled

end Filling

theorem memsetByte_line (s : State) : (memsetByte s).reg .r6 = add32 (s.reg .r6) 1 ∧
    (memsetByte s).reg .r4 = s.reg .r4 ∧ (memsetByte s).ctr = s.ctr ∧ (memsetByte s).mem =
      blit s.mem (add32 (s.reg .r6) 1) 1 fun _ => UInt8.ofNat (s.reg .r4) := by
  refine ⟨?_, ?_, ?_, ?_⟩ <;> simp [memsetByte, stbu, stb, State.address, State.base]

theorem memsetByte_step (fits : dst + n < 2 ^ 32) (filling : Filling mem dst c n 1 b s)
    (more : b < n) (byte : UInt8.ofNat (s.reg .r4) = c) :
    Filling mem dst c n 1 (b + 1) (memsetByte s) := by
  obtain ⟨moved, _, _, stored⟩ := memsetByte_line s
  rw [filling.stores (by omega), byte] at stored
  exact filling.step more moved stored

/-- The bytes behind the last word complete the fill. -/
theorem memset7_fills (fits : dst + n < 2 ^ 32) (filling : Filling mem dst c n 4 b s)
    (left : b + s.reg .r5 = n) (byte : UInt8.ofNat (s.reg .r4) = c) :
    (memset7 s).mem = filled mem dst c n := by
  rw [memset7]
  split
  case isTrue none =>
    rw [cmpwi_zero] at none
    obtain rfl : b = n := by omega
    rw [cmpwi, State.setCr0_mem]
    exact filling.done
  case isFalse some =>
    rw [cmpwi_zero] at some
    have word := s.word .r5
    have count : (addi .r6 .r6 3 (mtctr .r5 (cmpwi .r5 0 s))).ctr = s.reg .r5 := by
      simp [addi, mtctr, cmpwi]
    have start : Filling mem dst c n 1 b (addi .r6 .r6 3 (mtctr .r5 (cmpwi .r5 0 s))) :=
      filling.of_reg (by simp [addi, mtctr, cmpwi, State.address, State.base])
        (by simp [addi, mtctr, cmpwi])
    have byte : UInt8.ofNat ((addi .r6 .r6 3 (mtctr .r5 (cmpwi .r5 0 s))).reg .r4) = c := by
      simpa [addi, mtctr, cmpwi] using byte
    obtain ⟨b, sum, filling, _⟩ := bdnz_rule
      (fun left t => ∃ b, b + left = n ∧ Filling mem dst c n 1 b t ∧ UInt8.ofNat (t.reg .r4) = c)
      (fun s => (memsetByte_line s).2.2.1) (by omega) (by omega)
      (fun left t here => by
        obtain ⟨b, sum, filling, byte⟩ := here
        refine ⟨b + 1, by omega, ?_, ?_⟩
        · exact (memsetByte_step fits filling (by omega) byte).countDown
        · rw [State.countDown_reg, (memsetByte_line t).2.1, byte])
      ⟨b, by omega, start, byte⟩
    obtain rfl : b = n := by omega
    exact filling.done

theorem memset6_fills (fits : dst + n < 2 ^ 32) (filling : Filling mem dst c n 4 b s)
    (left : b + s.reg .r5 % 4 = n) (byte : UInt8.ofNat (s.reg .r4) = c) :
    (memset6 s).mem = filled mem dst c n := by
  have low (r : Reg) := andiDot_reg s .r5 .r5 r (show 3 + 1 = 2 ^ 2 from rfl)
  refine memset7_fills fits (filling.of_reg ?_ ?_) ?_ ?_
  · simp [low, filling.target, add32_add32]
  · simp
  · simpa [low] using left
  · simpa [low] using byte

theorem memsetWord_line (spread : Spread x (s.reg .r4)) :
    (memsetWord s).reg .r6 = add32 (s.reg .r6) 4 ∧ (memsetWord s).reg .r4 = s.reg .r4 ∧
    (memsetWord s).reg .r5 = s.reg .r5 ∧ (memsetWord s).cr0 = s.cr0 ∧
    (memsetWord s).mem = blit s.mem (add32 (s.reg .r6) 4) 4 fun _ => UInt8.ofNat x := by
  have stored := spread.store32 s.mem (add32 (s.reg .r6) 4)
  refine ⟨?_, ?_, ?_, ?_, ?_⟩ <;>
    simp [memsetWord, stwu, stw, State.address, State.base, stored]

theorem memsetWord_ctr (s : State) : (memsetWord s).ctr = s.ctr := by
  simp [memsetWord, stwu, stw]

theorem memsetWord_step (fits : dst + n < 2 ^ 32)
    (filling : Filling mem dst (UInt8.ofNat x) n 4 b s) (more : b + 4 ≤ n)
    (spread : Spread x (s.reg .r4)) :
    Filling mem dst (UInt8.ofNat x) n 4 (b + 4) (memsetWord s) := by
  obtain ⟨moved, _, _, _, stored⟩ := memsetWord_line spread
  rw [filling.stores (by omega)] at stored
  exact filling.step more moved stored

/-- The words of the aligned part. -/
theorem words_fill (fits : dst + n < 2 ^ 32) (filling : Filling mem dst (UInt8.ofNat x) n 4 b s)
    (left : b + 4 * s.ctr + s.reg .r5 % 4 = n) (word : s.ctr < 2 ^ 32) (some : 0 < s.ctr)
    (spread : Spread x (s.reg .r4)) :
    (memset6 (bdnz memsetWord s)).mem = filled mem dst (UInt8.ofNat x) n := by
  obtain ⟨b, sum, filling, length, spread⟩ := bdnz_rule
    (fun left t => ∃ b, b + 4 * left + s.reg .r5 % 4 = n ∧
      Filling mem dst (UInt8.ofNat x) n 4 b t ∧ t.reg .r5 = s.reg .r5 ∧ Spread x (t.reg .r4))
    memsetWord_ctr word some
    (fun left t here => by
      obtain ⟨b, sum, filling, length, spread⟩ := here
      obtain ⟨_, same, kept, _⟩ := memsetWord_line spread
      refine ⟨b + 4, by omega, (memsetWord_step fits filling (by omega) spread).countDown, ?_, ?_⟩
      · rw [State.countDown_reg, kept, length]
      · rw [State.countDown_reg, same]
        exact spread)
    ⟨b, left, filling, rfl, spread⟩
  refine memset6_fills fits filling ?_ ?_
  · rw [length]
    exact sum
  · simpa using spread.byte (k := 0) (by decide)

/-- What is set up for the aligned part, from a state behind the first word. -/
structure Aligned (s t : State) : Prop where
  target : t.reg .r6 = s.reg .r6 - s.reg .r6 % 4
  length : t.reg .r5 = s.reg .r6 % 4 + s.reg .r5
  byte : t.reg .r4 = s.reg .r4
  count : t.ctr = (s.reg .r6 % 4 + s.reg .r5) / 4 - 1
  mem : t.mem = s.mem

/-- Behind the first word the fill goes on by words from the boundary at or below its address. -/
theorem aligned (fits : s.reg .r6 + s.reg .r5 < 2 ^ 32) (some : 4 ≤ s.reg .r5) :
    Aligned s (State.countDown (mtctr .r0 (rlwinm .r0 .r5 (32 - 2) 2 31 (subf .r6 .r0 .r6
      (add .r5 .r0 .r5 (andiDot .r0 .r6 3 s)))))) := by
  have low (r : Reg) := andiDot_reg s .r0 .r6 r (show 3 + 1 = 2 ^ 2 from rfl)
  have back := Nat.mod_le (s.reg .r6) 4
  have sum : u32 (s.reg .r6 % 4 + s.reg .r5) = s.reg .r6 % 4 + s.reg .r5 := u32_of_lt (by omega)
  have down : u32 (sub32 (s.reg .r6) (s.reg .r6 % 4)) = s.reg .r6 - s.reg .r6 % 4 := by
    rw [sub32_of_le (s.word .r6) back, u32_of_lt (by omega)]
  have shift := rotl_mask (s.reg .r6 % 4 + s.reg .r5) (by omega) 2 (by decide)
  have quarter : u32 ((s.reg .r6 % 4 + s.reg .r5) / 4) = (s.reg .r6 % 4 + s.reg .r5) / 4 :=
    u32_of_lt (by omega)
  refine ⟨?_, ?_, ?_, ?_, ?_⟩
  · simp [mtctr, rlwinm, subf, add, low, down]
  · simp [mtctr, rlwinm, subf, add, low, sum]
  · simp [mtctr, rlwinm, subf, add, low]
  · simp [mtctr, rlwinm, subf, add, low, sum, shift, quarter]
    exact sub32_of_le (by omega) (by omega)
  · simp [mtctr, rlwinm, subf, add]

/-- Behind the first word, where there is more than one. -/
theorem aligned_fills {u : State} (fits : dst + n < 2 ^ 32) (more : 4 < n)
    (first : Filling mem dst (UInt8.ofNat x) n 4 4 s) (length : s.reg .r5 = n)
    (spread : Spread x (s.reg .r4)) (next : Aligned s u) :
    (if u.ctr = 0 then memset6 u else memset6 (bdnz memsetWord u)).mem =
      filled mem dst (UInt8.ofNat x) n := by
  have at_ : s.reg .r6 = dst := by
    rw [first.target]
    exact add32_of_eq (by omega) (by omega)
  obtain ⟨target, sum, byte, count, kept⟩ := next
  rw [at_] at target sum count
  rw [length] at sum count
  obtain ⟨e, above, below, stored⟩ := first.filled
  have filling : Filling mem dst (UInt8.ofNat x) n 4 (4 - dst % 4) u := by
    refine ⟨?_, by omega, e, by omega, below, kept.trans stored⟩
    rw [target]
    exact (add32_of_eq (by omega) (by omega)).symm
  have spread : Spread x (u.reg .r4) := byte ▸ spread
  split
  case isTrue few =>
    refine memset6_fills fits filling (by omega) ?_
    simpa using spread.byte (k := 0) (by decide)
  case isFalse words =>
    exact words_fill fits filling (by omega) (by omega) (Nat.pos_of_ne_zero words) spread

/-- `memset` fills its range, by bytes alone where it has no word in it. -/
theorem memset_filled (fits : s.reg .r3 + s.reg .r5 < 2 ^ 32) :
    (memset s).mem = filled s.mem (s.reg .r3) (UInt8.ofNat (s.reg .r4)) (s.reg .r5) := by
  rw [memset]
  have spread := spread_word s
  generalize enter : cmplwi .r5 4 (addi .r6 .r3 (-4) (rlwimi .r4 .r4 16 0 15
    (rlwimi .r4 .r4 8 16 23 s))) = t
  have same : t.mem = s.mem := by simp [← enter, cmplwi, addi, rlwimi]
  have length : t.reg .r5 = s.reg .r5 := by simp [← enter, cmplwi, addi, rlwimi]
  have spread : Spread (s.reg .r4) (t.reg .r4) := by
    rw [← enter]
    simpa [cmplwi, addi] using spread
  have start : Filling s.mem (s.reg .r3) (UInt8.ofNat (s.reg .r4)) (s.reg .r5) 4 0 t := by
    refine ⟨?_, Nat.zero_le _, 0, le_rfl, Nat.zero_le _, ?_⟩
    · simp [← enter, cmplwi, addi, rlwimi, State.address, State.base]
    · rw [same, filled, blit_zero]
  have few : t.cr0 = .lt ↔ s.reg .r5 < 4 := by
    rw [← enter, cmplwi_lt]
    simp [addi, rlwimi]
  have one : t.cr0 = .eq ↔ s.reg .r5 = 4 := by
    rw [← enter, cmplwi, State.setCr0_cr0, Nat.compare_eq_eq]
    simp [addi, rlwimi]
  dsimp only
  split
  case isTrue less =>
    refine memset7_fills fits start (by omega) ?_
    simpa using spread.byte (k := 0) (by decide)
  case isFalse enough =>
    rw [few] at enough
    obtain ⟨moved, kept, left, result, _⟩ := memsetWord_line spread
    have first := memsetWord_step fits start (by omega) spread
    rw [show stwu .r4 4 .r6 t = memsetWord t from rfl]
    generalize memsetWord t = u at *
    split
    case isTrue last =>
      rw [result, one] at last
      rw [last] at first ⊢
      exact first.done
    case isFalse more =>
      rw [result, one] at more
      rw [length] at left
      have word : u.reg .r6 = s.reg .r3 := by
        rw [first.target]
        exact add32_of_eq (by omega) (by omega)
      exact aligned_fills fits (by omega) first left (kept ▸ spread)
        (aligned (by rw [word, left]; exact fits) (by omega))

/-- `memset` fills its range with the low byte of the value, for every alignment and length, and its
overlapping stores of words and bytes touch nothing else. -/
theorem memset_fills (fits : s.reg .r3 + s.reg .r5 < 2 ^ 32) :
    (memset s).mem = blit s.mem (s.reg .r3) (s.reg .r5) fun _ => UInt8.ofNat (s.reg .r4) :=
  memset_filled fits

/-- Nine bytes from an address that is no multiple of four. -/
theorem twoWords_filled : (memset (called 18 46 9 twoWords)).mem = blit twoWords 18 9 fun _ => 46 :=
  memset_fills (s := called 18 46 9 twoWords) (by decide)

/-- `__bzero(mem + at, n)`. -/
theorem bzero_clears (fits : s.reg .r3 + s.reg .r4 < 2 ^ 32) :
    (bzero s).mem = blit s.mem (s.reg .r3) (s.reg .r4) fun _ => 0 := by
  have fills := memset_filled (s := li .r4 0 (mr .r5 .r4 s)) (by simpa [li, mr] using fits)
  have zero : u32 0 = 0 := rfl
  rw [bzero, fills, filled]
  simp [li, mr, zero]

end Yaboot.Lib.Strings
