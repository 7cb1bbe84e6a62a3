import Yaboot.Lib.Memmove

/-! `memmove` leaves the bytes that were at the source, whichever way the two ranges
overlap: no byte is loaded after one of another place was stored over it. -/
namespace Yaboot.Lib
open Buffer Word PowerPC

/-! ### Memory with a part moved -/

/-- The bytes from `a` up to `b` are moved from `src` to `dst`. -/
def moved (mem : Bytes) (dst src a b : Nat) : Bytes :=
  blit mem (dst + a) (b - a) fun k => mem (src + a + k)

section Moved
variable {mem : Bytes} {dst src a b c i : Nat}

theorem moved_none (mem : Bytes) (dst src a : Nat) : moved mem dst src a a = mem := by
  rw [moved, Nat.sub_self, blit_zero]

theorem moved_inside (above : a ≤ i) (below : i < b) :
    moved mem dst src a b (dst + i) = mem (src + i) := by
  rw [moved, blit_inside _ _ (by omega) (by omega)]
  congr 1
  omega

theorem moved_outside (outside : i < dst + a ∨ dst + b ≤ i) : moved mem dst src a b i = mem i := by
  by_cases order : a ≤ b
  · exact blit_outside _ _ (by omega)
  · exact blit_outside _ _ (by omega)

/-- The next bytes behind those moved. -/
theorem moved_up (order : a ≤ b) :
    blit (moved mem dst src a b) (dst + b) c (fun k => mem (src + b + k)) =
      moved mem dst src a (b + c) := by
  funext i
  by_cases old : i < dst + b
  · rw [blit_outside _ _ (.inl old)]
    by_cases before : i < dst + a
    · rw [moved_outside (.inl before), moved_outside (.inl before)]
    · obtain ⟨j, rfl⟩ := Nat.exists_eq_add_of_le (show dst ≤ i by omega)
      rw [moved_inside (by omega) (by omega), moved_inside (by omega) (by omega)]
  by_cases new : i < dst + b + c
  · obtain ⟨j, rfl⟩ := Nat.exists_eq_add_of_le (show dst ≤ i by omega)
    rw [blit_inside _ _ (by omega) new, moved_inside (by omega) (by omega)]
    congr 1
    omega
  · rw [blit_outside _ _ (by omega), moved_outside (by omega), moved_outside (by omega)]

/-- The bytes in front of those moved. -/
theorem moved_down (order : a + c ≤ b) :
    blit (moved mem dst src (a + c) b) (dst + a) c (fun k => mem (src + a + k)) =
      moved mem dst src a b := by
  funext i
  by_cases before : i < dst + a
  · rw [blit_outside _ _ (.inl before), moved_outside (by omega), moved_outside (by omega)]
  by_cases new : i < dst + a + c
  · obtain ⟨j, rfl⟩ := Nat.exists_eq_add_of_le (show dst ≤ i by omega)
    rw [blit_inside _ _ (by omega) new, moved_inside (by omega) (by omega)]
    congr 1
    omega
  rw [blit_outside _ _ (by omega)]
  by_cases old : i < dst + b
  · obtain ⟨j, rfl⟩ := Nat.exists_eq_add_of_le (show dst ≤ i by omega)
    rw [moved_inside (by omega) (by omega), moved_inside (by omega) (by omega)]
  · rw [moved_outside (by omega), moved_outside (by omega)]

theorem moved_up_word (order : a ≤ b) :
    store32 (moved mem dst src a b) (dst + b) (word32 mem (src + b)) =
      moved mem dst src a (b + 4) := by
  rw [store32_word32, moved_up order]

theorem moved_down_word (order : a + 4 ≤ b) :
    store32 (moved mem dst src (a + 4) b) (dst + a) (word32 mem (src + a)) =
      moved mem dst src a b := by
  rw [store32_word32, moved_down order]

theorem moved_up_byte (order : a ≤ b) :
    (blit (moved mem dst src a b) (dst + b) 1 fun _ => mem (src + b)) =
      moved mem dst src a (b + 1) := by
  rw [← moved_up order]
  exact blit_congr fun k below => by rw [Nat.lt_one_iff.mp below, Nat.add_zero]

theorem moved_down_byte (order : a + 1 ≤ b) :
    (blit (moved mem dst src (a + 1) b) (dst + a) 1 fun _ => mem (src + a)) =
      moved mem dst src a b := by
  rw [← moved_down order]
  exact blit_congr fun k below => by rw [Nat.lt_one_iff.mp below, Nat.add_zero]

end Moved

/-! ### Rounds -/

/-- Both pointers go on by `d`, and memory is `m` afterwards. -/
structure Advanced (d : Int) (m : Bytes) (s s' : State) : Prop where
  source : s'.reg .r4 = add32 (s.reg .r4) d
  target : s'.reg .r6 = add32 (s.reg .r6) d
  mem : s'.mem = m

theorem forwardWords_advanced (s : State) :
    Advanced 8 (store32 (store32 s.mem (add32 (s.reg .r6) 4) (word32 s.mem (add32 (s.reg .r4) 4)))
      (add32 (s.reg .r6) 8) (word32 s.mem (add32 (s.reg .r4) 8))) s (forwardWords s) := by
  constructor <;> simp [forwardWords, lwz, lwzu, stw, stwu, State.address, State.base]

theorem forwardAlign_advanced (s : State) :
    Advanced 1 (blit s.mem (add32 (s.reg .r6) 4) 1 fun _ => s.mem (add32 (s.reg .r4) 4)) s
      (forwardAlign s) := by
  constructor <;> simp [forwardAlign, lbz, stb, addi, State.address, State.base]

theorem forwardByte_advanced (s : State) :
    Advanced 1 (blit s.mem (add32 (s.reg .r6) 1) 1 fun _ => s.mem (add32 (s.reg .r4) 1)) s
      (forwardByte s) := by
  constructor <;> simp [forwardByte, lbz, lbzu, stb, stbu, State.address, State.base]

theorem backwardsWords_advanced (s : State) :
    Advanced (-8)
      (store32 (store32 s.mem (add32 (s.reg .r6) (-4)) (word32 s.mem (add32 (s.reg .r4) (-4))))
        (add32 (s.reg .r6) (-8)) (word32 s.mem (add32 (s.reg .r4) (-8)))) s (backwardsWords s) := by
  constructor <;> simp [backwardsWords, lwz, lwzu, stw, stwu, State.address, State.base]

theorem backwardsAlign_advanced (s : State) :
    Advanced (-1) (blit s.mem (add32 (s.reg .r6) (-1)) 1 fun _ => s.mem (add32 (s.reg .r4) (-1))) s
      (backwardsAlign s) := by
  constructor <;> simp [backwardsAlign, lbz, lbzu, stb, stbu, State.address, State.base]

theorem backwardsByte_advanced (s : State) :
    Advanced (-1) (blit s.mem (add32 (s.reg .r6) (-1)) 1 fun _ => s.mem (add32 (s.reg .r4) (-1))) s
      (backwardsByte s) := by
  constructor <;> simp [backwardsByte, lbz, lbzu, stb, stbu, State.address, State.base]

theorem forwardWords_keeps (s : State) :
    (forwardWords s).ctr = s.ctr ∧ (forwardWords s).reg .r5 = s.reg .r5 := by
  simp [forwardWords, lwz, lwzu, stw, stwu]

theorem forwardAlign_keeps (s : State) : (forwardAlign s).ctr = s.ctr ∧
    (forwardAlign s).reg .r5 = s.reg .r5 ∧ (forwardAlign s).reg .r0 = s.reg .r0 := by
  simp [forwardAlign, lbz, stb, addi]

theorem forwardByte_keeps (s : State) : (forwardByte s).ctr = s.ctr := by
  simp [forwardByte, lbz, lbzu, stb, stbu]

theorem backwardsWords_keeps (s : State) :
    (backwardsWords s).ctr = s.ctr ∧ (backwardsWords s).reg .r5 = s.reg .r5 := by
  simp [backwardsWords, lwz, lwzu, stw, stwu]

theorem backwardsAlign_keeps (s : State) : (backwardsAlign s).ctr = s.ctr ∧
    (backwardsAlign s).reg .r5 = s.reg .r5 ∧ (backwardsAlign s).reg .r0 = s.reg .r0 := by
  simp [backwardsAlign, lbz, lbzu, stb, stbu]

theorem backwardsByte_keeps (s : State) : (backwardsByte s).ctr = s.ctr := by
  simp [backwardsByte, lbz, lbzu, stb, stbu]

/-! ### Forwards -/

/-- The first `b` bytes are moved, and the pointers stand `bias` bytes before the next. -/
structure Forward (mem : Bytes) (dst src : Nat) (bias : Int) (b : Nat) (s : State) : Prop where
  source : s.reg .r4 = add32 (src + b) (-bias)
  target : s.reg .r6 = add32 (dst + b) (-bias)
  mem : s.mem = moved mem dst src 0 b

section Forward
variable {mem : Bytes} {dst src n b k : Nat} {bias disp : Int} {s : State}

namespace Forward

theorem loads (at_ : Forward mem dst src bias b s) (sum : disp = bias + k)
    (fits : src + b + k < 2 ^ 32) : add32 (s.reg .r4) disp = src + b + k := by
  rw [at_.source, add32_add32]
  exact add32_of_eq (by omega) fits

theorem stores (at_ : Forward mem dst src bias b s) (sum : disp = bias + k)
    (fits : dst + b + k < 2 ^ 32) : add32 (s.reg .r6) disp = dst + b + k := by
  rw [at_.target, add32_add32]
  exact add32_of_eq (by omega) fits

/-- What is loaded at or above the next byte is as it was. -/
theorem byte (at_ : Forward mem dst src bias b s) (order : dst ≤ src) :
    s.mem (src + b) = mem (src + b) := by
  rw [at_.mem, moved_outside (by omega)]

theorem word (at_ : Forward mem dst src bias b s) (order : dst ≤ src) (k : Nat) :
    word32 s.mem (src + b + k) = word32 mem (src + b + k) := by
  refine word32_congr fun i above _ => ?_
  rw [at_.mem, moved_outside (by omega)]

theorem advance {s' : State} {d : Int} {m : Bytes} (at_ : Forward mem dst src bias b s)
    (next : Advanced d m s s') (by_ : d = k) (stored : m = moved mem dst src 0 (b + k)) :
    Forward mem dst src bias (b + k) s' := by
  have pointer (n : Nat) : add32 (add32 (n + b) (-bias)) d = add32 (n + (b + k)) (-bias) := by
    rw [add32_add32]
    exact add32_congr (by omega)
  exact ⟨by rw [next.source, at_.source, pointer], by rw [next.target, at_.target, pointer],
    next.mem.trans stored⟩

theorem of_reg {s' : State} (at_ : Forward mem dst src bias b s)
    (source : s'.reg .r4 = s.reg .r4) (target : s'.reg .r6 = s.reg .r6) (same : s'.mem = s.mem) :
    Forward mem dst src bias b s' :=
  ⟨source.trans at_.source, target.trans at_.target, same.trans at_.mem⟩

theorem countDown (at_ : Forward mem dst src bias b s) :
    Forward mem dst src bias b s.countDown := at_.of_reg (by simp) (by simp) (by simp)

end Forward

theorem forwardWords_step (order : dst ≤ src) (fits : src + b + 8 ≤ 2 ^ 32)
    (at_ : Forward mem dst src 4 b s) : Forward mem dst src 4 (b + 8) (forwardWords s) := by
  refine at_.advance (forwardWords_advanced s) rfl ?_
  rw [at_.loads (k := 0) (by rfl) (by omega), at_.loads (k := 4) (by rfl) (by omega),
    at_.stores (k := 0) (by rfl) (by omega), at_.stores (k := 4) (by rfl) (by omega),
    at_.word order, at_.word order, at_.mem, Nat.add_zero, Nat.add_zero,
    moved_up_word (Nat.zero_le b), Nat.add_assoc, Nat.add_assoc, moved_up_word (Nat.zero_le _)]

theorem forwardAlign_step (order : dst ≤ src) (fits : src + b + 1 ≤ 2 ^ 32)
    (at_ : Forward mem dst src 4 b s) : Forward mem dst src 4 (b + 1) (forwardAlign s) := by
  refine at_.advance (forwardAlign_advanced s) rfl ?_
  rw [at_.loads (k := 0) (by rfl) (by omega), at_.stores (k := 0) (by rfl) (by omega),
    Nat.add_zero, Nat.add_zero, at_.byte order, at_.mem, moved_up_byte (Nat.zero_le b)]

theorem forwardByte_step (order : dst ≤ src) (fits : src + b + 1 ≤ 2 ^ 32)
    (at_ : Forward mem dst src 1 b s) : Forward mem dst src 1 (b + 1) (forwardByte s) := by
  refine at_.advance (forwardByte_advanced s) rfl ?_
  rw [at_.loads (k := 0) (by rfl) (by omega), at_.stores (k := 0) (by rfl) (by omega),
    Nat.add_zero, Nat.add_zero, at_.byte order, at_.mem, moved_up_byte (Nat.zero_le b)]

/-- The tail, byte by byte. -/
theorem memcpy3_moved (order : dst ≤ src) (fits : src + n ≤ 2 ^ 32)
    (at_ : Forward mem dst src 4 b s) (left : b + s.reg .r5 = n) :
    (memcpy3 s).mem = moved mem dst src 0 n := by
  rw [memcpy3]
  split
  case isTrue done =>
    rw [cmpwi_zero] at done
    rw [cmpwi, State.setCr0_mem, at_.mem, ← left, done, Nat.add_zero]
  case isFalse more =>
    rw [cmpwi_zero] at more
    have start : Forward mem dst src 1 b
        (addi .r6 .r6 3 (addi .r4 .r4 3 (mtctr .r5 (cmpwi .r5 0 s)))) := by
      refine ⟨?_, ?_, ?_⟩
      · simp [addi, mtctr, cmpwi, State.address, State.base, at_.source, add32_add32]
      · simp [addi, mtctr, cmpwi, State.address, State.base, at_.target, add32_add32]
      · simp [addi, mtctr, cmpwi, at_.mem]
    have word := s.word .r5
    have count : (addi .r6 .r6 3 (addi .r4 .r4 3 (mtctr .r5 (cmpwi .r5 0 s)))).ctr = s.reg .r5 := by
      simp [addi, mtctr, cmpwi]
    obtain ⟨b, done, at_⟩ := bdnz_rule
      (fun left s => ∃ b, b + left = n ∧ Forward mem dst src 1 b s) forwardByte_keeps
      (by omega) (by omega)
      (fun left s here => by
        obtain ⟨b, done, at_⟩ := here
        exact ⟨b + 1, by omega, (forwardByte_step order (by omega) at_).countDown⟩)
      ⟨b, by omega, start⟩
    rw [at_.mem, ← done, Nat.add_zero]

/-- What is left of a copy forwards, words and then bytes, completes it. -/
theorem memcpy2_moved (order : dst ≤ src) (fits : src + n ≤ 2 ^ 32)
    (at_ : Forward mem dst src 4 b s) (left : b + s.reg .r5 = n) :
    (memcpy2 s).mem = moved mem dst src 0 n := by
  rw [memcpy2]
  split
  case isTrue few =>
    exact memcpy3_moved order fits (at_.of_reg rfl rfl rfl) left
  case isFalse more =>
    rw [cmplwi_lt] at more
    have word := s.word .r5
    have next : Advanced 4
        (store32 s.mem (add32 (s.reg .r6) 4) (word32 s.mem (add32 (s.reg .r4) 4)))
        s (stwu .r0 4 .r6 (addi .r5 .r5 (-4) (lwzu .r0 4 .r4 (cmplwi .r5 4 s)))) := by
      constructor <;> simp [addi, cmplwi, lwz, lwzu, stw, stwu, State.address, State.base]
    have length : (stwu .r0 4 .r6 (addi .r5 .r5 (-4) (lwzu .r0 4 .r4 (cmplwi .r5 4 s)))).reg .r5 =
        add32 (s.reg .r5) (-4) := by
      simp [addi, cmplwi, lwz, lwzu, stw, stwu, State.address, State.base]
    refine memcpy3_moved order fits (at_.advance (k := 4) next rfl ?_) ?_
    · rw [at_.loads (k := 0) (by rfl) (by omega), at_.stores (k := 0) (by rfl) (by omega),
        at_.word order, at_.mem, Nat.add_zero, Nat.add_zero, moved_up_word (Nat.zero_le b)]
    · rw [length, add32_of_eq (m := s.reg .r5 - 4) (by omega) (by omega)]
      omega

/-- The loop over eight bytes copies forwards as far as eight are left, and the rest completes it.
-/
theorem memcpy1_moved (order : dst ≤ src) (fits : src + n ≤ 2 ^ 32)
    (at_ : Forward mem dst src 4 b s) (left : b + s.reg .r5 = n) (count : s.ctr = s.reg .r5 / 8)
    (some : 8 ≤ s.reg .r5) : (memcpy1 s).mem = moved mem dst src 0 n := by
  have word := s.word .r5
  obtain ⟨b, done, at_, same⟩ := bdnz_rule
    (fun left t => ∃ b, b + 8 * left + s.reg .r5 % 8 = n ∧ Forward mem dst src 4 b t ∧
      t.reg .r5 = s.reg .r5)
    (fun s => (forwardWords_keeps s).1) (by omega) (by omega)
    (fun left t here => by
      obtain ⟨b, done, at_, same⟩ := here
      refine ⟨b + 8, by omega, (forwardWords_step order (by omega) at_).countDown, ?_⟩
      rw [State.countDown_reg, (forwardWords_keeps t).2, same])
    ⟨b, by omega, at_, rfl⟩
  rw [memcpy1]
  generalize bdnz forwardWords s = t at at_ same ⊢
  have low (r : Reg) := andiDot_reg t .r5 .r5 r (show 7 + 1 = 2 ^ 3 from rfl)
  refine memcpy2_moved order fits (at_.of_reg ?_ ?_ ?_) ?_
  · simp [low]
  · simp [low]
  · simp
  · rw [low, if_pos rfl, same]
    exact done

/-- The first bytes one by one, up to a word of the target. -/
theorem memcpy5_moved (order : dst ≤ src) (fits : src + n ≤ 2 ^ 32)
    (at_ : Forward mem dst src 4 0 s) (left : s.reg .r5 = n) (odd : 0 < s.reg .r0)
    (small : s.reg .r0 < 4) (some : 8 ≤ n) : (memcpy5 s).mem = moved mem dst src 0 n := by
  have count : u32 (sub32 4 (s.reg .r0)) = 4 - s.reg .r0 := by
    rw [sub32_of_le (by omega) (by omega), u32_of_lt (by omega)]
  have word := s.word .r5
  rw [memcpy5]
  generalize enter : mtctr .r0 (subfic .r0 .r0 4 s) = t
  have start : Forward mem dst src 4 0 t := by
    rw [← enter]
    exact at_.of_reg (by simp [mtctr, subfic]) (by simp [mtctr, subfic]) (by simp [mtctr, subfic])
  have first : t.reg .r0 = 4 - s.reg .r0 := by simp [← enter, mtctr, subfic, count]
  have rounds : t.ctr = 4 - s.reg .r0 := by simp [← enter, mtctr, subfic, count]
  have length : t.reg .r5 = n := by simpa [← enter, mtctr, subfic] using left
  obtain ⟨b, done, at_, length, first⟩ := bdnz_rule
    (fun left t => ∃ b, b + left = 4 - s.reg .r0 ∧ Forward mem dst src 4 b t ∧
      t.reg .r5 = n ∧ t.reg .r0 = 4 - s.reg .r0)
    (fun s => (forwardAlign_keeps s).1) (by omega) (by omega)
    (fun left t here => by
      obtain ⟨b, done, at_, length, first⟩ := here
      refine ⟨b + 1, by omega, (forwardAlign_step order (by omega) at_).countDown, ?_, ?_⟩
      · rw [State.countDown_reg, (forwardAlign_keeps t).2.1, length]
      · rw [State.countDown_reg, (forwardAlign_keeps t).2.2, first])
    ⟨0, by omega, start, length, first⟩
  generalize bdnz forwardAlign t = u at at_ length first ⊢
  generalize less : subf .r5 .r0 .r5 u = v
  have at_ : Forward mem dst src 4 b v := by
    rw [← less]
    exact at_.of_reg (by simp [subf]) (by simp [subf]) (by simp [subf])
  have left : b + v.reg .r5 = n := by
    have rest : u32 (sub32 n (4 - s.reg .r0)) = n - (4 - s.reg .r0) := by
      rw [sub32_of_le (by omega) (by omega), u32_of_lt (by omega)]
    simp only [← less, subf, State.set_reg, if_true, length, first, rest]
    omega
  have shift (r : Reg) := rlwinmDot_reg v .r7 .r5 r (show 3 ≤ 32 by decide)
  have at_ : Forward mem dst src 4 b (rlwinmDot .r7 .r5 (32 - 3) 3 31 v) :=
    at_.of_reg (by simp [shift]) (by simp [shift]) (by simp)
  split
  case isTrue few =>
    refine memcpy2_moved order fits at_ ?_
    simpa [shift] using left
  case isFalse more =>
    rw [rlwinmDot_eq v .r7 .r5 (show 3 ≤ 32 by decide)] at more
    refine memcpy1_moved order fits (at_.of_reg (by simp [mtctr]) (by simp [mtctr])
      (by simp [mtctr])) ?_ ?_ ?_
    · simpa [mtctr, shift] using left
    · simp [mtctr, shift]
    · simp [mtctr, shift]
      omega

/-- `memcpy` copies forwards whatever the alignments, the target being in front of the source. -/
theorem memcpy_moved (order : s.reg .r3 ≤ s.reg .r4) (fits : s.reg .r4 + s.reg .r5 ≤ 2 ^ 32) :
    (memcpy s).mem = moved s.mem (s.reg .r3) (s.reg .r4) 0 (s.reg .r5) := by
  rw [memcpy]
  have shift (r : Reg) := rlwinmDot_reg s .r7 .r5 r (show 3 ≤ 32 by decide)
  generalize enter : addi .r4 .r4 (-4) (addi .r6 .r3 (-4) (rlwinmDot .r7 .r5 (32 - 3) 3 31 s)) = t
  have at_ : Forward s.mem (s.reg .r3) (s.reg .r4) 4 0 t := by
    refine ⟨?_, ?_, ?_⟩
    · simp [← enter, addi, State.address, State.base, shift]
    · simp [← enter, addi, State.address, State.base, shift]
    · simp [← enter, addi, moved_none]
  have length : t.reg .r5 = s.reg .r5 := by simp [← enter, addi, shift]
  have count : t.reg .r7 = s.reg .r5 / 8 := by simp [← enter, addi, shift]
  have empty : t.cr0 = .eq ↔ s.reg .r5 / 8 = 0 := by
    refine Iff.trans ?_ (rlwinmDot_eq s .r7 .r5 (show 3 ≤ 32 by decide))
    simp [← enter, addi]
  split
  case isTrue few => exact memcpy2_moved order fits at_ ((Nat.zero_add _).trans length)
  case isFalse more =>
    rw [empty] at more
    have low (r : Reg) := andiDot_reg t .r0 .r6 r (show 3 + 1 = 2 ^ 2 from rfl)
    have at_ : Forward s.mem (s.reg .r3) (s.reg .r4) 4 0 (mtctr .r7 (andiDot .r0 .r6 3 t)) :=
      at_.of_reg (by simp [mtctr, low]) (by simp [mtctr, low]) (by simp [mtctr])
    have length : (mtctr .r7 (andiDot .r0 .r6 3 t)).reg .r5 = s.reg .r5 := by
      simp [mtctr, low, length]
    dsimp only
    split
    case isTrue odd =>
      rw [mtctr, State.setCtr_cr0, ne_eq, andiDot_eq t .r0 .r6 (show 3 + 1 = 2 ^ 2 from rfl)] at odd
      refine memcpy5_moved order fits at_ length ?_ ?_ (by omega)
      · simpa [mtctr, low] using Nat.pos_of_ne_zero odd
      · simpa [mtctr, low] using Nat.mod_lt _ (by decide)
    case isFalse even =>
      refine memcpy1_moved order fits at_ ((Nat.zero_add _).trans length) ?_ (by omega)
      rw [length]
      simp [mtctr, low, count]

end Forward

/-! ### Backwards -/

/-- The bytes from `b` on are moved, and the pointers stand behind those before. -/
structure Backward (mem : Bytes) (dst src n b : Nat) (s : State) : Prop where
  source : s.reg .r4 = add32 (src + b) 0
  target : s.reg .r6 = add32 (dst + b) 0
  mem : s.mem = moved mem dst src b n
  within : b ≤ n

section Backward
variable {mem : Bytes} {dst src n b k : Nat} {disp : Int} {s : State}

namespace Backward

theorem loads (at_ : Backward mem dst src n (b + k) s) (sum : disp = -k)
    (fits : src + b < 2 ^ 32) : add32 (s.reg .r4) disp = src + b := by
  rw [at_.source, add32_add32]
  exact add32_of_eq (by omega) fits

theorem stores (at_ : Backward mem dst src n (b + k) s) (sum : disp = -k)
    (fits : dst + b < 2 ^ 32) : add32 (s.reg .r6) disp = dst + b := by
  rw [at_.target, add32_add32]
  exact add32_of_eq (by omega) fits

theorem byte (at_ : Backward mem dst src n (b + 1) s) (order : src ≤ dst) :
    s.mem (src + b) = mem (src + b) := by
  rw [at_.mem, moved_outside (by omega)]

theorem word (at_ : Backward mem dst src n (b + k) s) (order : src ≤ dst) (room : 4 ≤ k) :
    word32 s.mem (src + b) = word32 mem (src + b) := by
  refine word32_congr fun i _ below => ?_
  rw [at_.mem, moved_outside (by omega)]

theorem advance {s' : State} {d : Int} {m : Bytes} (at_ : Backward mem dst src n (b + k) s)
    (next : Advanced d m s s') (by_ : d = -k) (stored : m = moved mem dst src b n) :
    Backward mem dst src n b s' := by
  have pointer (n : Nat) : add32 (add32 (n + (b + k)) 0) d = add32 (n + b) 0 := by
    rw [add32_add32]
    exact add32_congr (by omega)
  exact ⟨by rw [next.source, at_.source, pointer], by rw [next.target, at_.target, pointer],
    next.mem.trans stored, (Nat.le_add_right b k).trans at_.within⟩

theorem of_reg {s' : State} (at_ : Backward mem dst src n b s)
    (source : s'.reg .r4 = s.reg .r4) (target : s'.reg .r6 = s.reg .r6) (same : s'.mem = s.mem) :
    Backward mem dst src n b s' :=
  ⟨source.trans at_.source, target.trans at_.target, same.trans at_.mem, at_.within⟩

theorem countDown (at_ : Backward mem dst src n b s) : Backward mem dst src n b s.countDown :=
  at_.of_reg (by simp) (by simp) (by simp)

end Backward

theorem backwardsWords_step (order : src ≤ dst) (fits : dst + n ≤ 2 ^ 32)
    (at_ : Backward mem dst src n (b + 8) s) : Backward mem dst src n b (backwardsWords s) := by
  have within := at_.within
  have near : Backward mem dst src n (b + 4 + 4) s := at_
  refine at_.advance (backwardsWords_advanced s) rfl ?_
  rw [near.loads (by rfl) (by omega), at_.loads (by rfl) (by omega),
    near.stores (by rfl) (by omega), at_.stores (by rfl) (by omega),
    near.word order (by decide), at_.word order (by decide), near.mem,
    moved_down_word (by omega), moved_down_word (by omega)]

theorem backwardsAlign_step (order : src ≤ dst) (fits : dst + n ≤ 2 ^ 32)
    (at_ : Backward mem dst src n (b + 1) s) : Backward mem dst src n b (backwardsAlign s) := by
  have within := at_.within
  refine at_.advance (backwardsAlign_advanced s) rfl ?_
  rw [at_.loads (by rfl) (by omega), at_.stores (by rfl) (by omega), at_.byte order, at_.mem,
    moved_down_byte within]

theorem backwardsByte_step (order : src ≤ dst) (fits : dst + n ≤ 2 ^ 32)
    (at_ : Backward mem dst src n (b + 1) s) : Backward mem dst src n b (backwardsByte s) := by
  have within := at_.within
  refine at_.advance (backwardsByte_advanced s) rfl ?_
  rw [at_.loads (by rfl) (by omega), at_.stores (by rfl) (by omega), at_.byte order, at_.mem,
    moved_down_byte within]

/-- The last bytes of a copy backwards complete it. -/
theorem backwardsMemcpy3_moved (order : src ≤ dst) (fits : dst + n ≤ 2 ^ 32)
    (at_ : Backward mem dst src n b s) (left : s.reg .r5 = b) :
    (backwardsMemcpy3 s).mem = moved mem dst src 0 n := by
  rw [backwardsMemcpy3]
  split
  case isTrue done =>
    rw [cmpwi_zero, left] at done
    rw [cmpwi, State.setCr0_mem, at_.mem, done]
  case isFalse more =>
    rw [cmpwi_zero] at more
    have start : Backward mem dst src n b (mtctr .r5 (cmpwi .r5 0 s)) :=
      at_.of_reg (by simp [mtctr, cmpwi]) (by simp [mtctr, cmpwi]) (by simp [mtctr, cmpwi])
    have word := s.word .r5
    have count : (mtctr .r5 (cmpwi .r5 0 s)).ctr = b := by simp [mtctr, cmpwi, left]
    have finished := bdnz_rule (s := mtctr .r5 (cmpwi .r5 0 s)) (Backward mem dst src n)
      backwardsByte_keeps (by omega) (by omega)
      (fun left s at_ => (backwardsByte_step order fits at_).countDown) (by rwa [count])
    exact finished.mem

/-- What is left of a copy backwards, a word and then bytes, completes it. -/
theorem backwardsMemcpy2_moved (order : src ≤ dst) (fits : dst + n ≤ 2 ^ 32)
    (at_ : Backward mem dst src n b s) (left : s.reg .r5 = b) :
    (backwardsMemcpy2 s).mem = moved mem dst src 0 n := by
  rw [backwardsMemcpy2]
  split
  case isTrue few =>
    refine backwardsMemcpy3_moved order fits (at_.of_reg ?_ ?_ ?_) ?_
    · simp [cmplwi]
    · simp [cmplwi]
    · simp [cmplwi]
    · simpa [cmplwi] using left
  case isFalse more =>
    rw [cmplwi_lt] at more
    obtain ⟨rest, rfl⟩ := Nat.exists_eq_add_of_le' (show 4 ≤ b by omega)
    have within := at_.within
    have word := s.word .r5
    have next : Advanced (-4)
        (store32 s.mem (add32 (s.reg .r6) (-4)) (word32 s.mem (add32 (s.reg .r4) (-4))))
        s (stwu .r0 (-4) .r6 (subi .r5 .r5 4 (lwzu .r0 (-4) .r4 (cmplwi .r5 4 s)))) := by
      constructor <;> simp [subi, addi, cmplwi, lwz, lwzu, stw, stwu, State.address, State.base]
    have length :
        (stwu .r0 (-4) .r6 (subi .r5 .r5 4 (lwzu .r0 (-4) .r4 (cmplwi .r5 4 s)))).reg .r5 =
          add32 (s.reg .r5) (-4) := by
      simp [subi, addi, cmplwi, lwz, lwzu, stw, stwu, State.address, State.base]
    refine backwardsMemcpy3_moved order fits (at_.advance next rfl ?_) ?_
    · rw [at_.loads (by rfl) (by omega), at_.stores (by rfl) (by omega),
        at_.word order (by decide), at_.mem, moved_down_word within]
    · rw [length]
      exact add32_of_eq (by omega) (by omega)

/-- The loop over eight bytes copies backwards as far as eight are left, and the rest completes
it. -/
theorem backwardsMemcpy1_moved (order : src ≤ dst) (fits : dst + n ≤ 2 ^ 32)
    (at_ : Backward mem dst src n b s) (left : s.reg .r5 = b) (count : s.ctr = b / 8)
    (some : 8 ≤ b) : (backwardsMemcpy1 s).mem = moved mem dst src 0 n := by
  have word := s.word .r5
  have whole : 8 * (b / 8) + b % 8 = b := Nat.div_add_mod b 8
  obtain ⟨at_, same⟩ := bdnz_rule (s := s)
    (fun left t => Backward mem dst src n (8 * left + b % 8) t ∧ t.reg .r5 = b)
    (fun s => (backwardsWords_keeps s).1) (by omega) (by omega)
    (fun left t here => by
      obtain ⟨at_, same⟩ := here
      rw [show 8 * (left + 1) + b % 8 = 8 * left + b % 8 + 8 by omega] at at_
      refine ⟨(backwardsWords_step order fits at_).countDown, ?_⟩
      rw [State.countDown_reg, (backwardsWords_keeps t).2, same])
    ⟨by rwa [count, whole], left⟩
  rw [backwardsMemcpy1]
  generalize bdnz backwardsWords s = t at at_ same ⊢
  have low (r : Reg) := andiDot_reg t .r5 .r5 r (show 7 + 1 = 2 ^ 3 from rfl)
  rw [Nat.mul_zero, Nat.zero_add] at at_
  refine backwardsMemcpy2_moved order fits (at_.of_reg ?_ ?_ ?_) ?_
  · simp [low]
  · simp [low]
  · simp
  · simp [low, same]

/-- The last bytes one by one, down to a word of the target. -/
theorem backwardsMemcpy5_moved (order : src ≤ dst) (fits : dst + n ≤ 2 ^ 32)
    (at_ : Backward mem dst src n n s) (left : s.reg .r5 = n) (odd : 0 < s.reg .r0)
    (small : s.reg .r0 < 4) (some : 8 ≤ n) :
    (backwardsMemcpy5 s).mem = moved mem dst src 0 n := by
  have word := s.word .r5
  rw [backwardsMemcpy5]
  generalize enter : mtctr .r0 s = t
  have start : Backward mem dst src n n t := by
    rw [← enter]
    exact at_.of_reg (by simp [mtctr]) (by simp [mtctr]) (by simp [mtctr])
  have rounds : t.ctr = s.reg .r0 := by simp [← enter, mtctr]
  obtain ⟨at_, length, last⟩ := bdnz_rule (s := t)
    (fun left t => Backward mem dst src n (n - s.reg .r0 + left) t ∧ t.reg .r5 = n ∧
      t.reg .r0 = s.reg .r0)
    (fun s => (backwardsAlign_keeps s).1) (by omega) (by omega)
    (fun left t here => by
      obtain ⟨at_, length, last⟩ := here
      refine ⟨(backwardsAlign_step order fits at_).countDown, ?_, ?_⟩
      · rw [State.countDown_reg, (backwardsAlign_keeps t).2.1, length]
      · rw [State.countDown_reg, (backwardsAlign_keeps t).2.2, last])
    ⟨by rwa [rounds, Nat.sub_add_cancel (by omega)], by simpa [← enter, mtctr] using left,
      by simp [← enter, mtctr]⟩
  generalize bdnz backwardsAlign t = u at at_ length last ⊢
  generalize less : subf .r5 .r0 .r5 u = v
  have at_ : Backward mem dst src n (n - s.reg .r0) v := by
    rw [← less]
    exact at_.of_reg (by simp [subf]) (by simp [subf]) (by simp [subf])
  have left : v.reg .r5 = n - s.reg .r0 := by
    have rest : u32 (sub32 n (s.reg .r0)) = n - s.reg .r0 := by
      rw [sub32_of_le (by omega) (by omega), u32_of_lt (by omega)]
    simp [← less, subf, length, last, rest]
  have shift (r : Reg) := rlwinmDot_reg v .r7 .r5 r (show 3 ≤ 32 by decide)
  have at_ : Backward mem dst src n (n - s.reg .r0) (rlwinmDot .r7 .r5 (32 - 3) 3 31 v) :=
    at_.of_reg (by simp [shift]) (by simp [shift]) (by simp)
  split
  case isTrue few =>
    refine backwardsMemcpy2_moved order fits at_ ?_
    simpa [shift] using left
  case isFalse more =>
    rw [rlwinmDot_eq v .r7 .r5 (show 3 ≤ 32 by decide)] at more
    refine backwardsMemcpy1_moved order fits (at_.of_reg (by simp [mtctr]) (by simp [mtctr])
      (by simp [mtctr])) ?_ ?_ ?_
    · simpa [mtctr, shift] using left
    · simp [mtctr, shift, left]
    · omega

/-- `backwards_memcpy` copies from the end on, the target being behind the source. -/
theorem backwardsMemcpy_moved (order : s.reg .r4 ≤ s.reg .r3)
    (fits : s.reg .r3 + s.reg .r5 ≤ 2 ^ 32) :
    (backwardsMemcpy s).mem = moved s.mem (s.reg .r3) (s.reg .r4) 0 (s.reg .r5) := by
  rw [backwardsMemcpy]
  have shift (r : Reg) := rlwinmDot_reg s .r7 .r5 r (show 3 ≤ 32 by decide)
  generalize enter : add .r4 .r4 .r5 (add .r6 .r3 .r5 (rlwinmDot .r7 .r5 (32 - 3) 3 31 s)) = t
  have sum (n k : Nat) : u32 (n + k) = add32 (n + k) 0 := by
    unfold u32 add32
    omega
  have at_ : Backward s.mem (s.reg .r3) (s.reg .r4) (s.reg .r5) (s.reg .r5) t := by
    refine ⟨?_, ?_, ?_, le_rfl⟩
    · simp [← enter, add, shift, sum]
    · simp [← enter, add, shift, sum]
    · simp [← enter, add, moved_none]
  have length : t.reg .r5 = s.reg .r5 := by simp [← enter, add, shift]
  have count : t.reg .r7 = s.reg .r5 / 8 := by simp [← enter, add, shift]
  have empty : t.cr0 = .eq ↔ s.reg .r5 / 8 = 0 := by
    refine Iff.trans ?_ (rlwinmDot_eq s .r7 .r5 (show 3 ≤ 32 by decide))
    simp [← enter, add]
  dsimp only
  split
  case isTrue few => exact backwardsMemcpy2_moved order fits at_ length
  case isFalse more =>
    rw [empty] at more
    have low (r : Reg) := andiDot_reg t .r0 .r6 r (show 3 + 1 = 2 ^ 2 from rfl)
    have at_ : Backward s.mem (s.reg .r3) (s.reg .r4) (s.reg .r5) (s.reg .r5)
        (mtctr .r7 (andiDot .r0 .r6 3 t)) :=
      at_.of_reg (by simp [mtctr, low]) (by simp [mtctr, low]) (by simp [mtctr])
    have length : (mtctr .r7 (andiDot .r0 .r6 3 t)).reg .r5 = s.reg .r5 := by
      simp [mtctr, low, length]
    split
    case isTrue odd =>
      rw [mtctr, State.setCtr_cr0, ne_eq, andiDot_eq t .r0 .r6 (show 3 + 1 = 2 ^ 2 from rfl)] at odd
      refine backwardsMemcpy5_moved order fits at_ length ?_ ?_ (by omega)
      · simpa [mtctr, low] using Nat.pos_of_ne_zero odd
      · simpa [mtctr, low] using Nat.mod_lt _ (by decide)
    case isFalse even =>
      refine backwardsMemcpy1_moved order fits at_ length ?_ (by omega)
      simp [mtctr, low, count]

end Backward

/-! ### Either way -/

/-- `memmove` leaves at the target the bytes that were at the source, however the two overlap and
are aligned, by words and by bytes, and no other byte of memory changes. -/
theorem memmove_moves (s : State) (target : s.reg .r3 + s.reg .r5 ≤ 2 ^ 32)
    (source : s.reg .r4 + s.reg .r5 ≤ 2 ^ 32) :
    (∀ i < s.reg .r5, (memmove s).mem (s.reg .r3 + i) = s.mem (s.reg .r4 + i)) ∧
      ∀ i, i < s.reg .r3 ∨ s.reg .r3 + s.reg .r5 ≤ i → (memmove s).mem i = s.mem i := by
  have all : (memmove s).mem = moved s.mem (s.reg .r3) (s.reg .r4) 0 (s.reg .r5) := by
    have reg : (cmplw .r3 .r4 s).reg = s.reg := by simp [cmplw]
    have same : (cmplw .r3 .r4 s).mem = s.mem := by simp [cmplw]
    rw [memmove]
    split
    case isTrue above =>
      rw [cmplw_gt] at above
      rw [backwardsMemcpy_moved (by rw [reg]; omega) (by rwa [reg]), reg, same]
    case isFalse below =>
      rw [cmplw_gt] at below
      rw [memcpy_moved (by rw [reg]; omega) (by rwa [reg]), reg, same]
  rw [all]
  exact ⟨fun i inside => moved_inside (Nat.zero_le i) inside,
    fun i outside => moved_outside (by omega)⟩

/-- Thirty bytes are to be moved up by five, from an odd address to an even one. Words
move as well as the bytes that are left over at either end. -/
def overlap : State where
  reg | .r3 => 6 | .r4 => 1 | .r5 => 30 | _ => 0
  word r := by cases r <;> decide
  ctr := 0
  cr0 := .eq
  mem i := UInt8.ofNat i

/-- Thirty bytes to a place five bytes on: the last words go first, and what lies outside is as it
was. -/
theorem overlap_moved :
    (∀ i < 30, (memmove overlap).mem (6 + i) = UInt8.ofNat (1 + i)) ∧
      ∀ i, i < 6 ∨ 6 + 30 ≤ i → (memmove overlap).mem i = UInt8.ofNat i :=
  memmove_moves overlap (by decide) (by decide)

end Yaboot.Lib
