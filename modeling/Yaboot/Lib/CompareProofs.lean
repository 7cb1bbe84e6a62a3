import Yaboot.Lib.StringsProofs

/-! What the comparing routines return: the sign of their result is the order of the two
strings, or of the two runs of bytes, read as unsigned characters. -/
namespace Yaboot.Lib.Strings
open Buffer CString Loop PowerPC Word
open StringBuffer (Holds)

/-- The order of a dictionary, on unsigned characters. -/
def order (a b : CStr) : Ordering := List.compareLex (fun c d => compare c.toNat d.toNat) a b

@[simp] theorem order_nil : order [] [] = .eq := List.compareLex_nil_nil

theorem order_cons (c d : UInt8) (a b : CStr) :
    order (c :: a) (d :: b) = (compare c.toNat d.toNat).then (order a b) :=
  List.compareLex_cons_cons

theorem order_cons_self (c : UInt8) (a b : CStr) : order (c :: a) (c :: b) = order a b := by
  rw [order_cons, compare_eq_iff_eq.mpr rfl, Ordering.eq_then]

theorem order_cons_of_ne {c d : UInt8} (other : compare c.toNat d.toNat ≠ .eq) (a b : CStr) :
    order (c :: a) (d :: b) = compare c.toNat d.toNat := by
  rw [order_cons]
  cases result : compare c.toNat d.toNat with
  | lt => rfl
  | eq => exact absurd result other
  | gt => rfl

/-- A string that has ended goes on with zero. -/
theorem order_cons_left {c : UInt8} {b : CStr} (nonzero : c ≠ 0)
    (other : compare c.toNat (b.headD 0).toNat ≠ .eq) (a : CStr) :
    order (c :: a) b = compare c.toNat (b.headD 0).toNat := by
  cases b with
  | nil =>
    rw [List.headD_nil, order, List.compareLex_cons_nil, eq_comm, Nat.compare_eq_gt]
    exact Nat.pos_of_ne_zero ((toNat_eq_zero_iff c).not.mpr nonzero)
  | cons d b => exact order_cons_of_ne other a b

theorem order_nil_left {b : CStr} (clean : 0 ∉ b) : order [] b = compare 0 (b.headD 0).toNat := by
  cases b with
  | nil => rfl
  | cons d b =>
    have nonzero : d ≠ 0 := Ne.symm (List.ne_of_not_mem_cons clean)
    rw [List.headD_cons, order, List.compareLex_nil_cons, eq_comm, Nat.compare_eq_lt]
    exact Nat.pos_of_ne_zero ((toNat_eq_zero_iff d).not.mpr nonzero)

theorem headD_take_succ (b : CStr) (n : Nat) : (b.take (n + 1)).headD 0 = b.headD 0 := by
  cases b with
  | nil => rfl
  | cons d b => rfl

variable {mem : Bytes} {s t : State} {a b : CStr} {at_ i left : Nat} {p : Reg}

/-- The difference of two bytes has the sign of their order. -/
theorem compare_sub (c d : UInt8) :
    compare (s32 (u32 (sub32 c.toNat d.toNat))) 0 = compare c.toNat d.toNat := by
  have first := c.toNat_lt
  have second := d.toNat_lt
  by_cases less : c.toNat < d.toNat
  · rw [Nat.compare_eq_lt.mpr less, compare_lt_iff_lt]
    unfold s32 u32 sub32
    split <;> omega
  rw [sub32_of_le (by omega) (Nat.le_of_not_lt less), u32_of_lt (by omega),
    s32_of_lt (by omega)]
  by_cases same : c.toNat = d.toNat
  · rw [same, Nat.sub_self, Nat.compare_eq_eq.mpr rfl, compare_eq_iff_eq]
    rfl
  · rw [Nat.compare_eq_gt.mpr (by omega), compare_gt_iff_gt]
    omega

/-! ### A round -/

theorem atEnd_eq (address : p ≠ .r0) (third : p ≠ .r3) (t : State) :
    atEnd p t = .eq ↔ t.mem (add32 (t.reg p) 1) = 0 := by
  have zero := cmpwi_zero .r3 (lbzu .r3 1 p t)
  rw [cmpwi, State.setCr0_cr0] at zero
  rw [atEnd, zero]
  simp [lbzu, lbz, State.address, State.base, address, third.symm, toNat_eq_zero_iff]

theorem compareByte_second (fourth : p ≠ .r4) (t : State) :
    (compareByte p t).reg .r4 = add32 (t.reg .r4) 1 := by
  simp [compareByte, subfDot, subf, cmpwi, lbzu, lbz, State.address, State.base, fourth.symm]

section CompareByte
variable (address : p ≠ .r0) (third : p ≠ .r3) (fourth : p ≠ .r4) (t : State)
include address third fourth

theorem compareByte_first : (compareByte p t).reg p = add32 (t.reg p) 1 := by
  simp [compareByte, subfDot, subf, cmpwi, lbzu, lbz, State.address, State.base, address, third,
    fourth]

theorem compareByte_result : (compareByte p t).cr0 =
    compare (t.mem (add32 (t.reg p) 1)).toNat (t.mem (add32 (t.reg .r4) 1)).toNat := by
  rw [← compare_sub]
  simp [compareByte, subfDot, subf, cmpwi, lbzu, lbz, State.address, State.base, address,
    third.symm, fourth.symm]

end CompareByte

theorem compareByte_mem (t : State) : (compareByte p t).mem = t.mem := by
  simp [compareByte, subfDot, subf, cmpwi, lbzu, lbz]

theorem compareByte_ctr (t : State) : (compareByte p t).ctr = t.ctr := by
  simp [compareByte, subfDot, subf, cmpwi, lbzu, lbz]

/-- The difference is what the result register holds. -/
theorem compareByte_sign (t : State) :
    compare (s32 ((compareByte p t).reg .r3)) 0 = (compareByte p t).cr0 := by
  simp [compareByte, subfDot, cmpwi]

/-- Two pointers stand before the bytes to compare next, and nothing was stored. -/
structure Comparing (mem : Bytes) (p : Reg) (x y : Nat) (t : State) : Prop where
  first : Before p x t
  second : Before .r4 y t
  mem : t.mem = mem

theorem Comparing.of_reg {x y : Nat} (comparing : Comparing mem p x y s)
    (first : t.reg p = s.reg p) (second : t.reg .r4 = s.reg .r4) (same : t.mem = s.mem) :
    Comparing mem p x y t :=
  ⟨comparing.first.of_reg first, comparing.second.of_reg second, same.trans comparing.mem⟩

theorem Comparing.step {x y : Nat} (comparing : Comparing mem p x y t) (address : p ≠ .r0)
    (third : p ≠ .r3) (fourth : p ≠ .r4) (fits : x < 2 ^ 32) (fits' : y < 2 ^ 32) :
    Comparing mem p (x + 1) (y + 1) (compareByte p t) ∧
      (compareByte p t).cr0 = compare (mem x).toNat (mem y).toNat ∧
      (atEnd p t = .eq ↔ mem x = 0) := by
  refine ⟨⟨comparing.first.step fits (compareByte_first address third fourth t),
    comparing.second.step fits' (compareByte_second fourth t),
    (compareByte_mem t).trans comparing.mem⟩, ?_, ?_⟩
  · rw [compareByte_result address third fourth, comparing.first.next fits,
      comparing.second.next fits', comparing.mem]
  · rw [atEnd_eq address third, comparing.first.next fits, comparing.mem]

/-! ### Results -/

/-- A string goes on behind the byte a pointer stands before. -/
structure Rest (mem : Bytes) (y : Nat) (other : CStr) : Prop where
  holds : Holds mem y other
  fits : y + other.length < 2 ^ 32

theorem Rest.tail {c : UInt8} (rest : Rest mem i (c :: a)) : Rest mem (i + 1) a := by
  have fits := rest.fits
  rw [List.length_cons] at fits
  exact ⟨(holds_cons rest.holds).2.2, by omega⟩

/-- A byte against the first of what is left of a string. -/
theorem Rest.head (rest : Rest mem i b) : (mem i).toNat = (b.headD 0).toNat := by
  cases b with
  | nil => rw [holds_nil rest.holds, List.headD_nil]
  | cons d b => rw [(holds_cons rest.holds).1, List.headD_cons]

/-- The sign of the result is the order of the strings. -/
theorem strcmp_order (first : Holds s.mem (s.reg .r3) a) (second : Holds s.mem (s.reg .r4) b)
    (fits : s.reg .r3 + a.length < 2 ^ 32) (fits' : s.reg .r4 + b.length < 2 ^ 32) :
    Returns (strcmp s) fun t => compare (s32 (t.reg .r3)) 0 = order a b ∧ t.mem = s.mem := by
  refine string_rule (fun x rest t => ∃ y other, Comparing s.mem .r5 x y t ∧
    Rest s.mem y other ∧ order rest other = order a b) _ first fits ?_ ?_
    ⟨s.reg .r4, b, ⟨?_, ?_, ?_⟩, ⟨second, fits'⟩, rfl⟩
  · rintro x c rest t word byte nonzero ⟨y, other, comparing, ahead, same⟩
    have within := ahead.fits
    obtain ⟨next, result, ends⟩ :=
      comparing.step (by decide) (by decide) (by decide) word (by omega)
    rw [byte, ahead.head] at result
    rw [strcmp1, if_neg (by rw [ends, byte]; exact nonzero)]
    refine beqBack_meets (fun equal => ?_) fun different => ⟨?_, next.mem⟩
    · rw [result, Nat.compare_eq_eq, UInt8.toNat_inj] at equal
      cases other with
      | nil => exact absurd equal nonzero
      | cons d other =>
        rw [equal, List.headD_cons, order_cons_self] at same
        exact ⟨y + 1, other, next, ahead.tail, same⟩
    · rw [result] at different
      rw [compareByte_sign, result, ← same, order_cons_left nonzero different]
  · rintro x t word zero ⟨y, other, comparing, ahead, same⟩
    have within := ahead.fits
    obtain ⟨next, result, ends⟩ :=
      comparing.step (by decide) (by decide) (by decide) word (by omega)
    rw [zero, ahead.head] at result
    rw [strcmp1, if_pos (ends.mpr zero)]
    refine .out ⟨?_, next.mem⟩
    rw [compareByte_sign, result, ← same, order_nil_left ahead.holds.clean]
    rfl
  · simp [Before, addi, State.address, State.base]
  · simp [Before, addi, State.address, State.base]
  · simp [addi]

/-- The rounds of `strncmp`, of which there is at least one. -/
theorem strncmp1_order {n : Nat} {x y : Nat} (comparing : Comparing mem .r6 x y s)
    (first : Rest mem x a) (second : Rest mem y b) (some : 0 < n) (word : n < 2 ^ 32)
    (count : s.ctr = n) :
    Returns (loop strncmp1 s) fun t =>
      compare (s32 (t.reg .r3)) 0 = order (a.take n) (b.take n) ∧ t.mem = mem := by
  refine string_rule (fun x rest t => ∃ y other left, Comparing mem .r6 x y t ∧
    Rest mem y other ∧ 0 < left ∧ left < 2 ^ 32 ∧ t.ctr = left ∧
    order (rest.take left) (other.take left) = order (a.take n) (b.take n)) _
    first.holds first.fits ?_ ?_ ⟨y, b, n, comparing, second, some, word, count, rfl⟩
  · rintro x c rest t fits byte nonzero ⟨y, other, left, comparing, ahead, positive, small, count, same⟩
    have within := ahead.fits
    obtain ⟨left, rfl⟩ := Nat.exists_eq_succ_of_ne_zero positive.ne'
    obtain ⟨next, result, ends⟩ :=
      comparing.step (by decide) (by decide) (by decide) fits (by omega)
    have fewer : (compareByte .r6 t).countDown.ctr = left := by
      rw [State.countDown_ctr, compareByte_ctr, count, sub32_of_le small (by omega),
        Nat.succ_sub_one]
    rw [byte, ahead.head] at result
    rw [List.take_succ_cons] at same
    rw [strncmp1, if_neg (by rw [ends, byte]; exact nonzero)]
    refine bdnzt_meets (fun more equal => ?_) fun done => ⟨?_, next.mem⟩
    · rw [result, Nat.compare_eq_eq, UInt8.toNat_inj] at equal
      cases other with
      | nil => exact absurd equal nonzero
      | cons d other =>
        rw [equal, List.headD_cons, List.take_succ_cons, order_cons_self] at same
        exact ⟨y + 1, other, left, next.of_reg rfl rfl rfl, ahead.tail,
          Nat.pos_of_ne_zero (fewer.symm.trans_ne more), by omega, fewer, same⟩
    · rw [State.countDown_reg, compareByte_sign, ← same]
      by_cases different : (compareByte .r6 t).cr0 = .eq
      · have last := done.resolve_right (not_not.mpr different)
        rw [fewer] at last
        rw [different, last]
        rw [result, Nat.compare_eq_eq, UInt8.toNat_inj] at different
        cases other with
        | nil => exact absurd different nonzero
        | cons d other => rw [different, List.headD_cons, List.take_succ_cons, order_cons_self]; rfl
      · rw [result] at different ⊢
        rw [← headD_take_succ other left] at different ⊢
        exact (order_cons_left nonzero different _).symm
  · rintro x t fits zero ⟨y, other, left, comparing, ahead, positive, small, count, same⟩
    have within := ahead.fits
    obtain ⟨left, rfl⟩ := Nat.exists_eq_succ_of_ne_zero positive.ne'
    obtain ⟨next, result, ends⟩ :=
      comparing.step (by decide) (by decide) (by decide) fits (by omega)
    rw [zero, ahead.head] at result
    rw [strncmp1, if_pos (ends.mpr zero)]
    refine .out ⟨?_, next.mem⟩
    have clean : 0 ∉ other.take (left + 1) := fun inside =>
      ahead.holds.clean (List.mem_of_mem_take inside)
    rw [compareByte_sign, result, ← same, List.take_nil, order_nil_left clean, headD_take_succ]
    rfl

/-- The count bounds what is compared. Without one, the first address comes back. -/
theorem strncmp_order (first : Holds s.mem (s.reg .r3) a) (second : Holds s.mem (s.reg .r4) b)
    (fits : s.reg .r3 + a.length < 2 ^ 32) (fits' : s.reg .r4 + b.length < 2 ^ 32) :
    Returns (strncmp s) fun t =>
      (if s.reg .r5 = 0 then t.reg .r3 = s.reg .r3
        else compare (s32 (t.reg .r3)) 0 = order (a.take (s.reg .r5)) (b.take (s.reg .r5))) ∧
      t.mem = s.mem := by
  have counted : (addi .r4 .r4 (-1) (addi .r6 .r3 (-1) (cmpwi .r5 0 s))).cr0 = .eq ↔
      s.reg .r5 = 0 := by
    rw [← cmpwi_zero .r5 s]
    simp [addi]
  rw [strncmp]
  split
  case isTrue none =>
    rw [counted] at none
    exact .of_some ⟨by rw [if_pos none]; simp [addi, cmpwi], by simp [addi, cmpwi]⟩
  case isFalse some =>
    rw [counted] at some
    simp only [if_neg some]
    refine strncmp1_order (x := s.reg .r3) (y := s.reg .r4) ⟨?_, ?_, ?_⟩ ⟨first, fits⟩
      ⟨second, fits'⟩ (Nat.pos_of_ne_zero some) (s.word .r5) ?_
    · simp [Before, addi, mtctr, cmpwi, State.address, State.base]
    · simp [Before, addi, mtctr, cmpwi, State.address, State.base]
    · simp [addi, mtctr, cmpwi]
    · simp [addi, mtctr, cmpwi]

theorem slice_succ (mem : Bytes) (at_ n : Nat) :
    slice mem at_ (n + 1) = mem at_ :: slice mem (at_ + 1) n := by
  rw [Nat.add_comm, slice_append]
  rfl

/-- The sign of what `memcmp` returns is the order of the two ranges, where terminators do
not stop it. A count that is not positive compares nothing, wherever the pointers are. -/
theorem memcmp_order (fits : 0 < s32 (s.reg .r5) → s.reg .r3 + s.reg .r5 ≤ 2 ^ 32)
    (fits' : 0 < s32 (s.reg .r5) → s.reg .r4 + s.reg .r5 ≤ 2 ^ 32) :
    Returns (memcmp s) fun t =>
      (if s32 (s.reg .r5) ≤ 0 then t.reg .r3 = s.reg .r3
        else compare (s32 (t.reg .r3)) 0 =
          order (slice s.mem (s.reg .r3) (s.reg .r5)) (slice s.mem (s.reg .r4) (s.reg .r5))) ∧
      t.mem = s.mem := by
  have counted : (cmpwi .r5 0 s).cr0 = .gt ↔ ¬ s32 (s.reg .r5) ≤ 0 := by
    rw [cmpwi, State.setCr0_cr0, compare_gt_iff_gt, not_le]
  generalize target : order (slice s.mem (s.reg .r3) (s.reg .r5))
    (slice s.mem (s.reg .r4) (s.reg .r5)) = result
  rw [memcmp]
  split
  case isTrue none =>
    rw [ne_eq, counted, not_not] at none
    exact .of_some ⟨by rw [if_pos none]; simp [cmpwi], by simp [cmpwi]⟩
  case isFalse some =>
    rw [ne_eq, not_not, counted] at some
    simp only [if_neg some]
    have inside := fits (by omega)
    have inside' := fits' (by omega)
    have word := s.word .r5
    have positive : 0 < s.reg .r5 := by
      rcases Nat.eq_zero_or_pos (s.reg .r5) with zero | positive
      · rw [zero] at some
        exact absurd (by decide) some
      · exact positive
    refine @loop_rule (s.reg .r5) _ _ (fun left t => ∃ x y, Comparing s.mem .r6 x y t ∧
      0 < left ∧ t.ctr = left ∧ left < 2 ^ 32 ∧ x + left ≤ 2 ^ 32 ∧ y + left ≤ 2 ^ 32 ∧
      order (slice s.mem x left) (slice s.mem y left) = result) _ ?_
      ⟨s.reg .r3, s.reg .r4, ⟨?_, ?_, ?_⟩, positive, ?_, word, inside, inside', target⟩ word
    · rintro left t ⟨x, y, comparing, positive, count, small, fits, fits', same⟩
      obtain ⟨left, rfl⟩ := Nat.exists_eq_succ_of_ne_zero positive.ne'
      obtain ⟨next, sign, _⟩ :=
        comparing.step (by decide) (by decide) (by decide) (by omega) (by omega)
      have fewer : (compareByte .r6 t).countDown.ctr = left := by
        rw [State.countDown_ctr, compareByte_ctr, count, sub32_of_le small (by omega),
          Nat.succ_sub_one]
      rw [slice_succ, slice_succ] at same
      refine bdnzt_meets (fun more equal => ?_) fun done => ⟨?_, next.mem⟩
      · rw [sign, Nat.compare_eq_eq, UInt8.toNat_inj] at equal
        rw [equal, order_cons_self] at same
        exact ⟨left, Nat.lt_succ_self left, x + 1, y + 1, next.of_reg rfl rfl rfl,
          Nat.pos_of_ne_zero (fewer.symm.trans_ne more), fewer, by omega, by omega, by omega, same⟩
      · rw [State.countDown_reg, compareByte_sign, sign, ← same]
        rw [fewer, sign] at done
        rcases done with last | different
        · rw [last, order_cons]
          cases compare (s.mem x).toNat (s.mem y).toNat <;> rfl
        · exact (order_cons_of_ne different _ _).symm
    · simp [Before, addi, mtctr, cmpwi, State.address, State.base]
    · simp [Before, addi, mtctr, cmpwi, State.address, State.base]
    · simp [addi, mtctr, cmpwi]
    · simp [addi, mtctr, cmpwi]

/-- A count of `-1` compares nothing. -/
theorem twoWords_differ :
    (Returns (memcmp (called 16 19 3 twoWords)) fun t =>
      compare (s32 (t.reg .r3)) 0 = order (slice twoWords 16 3) (slice twoWords 19 3) ∧
      t.mem = twoWords) ∧
    Returns (memcmp (called 16 19 (2 ^ 32 - 1) twoWords)) fun t =>
      t.reg .r3 = 16 ∧ t.mem = twoWords := by
  constructor
  · refine (memcmp_order (s := called 16 19 3 twoWords) (by decide) (by decide)).mono ?_
    intro t done
    rwa [if_neg (by decide)] at done
  · refine (memcmp_order (s := called 16 19 (2 ^ 32 - 1) twoWords) (by decide) (by decide)).mono ?_
    intro t done
    rwa [if_pos (by decide)] at done

/-! ### Results that are zero -/

theorem order_eq_iff : order a b = .eq ↔ a = b := by
  induction a generalizing b with
  | nil =>
    cases b with
    | nil => simp
    | cons d b => simp [order, List.compareLex_nil_cons]
  | cons c a ih =>
    cases b with
    | nil => simp [order, List.compareLex_cons_nil]
    | cons d b =>
      rw [order_cons, Ordering.then_eq_eq, ih, Nat.compare_eq_eq, UInt8.toNat_inj, List.cons.injEq]

theorem sign_eq_iff (s : State) (r : Reg) : compare (s32 (s.reg r)) 0 = .eq ↔ s.reg r = 0 := by
  rw [compare_eq_iff_eq]
  exact s32_eq_zero_iff (s.word r)

/-- The sign of `strncmp` is the order of what the count leaves of the strings, and `!strncmp`
is what the rest of the program takes it for. Without a count the first address comes back. -/
theorem strncmp_refines (first : Holds s.mem (s.reg .r3) a) (second : Holds s.mem (s.reg .r4) b)
    (fits : s.reg .r3 + a.length < 2 ^ 32) (fits' : s.reg .r4 + b.length < 2 ^ 32) :
    Returns (strncmp s) fun t =>
      (if s.reg .r5 = 0 then t.reg .r3 = s.reg .r3
        else compare (s32 (t.reg .r3)) 0 = order (a.take (s.reg .r5)) (b.take (s.reg .r5)) ∧
          (t.reg .r3 = 0 ↔ strncmpEq a b (s.reg .r5) = true)) ∧
      t.mem = s.mem := by
  refine (strncmp_order first second fits fits').mono fun t done => ⟨?_, done.2⟩
  have sign := done.1
  by_cases none : s.reg .r5 = 0
  · rw [if_pos none] at sign ⊢
    exact sign
  · rw [if_neg none] at sign ⊢
    refine ⟨sign, ?_⟩
    rw [← sign_eq_iff, sign, order_eq_iff, strncmpEq, beq_iff_eq]

/-- The first two characters of `to` and `tom` are alike. -/
theorem twoWords_alike : Returns (strncmp (called 16 19 2 twoWords)) fun t =>
    (compare (s32 (t.reg .r3)) 0 = order ((cstr "to").take 2) ((cstr "tom").take 2) ∧
      (t.reg .r3 = 0 ↔ strncmpEq (cstr "to") (cstr "tom") 2 = true)) ∧ t.mem = twoWords :=
  (strncmp_refines (s := called 16 19 2 twoWords) twoWords_first twoWords_second (by decide)
    (by decide)).mono fun t done => by rwa [if_neg (by decide)] at done

/-- The sign of what `strcmp` returns is the order of the strings byte by byte, it is zero for equal
ones only, and memory is as it was. -/
theorem strcmp_refines (first : Holds s.mem (s.reg .r3) a) (second : Holds s.mem (s.reg .r4) b)
    (fits : s.reg .r3 + a.length < 2 ^ 32) (fits' : s.reg .r4 + b.length < 2 ^ 32) :
    Returns (strcmp s) fun t => compare (s32 (t.reg .r3)) 0 = order a b ∧
      (t.reg .r3 = 0 ↔ a = b) ∧ t.mem = s.mem := by
  refine (strcmp_order first second fits fits').mono fun t done => ⟨done.1, ?_, done.2⟩
  rw [← sign_eq_iff, done.1, order_eq_iff]

/-- `to` comes in front of `tom`. -/
theorem twoWords_ordered : Returns (strcmp (called 16 19 0 twoWords)) fun t =>
    compare (s32 (t.reg .r3)) 0 = order (cstr "to") (cstr "tom") ∧
      (t.reg .r3 = 0 ↔ cstr "to" = cstr "tom") ∧ t.mem = twoWords :=
  strcmp_refines (s := called 16 19 0 twoWords) twoWords_first twoWords_second (by decide)
    (by decide)

end Yaboot.Lib.Strings
