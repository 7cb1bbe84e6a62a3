import Mathlib.Tactic.IntervalCases
import Yaboot.Md5.Digest

/-! `md5.c` computes the digest of RFC 1321, however the message is cut. -/
namespace Yaboot.Md5
open Buffer Streaming
open Rfc1321 (Registers Operation Order)

/-! ### Words -/

/-- Swapping a word read from memory decodes it. -/
theorem le32ToCpu_wordAt (mem : Bytes) (at_ : Nat) :
    le32ToCpu (wordAt mem at_) =
      Rfc1321.word (mem at_) (mem (at_ + 1)) (mem (at_ + 2)) (mem (at_ + 3)) := by
  unfold le32ToCpu wordAt Rfc1321.word
  generalize mem at_ = b₀
  generalize mem (at_ + 1) = b₁
  generalize mem (at_ + 2) = b₂
  generalize mem (at_ + 3) = b₃
  apply UInt32.eq_of_toBitVec_eq
  simp
  ext i hi
  interval_cases i <;> simp

/-- A swapped word in memory is encoded. -/
theorem wordBytes_le32ToCpu (w : UInt32) : wordBytes (le32ToCpu w) = Rfc1321.bytes w := by
  unfold wordBytes le32ToCpu Rfc1321.bytes
  refine List.cons_eq_cons.mpr ⟨?_, List.cons_eq_cons.mpr ⟨?_, List.cons_eq_cons.mpr
    ⟨?_, List.cons_eq_cons.mpr ⟨?_, rfl⟩⟩⟩⟩
  all_goals
    apply UInt8.eq_of_toBitVec_eq
    simp
    ext i hi
    interval_cases i <;> simp

theorem rotateLeft_rotate (x : UInt32) :
    ∀ n ∈ s1 ++ s2 ++ s3 ++ s4, rotateLeft x n = Rfc1321.rotate x n.toNat := by
  unfold s1 s2 s3 s4
  simp only [List.cons_append, List.nil_append, List.forall_mem_cons]
  exact ⟨rfl, rfl, rfl, rfl, rfl, rfl, rfl, rfl, rfl, rfl, rfl, rfl, rfl, rfl, rfl, rfl, nofun⟩

/-! ### Rounds -/

/-- The registers in the order in which the loops hold them. -/
def view (r : Registers) : Order → Registers
  | .abcd => r
  | .dabc => ⟨r.d, r.a, r.b, r.c⟩
  | .cdab => ⟨r.c, r.d, r.a, r.b⟩
  | .bcda => ⟨r.b, r.c, r.d, r.a⟩

def next : Order → Order
  | .abcd => .dabc
  | .dabc => .cdab
  | .cdab => .bcda
  | .bcda => .abcd

/-- One round of a loop is the operation on the registers as it names them. -/
theorem step_run (fn : UInt32 → UInt32 → UInt32 → UInt32) (x : Nat → UInt32) (r : Registers)
    (op : Operation) {word t s : UInt32} (input : le32ToCpu word = x op.k)
    (sine : t = Rfc1321.sines.getD (op.i - 1) 0)
    (shift : ∀ y, rotateLeft y s = Rfc1321.rotate y op.s) :
    step fn word t s (view r op.order) = view (op.run fn x r) (next op.order) := by
  obtain ⟨order, k, shift', i⟩ := op
  unfold step
  dsimp only at input sine shift ⊢
  rw [input, sine, shift]
  cases order <;>
    simp only [view, next, Operation.run, Rfc1321.newA, UInt32.add_comm (Rfc1321.rotate _ _)]

/-- The operations a loop carries out. -/
def operations (s : List UInt32) (inc off : Nat) : Nat → Nat → Nat → Order → List Operation
  | 0, _, _, _ => []
  | n + 1, i, j, o =>
    ⟨o, j % 16, (s.getD (i % 4) 0).toNat, i + off + 1⟩ :: operations s inc off n (i + 1) (j + inc) (next o)

theorem words_slice (block : Bytes) {k : Nat} (inside : k < 16) :
    le32ToCpu (wordAt block (4 * k)) = Rfc1321.words (slice block 0 64) k := by
  have byte : ∀ i < 64, (slice block 0 64).getD i 0 = block i := by
    intro i below
    simp [slice, List.getD_eq_getElem?_getD, below]
  unfold Rfc1321.words
  rw [le32ToCpu_wordAt, byte _ (by omega), byte _ (by omega), byte _ (by omega), byte _ (by omega)]

theorem loop_operations (fn : UInt32 → UInt32 → UInt32 → UInt32) {s : List UInt32}
    (shifts : ∀ i, s.getD (i % 4) 0 ∈ s1 ++ s2 ++ s3 ++ s4) (inc off : Nat) (block : Bytes)
    (n i j : Nat) (r : Registers) (o : Order) :
    loop fn s inc off block n i j (view r o) =
      view ((operations s inc off n i j o).foldl
        (Operation.run fn (Rfc1321.words (slice block 0 64))) r) (next^[n] o) := by
  induction n generalizing i j r o with
  | zero => rfl
  | succ n ih =>
    rw [loop, operations, List.foldl_cons, Function.iterate_succ_apply, ← ih]
    congr 1
    exact step_run fn (Rfc1321.words (slice block 0 64)) r
      ⟨o, j % 16, (s.getD (i % 4) 0).toNat, i + off + 1⟩ (words_slice block (Nat.mod_lt _ (by decide)))
      rfl fun y => rotateLeft_rotate y _ (shifts i)

theorem shifts_mem {s : List UInt32} (four : s.length = 4) (sub : s ⊆ s1 ++ s2 ++ s3 ++ s4)
    (i : Nat) : s.getD (i % 4) 0 ∈ s1 ++ s2 ++ s3 ++ s4 := by
  have bound : i % 4 < s.length := by omega
  rw [List.getD_eq_getElem?_getD, List.getElem?_eq_getElem bound]
  exact sub (List.getElem_mem bound)

/-- A loop of sixteen rounds carries out the operations the RFC lists for it. -/
theorem loop_round (fn : UInt32 → UInt32 → UInt32 → UInt32) {s : List UInt32} (four : s.length = 4)
    (sub : s ⊆ s1 ++ s2 ++ s3 ++ s4) (inc off j : Nat) (block : Bytes) (r : Registers)
    {round : List Operation} (listed : operations s inc off 16 0 j .abcd = round) :
    loop fn s inc off block 16 0 j r =
      round.foldl (Operation.run fn (Rfc1321.words (slice block 0 64))) r := by
  have run := loop_operations fn (shifts_mem four sub) inc off block 16 0 j r .abcd
  have cycle : next^[16] .abcd = .abcd := rfl
  rw [listed, cycle] at run
  simpa only [view] using run

section Transform
variable (block : Bytes) (r : Registers)

theorem loop_round1 : loop F s1 1 0 block 16 0 0 r =
    Rfc1321.round1.foldl (Operation.run Rfc1321.f (Rfc1321.words (slice block 0 64))) r :=
  loop_round F rfl (by decide) 1 0 0 block r (by decide)

theorem loop_round2 : loop G s2 5 16 block 16 0 1 r =
    Rfc1321.round2.foldl (Operation.run Rfc1321.g (Rfc1321.words (slice block 0 64))) r :=
  loop_round G rfl (by decide) 5 16 1 block r (by decide)

theorem loop_round3 : loop H s3 3 32 block 16 0 5 r =
    Rfc1321.round3.foldl (Operation.run Rfc1321.h (Rfc1321.words (slice block 0 64))) r :=
  loop_round H rfl (by decide) 3 32 5 block r (by decide)

theorem loop_round4 : loop I s4 7 48 block 16 0 0 r =
    Rfc1321.round4.foldl (Operation.run Rfc1321.i (Rfc1321.words (slice block 0 64))) r :=
  loop_round I rfl (by decide) 7 48 0 block r (by decide)

/-- `md5_transform` compresses one block. -/
theorem md5Transform_compress :
    md5Transform r block = Rfc1321.compress r (slice block 0 64) := by
  unfold md5Transform Rfc1321.compress
  dsimp only
  rw [loop_round1, loop_round2, loop_round3, loop_round4, UInt32.add_comm r.a, UInt32.add_comm r.b,
    UInt32.add_comm r.c, UInt32.add_comm r.d]

end Transform

/-! ### Pieces -/

theorem slice_at (input : List UInt8) {n : Nat} (long : n ≤ input.length) :
    slice (at_ input) 0 n = input.take n := by
  apply List.ext_getElem
  · simp [slice, long]
  intro i inside _
  have below : i < n := by simpa [slice] using inside
  simp [slice, at_, List.getD_eq_getElem?_getD, List.getElem?_eq_getElem (below.trans_le long)]

theorem updateLoop_absorb (state : Registers) (input : List UInt8) :
    updateLoop state input =
      (absorb 64 Rfc1321.compress state input, pending 64 input) := by
  induction state, input using updateLoop.induct with
  | case1 state input long ih =>
    rw [updateLoop, if_pos long, ih, md5Transform_compress, slice_at input long]
    have split := (List.take_append_drop 64 input).symm
    have whole : (input.take 64).length = 64 := by simpa using long
    conv_rhs => rw [split]
    rw [absorb_first Rfc1321.compress state (by decide) whole, pending_append (by rw [whole])]
  | case2 state input short =>
    rw [updateLoop, if_neg short, absorb_short _ (by omega), pending_short (by omega)]

/-- What the globals say about the bytes consumed since `md5_init`. -/
structure Consumed (md : Context) (m : List UInt8) : Prop where
  state : md.state = absorb 64 Rfc1321.compress Rfc1321.initial m
  length : md.length = UInt32.ofNat m.length
  buffer : slice md.buffer 0 (m.length % 64) = pending 64 m

theorem Consumed.buflen {md : Context} {m : List UInt8} (consumed : Consumed md m) :
    (md.length &&& 63).toNat = m.length % 64 := by
  rw [consumed.length, UInt32.toNat_and, UInt32.toNat_ofNat']
  show m.length % 2 ^ 32 &&& (2 ^ 6 - 1) = _
  rw [Nat.and_two_pow_sub_one_eq_mod]
  omega

theorem md5Init_consumed (md : Context) : Consumed (md5Init md) [] := ⟨rfl, rfl, rfl⟩

/-- A write behind the pending bytes appends to them. -/
theorem slice_blit_append (mem : Bytes) {n k : Nat} {input : List UInt8} (long : k ≤ input.length) :
    slice (blit mem n k (at_ input)) 0 (n + k) = slice mem 0 n ++ input.take k := by
  rw [slice_append, slice_congr mem fun i inside => blit_outside mem _ (.inl (by omega)),
    Nat.zero_add, slice_blit, ← slice_at input long]
  simp [slice]

/-- Whatever the piece, the globals follow. -/
theorem md5Update_consumed {md : Context} {m : List UInt8} (consumed : Consumed md m)
    (input : List UInt8) : Consumed (md5Update md input) (m ++ input) := by
  have size : UInt32.ofNat (m ++ input).length = md.length + UInt32.ofNat input.length := by
    rw [consumed.length, List.length_append, UInt32.ofNat_add]
  have rest := pending_length 64 m
  have absorbed := absorb_piece 64 Rfc1321.compress Rfc1321.initial m input
  have left := pending_piece 64 m input
  rw [← consumed.state, ← consumed.buffer] at absorbed
  rw [← consumed.buffer] at left
  have held : (slice md.buffer 0 (m.length % 64)).length = m.length % 64 := by simp [slice]
  have total : (m ++ input).length = m.length + input.length := List.length_append
  unfold md5Update
  rw [consumed.buflen]
  by_cases short : m.length % 64 + input.length < 64
  · have small : (slice md.buffer 0 (m.length % 64) ++ input).length < 64 := by
      rw [List.length_append, held]
      exact short
    dsimp only
    rw [if_pos short]
    refine ⟨?_, size.symm, ?_⟩
    · rw [absorbed, absorb_short _ small]
    · rw [left, pending_short small, show (m ++ input).length % 64 = m.length % 64 + input.length by omega,
        slice_blit_append _ le_rfl, List.take_length]
  · dsimp only
    rw [if_neg short]
    have filled : slice (blit md.buffer (m.length % 64) (64 - m.length % 64) (at_ input)) 0 64 =
        slice md.buffer 0 (m.length % 64) ++ input.take (64 - m.length % 64) := by
      rw [← slice_blit_append _ (by omega), show m.length % 64 + (64 - m.length % 64) = 64 by omega]
    generalize blit md.buffer (m.length % 64) (64 - m.length % 64) (at_ input) = buffer at filled
    have block : (slice md.buffer 0 (m.length % 64) ++ input.take (64 - m.length % 64)).length = 64 := by
      rw [List.length_append, held, List.length_take]
      omega
    have split : slice md.buffer 0 (m.length % 64) ++ input =
        slice md.buffer 0 (m.length % 64) ++ input.take (64 - m.length % 64) ++
          input.drop (64 - m.length % 64) := by
      rw [List.append_assoc, List.take_append_drop]
    rw [md5Transform_compress, filled, updateLoop_absorb]
    rw [split] at absorbed left
    refine ⟨?_, size.symm, ?_⟩
    · rw [absorbed, absorb_first _ _ (by decide) block]
    · rw [left, pending_append (by rw [block])]
      generalize behind : input.drop (64 - m.length % 64) = rest
      have count : rest.length = input.length - (64 - m.length % 64) := by
        rw [← behind, List.length_drop]
      have tail := pending_length 64 rest
      have inside := slice_blit_append buffer (n := 0) (Nat.le_refl (pending 64 rest).length)
      rw [Nat.zero_add, List.take_length] at inside
      rw [show (m ++ input).length % 64 = (pending 64 rest).length by omega, inside]
      rfl

/-! ### The end of the message -/

/-- The pending bytes, the byte that ends them, and zeros. -/
theorem slice_ended (mem : Bytes) {k j n : Nat} (inside : j ≤ n) :
    slice (blit (blit mem k 1 fun _ => 0x80) (k + 1) n fun _ => 0) 0 (k + 1 + j) =
      slice mem 0 k ++ 0x80 :: List.replicate j 0 := by
  rw [slice_append, slice_append, slice_congr (n := k) mem fun i below => ?_,
    slice_congr (n := 1) (fun _ => 0x80) fun i below => ?_,
    slice_congr (n := j) (fun _ => 0) fun i below => ?_, List.append_assoc]
  · simp [slice]
  · rw [blit_inside _ _ (by omega) (by omega)]
  · rw [blit_outside _ _ (.inl (by omega)), blit_inside _ _ (by omega) (by omega)]
  · rw [blit_outside _ _ (.inl (by omega)), blit_outside _ _ (.inl (by omega))]

/-- The two words at the end of the last block. -/
theorem slice_sized (mem : Bytes) {low high : List UInt8} (four : low.length = 4)
    (four' : high.length = 4) :
    slice (blit (blit mem 56 4 (at_ low)) 60 4 (at_ high)) 0 64 = slice mem 0 56 ++ low ++ high := by
  rw [show 64 = 56 + 4 + 4 by rfl, show 60 = 56 + 4 by rfl, slice_blit_append _ four'.ge,
    slice_blit_append _ four.ge, List.take_of_length_le four.le, List.take_of_length_le four'.le]

theorem digest_output (r : Registers) (length : UInt32) (buffer : Bytes) :
    (Context.mk ⟨le32ToCpu r.a, le32ToCpu r.b, le32ToCpu r.c, le32ToCpu r.d⟩ length buffer).digest =
      r.output := by
  unfold Context.digest Registers.output
  rw [wordBytes_le32ToCpu, wordBytes_le32ToCpu, wordBytes_le32ToCpu, wordBytes_le32ToCpu]

/-- `md5_final` pads what is pending as the RFC does. -/
theorem md5Final_digest {md : Context} {m : List UInt8} (consumed : Consumed md m)
    (fits : m.length < 2 ^ 29) : (md5Final md).digest = Rfc1321.md5 m := by
  have low : wordBytes (le32ToCpu (8 * md.length)) = Rfc1321.bytes (UInt32.ofNat (8 * m.length)) := by
    rw [wordBytes_le32ToCpu, consumed.length, UInt32.ofNat_mul]
    rfl
  have high : wordBytes 0 = Rfc1321.bytes (UInt32.ofNat (8 * m.length / 2 ^ 32)) := by
    rw [Nat.div_eq_of_lt (by omega)]
    rfl
  have held : (slice md.buffer 0 (m.length % 64)).length = m.length % 64 := by simp [slice]
  have padded : Rfc1321.md5 m = (absorb 64 Rfc1321.compress md.state
      (slice md.buffer 0 (m.length % 64) ++ (0x80 :: List.replicate ((119 - m.length % 64) % 64) 0 ++
        wordBytes (le32ToCpu (8 * md.length)) ++ wordBytes 0))).output := by
    rw [consumed.buffer, consumed.state, ← absorb_piece, low, high]
    unfold Rfc1321.md5 Rfc1321.pad
    simp only [List.append_assoc]
  rw [padded]
  unfold md5Final
  rw [consumed.buflen]
  dsimp only
  rw [digest_output]
  refine congrArg Registers.output ?_
  generalize hk : m.length % 64 = k at *
  by_cases long : k + 1 > 56
  · rw [if_pos long]
    dsimp only
    rw [md5Transform_compress, md5Transform_compress, slice_sized _ rfl rfl]
    have first := slice_ended md.buffer (k := k) (j := 64 - (k + 1)) (n := 64 - (k + 1)) le_rfl
    rw [show k + 1 + (64 - (k + 1)) = 64 by omega] at first
    have cleared : ∀ mem, slice (blit mem 0 64 fun _ => 0) 0 56 = List.replicate 56 0 := by
      intro mem
      rw [slice_congr (fun _ => 0) fun i below => blit_inside mem _ (by omega) (by omega)]
      rfl
    have zeros : List.replicate ((119 - k) % 64) (0 : UInt8) =
        List.replicate (64 - (k + 1)) 0 ++ List.replicate 56 0 := by
      rw [List.replicate_append_replicate]
      congr 1
      omega
    have size : (slice md.buffer 0 k ++ 0x80 :: List.replicate (64 - (k + 1)) 0).length = 64 := by
      simp [held]
      omega
    have last : (List.replicate 56 0 ++ wordBytes (le32ToCpu (8 * md.length)) ++
        wordBytes 0).length = 64 := rfl
    rw [first, cleared, zeros, ← absorb_block Rfc1321.compress _ (by decide) last,
      ← absorb_first Rfc1321.compress md.state (by decide) size]
    simp only [List.append_assoc, List.cons_append]
  · rw [if_neg long]
    dsimp only
    rw [md5Transform_compress, slice_sized _ rfl rfl]
    have front := slice_ended md.buffer (k := k) (j := 55 - k) (n := 64 - (k + 1)) (by omega)
    rw [show k + 1 + (55 - k) = 56 by omega] at front
    have size : (slice md.buffer 0 k ++ 0x80 :: List.replicate (55 - k) 0 ++
        wordBytes (le32ToCpu (8 * md.length)) ++ wordBytes 0).length = 64 := by
      simp [held, wordBytes]
      omega
    rw [front, show (119 - k) % 64 = 55 - k by omega,
      ← absorb_block Rfc1321.compress md.state (by decide) size]
    simp only [List.append_assoc, List.cons_append]

theorem md5Updates_consumed {md : Context} {m : List UInt8} (consumed : Consumed md m)
    (pieces : List (List UInt8)) : Consumed (pieces.foldl md5Update md) (m ++ pieces.flatten) := by
  induction pieces generalizing md m with
  | nil => simpa using consumed
  | cons piece rest ih =>
    rw [List.foldl_cons, List.flatten_cons, ← List.append_assoc]
    exact ih (md5Update_consumed consumed piece)

/-- However a message is cut into pieces for `md5_update`, and whatever the globals held before
`md5_init`, the digest `md5_final` leaves is that of the RFC. -/
theorem md5_chunked (md : Context) (pieces : List (List UInt8))
    (fits : pieces.flatten.length < 2 ^ 29) :
    (md5Final (pieces.foldl md5Update (md5Init md))).digest = Rfc1321.md5 pieces.flatten :=
  md5Final_digest (md5Updates_consumed (md5Init_consumed md) pieces) fits

/-- Three pieces, an empty one among them. -/
theorem md5_chunked_abc :
    (md5Final ([[97], [], [98, 99]].foldl md5Update (md5Init ⟨initstate, 0, fun _ => 0⟩))).digest =
      Rfc1321.md5 [97, 98, 99] :=
  md5_chunked ⟨initstate, 0, fun _ => 0⟩ [[97], [], [98, 99]] (by decide)

/-- The third of the tests in `md5.c`. -/
example : Rfc1321.md5 [97, 98, 99] =
    [0x90, 0x01, 0x50, 0x98, 0x3c, 0xd2, 0x4f, 0xb0, 0xd6, 0x96, 0x3f, 0x7d, 0x28, 0xe1, 0x7f,
      0x72] := by
  decide +kernel

end Yaboot.Md5
