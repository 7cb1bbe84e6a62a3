import Mathlib.Algebra.BigOperators.Group.List.Basic
import Mathlib.Algebra.Order.Ring.Nat
import Yaboot.Base.Buffer

/-! Big-endian numbers, and records of them: the bytes of a record give its fields back. -/
namespace Yaboot.BigEndian
open Buffer

/-- A number in so many bytes, what does not fit being dropped. -/
def encode : Nat → Nat → List UInt8
  | 0, _ => []
  | width + 1, n => UInt8.ofNat (n / 256 ^ width) :: encode width n

def decode (bytes : List UInt8) : Nat := bytes.foldl (fun n b => n * 256 + b.toNat) 0

@[simp] theorem encode_length (width n : Nat) : (encode width n).length = width := by
  induction width with
  | zero => rfl
  | succ width ih => exact congrArg Nat.succ ih

theorem decode_cons (b : UInt8) (bytes : List UInt8) :
    decode (b :: bytes) = b.toNat * 256 ^ bytes.length + decode bytes := by
  have general : ∀ (bytes : List UInt8) (n : Nat),
      bytes.foldl (fun n b => n * 256 + b.toNat) n = n * 256 ^ bytes.length + decode bytes := by
    intro bytes
    induction bytes with
    | nil => intro n; simp [decode]
    | cons b bytes ih =>
      intro n
      have first := ih (n * 256 + b.toNat)
      have second := ih (0 * 256 + b.toNat)
      unfold decode
      rw [List.foldl_cons, List.foldl_cons, first, second, List.length_cons, pow_succ, Nat.add_mul,
        Nat.zero_mul, Nat.zero_add, Nat.mul_assoc, Nat.mul_comm 256, Nat.add_assoc]
  unfold decode
  rw [List.foldl_cons, general]
  simp [decode]

theorem decode_encode (width n : Nat) : decode (encode width n) = n % 256 ^ width := by
  induction width with
  | zero => simp [encode, decode, Nat.mod_one]
  | succ width ih =>
    have digit : (2 : Nat) ^ 8 = 256 := rfl
    rw [encode, decode_cons, encode_length, ih, UInt8.toNat_ofNat', digit, Nat.mod_pow_succ,
      Nat.mul_comm, Nat.add_comm]

theorem decode_lt (bytes : List UInt8) : decode bytes < 256 ^ bytes.length := by
  induction bytes with
  | nil => exact Nat.one_pos
  | cons b bytes ih =>
    have small := b.toNat_lt
    rw [decode_cons, List.length_cons, pow_succ]
    calc b.toNat * 256 ^ bytes.length + decode bytes
        < b.toNat * 256 ^ bytes.length + 256 ^ bytes.length := Nat.add_lt_add_left ih _
      _ = (b.toNat + 1) * 256 ^ bytes.length := (Nat.succ_mul _ _).symm
      _ ≤ 256 * 256 ^ bytes.length := Nat.mul_le_mul_right _ small
      _ = 256 ^ bytes.length * 256 := Nat.mul_comm _ _

/-! ### Records -/

/-- The bytes of some fields, each a width and a number. -/
def record (fields : List (Nat × Nat)) : List UInt8 := fields.flatMap fun f => encode f.1 f.2

def width (fields : List (Nat × Nat)) : Nat := (fields.map Prod.fst).sum

/-- A field in memory. -/
def field (mem : Bytes) (at_ width : Nat) : Nat := decode (slice mem at_ width)

theorem slice_length (mem : Bytes) (at_ n : Nat) : (slice mem at_ n).length = n := by
  unfold slice
  rw [List.length_map, List.length_range]

theorem field_lt (mem : Bytes) (at_ width : Nat) : field mem at_ width < 256 ^ width := by
  have less := decode_lt (slice mem at_ width)
  rwa [slice_length] at less

theorem record_append (fields more : List (Nat × Nat)) :
    record (fields ++ more) = record fields ++ record more :=
  List.flatMap_append

@[simp] theorem record_length (fields : List (Nat × Nat)) : (record fields).length = width fields := by
  unfold record width
  rw [List.length_flatMap]
  simp

/-- Where some bytes stand, each part of them stands where it does among them. -/
theorem slice_part {before part after : List UInt8} (mem : Bytes) (at_ : Nat)
    (there : slice mem at_ (before ++ part ++ after).length = before ++ part ++ after) :
    slice mem (at_ + before.length) part.length = part := by
  rw [List.length_append, List.length_append, slice_append, slice_append] at there
  obtain ⟨first, -⟩ := List.append_inj there (by simp [slice_length])
  exact (List.append_inj first (by simp [slice_length])).2

/-- A field of a record in memory is read back. -/
theorem field_record {before after : List (Nat × Nat)} (mem : Bytes) (at_ : Nat)
    (there : slice mem at_ (width (before ++ (w, n) :: after)) = record (before ++ (w, n) :: after))
    (fits : n < 256 ^ w) : field mem (at_ + width before) w = n := by
  have bytes : record (before ++ (w, n) :: after) = record before ++ encode w n ++ record after := by
    rw [record_append, List.append_assoc]
    rfl
  rw [← record_length, bytes] at there
  have part := slice_part mem at_ there
  rw [record_length, encode_length] at part
  unfold field
  rw [part, decode_encode, Nat.mod_eq_of_lt fits]

end Yaboot.BigEndian
