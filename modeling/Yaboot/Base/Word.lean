import Mathlib.Data.Int.Basic
import Mathlib.Algebra.Order.Ring.Nat

/-! Fixed-width C integers as natural numbers kept below a power of two. A
conversion is written where the source's type makes one. -/
namespace Yaboot.Word

def u16 (n : Nat) : Nat := n % 2 ^ 16
def u32 (n : Nat) : Nat := n % 2 ^ 32
def u64 (n : Nat) : Nat := n % 2 ^ 64

/-- Unsigned subtraction on 32 bits. -/
def sub32 (a b : Nat) : Nat := (a + (2 ^ 32 - b % 2 ^ 32)) % 2 ^ 32

/-- Unsigned subtraction on 64 bits. -/
def sub64 (a b : Nat) : Nat := (a + (2 ^ 64 - b % 2 ^ 64)) % 2 ^ 64

/-- The `int` a 32-bit word stands for. -/
def s32 (n : Nat) : Int := if n % 2 ^ 32 < 2 ^ 31 then (n % 2 ^ 32 : Nat) else (n % 2 ^ 32 : Nat) - 2 ^ 32

/-- The 64-bit word an `int` is converted to. -/
def ofInt64 (i : Int) : Nat := (i % 2 ^ 64).toNat

/-- Adding an `int` to a 64-bit word extends its sign first. -/
def add64 (n : Nat) (i : Int) : Nat := ((n + i) % 2 ^ 64).toNat

/-- Adding a signed constant on 32 bits. -/
def add32 (n : Nat) (i : Int) : Nat := ((n + i) % 2 ^ 32).toNat

theorem u32_of_lt (fits : n < 2 ^ 32) : u32 n = n := Nat.mod_eq_of_lt fits

theorem u64_of_lt (fits : n < 2 ^ 64) : u64 n = n := Nat.mod_eq_of_lt fits

theorem u32_lt (n : Nat) : u32 n < 2 ^ 32 := Nat.mod_lt _ (by decide)

theorem sub32_of_le (fits : a < 2 ^ 32) (le : b ≤ a) : sub32 a b = a - b := by
  unfold sub32
  omega

theorem s32_of_lt (fits : n < 2 ^ 31) : s32 n = n := by
  unfold s32
  have small : n % 2 ^ 32 = n := Nat.mod_eq_of_lt (by omega)
  rw [small, if_pos fits]

theorem s32_of_ge (large : 2 ^ 31 ≤ n) (fits : n < 2 ^ 32) : s32 n = (n : Int) - 2 ^ 32 := by
  unfold s32
  have small : n % 2 ^ 32 = n := Nat.mod_eq_of_lt fits
  rw [small, if_neg (by omega)]

theorem sub64_of_le (fits : a < 2 ^ 64) (le : b ≤ a) : sub64 a b = a - b := by
  unfold sub64
  omega

theorem ofInt64_of_lt {n : Nat} (fits : n < 2 ^ 64) : ofInt64 n = n := by
  unfold ofInt64
  omega

theorem add64_of_lt {n k : Nat} (fits : n + k < 2 ^ 64) : add64 n (k : Int) = n + k := by
  unfold add64
  omega

theorem add32_of_eq {n m : Nat} {i : Int} (sum : (n : Int) + i = m) (fits : m < 2 ^ 32) :
    add32 n i = m := by
  unfold add32
  omega

theorem add32_add32 (n : Nat) (i j : Int) : add32 (add32 n i) j = add32 n (i + j) := by
  unfold add32
  omega

theorem add32_congr {n m : Nat} {i j : Int} (same : (n : Int) + i = m + j) :
    add32 n i = add32 m j := by
  unfold add32
  rw [same]

theorem add32_lt (n : Nat) (i : Int) : add32 n i < 2 ^ 32 := by
  unfold add32
  omega

@[simp] theorem u32_add32 (n : Nat) (i : Int) : u32 (add32 n i) = add32 n i :=
  u32_of_lt (add32_lt n i)

@[simp] theorem u32_toNat (b : UInt8) : u32 b.toNat = b.toNat :=
  u32_of_lt (b.toNat_lt.trans (by decide))

theorem s32_eq_zero_iff (fits : n < 2 ^ 32) : s32 n = 0 ↔ n = 0 := by
  unfold s32
  rw [Nat.mod_eq_of_lt fits]
  split <;> omega

end Yaboot.Word
