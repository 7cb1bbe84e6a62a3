import Mathlib.Data.Nat.Basic

/-! Memory a reader fills, and the two facts its callers rely on: what the
bytes handed over are, and that nothing behind them was touched. -/
namespace Yaboot.Buffer

abbrev Bytes := Nat → UInt8

/-- `memcpy(mem + start, src, n)`. -/
def blit (mem : Bytes) (start n : Nat) (src : Bytes) : Bytes :=
  fun i => if start ≤ i ∧ i < start + n then src (i - start) else mem i

/-- The first `n` bytes of `mem` are those of `content` from `pos` on. -/
def Copied (content mem : Bytes) (pos n : Nat) : Prop := ∀ i < n, mem i = content (pos + i)

/-- From byte `n` on, `mem` is still `old`. -/
def Kept (old mem : Bytes) (n : Nat) : Prop := ∀ i, n ≤ i → mem i = old i

/-- Words are big-endian. -/
def word16 (b : Bytes) (at_ : Nat) : Nat := (b at_).toNat * 256 + (b (at_ + 1)).toNat

def word32 (b : Bytes) (at_ : Nat) : Nat := word16 b at_ * 65536 + word16 b (at_ + 2)

/-- `*(int *)(mem + at_) = value`. -/
def store32 (mem : Bytes) (at_ value : Nat) : Bytes :=
  blit mem at_ 4 fun k =>
    if k = 0 then UInt8.ofNat (value / 16777216)
    else if k = 1 then UInt8.ofNat (value / 65536)
    else if k = 2 then UInt8.ofNat (value / 256)
    else UInt8.ofNat value

/-- What the caller of a read routine observes. -/
structure Outcome where
  returned : Int
  pos : Nat
  mem : Bytes

/-- A transfer of exactly `n` bytes. -/
structure Delivered (content old mem : Bytes) (pos n : Nat) : Prop where
  copied : Copied content mem pos n
  kept : Kept old mem n

theorem blit_inside (mem src : Bytes) (before : start ≤ i) (inside : i < start + n) :
    blit mem start n src i = src (i - start) := if_pos ⟨before, inside⟩

theorem blit_outside (mem src : Bytes) (outside : i < start ∨ start + n ≤ i) :
    blit mem start n src i = mem i := by
  apply if_neg
  omega

theorem blit_congr {mem : Bytes} (same : ∀ k < n, src k = src' k) :
    blit mem start n src = blit mem start n src' := by
  funext i
  unfold blit
  split
  · exact same _ (by omega)
  · rfl

@[simp] theorem blit_zero (mem src : Bytes) (start : Nat) : blit mem start 0 src = mem := by
  funext i
  exact blit_outside mem src (by omega)

theorem blit_blit (mem src more : Bytes) (start n k : Nat) :
    blit (blit mem start n src) (start + n) k more =
      blit mem start (n + k) fun i => if i < n then src i else more (i - n) := by
  funext i
  by_cases below : i < start
  · rw [blit_outside _ _ (.inl (by omega)), blit_outside _ _ (.inl below),
      blit_outside _ _ (.inl below)]
  by_cases first : i < start + n
  · rw [blit_outside _ _ (.inl first), blit_inside _ _ (by omega) first,
      blit_inside _ _ (by omega) (by omega), if_pos (by omega)]
  by_cases second : i < start + n + k
  · rw [blit_inside _ _ (by omega) second, blit_inside _ _ (by omega) (by omega),
      if_neg (by omega), Nat.sub_add_eq]
  · rw [blit_outside _ _ (.inr (by omega)), blit_outside _ _ (.inr (by omega)),
      blit_outside _ _ (.inr (by omega))]

theorem word32_congr (same : ∀ i, at_ ≤ i → i < at_ + 4 → mem i = mem' i) :
    word32 mem at_ = word32 mem' at_ := by
  unfold word32 word16
  rw [same at_ (by omega) (by omega), same (at_ + 1) (by omega) (by omega),
    same (at_ + 2) (by omega) (by omega), same (at_ + 2 + 1) (by omega) (by omega)]

theorem store32_outside (mem : Bytes) (value : Nat) (outside : i < at_ ∨ at_ + 4 ≤ i) :
    store32 mem at_ value i = mem i := blit_outside mem _ outside

theorem word32_store32 (mem : Bytes) (at_ : Nat) (fits : value < 4294967296) :
    word32 (store32 mem at_ value) at_ = value := by
  unfold word32 word16 store32
  rw [blit_inside _ _ (by omega) (by omega), blit_inside _ _ (by omega) (by omega),
    blit_inside _ _ (by omega) (by omega), blit_inside _ _ (by omega) (by omega)]
  rw [show at_ - at_ = 0 by omega, show at_ + 1 - at_ = 1 by omega,
    show at_ + 2 - at_ = 2 by omega, show at_ + 2 + 1 - at_ = 3 by omega]
  simp only [UInt8.toNat_ofNat', if_true, if_neg (by decide : ¬ (1 = 0)),
    if_neg (by decide : ¬ (2 = 0)), if_neg (by decide : ¬ (2 = 1)),
    if_neg (by decide : ¬ (3 = 0)), if_neg (by decide : ¬ (3 = 1)),
    if_neg (by decide : ¬ (3 = 2))]
  omega

theorem word16_lt (mem : Bytes) (at_ : Nat) : word16 mem at_ < 65536 := by
  have high := (mem at_).toNat_lt
  have low := (mem (at_ + 1)).toNat_lt
  unfold word16
  omega

theorem word32_lt (mem : Bytes) (at_ : Nat) : word32 mem at_ < 4294967296 := by
  have high := word16_lt mem at_
  have low := word16_lt mem (at_ + 2)
  unfold word32
  omega

/-- Storing a word that was read moves four bytes. -/
theorem store32_word32 (mem src : Bytes) (at_ start : Nat) :
    store32 mem at_ (word32 src start) = blit mem at_ 4 fun k => src (start + k) := by
  have byte : ∀ k < 4, (if k = 0 then UInt8.ofNat (word32 src start / 16777216)
      else if k = 1 then UInt8.ofNat (word32 src start / 65536)
      else if k = 2 then UInt8.ofNat (word32 src start / 256)
      else UInt8.ofNat (word32 src start)) = src (start + k) := by
    have first := (src start).toNat_lt
    have second := (src (start + 1)).toNat_lt
    have third := (src (start + 2)).toNat_lt
    have last := (src (start + 3)).toNat_lt
    intro k inside
    apply UInt8.toNat_inj.mp
    unfold word32 word16
    rw [show start + 2 + 1 = start + 3 from rfl]
    match k with
    | 0 | 1 | 2 | 3 =>
      simp [UInt8.toNat_ofNat'] <;> omega
  exact blit_congr byte

/-! ### Runs of bytes -/

/-- `n` bytes of `mem` as a list. -/
def slice (mem : Bytes) (at_ n : Nat) : List UInt8 := (List.range n).map fun i => mem (at_ + i)

theorem slice_congr (mem' : Bytes) (same : ∀ i < n, mem (at_ + i) = mem' (at_ + i)) :
    slice mem at_ n = slice mem' at_ n :=
  List.map_congr_left fun i inside => same i (List.mem_range.mp inside)

theorem slice_append (mem : Bytes) (at_ n k : Nat) :
    slice mem at_ (n + k) = slice mem at_ n ++ slice mem (at_ + n) k := by
  simp [slice, List.range_add, Nat.add_assoc]

theorem slice_blit (mem src : Bytes) (at_ n : Nat) :
    slice (blit mem at_ n src) at_ n = (List.range n).map src := by
  refine List.map_congr_left fun i inside => ?_
  have inside := List.mem_range.mp inside
  rw [blit_inside mem src (by omega) (by omega), Nat.add_sub_cancel_left]

/-- The bytes of a big-endian word. -/
def bytes32 (value : Nat) : List UInt8 :=
  [UInt8.ofNat (value / 16777216), UInt8.ofNat (value / 65536), UInt8.ofNat (value / 256),
    UInt8.ofNat value]

theorem slice_store32 (mem : Bytes) (at_ value : Nat) :
    slice (store32 mem at_ value) at_ 4 = bytes32 value := slice_blit mem _ at_ 4

theorem Copied.none (content mem : Bytes) (pos : Nat) : Copied content mem pos 0 := by
  intro i inside
  omega

/-- Whatever is stored behind the bytes already copied leaves them alone. -/
theorem Copied.behind (copied : Copied content mem pos n) (junk : Bytes) (k : Nat) :
    Copied content (blit mem n k junk) pos n := by
  intro i inside
  rw [blit_outside _ _ (.inl inside), copied i inside]

theorem Copied.extend (copied : Copied content mem pos n)
    (same : ∀ i < k, src i = content (pos + n + i)) :
    Copied content (blit mem n k src) pos (n + k) := by
  intro i inside
  by_cases before : i < n
  · exact copied.behind src k i before
  · rw [blit_inside _ _ (by omega) inside, same _ (by omega)]
    congr 1
    omega

theorem Kept.refl (mem : Bytes) (n : Nat) : Kept mem mem n := fun _ _ => rfl

theorem Kept.extend (kept : Kept old mem n) (src : Bytes) (k : Nat) :
    Kept old (blit mem n k src) (n + k) := by
  intro i behind
  rw [blit_outside _ _ (.inr behind), kept i (by omega)]

/-- Two transfers of the same bytes into one memory end in the same memory. -/
theorem Delivered.unique (first : Delivered content old mem pos n)
    (second : Delivered content old mem' pos n) : mem = mem' := by
  funext i
  by_cases inside : i < n
  · rw [first.copied i inside, second.copied i inside]
  · rw [first.kept i (by omega), second.kept i (by omega)]

end Yaboot.Buffer
