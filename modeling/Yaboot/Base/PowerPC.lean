import Mathlib.Data.Nat.Bitwise
import Yaboot.Base.Buffer
import Yaboot.Base.Loop
import Yaboot.Base.Word

/-! The part of a big-endian 32-bit PowerPC that a routine working on bytes needs: the
instructions as functions on a state, named after their mnemonics, and a rule for the
loops that count down in `ctr`. -/
namespace Yaboot.PowerPC
open Buffer Loop Word

inductive Reg where
  | r0 | r3 | r4 | r5 | r6 | r7 | r8
  deriving DecidableEq, Repr

/-- A register holds a word. `cr0` is what the last comparison said. -/
structure State where
  reg : Reg → Nat
  word : ∀ r, reg r < 2 ^ 32
  ctr : Nat
  cr0 : Ordering
  mem : Bytes

namespace State

def set (s : State) (d : Reg) (value : Nat) : State :=
  { s with
    reg := fun r => if r = d then u32 value else s.reg r
    word := fun r => by
      by_cases same : r = d
      · rw [if_pos same]
        exact u32_lt value
      · rw [if_neg same]
        exact s.word r }

/-- What a displacement is added to: `r0` stands for zero there. -/
def base (s : State) (a : Reg) : Nat := if a = .r0 then 0 else s.reg a

/-- The address a displacement form reaches. -/
def address (s : State) (disp : Int) (a : Reg) : Nat := add32 (s.base a) disp

def setCtr (s : State) (value : Nat) : State := { s with ctr := value }

def setCr0 (s : State) (result : Ordering) : State := { s with cr0 := result }

def setMem (s : State) (mem : Bytes) : State := { s with mem := mem }

/-- What `bdnz` does before it branches. -/
def countDown (s : State) : State := s.setCtr (sub32 s.ctr 1)

section Fields
variable (s : State) (d r : Reg) (value : Nat) (result : Ordering) (mem : Bytes)

@[simp] theorem set_reg : (s.set d value).reg r = if r = d then u32 value else s.reg r := by
  rw [set]
@[simp] theorem set_ctr : (s.set d value).ctr = s.ctr := by rw [set]
@[simp] theorem set_cr0 : (s.set d value).cr0 = s.cr0 := by rw [set]
@[simp] theorem set_mem : (s.set d value).mem = s.mem := by rw [set]
@[simp] theorem setCtr_reg : (s.setCtr value).reg = s.reg := by rw [setCtr]
@[simp] theorem setCtr_ctr : (s.setCtr value).ctr = value := by rw [setCtr]
@[simp] theorem setCtr_cr0 : (s.setCtr value).cr0 = s.cr0 := by rw [setCtr]
@[simp] theorem setCtr_mem : (s.setCtr value).mem = s.mem := by rw [setCtr]
@[simp] theorem setCr0_reg : (s.setCr0 result).reg = s.reg := by rw [setCr0]
@[simp] theorem setCr0_ctr : (s.setCr0 result).ctr = s.ctr := by rw [setCr0]
@[simp] theorem setCr0_cr0 : (s.setCr0 result).cr0 = result := by rw [setCr0]
@[simp] theorem setCr0_mem : (s.setCr0 result).mem = s.mem := by rw [setCr0]
@[simp] theorem setMem_reg : (s.setMem mem).reg = s.reg := by rw [setMem]
@[simp] theorem setMem_ctr : (s.setMem mem).ctr = s.ctr := by rw [setMem]
@[simp] theorem setMem_cr0 : (s.setMem mem).cr0 = s.cr0 := by rw [setMem]
@[simp] theorem setMem_mem : (s.setMem mem).mem = mem := by rw [setMem]
@[simp] theorem countDown_reg : s.countDown.reg = s.reg := by rw [countDown, setCtr_reg]
@[simp] theorem countDown_mem : s.countDown.mem = s.mem := by rw [countDown, setCtr_mem]
@[simp] theorem countDown_cr0 : s.countDown.cr0 = s.cr0 := by rw [countDown, setCtr_cr0]
@[simp] theorem countDown_ctr : s.countDown.ctr = sub32 s.ctr 1 := by rw [countDown, setCtr_ctr]

end Fields

end State

/-! ### Loads and stores -/

def lwz (d : Reg) (disp : Int) (a : Reg) (s : State) : State :=
  s.set d (word32 s.mem (s.address disp a))

def lwzu (d : Reg) (disp : Int) (a : Reg) (s : State) : State :=
  (lwz d disp a s).set a (s.address disp a)

def lbz (d : Reg) (disp : Int) (a : Reg) (s : State) : State :=
  s.set d (s.mem (s.address disp a)).toNat

def lbzu (d : Reg) (disp : Int) (a : Reg) (s : State) : State :=
  (lbz d disp a s).set a (s.address disp a)

def stw (d : Reg) (disp : Int) (a : Reg) (s : State) : State :=
  s.setMem (store32 s.mem (s.address disp a) (s.reg d))

def stwu (d : Reg) (disp : Int) (a : Reg) (s : State) : State :=
  (stw d disp a s).set a (s.address disp a)

def stb (d : Reg) (disp : Int) (a : Reg) (s : State) : State :=
  s.setMem (blit s.mem (s.address disp a) 1 fun _ => UInt8.ofNat (s.reg d))

def stbu (d : Reg) (disp : Int) (a : Reg) (s : State) : State :=
  (stb d disp a s).set a (s.address disp a)

/-! ### Arithmetic and comparisons -/

def addi (d a : Reg) (value : Int) (s : State) : State := s.set d (s.address value a)

def subi (d a : Reg) (value : Int) (s : State) : State := addi d a (-value) s

def add (d a b : Reg) (s : State) : State := s.set d (s.reg a + s.reg b)

/-- `d = b - a`. -/
def subf (d a b : Reg) (s : State) : State := s.set d (sub32 (s.reg b) (s.reg a))

def subfic (d a : Reg) (value : Nat) (s : State) : State := s.set d (sub32 value (s.reg a))

def mr (d a : Reg) (s : State) : State := s.set d (s.reg a)

def li (d : Reg) (value : Nat) (s : State) : State := s.set d value

def mtctr (a : Reg) (s : State) : State := s.setCtr (s.reg a)

def cmplw (a b : Reg) (s : State) : State := s.setCr0 (compare (s.reg a) (s.reg b))

def cmplwi (a : Reg) (value : Nat) (s : State) : State := s.setCr0 (compare (s.reg a) value)

def cmpw (a b : Reg) (s : State) : State := s.setCr0 (compare (s32 (s.reg a)) (s32 (s.reg b)))

def cmpwi (a : Reg) (value : Int) (s : State) : State :=
  s.setCr0 (compare (s32 (s.reg a)) value)

@[simp] theorem u32_reg (s : State) (r : Reg) : u32 (s.reg r) = s.reg r := u32_of_lt (s.word r)

@[simp] theorem u32_word32 (mem : Bytes) (at_ : Nat) : u32 (word32 mem at_) = word32 mem at_ :=
  u32_of_lt (word32_lt mem at_)

@[simp] theorem cmplw_gt (a b : Reg) (s : State) :
    (cmplw a b s).cr0 = .gt ↔ s.reg b < s.reg a := by
  rw [cmplw, State.setCr0_cr0, Nat.compare_eq_gt]

@[simp] theorem cmplwi_lt (a : Reg) (value : Nat) (s : State) :
    (cmplwi a value s).cr0 = .lt ↔ s.reg a < value := by
  rw [cmplwi, State.setCr0_cr0, Nat.compare_eq_lt]

@[simp] theorem cmpwi_zero (a : Reg) (s : State) : (cmpwi a 0 s).cr0 = .eq ↔ s.reg a = 0 := by
  rw [cmpwi, State.setCr0_cr0, compare_eq_iff_eq]
  exact s32_eq_zero_iff (s.word a)

/-- The forms with a dot compare what they store with zero. -/
def andiDot (d a : Reg) (value : Nat) (s : State) : State := cmpwi d 0 (s.set d (s.reg a &&& value))

def subfDot (d a b : Reg) (s : State) : State := cmpwi d 0 (subf d a b s)

def rotl (n sh : Nat) : Nat := u32 (n <<< sh) ||| n >>> (32 - sh)

/-- The bits from `mb` to `me`, counted from the left. -/
def mask (mb me : Nat) : Nat := 2 ^ (32 - mb) - 2 ^ (31 - me)

def rlwinm (d a : Reg) (sh mb me : Nat) (s : State) : State :=
  s.set d (rotl (s.reg a) sh &&& mask mb me)

/-- The bits of the mask come from the rotated word, and the others stay. -/
def rlwimi (d a : Reg) (sh mb me : Nat) (s : State) : State :=
  s.set d (rotl (s.reg a) sh &&& mask mb me ||| s.reg d &&& (2 ^ 32 - 1 - mask mb me))

def rlwinmDot (d a : Reg) (sh mb me : Nat) (s : State) : State :=
  cmpwi d 0 (s.set d (rotl (s.reg a) sh &&& mask mb me))

/-- Rotating to the left by `32 - k` and dropping the first `k` bits shifts to the right. -/
theorem rotl_mask (n : Nat) (word : n < 2 ^ 32) (k : Nat) (small : k ≤ 32) :
    rotl n (32 - k) &&& mask k 31 = n / 2 ^ k := by
  have low : n >>> k < 2 ^ (32 - k) := by
    rw [Nat.shiftRight_eq_div_pow, Nat.div_lt_iff_lt_mul (Nat.two_pow_pos k), ← Nat.pow_add,
      Nat.sub_add_cancel small]
    exact word
  have high : u32 (n <<< (32 - k)) % 2 ^ (32 - k) = 0 := by
    rw [u32, Nat.mod_mod_of_dvd _ (Nat.pow_dvd_pow 2 (Nat.sub_le 32 k)), Nat.shiftLeft_eq,
      Nat.mul_mod_left]
  unfold rotl mask
  rw [Nat.sub_sub_self small, Nat.sub_self, Nat.pow_zero, Nat.and_two_pow_sub_one_eq_mod,
    Nat.or_mod_two_pow, high, Nat.zero_or, Nat.mod_eq_of_lt low, Nat.shiftRight_eq_div_pow]

section Dot
variable {k value : Nat} (s : State) (d a r : Reg)

theorem andiDot_reg (power : value + 1 = 2 ^ k) :
    (andiDot d a value s).reg r = if r = d then s.reg a % 2 ^ k else s.reg r := by
  have low : s.reg a &&& value = s.reg a % 2 ^ k := by
    rw [← Nat.and_two_pow_sub_one_eq_mod, ← power, Nat.add_sub_cancel]
  rw [andiDot, cmpwi, State.setCr0_reg, State.set_reg, low,
    u32_of_lt ((Nat.mod_le _ _).trans_lt (s.word a))]

theorem andiDot_eq (power : value + 1 = 2 ^ k) :
    (andiDot d a value s).cr0 = .eq ↔ s.reg a % 2 ^ k = 0 := by
  have result := andiDot_reg s d a d power
  rw [if_pos rfl, andiDot, cmpwi, State.setCr0_reg] at result
  rw [andiDot, cmpwi_zero, result]

theorem rlwinmDot_reg (small : k ≤ 32) :
    (rlwinmDot d a (32 - k) k 31 s).reg r = if r = d then s.reg a / 2 ^ k else s.reg r := by
  rw [rlwinmDot, cmpwi, State.setCr0_reg, State.set_reg, rotl_mask _ (s.word a) k small,
    u32_of_lt ((Nat.div_le_self _ _).trans_lt (s.word a))]

theorem rlwinmDot_eq (small : k ≤ 32) :
    (rlwinmDot d a (32 - k) k 31 s).cr0 = .eq ↔ s.reg a / 2 ^ k = 0 := by
  have result := rlwinmDot_reg s d a d small
  rw [if_pos rfl, rlwinmDot, cmpwi, State.setCr0_reg] at result
  rw [rlwinmDot, cmpwi_zero, result]

@[simp] theorem andiDot_mem : (andiDot d a value s).mem = s.mem := by simp [andiDot, cmpwi]

@[simp] theorem andiDot_ctr : (andiDot d a value s).ctr = s.ctr := by simp [andiDot, cmpwi]

@[simp] theorem rlwinmDot_mem (sh mb me : Nat) : (rlwinmDot d a sh mb me s).mem = s.mem := by
  simp [rlwinmDot, cmpwi]

@[simp] theorem rlwinmDot_ctr (sh mb me : Nat) : (rlwinmDot d a sh mb me s).ctr = s.ctr := by
  simp [rlwinmDot, cmpwi]

end Dot

/-! ### Loops -/

/-- A loop may be left from inside its body. -/
abbrev Turn := Round State State

/-- There is no state behind a loop that goes on after 2^32 rounds. -/
def loop (body : State → Turn) (s : State) : Option State := spin body (2 ^ 32) s

/-- A branch back to the head of a loop that is left where the branch is not taken. -/
def bneBack (s : State) : Turn := if s.cr0 ≠ .eq then .again s else .out s

def beqBack (s : State) : Turn := if s.cr0 = .eq then .again s else .out s

/-- Counting down, and going back for as long as the last comparison said no. -/
def bdnzf (s : State) : Turn :=
  let s := s.countDown
  if s.ctr ≠ 0 ∧ s.cr0 ≠ .eq then .again s else .out s

/-- Counting down, and going back for as long as the last comparison said yes. -/
def bdnzt (s : State) : Turn :=
  let s := s.countDown
  if s.ctr ≠ 0 ∧ s.cr0 = .eq then .again s else .out s

theorem bneBack_meets {next post : State → Prop} (more : s.cr0 ≠ .eq → next s)
    (done : s.cr0 = .eq → post s) : (bneBack s).Meets next post := by
  unfold bneBack
  split
  case isTrue other => exact .again (more other)
  case isFalse same => exact .out (done (not_not.mp same))

theorem beqBack_meets {next post : State → Prop} (more : s.cr0 = .eq → next s)
    (done : s.cr0 ≠ .eq → post s) : (beqBack s).Meets next post := by
  unfold beqBack
  split
  case isTrue same => exact .again (more same)
  case isFalse other => exact .out (done other)

theorem bdnzf_meets {next post : State → Prop}
    (more : s.countDown.ctr ≠ 0 → s.cr0 ≠ .eq → next s.countDown)
    (done : s.countDown.ctr = 0 ∨ s.cr0 = .eq → post s.countDown) :
    (bdnzf s).Meets next post := by
  rw [← s.countDown_cr0] at more done
  unfold bdnzf
  generalize s.countDown = counted at more done
  dsimp only
  split
  case isTrue both => exact .again (more both.1 both.2)
  case isFalse either =>
    rw [not_and_or, not_not, not_not] at either
    exact .out (done either)

theorem bdnzt_meets {next post : State → Prop}
    (more : s.countDown.ctr ≠ 0 → s.cr0 = .eq → next s.countDown)
    (done : s.countDown.ctr = 0 ∨ s.cr0 ≠ .eq → post s.countDown) :
    (bdnzt s).Meets next post := by
  rw [← s.countDown_cr0] at more done
  unfold bdnzt
  generalize s.countDown = counted at more done
  dsimp only
  split
  case isTrue both => exact .again (more both.1 both.2)
  case isFalse either =>
    rw [not_and_or, not_not] at either
    exact .out (done either)

theorem loop_rule {body : State → Turn} {s : State} (inv : Nat → State → Prop)
    (post : State → Prop)
    (step : ∀ left s, inv left s → (body s).Meets (fun next => ∃ less < left, inv less next) post)
    (start : inv left s) (enough : left < 2 ^ 32) : Returns (loop body s) post :=
  spin_rule inv post step start enough

/-- A body that ends in `bdnz`, for at most `fuel` rounds. -/
def rounds (body : State → State) : Nat → State → State
  | 0, s => s
  | fuel + 1, s =>
    let s := (body s).countDown
    if s.ctr = 0 then s else rounds body fuel s

/-- A body that ends in `bdnz`. Where it leaves `ctr` alone, it is run 2^32 times at most. -/
def bdnz (body : State → State) (s : State) : State := rounds body (2 ^ 32) s

/-- What holds with `left` rounds to go, for each `left` from `ctr` down, holds at the end. -/
theorem bdnz_rule {body : State → State} {s : State} (inv : Nat → State → Prop)
    (keeps : ∀ s, (body s).ctr = s.ctr) (word : s.ctr < 2 ^ 32) (positive : 0 < s.ctr)
    (step : ∀ left s, inv (left + 1) s → inv left (body s).countDown) (start : inv s.ctr s) :
    inv 0 (bdnz body s) := by
  have run : ∀ fuel s, s.ctr < 2 ^ 32 → 0 < s.ctr → s.ctr ≤ fuel → inv s.ctr s →
      inv 0 (rounds body fuel s) := by
    intro fuel
    induction fuel with
    | zero =>
      intro s _ positive enough _
      exact absurd positive (Nat.not_lt.mpr enough)
    | succ fuel ih =>
      intro s word positive enough holds
      obtain ⟨left, count⟩ := Nat.exists_eq_succ_of_ne_zero positive.ne'
      have next : (body s).countDown.ctr = left := by
        rw [State.countDown, State.setCtr_ctr, keeps, sub32_of_le word positive, count,
          Nat.succ_sub_one]
      rw [count] at holds
      have holds := step left s holds
      unfold rounds
      dsimp only
      split
      case isTrue done =>
        rw [next] at done
        rwa [done] at holds
      case isFalse more =>
        refine ih _ (by omega) (by omega) (by omega) ?_
        rwa [next]
  exact run _ s word positive word.le start

end Yaboot.PowerPC
