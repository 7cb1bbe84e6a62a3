import Yaboot.Base.StringBuffer
import Yaboot.Lib.Vsprintf

/-! `print_message_file`: a file is read into a buffer with room for a terminator, and is
printed through one without. -/
namespace Yaboot.Prompt.Message
open Buffer CString StringBuffer Vsprintf

def messageFileMax : Nat := 2048

/-- The size of `printf_buf`. -/
def printfBufSize : Nat := 2048

/-- What the read of `MESSAGE_FILE_MAX` bytes returns, and the bytes it delivers. -/
structure Read where
  count : Int
  bytes : Bytes
  most : count ≤ messageFileMax

/-- The bytes delivered. -/
def Read.content (r : Read) : List UInt8 := (List.range r.count.toNat).map r.bytes

/-- `vsprintf(printf_buf, fmt, ap)`: the buffer with the text and its terminator. -/
def promVprintf (buf : Bytes) (fmt : CStr) (args : List Arg) : Option Bytes :=
  (vsprintf fmt args).map (strcpy buf 0)

/-- `memset(msg, 0, MESSAGE_FILE_MAX + 1)`, and the read. -/
def fillMsg (heap : Bytes) (r : Read) : Bytes :=
  blit (blit heap 0 (messageFileMax + 1) fun _ => 0) 0 r.count.toNat r.bytes

/-- `print_message_file`: `printf_buf` when the text goes to `prom_puts`, if the message
comes to be printed. -/
def printMessageFile (parsed opened allocated : Bool) (r : Read) (heap buf : Bytes) :
    Option Bytes :=
  if !parsed then none
  else if !opened then none
  else if !allocated then none
  else if r.count ≤ 0 then none
  else promVprintf buf (cstr "%s") [.string (some (stringAt (fillMsg heap r) 0))]

/-! ### What is asked of it -/

/-- Nothing behind `printf_buf` is written, and the text is what was delivered up to its
first zero byte. -/
def PrintsRight (r : Read) : Prop :=
  ∀ (parsed opened allocated : Bool) (heap buf mem : Bytes),
    printMessageFile parsed opened allocated r heap buf = some mem →
      (∀ i, printfBufSize ≤ i → mem i = buf i) ∧ stringAt mem 0 = strdup r.content

/-! ### The message -/

variable {r : Read} {heap buf : Bytes}

theorem content_length (r : Read) : r.content.length = r.count.toNat := by simp [Read.content]

theorem content_le (r : Read) : r.content.length ≤ messageFileMax := by
  have most := r.most
  rw [content_length]
  omega

theorem strdup_length (buf : List UInt8) : (strdup buf).length ≤ buf.length :=
  (List.takeWhile_prefix _).length_le

theorem strdup_clean (buf : List UInt8) : 0 ∉ strdup buf := fun member => by
  have nonzero := List.mem_takeWhile_imp member
  simp at nonzero

/-- Behind the string there is a zero byte, or the end. -/
theorem strdup_getD (buf : List UInt8) : buf.getD (strdup buf).length 0 = 0 := by
  induction buf with
  | nil => rfl
  | cons b buf ih =>
    unfold strdup at ih ⊢
    rw [List.takeWhile_cons]
    split
    case isTrue more => exact ih
    case isFalse zero => simpa using zero

theorem fillMsg_getD (heap : Bytes) (r : Read) (inside : i ≤ messageFileMax) :
    fillMsg heap r i = r.content.getD i 0 := by
  have length := content_length r
  unfold fillMsg
  by_cases read : i < r.count.toNat
  · rw [blit_inside _ _ (Nat.zero_le i) (by omega), Nat.sub_zero,
      List.getD_eq_getElem _ _ (by omega)]
    simp [Read.content]
  · rw [blit_outside _ _ (by omega), blit_inside _ _ (Nat.zero_le i) (by omega),
      List.getD_eq_default _ _ (by omega)]

/-- The buffer holds what was delivered as a string. -/
theorem fillMsg_holds (heap : Bytes) (r : Read) :
    Holds (fillMsg heap r) 0 (strdup r.content) := by
  have most := content_le r
  have short := strdup_length r.content
  refine ⟨fun i le => ?_, strdup_clean _⟩
  rw [Nat.zero_add, fillMsg_getD heap r (by omega)]
  rcases Nat.lt_or_eq_of_le le with less | rfl
  · have same : r.content = strdup r.content ++ r.content.dropWhile (· != 0) :=
      List.takeWhile_append_dropWhile.symm
    conv_lhs => rw [same]
    exact List.getD_append _ _ _ _ less
  · rw [strdup_getD, List.getD_eq_default _ _ le_rfl]

theorem printMessageFile_some (some_ : 0 < r.count) (heap buf : Bytes) :
    printMessageFile true true true r heap buf = some (strcpy buf 0 (strdup r.content)) := by
  have most := content_le r
  have short := strdup_length r.content
  have limit : messageFileMax < 2 ^ 32 := by decide
  have text : stringAt (fillMsg heap r) 0 = strdup r.content :=
    (fillMsg_holds heap r).stringAt_eq (by omega)
  unfold printMessageFile promVprintf
  rw [text, vsprintf_string, if_neg (by decide), if_neg (by decide), if_neg (by decide),
    if_neg (Int.not_le.mpr some_)]
  rfl

theorem printMessageFile_eq {parsed opened allocated : Bool}
    (printed : printMessageFile parsed opened allocated r heap buf = some mem) :
    mem = strcpy buf 0 (strdup r.content) := by
  have some_ : 0 < r.count := by
    unfold printMessageFile at printed
    split_ifs at printed with _ _ _ none
    exact Int.not_le.mp none
  have all : parsed = true ∧ opened = true ∧ allocated = true := by
    cases parsed <;> cases opened <;> cases allocated <;>
      first | exact ⟨rfl, rfl, rfl⟩ | cases printed
  obtain ⟨rfl, rfl, rfl⟩ := all
  rw [printMessageFile_some some_] at printed
  exact (Option.some.inj printed).symm

/-- Text and terminator fit, unless there are as many bytes as were asked for and none of
them is zero. -/
theorem text_fits_iff (r : Read) : (strdup r.content).length < messageFileMax ↔
    r.count < messageFileMax ∨ ∃ i < messageFileMax, r.bytes i = 0 := by
  have size : messageFileMax = 2048 := rfl
  have most := r.most
  have length := content_length r
  have short := strdup_length r.content
  by_cases full : r.count < messageFileMax
  · exact iff_of_true (by omega) (.inl full)
  have count : r.count.toNat = messageFileMax := by omega
  have zero : 0 ∈ r.content ↔ ∃ i < messageFileMax, r.bytes i = 0 := by
    simp [Read.content, count]
  rw [or_iff_right full, ← zero]
  constructor
  · intro less
    by_contra clean
    have whole : strdup r.content = r.content := List.takeWhile_eq_self_iff.mpr fun b member => by
      simpa using ne_of_mem_of_not_mem member clean
    rw [whole] at less
    omega
  · intro member
    by_contra long
    have whole : strdup r.content = r.content :=
      (List.takeWhile_prefix _).eq_of_length (by unfold strdup at long short; omega)
    exact strdup_clean r.content (whole.symm ▸ member)

/-- With one byte more, the terminator comes behind `printf_buf`. -/
theorem PrintsRight.fits (right : PrintsRight r) : (strdup r.content).length < messageFileMax := by
  have sizes : printfBufSize = messageFileMax ∧ messageFileMax = 2048 := ⟨rfl, rfl⟩
  by_contra long
  have some_ : 0 < r.count := by
    have length := content_length r
    have short := strdup_length r.content
    omega
  have inside := (right true true true (fun _ => 0) (fun _ => 1) _
    (printMessageFile_some some_ _ _)).1 (strdup r.content).length (by omega)
  have ended := (strcpy_holds (fun _ => 1) 0 (strdup_clean r.content)).bytes _ le_rfl
  rw [Nat.zero_add, inside, List.getD_eq_default _ _ le_rfl] at ended
  exact absurd ended (by decide)

/-- `print_message_file` prints the file up to its first zero and stores inside its buffer only,
exactly when fewer bytes are delivered than asked for, or one of them is zero. -/
theorem printMessageFile_right_iff (r : Read) : PrintsRight r ↔
    r.count < messageFileMax ∨ ∃ i < messageFileMax, r.bytes i = 0 := by
  rw [← text_fits_iff]
  constructor
  · exact PrintsRight.fits
  · intro fits parsed opened allocated heap buf mem printed
    have sizes : printfBufSize = messageFileMax ∧ messageFileMax = 2048 := ⟨rfl, rfl⟩
    rw [printMessageFile_eq printed]
    refine ⟨fun i behind => strcpy_outside _ _ (.inr (by omega)), ?_⟩
    exact (strcpy_holds buf 0 (strdup_clean _)).stringAt_eq (by omega)

/-- As many bytes as are asked for, and none of them zero. -/
def fullMessage : Read := ⟨2048, fun _ => 65, le_rfl⟩

/-- A message of 2048 bytes, none of them zero: the terminator is stored behind the buffer. -/
theorem fullMessage_wrong : ¬ ∀ r, PrintsRight r := fun right => by
  rcases (text_fits_iff fullMessage).mp (right fullMessage).fits with less | ⟨i, -, zero⟩
  · exact absurd less (by decide)
  · exact absurd (show (65 : UInt8) = 0 from zero) (by decide)

end Yaboot.Prompt.Message
