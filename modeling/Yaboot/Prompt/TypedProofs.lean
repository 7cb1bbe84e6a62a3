import Yaboot.Prompt.RebootProofs

/-! Lines typed at the prompt: how long they are, and what a call settles on that
is answered with one. -/
namespace Yaboot.Prompt
open CString Cfg Fs

/-! ### The line editor -/

theorem strdup_set_zero (buf : List UInt8) (x : Nat) : (strdup (buf.set x 0)).length ≤ x := by
  unfold strdup
  induction buf generalizing x with
  | nil => exact Nat.zero_le x
  | cons c buf ih =>
    cases x with
    | zero => simp
    | succ x =>
      rw [List.set_cons_succ, List.takeWhile_cons]
      split
      · exact Nat.succ_le_succ (ih x)
      · exact Nat.zero_le _

/-- No more than 511 bytes are typed. -/
theorem cmdeditLoop_short (w : World) (keys : List UInt8) (short : x ≤ 511) (buff : List UInt8) :
    (strdup (cmdeditLoop w keys x buff)).length ≤ 511 := by
  induction keys generalizing x buff with
  | nil => exact (strdup_set_zero buff x).trans short
  | cons c keys ih =>
    unfold cmdeditLoop
    split
    · exact (strdup_set_zero buff x).trans short
    · split
      · split
        · exact ih (by omega) _
        · exact ih short _
      · split
        · dsimp only
          split
          · exact (strdup_set_zero _ 1).trans (by omega)
          · exact ih (by omega) _
        · exact ih short _

theorem cmdedit_short (w : World) (keys buff : List UInt8) :
    (strdup (cmdedit w keys buff)).length ≤ 511 :=
  cmdeditLoop_short w keys (Nat.min_le_right _ 511) buff

/-! ### A call that is answered with a line -/

/-- The line that is typed has these words. -/
def Types (w : World) (inp : Input) (st : Statics) (t : Texts) : Prop :=
  ∃ st₀, prompt w inp st = typedLine w inp st₀ ∧
    Texts.ofLine (strdup (cmdedit w inp.keys st₀.cbuff)) = t

theorem Types.texts (typed : Types w inp st t) :
    (prompt w inp st).2.texts w (prompt w inp st).1 = t := by
  obtain ⟨st₀, answered, line⟩ := typed
  rw [answered, typedLine_texts, line]

theorem Types.apart (typed : Types w inp st t) : (prompt w inp st).2.Apart := by
  obtain ⟨st₀, answered, _⟩ := typed
  rw [answered]
  intro at_
  unfold typedLine Words.choice
  dsimp only
  constructor
  · cases (wordSplit (cmdedit w inp.keys st₀.cbuff)).line <;> simp
  · cases (wordSplit (cmdedit w inp.keys st₀.cbuff)).params <;> simp

theorem otherWords_length (held : otherWords line = some args) : args.length ≤ line.length := by
  unfold otherWords at held
  dsimp only at held
  split at held
  · cases held
  · cases held
    unfold dropBlanks
    exact ((List.dropWhile_suffix _).trans ((List.dropWhile_suffix _).trans
      (List.dropWhile_suffix _))).length_le

theorem firstWord_length (held : firstWord line = some name) : name.length ≤ line.length := by
  unfold firstWord at held
  split at held
  · cases held
  · cases held
    exact (List.takeWhile_prefix _).length_le.trans (List.dropWhile_suffix _).length_le

theorem Types.short (typed : Types w inp st ⟨some name, args⟩) :
    name.length ≤ 511 ∧ ∀ text, args = some text → text.length ≤ 511 := by
  obtain ⟨st₀, _, line⟩ := typed
  have short := cmdedit_short w inp.keys st₀.cbuff
  constructor
  · exact (firstWord_length (congrArg Texts.name line)).trans short
  · intro text held
    exact (otherWords_length ((congrArg Texts.args line).trans held)).trans short

end Yaboot.Prompt
