import Yaboot.Prompt.EditorProofs

/-! Who gets past `check_password`, and what those who look on learn: it returns to those
who type the password in three lines, and prints the same whatever else is typed. -/
namespace Yaboot.Prompt.Editor
open Buffer CString Terminal

variable {w : World} {e e' e₁ e₂ : Editing} {line start keys keys₁ keys₂ buff buff₁ buff₂ : List UInt8}
  {c c₁ c₂ : UInt8} {correct correct₁ correct₂ : CStr → Option Bool} {left : Nat}

/-! ### The lines typed -/

/-- The lines that are ended by the keys, `line` being what was typed before. -/
def linesFrom (line : List UInt8) : List UInt8 → List (List UInt8)
  | [] => []
  | c :: keys => if Finishes c then line :: linesFrom [] keys else linesFrom (press line c) keys

/-- A line, and those behind it, unless more keys are waited for. -/
def andLater (line : List UInt8) : Option (List UInt8) → List (List UInt8)
  | none => []
  | some rest => line :: linesFrom [] rest

theorem linesFrom_append {before : List UInt8} (goes : ∀ c ∈ before, ¬ Finishes c)
    (line keys : List UInt8) :
    linesFrom line (before ++ keys) = linesFrom (before.foldl press line) keys := by
  induction before generalizing line with
  | nil => rfl
  | cons c before ih =>
    rw [List.cons_append, linesFrom, if_neg (goes c List.mem_cons_self)]
    exact ih (fun d member => goes d (List.mem_cons_of_mem _ member)) (press line c)

/-- A line that is read for a password is the first one typed. -/
theorem Typed.lines (typed : Typed w true start keys line rest) :
    linesFrom start keys = andLater line rest := by
  obtain ⟨before, goes, rfl, ends⟩ := typed.pressed
  cases rest with
  | none =>
    obtain rfl := ends
    have whole := linesFrom_append goes start []
    rwa [List.append_nil] at whole
  | some rest =>
    rcases ends with ⟨c, finishes, rfl⟩ | ⟨-, open_, -⟩
    · rw [linesFrom_append goes, linesFrom, if_pos finishes]
      rfl
    · cases open_

/-- The buffer as `check_password` hands it over. -/
theorem ready_cleared (size : buff.length = cmdLeng) : Ready (buff.set 0 0) := by
  have nothing : strdup (buff.set 0 0) = [] := by cases buff <;> rfl
  refine ⟨by rw [List.length_set, size], ?_, ?_⟩
  · rw [nothing]
    exact Nat.zero_le 1
  · rw [nothing]
    exact fun c member => absurd member List.not_mem_nil

theorem Holds.size (holds : Holds e line) : e.buff.length = cmdLeng := by
  obtain ⟨rest, same, size⟩ := holds.buff
  rw [same, List.length_append, List.length_cons]
  unfold cmdLeng at size ⊢
  omega

/-- The editor reads the first line typed, in a buffer that stays as large. -/
theorem cmdedit_line (w : World) (size : buff.length = cmdLeng) (keys : List UInt8) :
    (cmdedit w none true keys (buff.set 0 0)).1.buff.length = cmdLeng ∧
      linesFrom [] keys = andLater (strdup (cmdedit w none true keys (buff.set 0 0)).1.buff)
        (cmdedit w none true keys (buff.set 0 0)).2 := by
  have ready := ready_cleared size
  have nothing : strdup (buff.set 0 0) = [] := by cases buff <;> rfl
  have nowhere : ∀ c ∈ ([] : List UInt8), Glyph c := fun c member =>
    absurd member List.not_mem_nil
  have reprints : Reprints [] none := .inl rfl
  have start : Follows true ⟨[], []⟩ [] (startEdit true (buff.set 0 0)) (strdup (buff.set 0 0)) :=
    startEdit_follows ready ⟨rfl, fun c member => absurd member List.not_mem_nil⟩
  obtain ⟨line, follows, typed⟩ := editKeys_follows (w := w) reprints nowhere start keys
  rw [nothing] at typed
  refine ⟨follows.holds.size, ?_⟩
  have string : strdup (cmdedit w none true keys (buff.set 0 0)).1.buff = line :=
    follows.holds.string
  rw [string]
  exact typed.lines

/-! ### The verdict -/

/-- What `check_password` makes of the lines typed. -/
def judge (correct : CStr → Option Bool) : Nat → List (List UInt8) → Option Verdict
  | 0, _ => some .reset
  | _ + 1, [] => none
  | left + 1, line :: rest =>
    match correct line with
    | none => some .undefined
    | some true => some .returned
    | some false => judge correct left rest

/-- The verdict is that on the lines typed, in the order of the attempts. -/
theorem askPassword_judge (w : World) (correct : CStr → Option Bool) (left : Nat)
    (size : buff.length = cmdLeng) (keys : List UInt8) :
    (askPassword w correct left keys buff).verdict.map Prod.fst =
      judge correct left (linesFrom [] keys) := by
  induction left generalizing keys buff with
  | zero => rfl
  | succ left ih =>
    obtain ⟨kept, lines⟩ := cmdedit_line w size keys
    unfold askPassword
    dsimp only
    generalize cmdedit w none true keys (buff.set 0 0) = edited at kept lines ⊢
    obtain ⟨e, rest⟩ := edited
    rw [lines]
    cases rest with
    | none => rfl
    | some rest =>
      dsimp only at kept ⊢
      rw [andLater, judge]
      cases correct (strdup e.buff) with
      | none => rfl
      | some right =>
        cases right with
        | true => rfl
        | false => exact ih kept rest

/-- The verdict is good exactly if a line is right before the attempts are used up. -/
theorem judge_returned : judge correct left lines = some .returned ↔
    ∃ wrong line later, lines = wrong ++ line :: later ∧ wrong.length < left ∧
      (∀ l ∈ wrong, correct l = some false) ∧ correct line = some true := by
  induction left generalizing lines with
  | zero => simp [judge]
  | succ left ih =>
    cases lines with
    | nil => simp [judge]
    | cons first rest =>
      rw [judge]
      constructor
      · intro returned
        split at returned
        · cases returned
        · rename_i right
          exact ⟨[], first, rest, rfl, Nat.succ_pos _, fun _ member => absurd member List.not_mem_nil,
            right⟩
        · rename_i false_
          obtain ⟨wrong, line, later, rfl, few, all, right⟩ := ih.mp returned
          refine ⟨first :: wrong, line, later, rfl, Nat.succ_lt_succ few, fun l member => ?_, right⟩
          rcases List.mem_cons.mp member with rfl | member
          · exact false_
          · exact all l member
      · rintro ⟨wrong, line, later, same, few, all, right⟩
        cases wrong with
        | nil =>
          obtain ⟨rfl, rfl⟩ := List.cons.inj same
          rw [right]
        | cons l wrong =>
          obtain ⟨rfl, rfl⟩ := List.cons.inj same
          rw [all first List.mem_cons_self]
          exact ih.mpr ⟨wrong, line, later, rfl, Nat.lt_of_succ_lt_succ few,
            fun l member => all l (List.mem_cons_of_mem _ member), right⟩

/-- The machine is reset exactly if as many lines are wrong as there are attempts. -/
theorem judge_reset : judge correct left lines = some .reset ↔
    ∃ wrong later, lines = wrong ++ later ∧ wrong.length = left ∧
      ∀ l ∈ wrong, correct l = some false := by
  induction left generalizing lines with
  | zero =>
    refine iff_of_true rfl ⟨[], lines, rfl, rfl, fun l member => absurd member List.not_mem_nil⟩
  | succ left ih =>
    cases lines with
    | nil => simp [judge]
    | cons first rest =>
      rw [judge]
      constructor
      · intro reset
        split at reset
        · cases reset
        · cases reset
        · rename_i false_
          obtain ⟨wrong, later, rfl, count, all⟩ := ih.mp reset
          refine ⟨first :: wrong, later, rfl, congrArg Nat.succ count, fun l member => ?_⟩
          rcases List.mem_cons.mp member with rfl | member
          · exact false_
          · exact all l member
      · rintro ⟨wrong, later, same, count, all⟩
        cases wrong with
        | nil => cases count
        | cons l wrong =>
          obtain ⟨rfl, rfl⟩ := List.cons.inj same
          rw [all first List.mem_cons_self]
          exact ih.mpr ⟨wrong, later, rfl, Nat.succ.inj count,
            fun l member => all l (List.mem_cons_of_mem _ member)⟩

/-- `check_password` returns exactly when one of the first three lines typed is the password, and
resets the machine when three lines are typed and none of them is; otherwise it waits for more keys.
-/
theorem checkPassword_verdict (w : World) (md : Md5.Context) (behind : Bytes) (password str : CStr)
    (size : buff.length = cmdLeng) (keys : List UInt8) :
    ((checkPassword w (accepts md behind password) str keys buff).verdict.map Prod.fst =
        some .returned ↔
      ∃ wrong line later, linesFrom [] keys = wrong ++ line :: later ∧ wrong.length < 3 ∧
        (∀ l ∈ wrong, accepts md behind password l = some false) ∧
        accepts md behind password line = some true) ∧
    ((checkPassword w (accepts md behind password) str keys buff).verdict.map Prod.fst =
        some .reset ↔
      ∃ wrong later, linesFrom [] keys = wrong ++ later ∧ wrong.length = 3 ∧
        ∀ l ∈ wrong, accepts md behind password l = some false) := by
  have verdict : (checkPassword w (accepts md behind password) str keys buff).verdict.map Prod.fst =
      judge (accepts md behind password) 3 (linesFrom [] keys) :=
    askPassword_judge w _ 3 size keys
  rw [verdict]
  exact ⟨judge_returned, judge_reset⟩

/-- Any context for the digest. -/
def noContext : Md5.Context := ⟨Md5.initstate, 0, fun _ => 0⟩

/-- A second try. -/
theorem secret_returned :
    (checkPassword sampleWorld (accepts noContext (fun _ => 0) (cstr "secret"))
      (cstr "This image is restricted.") (cstr "wrong\nsecret\n") clearedBuff).verdict.map Prod.fst =
        some .returned :=
  (checkPassword_verdict sampleWorld noContext (fun _ => 0) (cstr "secret") _
    clearedBuff_ready.size _).1.mpr
      ⟨[cstr "wrong"], cstr "secret", [], by decide, by decide, by decide, by decide⟩

/-! ### What is seen of it -/

/-- What there is to see of a key. -/
inductive Kind where
  | finishes
  | erases
  | types
  | nothing
  deriving DecidableEq

def kind (c : UInt8) : Kind :=
  if Finishes c then .finishes
  else if Erases c then .erases
  else if c &&& 0xe0 ≠ 0 then .types
  else .nothing

/-- Two editors that look the same. -/
structure Alike (e₁ e₂ : Editing) : Prop where
  x : e₁.x = e₂.x
  out : e₁.out = e₂.out

/-- Two rounds that look the same. -/
inductive AlikeRounds : Loop.Round Editing Editing → Loop.Round Editing Editing → Prop
  | again {f₁ f₂ : Editing} (alike : Alike f₁ f₂) : AlikeRounds (.again f₁) (.again f₂)
  | out {f₁ f₂ : Editing} (alike : Alike f₁ f₂) : AlikeRounds (.out f₁) (.out f₂)

/-- What a key of each kind does where passwords are typed. -/
def editKind (e : Editing) (c : UInt8) : Kind → Loop.Round Editing Editing
  | .finishes => .out e.close
  | .erases =>
    if 0 < e.x then
      .again (({ e with buff := e.buff.set (e.x - 1) 0, x := e.x - 1 } : Editing).print
        (promPrintf [8, 32, 8] []))
    else .again e
  | .types => .again (insertKey true c e)
  | .nothing => .again e

/-- What a key does to a line of dots depends on its kind alone. -/
theorem editKey_kind (w : World) (e : Editing) (c : UInt8) :
    editKey w none true e c = editKind e c (kind c) := by
  have tabs : (if c = 9 ∧ e.x = 0 then e.print [] else e) = e := by
    split
    · unfold Editing.print
      rw [List.append_nil]
    · rfl
  have several : singleKey w true (insertKey true c e) = false := by
    unfold singleKey
    rw [Bool.not_true, Bool.and_false, Bool.false_and, Bool.false_and]
  unfold editKey kind
  rw [Option.getD_none, tabs]
  dsimp only
  by_cases finishes : Finishes c
  · have ends : c = 255 ∨ c = 10 ∨ c = 13 := finishes
    rw [if_pos finishes, if_pos ends]
    rfl
  have goes : ¬ (c = 255 ∨ c = 10 ∨ c = 13) := finishes
  rw [if_neg finishes, if_neg goes]
  by_cases erases : Erases c
  · have back : c = 8 ∨ c = 127 := erases
    rw [if_pos erases, if_pos back]
    rfl
  have stays : ¬ (c = 8 ∨ c = 127) := erases
  rw [if_neg erases, if_neg stays, several]
  split <;> rfl

theorem insertKey_alike (alike : Alike e₁ e₂) (c₁ c₂ : UInt8) :
    Alike (insertKey true c₁ e₁) (insertKey true c₂ e₂) := by
  obtain ⟨x, out⟩ := alike
  unfold insertKey
  rw [x]
  split
  · exact ⟨rfl, congrArg (· ++ _) out⟩
  · exact ⟨x, out⟩

theorem editKey_alike (w : World) (alike : Alike e₁ e₂) (same : kind c₁ = kind c₂) :
    AlikeRounds (editKey w none true e₁ c₁) (editKey w none true e₂ c₂) := by
  rw [editKey_kind, editKey_kind, same]
  cases kind c₂ with
  | finishes => exact .out ⟨alike.x, alike.out⟩
  | erases =>
    unfold editKind
    rw [alike.x]
    by_cases more : 0 < e₂.x
    · rw [if_pos more, if_pos more]
      exact .again ⟨rfl, congrArg (· ++ promPrintf [8, 32, 8] []) alike.out⟩
    · rw [if_neg more, if_neg more]
      exact .again alike
  | types => exact .again (insertKey_alike alike c₁ c₂)
  | nothing => exact .again alike

/-- Keys that look the same, or none. -/
def sameKinds (rest₁ rest₂ : Option (List UInt8)) : Prop :=
  rest₁.map (·.map kind) = rest₂.map (·.map kind)

/-- Keys of the same kinds print the same from lines of the same length. -/
theorem editKeys_alike (w : World) (alike : Alike e₁ e₂) (same : keys₁.map kind = keys₂.map kind) :
    Alike (editKeys w none true keys₁ e₁).1 (editKeys w none true keys₂ e₂).1 ∧
      sameKinds (editKeys w none true keys₁ e₁).2 (editKeys w none true keys₂ e₂).2 := by
  induction keys₁ generalizing keys₂ e₁ e₂ with
  | nil =>
    obtain rfl := List.map_eq_nil_iff.mp same.symm
    exact ⟨alike, rfl⟩
  | cons c₁ keys₁ ih =>
    cases keys₂ with
    | nil => cases same
    | cons c₂ keys₂ =>
      obtain ⟨first, rest⟩ := List.cons.inj same
      have rounds := editKey_alike w alike first
      unfold editKeys
      cases result₁ : editKey w none true e₁ c₁ with
      | again f₁ =>
        cases result₂ : editKey w none true e₂ c₂ with
        | again f₂ =>
          rw [result₁, result₂] at rounds
          cases rounds with
          | again alike => exact ih alike rest
        | out f₂ =>
          rw [result₁, result₂] at rounds
          cases rounds
      | out f₁ =>
        cases result₂ : editKey w none true e₂ c₂ with
        | again f₂ =>
          rw [result₁, result₂] at rounds
          cases rounds
        | out f₂ =>
          rw [result₁, result₂] at rounds
          cases rounds with
          | out alike => exact ⟨alike, congrArg some rest⟩

/-- The answers to the lines typed, up to one that is not wrong. -/
def answers (w : World) (correct : CStr → Option Bool) :
    Nat → List UInt8 → List UInt8 → List (Option Bool)
  | 0, _, _ => []
  | left + 1, keys, buff =>
    let edited := cmdedit w none true keys (buff.set 0 0)
    match edited.2 with
    | none => []
    | some rest =>
      let answer := correct (strdup edited.1.buff)
      answer :: if answer = some false then answers w correct left rest edited.1.buff else []

theorem startEdit_alike (buff₁ buff₂ : List UInt8) :
    Alike (startEdit true (buff₁.set 0 0)) (startEdit true (buff₂.set 0 0)) := by
  have nothing : ∀ buff : List UInt8, strdup (buff.set 0 0) = [] := fun buff => by
    cases buff <;> rfl
  unfold startEdit
  rw [nothing, nothing]
  exact ⟨rfl, rfl⟩

/-- Keys of the same kinds with the same answers show the same on the screen. -/
theorem askPassword_alike (w : World) (left : Nat) (same : keys₁.map kind = keys₂.map kind)
    (agree : answers w correct₁ left keys₁ buff₁ = answers w correct₂ left keys₂ buff₂) :
    (askPassword w correct₁ left keys₁ buff₁).out = (askPassword w correct₂ left keys₂ buff₂).out ∧
      (askPassword w correct₁ left keys₁ buff₁).verdict.map Prod.fst =
        (askPassword w correct₂ left keys₂ buff₂).verdict.map Prod.fst := by
  induction left generalizing keys₁ keys₂ buff₁ buff₂ with
  | zero => exact ⟨rfl, rfl⟩
  | succ left ih =>
    have edited := editKeys_alike w (startEdit_alike buff₁ buff₂) same
    unfold answers cmdedit at agree
    unfold askPassword cmdedit
    dsimp only at agree ⊢
    generalize editKeys w none true keys₁ (startEdit true (buff₁.set 0 0)) = edited₁ at *
    generalize editKeys w none true keys₂ (startEdit true (buff₂.set 0 0)) = edited₂ at *
    obtain ⟨e₁, rest₁⟩ := edited₁
    obtain ⟨e₂, rest₂⟩ := edited₂
    obtain ⟨⟨-, out⟩, rest⟩ := edited
    dsimp only at out rest agree ⊢
    rw [out]
    cases rest₁ with
    | none =>
      obtain rfl : rest₂ = none := Option.map_eq_none_iff.mp rest.symm
      exact ⟨rfl, rfl⟩
    | some rest₁ =>
      obtain ⟨rest₂, rfl, kinds⟩ := Option.map_eq_some_iff.mp rest.symm
      obtain ⟨answer, later⟩ := List.cons.inj agree
      dsimp only at later ⊢
      rw [answer] at later ⊢
      generalize correct₂ (strdup e₂.buff) = answer at later ⊢
      cases answer with
      | none => exact ⟨rfl, rfl⟩
      | some right =>
        cases right with
        | true => exact ⟨rfl, rfl⟩
        | false =>
          rw [if_pos rfl, if_pos rfl] at later
          obtain ⟨out, verdict⟩ := ih kinds.symm later
          dsimp only
          rw [out]
          exact ⟨rfl, verdict⟩

theorem farewell_alike {verdict₁ verdict₂ : Option (Verdict × List UInt8)}
    (same : verdict₁.map Prod.fst = verdict₂.map Prod.fst) : farewell verdict₁ = farewell verdict₂ := by
  cases verdict₁ with
  | none =>
    obtain rfl : verdict₂ = none := Option.map_eq_none_iff.mp same.symm
    rfl
  | some verdict₁ =>
    obtain ⟨verdict₂, rfl, verdicts⟩ := Option.map_eq_some_iff.mp same.symm
    obtain ⟨verdict, rest₁⟩ := verdict₁
    obtain ⟨verdict', rest₂⟩ := verdict₂
    obtain rfl : verdict' = verdict := verdicts
    cases verdict' <;> rfl

/-- What `check_password` prints, and whether it returns, is settled by the kinds of the
keys and the answers to the lines typed. -/
theorem checkPassword_secret (w : World) (str : CStr) (same : keys₁.map kind = keys₂.map kind)
    (agree : answers w correct₁ 3 keys₁ buff₁ = answers w correct₂ 3 keys₂ buff₂) :
    (checkPassword w correct₁ str keys₁ buff₁).out = (checkPassword w correct₂ str keys₂ buff₂).out ∧
      (checkPassword w correct₁ str keys₁ buff₁).verdict.map Prod.fst =
        (checkPassword w correct₂ str keys₂ buff₂).verdict.map Prod.fst := by
  obtain ⟨out, verdict⟩ := askPassword_alike w 3 same agree
  refine ⟨?_, verdict⟩
  unfold checkPassword
  dsimp only
  rw [out, farewell_alike verdict]

/-- Other letters, and another password. -/
theorem letters_secret :
    (checkPassword sampleWorld (accepts noContext (fun _ => 0) (cstr "secret")) (cstr "Restricted command.")
        (cstr "abc\nsecret\n") clearedBuff).out =
      (checkPassword sampleWorld (accepts noContext (fun _ => 0) (cstr "hidden"))
        (cstr "Restricted command.") (cstr "xyz\nhidden\n") clearedBuff).out :=
  (checkPassword_secret sampleWorld _ (by decide) (by decide +kernel)).1

end Yaboot.Prompt.Editor
