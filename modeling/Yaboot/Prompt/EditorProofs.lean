import Yaboot.Base.Terminal
import Yaboot.Prompt.Editor
import Yaboot.Prompt.RebootProofs

/-! The line editor keeps the buffer, the terminal and what was typed the same: whatever
is pressed, what stands behind the prompt is the line in the buffer, or as many stars. -/
namespace Yaboot.Prompt.Editor
open CString Vsprintf Terminal

variable {w : World} {tabfunc : Option (List UInt8)} {password : Bool} {e e' : Editing}
  {line prompt_ keys buff : List UInt8} {c : UInt8} {row : Row}

/-! ### Keys -/

/-- A key that ends the line. -/
def Finishes (c : UInt8) : Prop := c = 255 ∨ c = 10 ∨ c = 13

/-- A key that takes a character away. -/
def Erases (c : UInt8) : Prop := c = 8 ∨ c = 127

instance (c : UInt8) : Decidable (Finishes c) :=
  inferInstanceAs (Decidable (c = 255 ∨ c = 10 ∨ c = 13))

instance (c : UInt8) : Decidable (Erases c) := inferInstanceAs (Decidable (c = 8 ∨ c = 127))

/-- A key that puts a character in. -/
structure Types (c : UInt8) : Prop where
  high : c &&& 0xe0 ≠ 0
  goes : ¬ Finishes c
  stays : ¬ Erases c

theorem low_of_eq {d : UInt8} (low : d &&& 0xe0 = 0) (types : Types c) : c ≠ d := by
  rintro rfl
  exact types.high low

theorem Types.ne_zero (types : Types c) : c ≠ 0 := low_of_eq rfl types

theorem Types.glyph (types : Types c) : Glyph c :=
  ⟨low_of_eq rfl types, low_of_eq rfl types, low_of_eq rfl types⟩

/-- What a key makes of a line. -/
def press (line : List UInt8) (c : UInt8) : List UInt8 :=
  if Erases c then line.dropLast
  else if c &&& 0xe0 ≠ 0 ∧ line.length < cmdLeng - 1 then line ++ [c]
  else line

/-! ### Printing -/

/-- A single character is printed as it is, `%` included. -/
theorem vsprintf_char (c : UInt8) (args : List Arg) : vsprintf [c] args = some [c] := by
  by_cases percent : c = ascii '%'
  · subst percent
    rw [vsprintf, if_neg (not_not.mpr rfl)]
    rfl
  · rw [vsprintf, if_pos percent, vsprintf_nil]
    rfl

theorem promPrintf_char (types : Types c) (args : List Arg) : promPrintf [c] args = [c] := by
  unfold promPrintf
  rw [vsprintf_char]
  exact (List.append_nil _).trans (if_neg types.glyph.2.1)

theorem star_types : Types 42 := ⟨by decide, by decide, by decide⟩

theorem promPrintf_star : promPrintf (cstr "*") [] = [42] := promPrintf_char star_types []

theorem promPrintf_erase : promPrintf [8, 32, 8] [] = [8, blank, 8] := by
  unfold promPrintf
  rw [vsprintf, vsprintf, vsprintf, vsprintf_nil]
  rfl

/-! ### The buffer -/

/-- What is in the buffer while a line is edited. -/
structure Holds (e : Editing) (line : List UInt8) : Prop where
  x : e.x = line.length
  buff : ∃ rest, e.buff = line ++ 0 :: rest ∧ line.length + rest.length = cmdLeng - 1
  types : ∀ c ∈ line, Types c

theorem Holds.string (holds : Holds e line) : strdup e.buff = line := by
  obtain ⟨rest, same, -⟩ := holds.buff
  rw [same, strdup_append_zero]
  exact strdup_whole line fun c member => (holds.types c member).ne_zero

theorem Holds.short (holds : Holds e line) : line.length ≤ cmdLeng - 1 := by
  obtain ⟨rest, -, size⟩ := holds.buff
  omega

theorem Holds.print (holds : Holds e line) (text : List UInt8) : Holds (e.print text) line :=
  ⟨holds.x, holds.buff, holds.types⟩

theorem Holds.close (holds : Holds e line) : Holds e.close line := by
  obtain ⟨rest, same, size⟩ := holds.buff
  refine ⟨holds.x, ⟨rest, ?_, size⟩, holds.types⟩
  unfold Editing.close
  dsimp only
  rw [holds.x, same, List.set_append_right _ _ (Nat.le_refl _), Nat.sub_self]
  rfl

theorem set_twice (line rest : List UInt8) (c old : UInt8) :
    ((line ++ 0 :: old :: rest).set line.length c).set (line.length + 1) 0 =
      (line ++ [c]) ++ 0 :: rest := by
  rw [List.set_append_right _ _ (Nat.le_refl _), Nat.sub_self,
    List.set_append_right _ _ (Nat.le_add_right _ _), Nat.add_sub_cancel_left]
  simp

theorem insertKey_full (password : Bool) (c : UInt8) (full : ¬ e.x < cmdLeng - 1) :
    insertKey password c e = e := if_neg full

/-- A typed character goes into the buffer, and it or a star to the terminal. -/
theorem insertKey_room (password : Bool) (holds : Holds e line) (types : Types c)
    (room : e.x < cmdLeng - 1) :
    Holds (insertKey password c e) (line ++ [c]) ∧
      (insertKey password c e).out = e.out ++ [if password then 42 else c] := by
  obtain ⟨rest, same, size⟩ := holds.buff
  have at_ := holds.x
  cases rest with
  | nil =>
    rw [List.length_nil] at size
    omega
  | cons old rest =>
    have set : (e.buff.set e.x c).set (e.x + 1) 0 = (line ++ [c]) ++ 0 :: rest := by
      rw [same, at_, set_twice]
    have echo : strdup (((line ++ [c]) ++ 0 :: rest).drop line.length) = [c] := by
      rw [List.append_assoc, List.drop_left, strdup_append_zero]
      exact strdup_whole [c] fun d member => List.mem_singleton.mp member ▸ types.ne_zero
    unfold insertKey
    rw [if_pos room]
    dsimp only
    rw [set]
    refine ⟨⟨?_, ⟨rest, rfl, ?_⟩, ?_⟩, ?_⟩
    · rw [List.length_append, at_]
      rfl
    · rw [List.length_append, List.length_singleton]
      rw [List.length_cons] at size
      omega
    · intro d member
      rcases List.mem_append.mp member with old | new
      · exact holds.types d old
      · exact List.mem_singleton.mp new ▸ types
    · rw [at_, echo, promPrintf_star, promPrintf_char types]
      cases password <;> rfl

theorem Holds.erase (holds : Holds e (line ++ [c])) :
    Holds { e with buff := e.buff.set (e.x - 1) 0, x := e.x - 1 } line := by
  obtain ⟨rest, same, size⟩ := holds.buff
  have at_ := holds.x
  rw [List.length_append, List.length_singleton] at at_ size
  refine ⟨by dsimp only; omega, ⟨0 :: rest, ?_, ?_⟩, fun d member => ?_⟩
  · dsimp only
    rw [same, at_, Nat.add_sub_cancel, List.append_assoc, List.set_append_right _ _ (Nat.le_refl _),
      Nat.sub_self]
    rfl
  · rw [List.length_cons]
    omega
  · exact holds.types d (List.mem_append_left _ member)

/-! ### The terminal -/

/-- What stands on the terminal for a line. -/
def shown (password : Bool) (line : List UInt8) : List UInt8 :=
  if password then List.replicate line.length 42 else line

theorem shown_append (password : Bool) (line : List UInt8) (c : UInt8) :
    shown password (line ++ [c]) = shown password line ++ [if password then 42 else c] := by
  cases password with
  | false => rfl
  | true =>
    unfold shown
    rw [if_pos rfl, if_pos rfl, List.length_append]
    exact List.replicate_add _ _ 42

/-- `tabfunc` writes the prompt again, if it is there. -/
def Reprints (prompt_ : List UInt8) (tabfunc : Option (List UInt8)) : Prop :=
  tabfunc = none ∨ ∃ above, tabfunc = some (above ++ [13, 10] ++ prompt_)

theorem Reprints.shows (reprints : Reprints prompt_ tabfunc) (glyphs : ∀ c ∈ prompt_, Glyph c)
    (shows : row.Shows prompt_) : (row.feed (tabfunc.getD [])).Shows prompt_ := by
  rcases reprints with rfl | ⟨above, rfl⟩
  · exact shows
  · rw [Option.getD_some, feed_append, feed_append]
    exact (feed_newline _).glyphs glyphs

/-- The buffer holds the line, and the terminal shows it behind the prompt. -/
structure Follows (password : Bool) (row : Row) (prompt_ : List UInt8) (e : Editing)
    (line : List UInt8) : Prop where
  holds : Holds e line
  shows : (row.feed e.out).Shows (prompt_ ++ shown password line)

theorem Follows.close (follows : Follows password row prompt_ e line) :
    Follows password row prompt_ e.close line :=
  ⟨follows.holds.close, follows.shows⟩

theorem Follows.insertKey (follows : Follows password row prompt_ e line) (types : Types c) :
    Follows password row prompt_ (insertKey password c e) (press line c) := by
  unfold press
  rw [if_neg types.stays]
  by_cases room : e.x < cmdLeng - 1
  · obtain ⟨holds, out⟩ := insertKey_room password follows.holds types room
    rw [if_pos ⟨types.high, follows.holds.x ▸ room⟩]
    refine ⟨holds, ?_⟩
    rw [out, feed_append, shown_append, ← List.append_assoc]
    refine follows.shows.glyph ?_
    cases password
    · exact types.glyph
    · exact star_types.glyph
  · rw [insertKey_full password c room, if_neg fun both => room (follows.holds.x ▸ both.2)]
    exact follows

theorem Follows.erase (follows : Follows password row prompt_ e (line ++ [c])) :
    Follows password row prompt_
      (({ e with buff := e.buff.set (e.x - 1) 0, x := e.x - 1 } : Editing).print
        (promPrintf [8, 32, 8] [])) line := by
  refine ⟨follows.holds.erase.print _, ?_⟩
  have before := follows.shows
  rw [shown_append, ← List.append_assoc] at before
  unfold Editing.print
  dsimp only
  rw [promPrintf_erase, feed_append]
  exact before.erase

theorem Follows.tab (reprints : Reprints prompt_ tabfunc) (glyphs : ∀ c ∈ prompt_, Glyph c)
    (follows : Follows password row prompt_ e line) (c : UInt8) :
    Follows password row prompt_
      (if c = 9 ∧ e.x = 0 then e.print (tabfunc.getD []) else e) line := by
  split
  · rename_i tab
    obtain rfl : line = [] := List.length_eq_zero_iff.mp (follows.holds.x.symm.trans tab.2)
    refine ⟨follows.holds.print _, ?_⟩
    have before := follows.shows
    have nothing : shown password [] = [] := by cases password <;> rfl
    rw [nothing, List.append_nil] at before ⊢
    unfold Editing.print
    dsimp only
    rw [feed_append]
    exact reprints.shows glyphs before
  · exact follows

/-- A key leaves the line as it is, with the editor at its end, or makes of it what it
should. The editor may end behind a character of its own name. -/
theorem editKey_follows (reprints : Reprints prompt_ tabfunc) (glyphs : ∀ c ∈ prompt_, Glyph c)
    (follows : Follows password row prompt_ e line) (c : UInt8) :
    (∃ e', editKey w tabfunc password e c = .out e' ∧ Finishes c ∧
        Follows password row prompt_ e' line) ∨
      (∃ e', ¬ Finishes c ∧ Follows password row prompt_ e' (press line c) ∧
        (editKey w tabfunc password e c = .again e' ∨
          (editKey w tabfunc password e c = .out e' ∧ password = false ∧
            (press line c).length = 1 ∧ w.useconf = true ∧
            w.flag (some (press line c)) "single-key" = true))) := by
  unfold editKey
  by_cases finishes : Finishes c
  · exact .inl ⟨_, if_pos finishes, finishes, follows.close⟩
  refine .inr ?_
  have goes : ¬ (c = 255 ∨ c = 10 ∨ c = 13) := finishes
  rw [if_neg goes]
  have tabbed := follows.tab reprints glyphs c
  generalize (if c = 9 ∧ e.x = 0 then e.print (tabfunc.getD []) else e) = e₁ at tabbed ⊢
  dsimp only
  by_cases erases : Erases c
  · have back : c = 8 ∨ c = 127 := erases
    rw [if_pos back]
    have pressed : press line c = line.dropLast := if_pos erases
    rw [pressed]
    rcases List.eq_nil_or_concat' line with rfl | ⟨line, last, rfl⟩
    · rw [if_neg (by rw [tabbed.holds.x]; exact Nat.lt_irrefl 0)]
      exact ⟨e₁, finishes, tabbed, .inl rfl⟩
    · rw [if_pos (by rw [tabbed.holds.x, List.length_append]; exact Nat.succ_pos _),
        List.dropLast_concat]
      exact ⟨_, finishes, tabbed.erase, .inl rfl⟩
  have stays : ¬ (c = 8 ∨ c = 127) := erases
  rw [if_neg stays]
  by_cases high : c &&& 0xe0 ≠ 0
  · rw [if_pos high]
    have inserted := tabbed.insertKey ⟨high, finishes, erases⟩
    split
    · rename_i single
      simp only [singleKey, Bool.and_eq_true, beq_iff_eq, Bool.not_eq_true'] at single
      obtain ⟨⟨⟨one, open_⟩, conf⟩, flag⟩ := single
      refine ⟨_, finishes, inserted.close,
        .inr ⟨rfl, open_, inserted.holds.x.symm.trans one, conf, ?_⟩⟩
      rwa [← inserted.holds.string]
    · exact ⟨_, finishes, inserted, .inl rfl⟩
  · rw [if_neg high]
    have pressed : press line c = line := by
      unfold press
      rw [if_neg erases, if_neg fun both => high both.1]
    rw [pressed]
    exact ⟨e₁, finishes, tabbed, .inl rfl⟩

/-- What was typed to a line: the keys up to one that ends it, or up to a character that
is the name of an image to boot at once, or all of them while more are waited for. -/
structure Typed (w : World) (password : Bool) (start keys line : List UInt8)
    (rest : Option (List UInt8)) : Prop where
  pressed : ∃ before, (∀ c ∈ before, ¬ Finishes c) ∧ line = before.foldl press start ∧
    match rest with
    | none => keys = before
    | some rest =>
      (∃ c, Finishes c ∧ keys = before ++ c :: rest) ∨
        (keys = before ++ rest ∧ password = false ∧ line.length = 1 ∧ w.useconf = true ∧
          w.flag (some line) "single-key" = true)

theorem Typed.cons (typed : Typed w password (press start c) keys line rest) (goes : ¬ Finishes c) :
    Typed w password start (c :: keys) line rest := by
  obtain ⟨before, none, rfl, ends⟩ := typed.pressed
  refine ⟨c :: before, fun d member => ?_, rfl, ?_⟩
  · rcases List.mem_cons.mp member with rfl | member
    · exact goes
    · exact none d member
  · cases rest with
    | none => exact congrArg (c :: ·) ends
    | some rest =>
      rcases ends with ⟨d, finishes, rfl⟩ | ⟨rfl, single⟩
      · exact .inl ⟨d, finishes, rfl⟩
      · exact .inr ⟨rfl, single⟩

/-- Over any keys the screen shows the prompt and the line that is in the buffer. -/
theorem editKeys_follows (reprints : Reprints prompt_ tabfunc) (glyphs : ∀ c ∈ prompt_, Glyph c)
    (follows : Follows password row prompt_ e start) (keys : List UInt8) :
    ∃ line, Follows password row prompt_ (editKeys w tabfunc password keys e).1 line ∧
      Typed w password start keys line (editKeys w tabfunc password keys e).2 := by
  induction keys generalizing e start with
  | nil => exact ⟨start, follows, [], fun _ member => absurd member List.not_mem_nil, rfl, rfl⟩
  | cons c keys ih =>
    unfold editKeys
    rcases editKey_follows (w := w) reprints glyphs follows c with
      ⟨e', out, finishes, closed⟩ | ⟨e', goes, pressed, again | ⟨out, single⟩⟩
    · rw [out]
      exact ⟨start, closed, [], fun _ member => absurd member List.not_mem_nil, rfl,
        .inl ⟨c, finishes, rfl⟩⟩
    · rw [again]
      obtain ⟨line, ends, typed⟩ := ih pressed
      exact ⟨line, ends, typed.cons goes⟩
    · rw [out]
      refine ⟨press start c, pressed, [c], fun d member => ?_, rfl, .inr ⟨rfl, single⟩⟩
      exact List.mem_singleton.mp member ▸ goes

/-! ### The whole of it -/

/-- A buffer the editor is called with: it holds a key, or nothing. -/
structure Ready (buff : List UInt8) : Prop where
  size : buff.length = cmdLeng
  short : (strdup buff).length ≤ 1
  types : ∀ c ∈ strdup buff, Types c

/-- What is printed of a line that was started. -/
theorem startEdit_out (ready : Ready buff) (password : Bool) :
    (startEdit password buff).out = shown password (strdup buff) := by
  obtain ⟨-, short, types⟩ := ready
  unfold startEdit shown
  dsimp only
  rw [promPrintf_star]
  generalize strdup buff = s at short types ⊢
  match s with
  | [] => cases password <;> simp [promPrintf, promPuts, vsprintf_nil]
  | [c] =>
    cases password with
    | true => rfl
    | false => exact promPrintf_char (types c List.mem_cons_self) _
  | _ :: _ :: _ => simp at short

/-- The editor begins with the screen showing the line it was given. -/
theorem startEdit_follows (ready : Ready buff) (shows : row.Shows prompt_) :
    Follows password row prompt_ (startEdit password buff) (strdup buff) := by
  have out := startEdit_out ready password
  obtain ⟨size, short, types⟩ := ready
  refine ⟨⟨?_, ?_, types⟩, ?_⟩
  · unfold startEdit cmdLeng
    dsimp only
    omega
  · obtain ⟨rest, whole, ends⟩ := strdup_split buff
    have lengths := congrArg List.length whole
    rw [List.length_append, size] at lengths
    unfold cmdLeng at lengths ⊢
    cases rest with
    | nil =>
      rw [List.length_nil] at lengths
      omega
    | cons c rest =>
      rw [List.length_cons] at lengths
      obtain rfl : c = 0 := by
        by_contra more
        simp [strdup, more] at ends
      exact ⟨rest, whole, by omega⟩
  · rw [out]
    refine shows.glyphs fun c member => ?_
    unfold shown at member
    split at member
    · exact List.eq_of_mem_replicate member ▸ star_types.glyph
    · exact (types c member).glyph

/-- Whatever is pressed, at a prompt with a line that was started, the terminal shows the
line in the buffer behind the prompt, or as many stars, and that line is what was typed. -/
theorem cmdedit_follows (ready : Ready buff) (reprints : Reprints prompt_ tabfunc)
    (glyphs : ∀ c ∈ prompt_, Glyph c) (shows : row.Shows prompt_) (keys : List UInt8) :
    ∃ line, strdup (cmdedit w tabfunc password keys buff).1.buff = line ∧
      (row.feed (cmdedit w tabfunc password keys buff).1.out).Shows
        (prompt_ ++ shown password line) ∧
      Typed w password (strdup buff) keys line (cmdedit w tabfunc password keys buff).2 := by
  have start : Follows password row prompt_ (startEdit password buff) (strdup buff) :=
    startEdit_follows ready shows
  obtain ⟨line, follows, typed⟩ := editKeys_follows (w := w) reprints glyphs start keys
  exact ⟨line, follows.holds.string, follows.shows, typed⟩

/-- A buffer `cmdinit` has cleared. -/
def clearedBuff : List UInt8 := List.replicate cmdLeng 0

theorem clearedBuff_ready : Ready clearedBuff := by
  have nothing : strdup clearedBuff = [] := rfl
  refine ⟨List.length_replicate, ?_, ?_⟩
  · rw [nothing]
    exact Nat.zero_le 1
  · rw [nothing]
    exact fun c member => absurd member List.not_mem_nil

theorem boot_glyphs : ∀ c ∈ cstr "boot: ", Glyph c := fun _ member =>
  ⟨ne_of_mem_of_not_mem member (by decide), ne_of_mem_of_not_mem member (by decide),
    ne_of_mem_of_not_mem member (by decide)⟩

/-- A line that is corrected, with a percent sign in it. -/
theorem corrected_shown : ∃ line,
    strdup (cmdedit sampleWorld none false (cstr "ab" ++ 127 :: cstr "c%\n") clearedBuff).1.buff =
      line ∧
    (Row.feed ⟨cstr "boot: ", []⟩
      (cmdedit sampleWorld none false (cstr "ab" ++ 127 :: cstr "c%\n") clearedBuff).1.out).Shows
        (cstr "boot: " ++ shown false line) ∧
    Typed sampleWorld false (strdup clearedBuff) (cstr "ab" ++ 127 :: cstr "c%\n") line
      (cmdedit sampleWorld none false (cstr "ab" ++ 127 :: cstr "c%\n") clearedBuff).2 :=
  cmdedit_follows clearedBuff_ready (.inl rfl) boot_glyphs
    ⟨rfl, fun _ member => absurd member List.not_mem_nil⟩ _

/-- A key does to the buffer what it does in the plain editor. -/
theorem editKey_plain (w : World) (tabfunc : Option (List UInt8)) (keys : List UInt8) (e : Editing)
    (c : UInt8) :
    (editKey w tabfunc false e c).Meets
      (fun e' => cmdeditLoop w (c :: keys) e.x e.buff = cmdeditLoop w keys e'.x e'.buff)
      (fun e' => cmdeditLoop w (c :: keys) e.x e.buff = e'.buff) := by
  rw [cmdeditLoop]
  unfold editKey
  split
  · exact .out rfl
  have tabs : ∃ out, (if c = 9 ∧ e.x = 0 then e.print (tabfunc.getD []) else e) = ⟨e.buff, e.x, out⟩ := by
    split <;> exact ⟨_, rfl⟩
  obtain ⟨out, same⟩ := tabs
  rw [same]
  dsimp only
  split
  · split
    · exact .again rfl
    · exact .again rfl
  by_cases high : c &&& 0xe0 ≠ 0
  · rw [if_pos high]
    by_cases room : e.x < cmdLeng - 1
    · have inside : e.x < 511 := room
      rw [if_pos ⟨high, inside⟩]
      unfold insertKey singleKey
      rw [if_pos room]
      dsimp only
      by_cases single : e.x + 1 = 1 ∧ w.useconf = true ∧
          w.flag (some (strdup ((e.buff.set e.x c).set (e.x + 1) 0))) "single-key" = true
      · rw [if_pos single, if_pos (by rw [single.2.1, single.2.2, single.1]; rfl)]
        refine .out ?_
        unfold Editing.close
        dsimp only
        rw [single.1]
      · rw [if_neg single, if_neg (by simpa [and_assoc] using single)]
        exact .again rfl
    · have full : insertKey false c ⟨e.buff, e.x, out⟩ = ⟨e.buff, e.x, out⟩ :=
        insertKey_full false c room
      rw [full, if_neg fun both => room both.2]
      have several : singleKey w false ⟨e.buff, e.x, out⟩ = false := by
        unfold singleKey
        rw [beq_eq_false_iff_ne.mpr]
        · rfl
        · unfold cmdLeng at room
          dsimp only
          omega
      rw [several]
      exact .again rfl
  · rw [if_neg high, if_neg fun both => high both.1]
    exact .again rfl

/-- The editor is the plain one, once it has ended. -/
theorem editKeys_plain (ended : (editKeys w tabfunc false keys e).2 = some rest) :
    cmdeditLoop w keys e.x e.buff = (editKeys w tabfunc false keys e).1.buff := by
  induction keys generalizing e with
  | nil => cases ended
  | cons c keys ih =>
    have step := editKey_plain w tabfunc keys e c
    unfold editKeys at ended ⊢
    cases result : editKey w tabfunc false e c with
    | again e' =>
      rw [result] at step ended
      cases step with
      | again same => exact same.trans (ih ended)
    | out e' =>
      rw [result] at step
      cases step with
      | out same => exact same

end Yaboot.Prompt.Editor
