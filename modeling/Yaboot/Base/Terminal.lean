import Mathlib.Data.List.Basic

/-! A row of a terminal that never wraps, as the bytes sent to it leave it. -/
namespace Yaboot.Terminal

/-- What stands before the cursor, and from it on. -/
structure Row where
  left : List UInt8
  right : List UInt8
  deriving DecidableEq, Repr

def blank : UInt8 := 32

/-- A byte: a step back, a new row, the start of the row, or a character over what was
there. -/
def Row.put (row : Row) (c : UInt8) : Row :=
  if c = 8 then
    match row.left.getLast? with
    | some last => ⟨row.left.dropLast, last :: row.right⟩
    | none => row
  else if c = 10 then ⟨List.replicate row.left.length blank, []⟩
  else if c = 13 then ⟨[], row.left ++ row.right⟩
  else ⟨row.left ++ [c], row.right.tail⟩

def Row.feed (row : Row) (text : List UInt8) : Row := text.foldl Row.put row

/-- A text stands before the cursor, and nothing behind it. -/
structure Row.Shows (row : Row) (text : List UInt8) : Prop where
  left : row.left = text
  right : ∀ c ∈ row.right, c = blank

/-- A character that is shown, and moves nothing. -/
def Glyph (c : UInt8) : Prop := c ≠ 8 ∧ c ≠ 10 ∧ c ≠ 13

variable {row : Row} {shown : List UInt8}

@[simp] theorem feed_nil (row : Row) : row.feed [] = row := rfl

theorem feed_append (row : Row) (first second : List UInt8) :
    row.feed (first ++ second) = (row.feed first).feed second :=
  List.foldl_append

theorem put_glyph (row : Row) (glyph : Glyph c) :
    row.put c = ⟨row.left ++ [c], row.right.tail⟩ := by
  obtain ⟨back, newline, start⟩ := glyph
  unfold Row.put
  rw [if_neg back, if_neg newline, if_neg start]

theorem Row.Shows.glyph (shows : row.Shows shown) (glyph : Glyph c) :
    (row.feed [c]).Shows (shown ++ [c]) := by
  have fed : row.feed [c] = ⟨row.left ++ [c], row.right.tail⟩ := put_glyph row glyph
  rw [fed]
  refine ⟨by rw [shows.left], fun d member => ?_⟩
  exact shows.right d (List.mem_of_mem_tail member)

theorem Row.Shows.glyphs {text : List UInt8} (shows : row.Shows shown)
    (glyphs : ∀ c ∈ text, Glyph c) : (row.feed text).Shows (shown ++ text) := by
  induction text generalizing row shown with
  | nil => simpa using shows
  | cons c text ih =>
    have first := shows.glyph (glyphs c List.mem_cons_self)
    have rest := ih first fun d member => glyphs d (List.mem_cons_of_mem _ member)
    rw [List.append_assoc] at rest
    exact rest

/-- A step back, a blank and a step back take the last character away. -/
theorem Row.Shows.erase (shows : row.Shows (shown ++ [c])) :
    (row.feed [8, blank, 8]).Shows shown := by
  obtain ⟨left, right⟩ := row
  obtain ⟨same, blanks⟩ := shows
  dsimp only at same blanks
  subst same
  have fed : Row.feed ⟨shown ++ [c], right⟩ [8, blank, 8] = ⟨shown, blank :: right⟩ := by
    simp [Row.feed, Row.put, blank]
  rw [fed]
  refine ⟨rfl, fun d member => ?_⟩
  rcases List.mem_cons.mp member with rfl | member
  · rfl
  · exact blanks d member

theorem feed_newline (row : Row) : (row.feed [13, 10]).Shows [] :=
  ⟨rfl, fun _ member => absurd member List.not_mem_nil⟩

end Yaboot.Terminal
