import Yaboot.Cfg.TokenProofs
import Yaboot.Cfg.Scope

/-! How a list of assignments may be written as a configuration file: each name and value
bare or in quotes, with blanks and comments anywhere between them. -/
namespace Yaboot.Cfg
open CString

/-- What fits the token buffer and is not taken for the sign of an assignment. -/
structure Storable (v : CStr) : Prop where
  textual : Textual v
  short : v.length ≤ 510
  name : v ≠ cstr "="

/-- How a token is spelled in front of `t`. A bare one ends where another character shows
that it does. -/
inductive Spelling (v : CStr) : CStr → CStr → Prop
  | quoted (cr : 13 ∉ v) : Spelling v (quote v) t
  | bare (nonempty : v ≠ []) (tab : 9 ∉ v) (newline : 10 ∉ v)
      (ends : t = [] ∨ ∃ c rest, t = c :: rest ∧ c ∈ [32, 9, 10, 13, 35, 61]) :
      Spelling v (esc v) t

/-- Blanks, ends of lines and comments up to the ends of theirs. -/
inductive Space : CStr → Prop
  | none : Space []
  | blank (skipped : isBlank (schar c) = true) (rest : Space g) : Space (c :: g)
  | comment (body : ∀ c ∈ text, isNewline (schar c) = false ∧ c ≠ 255)
      (line : isNewline (schar n) = true) (rest : Space g) : Space (35 :: (text ++ n :: g))

/-- Behind the last assignment, a comment may end with the file. -/
inductive Closing : CStr → Prop
  | space (space : Space g) : Closing g
  | comment (space : Space g) (body : ∀ c ∈ text, isNewline (schar c) = false ∧ c ≠ 255) :
      Closing (g ++ 35 :: text)

/-- The assignments are written as this text. -/
inductive Written : List Entry → CStr → Prop
  | done (closing : Closing g) : Written [] g
  | flag (space : Space g) (name : Storable item) (spelled : Spelling item w t)
      (rest : Written entries t) : Written ((item, none) :: entries) (g ++ (w ++ t))
  | value (space : Space g) (name : Storable item) (stored : Storable v)
      (spelled : Spelling item w (g₁ ++ 61 :: (g₂ ++ (w₂ ++ t)))) (space₁ : Space g₁)
      (space₂ : Space g₂) (spelled₂ : Spelling v w₂ t) (rest : Written entries t) :
      Written ((item, some v) :: entries) (g ++ (w ++ (g₁ ++ 61 :: (g₂ ++ (w₂ ++ t)))))

/-- One assignment on a line of its own, all in quotes. -/
def renderEntry (entry : Entry) : CStr :=
  quote entry.1 ++ (entry.2.elim [] fun v => 61 :: quote v) ++ [10]

def render (entries : List Entry) : CStr := entries.flatMap renderEntry

/-- Nothing of the entry needs a spelling that quotes do not offer. -/
structure Quotable (entry : Entry) : Prop where
  name : Storable entry.1
  nameCr : 13 ∉ entry.1
  value : ∀ v, entry.2 = some v → Storable v ∧ 13 ∉ v

theorem Space.append (first : Space g) (second : Space h) : Space (g ++ h) := by
  induction first with
  | none => exact second
  | blank skipped _ ih => exact .blank skipped ih
  | comment body line _ ih =>
    rw [List.cons_append, List.append_assoc, List.cons_append]
    exact .comment body line ih

theorem Written.behind (written : Written entries t) (space : Space g) :
    Written entries (g ++ t) := by
  cases written with
  | done closing =>
    cases closing with
    | space more => exact .done (.space (space.append more))
    | comment more body =>
      rw [← List.append_assoc]
      exact .done (.comment (space.append more) body)
  | flag more name spelled rest =>
    rw [← List.append_assoc]
    exact .flag (space.append more) name spelled rest
  | value more name stored spelled space₁ space₂ spelled₂ rest =>
    rw [← List.append_assoc]
    exact .value (space.append more) name stored spelled space₁ space₂ spelled₂ rest

/-- What is rendered is written. -/
theorem render_written (entries : List Entry) (quotable : ∀ entry ∈ entries, Quotable entry) :
    Written entries (render entries) := by
  induction entries with
  | nil => exact .done (.space .none)
  | cons entry entries ih =>
    have newline : Space [10] := .blank (by decide) .none
    have rest := (ih fun other inside => quotable other (List.mem_cons_of_mem _ inside)).behind newline
    obtain ⟨name, nameCr, value⟩ := quotable entry List.mem_cons_self
    obtain ⟨item, v⟩ := entry
    cases v with
    | none =>
      have written := Written.flag .none name (.quoted nameCr) rest
      simpa [render, renderEntry] using written
    | some v =>
      obtain ⟨stored, cr⟩ := value v rfl
      have written := Written.value .none name stored (.quoted nameCr) .none .none (.quoted cr) rest
      simpa [render, renderEntry] using written

end Yaboot.Cfg
