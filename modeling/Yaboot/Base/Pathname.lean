import Yaboot.Base.CString

/-! Pathname resolution in a tree with symbolic links, component by component.
A link is replaced by its text followed by the rest of the path, and slashes at the
end of a path ask for a directory. -/
namespace Yaboot.Pathname
open CString

inductive Kind where
  | directory
  | regular
  | link
  | other
  deriving DecidableEq, Repr

/-- A directory tree over objects of any type. -/
structure FileTree (α : Type) where
  root : α
  kind : α → Kind
  lookup : α → CStr → Option α
  text : α → CStr

def slash : UInt8 := 47

/-- The first component of a path. It is empty when only slashes are left. -/
def component (path : CStr) : CStr := (path.dropWhile (· == slash)).takeWhile (· != slash)

/-- What follows the first component. -/
def beyond (path : CStr) : CStr := (path.dropWhile (· == slash)).dropWhile (· != slash)

/-- The characters up to the end of the first component. -/
def consumed (path : CStr) : Nat := path.length - (beyond path).length

inductive Result (α : Type) where
  | opened (object : α)
  | notFound
  | notDir
  | badType
  | tooManyLinks
  | tooLong
  deriving DecidableEq, Repr

/-- Where the text of a link in `dir` is resolved. -/
def FileTree.origin (t : FileTree α) (dir : α) (text : CStr) : α :=
  if text.head? = some slash then t.root else dir

/-- The resolution of a path from an object that is not a link, with `left`
further links allowed and room for pathnames of `room` characters. -/
inductive Resolves (t : FileTree α) (room : Nat) : Nat → α → CStr → Result α → Prop where
  | opened (regular : t.kind a = .regular) : Resolves t room left a [] (.opened a)
  | badType (irregular : t.kind a ≠ .regular) : Resolves t room left a [] .badType
  | notDir (more : path ≠ []) (flat : t.kind a ≠ .directory) : Resolves t room left a path .notDir
  /-- Only slashes are left, and they stand for the directory itself. -/
  | slashes (more : path ≠ []) (only : component path = []) (dir : t.kind a = .directory) :
      Resolves t room left a path .badType
  | notFound (named : component path ≠ []) (dir : t.kind a = .directory)
      (missing : t.lookup a (component path) = none) : Resolves t room left a path .notFound
  | entry (named : component path ≠ []) (dir : t.kind a = .directory)
      (found : t.lookup a (component path) = some child) (plain : t.kind child ≠ .link)
      (rest : Resolves t room left child (beyond path) result) : Resolves t room left a path result
  | tooManyLinks (named : component path ≠ []) (dir : t.kind a = .directory)
      (found : t.lookup a (component path) = some child) (symbolic : t.kind child = .link) :
      Resolves t room 0 a path .tooManyLinks
  | tooLong (named : component path ≠ []) (dir : t.kind a = .directory)
      (found : t.lookup a (component path) = some child) (symbolic : t.kind child = .link)
      (long : room < (t.text child).length + (beyond path).length) :
      Resolves t room (left + 1) a path .tooLong
  | link (named : component path ≠ []) (dir : t.kind a = .directory)
      (found : t.lookup a (component path) = some child) (symbolic : t.kind child = .link)
      (fits : (t.text child).length + (beyond path).length ≤ room)
      (rest : Resolves t room left (t.origin a (t.text child)) (t.text child ++ beyond path) result) :
      Resolves t room (left + 1) a path result

theorem ne_nil_of_component (named : component path ≠ []) : path ≠ [] := by
  rintro rfl
  exact named rfl

theorem beyond_length_lt (more : path ≠ []) : (beyond path).length < path.length := by
  obtain ⟨c, rest, rfl⟩ := List.exists_cons_of_ne_nil more
  have skip := (List.dropWhile_suffix (l := rest) (· == slash)).length_le
  have pass := (List.dropWhile_suffix (l := rest) (· != slash)).length_le
  have both := (List.dropWhile_suffix (l := rest.dropWhile (· == slash)) (· != slash)).length_le
  simp only [beyond, List.dropWhile_cons, List.length_cons]
  by_cases leading : (c == slash) = true
  · simp only [leading, ↓reduceIte]
    omega
  · have other : (c != slash) = true := by simpa using leading
    simp only [leading, Bool.false_eq_true, ↓reduceIte, List.dropWhile_cons, other]
    omega

theorem beyond_suffix (path : CStr) : beyond path <:+ path :=
  (List.dropWhile_suffix _).trans (List.dropWhile_suffix _)

theorem drop_consumed (path : CStr) : path.drop (consumed path) = beyond path := by
  obtain ⟨front, whole⟩ := beyond_suffix path
  have count : consumed path = front.length := by
    have total := congrArg List.length whole
    rw [List.length_append] at total
    unfold consumed
    omega
  conv => lhs; rw [count, ← whole]
  exact List.drop_left

/-- Paths resolve when links can be followed. -/
theorem exists_resolves_of {t : FileTree α} {room left : Nat}
    (follow : ∀ a path child, component path ≠ [] → t.kind a = .directory →
      t.lookup a (component path) = some child → t.kind child = .link →
      ∃ result, Resolves t room left a path result) (a : α) (path : CStr) :
    ∃ result, Resolves t room left a path result := by
  induction size : path.length using Nat.strong_induction_on generalizing a path with
  | _ n ih =>
    by_cases more : path = []
    · subst more
      by_cases regular : t.kind a = .regular
      · exact ⟨_, .opened regular⟩
      · exact ⟨_, .badType regular⟩
    by_cases dir : t.kind a = .directory
    · by_cases only : component path = []
      · exact ⟨_, .slashes more only dir⟩
      cases found : t.lookup a (component path) with
      | none => exact ⟨_, .notFound only dir found⟩
      | some child =>
        by_cases symbolic : t.kind child = .link
        · exact follow a path child only dir found symbolic
        · have shorter := beyond_length_lt more
          obtain ⟨result, rest⟩ := ih _ (by omega) child (beyond path) rfl
          exact ⟨result, .entry only dir found symbolic rest⟩
    · exact ⟨_, .notDir more dir⟩

/-- Every path has a resolution. -/
theorem exists_resolves (t : FileTree α) (room left : Nat) (a : α) (path : CStr) :
    ∃ result, Resolves t room left a path result := by
  induction left generalizing a path with
  | zero =>
    refine exists_resolves_of ?_ a path
    intro a path child named dir found symbolic
    exact ⟨_, .tooManyLinks named dir found symbolic⟩
  | succ left ih =>
    refine exists_resolves_of ?_ a path
    intro a path child named dir found symbolic
    by_cases fits : (t.text child).length + (beyond path).length ≤ room
    · obtain ⟨result, rest⟩ := ih (t.origin a (t.text child)) (t.text child ++ beyond path)
      exact ⟨result, .link named dir found symbolic fits rest⟩
    · exact ⟨_, .tooLong named dir found symbolic (by omega)⟩

/-- No path has two. -/
theorem Resolves.unique {t : FileTree α} (first : Resolves t room left a path result)
    (second : Resolves t room left a path result') : result = result' := by
  induction first with
  | opened regular | badType irregular => cases second <;> simp_all [component]
  | notDir more flat | slashes more only dir => cases second <;> simp_all
  | notFound named dir missing => cases second <;> simp_all [component]
  | tooManyLinks named dir found symbolic => cases second <;> simp_all [component]
  | tooLong named dir found symbolic long => cases second <;> simp_all [component]; omega
  | entry named dir found plain rest ih =>
    cases second with
    | entry named' dir' found' plain' rest' =>
      obtain rfl := Option.some.inj (found.symm.trans found')
      exact ih rest'
    | _ => simp_all [component]
  | link named dir found symbolic fits rest ih =>
    cases second with
    | link named' dir' found' symbolic' fits' rest' =>
      obtain rfl := Option.some.inj (found.symm.trans found')
      exact ih rest'
    | tooLong named' dir' found' symbolic' long =>
      obtain rfl := Option.some.inj (found.symm.trans found')
      omega
    | _ => simp_all [component]

end Yaboot.Pathname
