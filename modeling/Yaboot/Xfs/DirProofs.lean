import Yaboot.Xfs.Dir

/-! When `xfs_dir` opens what the path names. The rest of the path is copied
behind the text of a link inside one buffer. A text that reaches over the rest
destroys it, a blank in a text ends the path, and slashes at the end of a path are
looked up under an empty name; short of that `xfs_dir` resolves the path. -/
namespace Yaboot.Xfs
open Buffer CString Pathname

/-- The tree a volume stands for. -/
def DirVolume.tree (v : DirVolume) : FileTree Nat where
  root := v.rootino
  kind i := (v.object i).kind
  lookup dir name := ((v.object dir).entries.find? fun entry => entry.1 == name).map fun entry =>
    if entry.2 ≠ 0 then entry.2 else dir
  text i := (v.object i).text

/-- The value `xfs_dir` returns for a result. -/
def outcome : Result Nat → Except Int Nat
  | .opened i => .ok i
  | .notFound => .error fileErrNotfound
  | .notDir => .error fileErrNotdir
  | .badType => .error fileErrBadType
  | .tooManyLinks => .error fileErrSymlinkLoop
  | .tooLong => .error fileErrLength

/-- Characters that neither end a string nor a pathname. -/
def Plain (path : CStr) : Prop := ∀ c ∈ path, c ≠ 0 ∧ isspace c = false

/-! ### Characters that are right -/

/-- What lies in `linkbuf` behind a text read over the rest of a path at offset `k`: the
text from there on, again and again. -/
def overlapped (text : CStr) (k : Nat) : Nat → UInt8 := fun i =>
  text.getD (k + i % (text.length - k)) 0

/-- How many characters of a string, its terminator counted, are the ones found and no
blanks. -/
def matching : CStr → (Nat → UInt8) → Nat
  | [], found => if found 0 = 0 then 1 else 0
  | c :: rest, found =>
    if found 0 = c ∧ isspace c = false then matching rest (fun i => found (i + 1)) + 1 else 0

/-- How `xfs_dir` holds the rest of a path: its offset when it lies in `linkbuf`, and how
many of its characters, the terminator counted, are right and no blanks. -/
structure Held where
  offset : Option Nat
  sound : Nat

/-- Moving on in the path. -/
def Held.after (h : Held) (n : Nat) : Held := ⟨h.offset.map (· + n), h.sound - n⟩

/-- How many characters of the rest of a path stay right when the text of a link is read
to the start of `linkbuf`. -/
def Held.behind (h : Held) (text rest : CStr) : Nat :=
  match h.offset with
  | none => h.sound
  | some k => if text.length ≤ k then h.sound else matching rest (overlapped text k)

/-- The text of a link in `linkbuf`, with the rest of the path behind it. -/
def Held.splice (h : Held) (text rest : CStr) : Held where
  offset := some 0
  sound :=
    if text.all fun c => !isspace c then text.length + h.behind text rest
    else (text.takeWhile fun c => !isspace c).length

/-- The way of a path through a tree on which every character looked at is right: those
of a component and the one behind it, and the first where the way ends. The flag
tells whether it ends with slashes at a directory. -/
inductive Walks (t : FileTree α) (room : Nat) : Nat → Held → α → CStr → Bool → Prop where
  | done (known : 0 < h.sound) : Walks t room left h a [] false
  | notDir (more : path ≠ []) (flat : t.kind a ≠ .directory) (known : 0 < h.sound) :
      Walks t room left h a path false
  | slashes (more : path ≠ []) (only : component path = []) (dir : t.kind a = .directory)
      (known : consumed path < h.sound) : Walks t room left h a path true
  | notFound (named : component path ≠ []) (dir : t.kind a = .directory)
      (known : consumed path < h.sound) (missing : t.lookup a (component path) = none) :
      Walks t room left h a path false
  | entry (named : component path ≠ []) (dir : t.kind a = .directory)
      (known : consumed path < h.sound) (found : t.lookup a (component path) = some child)
      (plain : t.kind child ≠ .link)
      (rest : Walks t room left (h.after (consumed path)) child (beyond path) slashed) :
      Walks t room left h a path slashed
  | tooManyLinks (named : component path ≠ []) (dir : t.kind a = .directory)
      (known : consumed path < h.sound) (found : t.lookup a (component path) = some child)
      (symbolic : t.kind child = .link) : Walks t room 0 h a path false
  | link (named : component path ≠ []) (dir : t.kind a = .directory)
      (known : consumed path < h.sound) (found : t.lookup a (component path) = some child)
      (symbolic : t.kind child = .link)
      (fits : (t.text child).length + (beyond path).length ≤ room)
      (rest : Walks t room left
        ((h.after (consumed path)).splice (t.text child) (beyond path))
        (t.origin a (t.text child)) (t.text child ++ beyond path) slashed) :
      Walks t room (left + 1) h a path slashed

/-- `xfs_dir` looks at right characters only. -/
def Legible (v : DirVolume) (path : CStr) : Prop :=
  ∃ slashed, Walks v.tree (v.bsize - 2) maxLinkCount ⟨none, path.length + 1⟩ v.rootino path slashed

/-- Nor does the path, with its links replaced, end with slashes at a directory. -/
def Clean (v : DirVolume) (path : CStr) : Prop :=
  Walks v.tree (v.bsize - 2) maxLinkCount ⟨none, path.length + 1⟩ v.rootino path false

/-! ### Strings in memory -/

/-- The offset of a place in `linkbuf`. -/
def Place.offset : Place → Option Nat
  | .caller _ => none
  | .linkbuf k => some k

theorem Place.drop_drop (place : Place) (n m : Nat) :
    (place.drop n).drop m = place.drop (n + m) := by
  cases place with
  | caller rest => simp [Place.drop]
  | linkbuf k => simp [Place.drop, Nat.add_assoc]

theorem Place.drop_offset (place : Place) (n : Nat) :
    (place.drop n).offset = place.offset.map (· + n) := by
  cases place <;> rfl

theorem matching_le (rest : CStr) (found : Nat → UInt8) :
    matching rest found ≤ rest.length + 1 := by
  induction rest generalizing found with
  | nil =>
    unfold matching
    split <;> simp
  | cons c rest ih =>
    have next := ih fun i => found (i + 1)
    unfold matching
    split <;> simp only [List.length_cons] <;> omega

/-- Up to where they stop matching, the two texts are the same and have no blank. -/
theorem matching_eq {rest : CStr} {found : Nat → UInt8} (before : i < matching rest found) :
    found i = rest.getD i 0 ∧ isspace (rest.getD i 0) = false := by
  induction rest generalizing found i with
  | nil =>
    unfold matching at before
    split at before
    next ends =>
      obtain rfl : i = 0 := by omega
      exact ⟨by simpa using ends, rfl⟩
    next => omega
  | cons c rest ih =>
    unfold matching at before
    split at before
    next first =>
      cases i with
      | zero => simpa using first
      | succ i =>
        have before : i < matching rest fun i => found (i + 1) := by omega
        simpa using ih before
    next => omega

/-- A string in memory agrees with a path as far as the memory does. -/
theorem string_getD {mem : Bytes} {path : CStr} (same : ∀ i < n, mem (k + i) = path.getD i 0)
    (nul : 0 ∉ path) (bounded : n ≤ path.length + 1) (room : path.length < m) (before : i < n) :
    (((List.range' k m).map mem).takeWhile (· != 0)).getD i 0 = path.getD i 0 := by
  obtain ⟨m, rfl⟩ : ∃ j, m = j + 1 := ⟨m - 1, by omega⟩
  rw [List.range'_succ, List.map_cons]
  induction path generalizing k n m i with
  | nil =>
    obtain rfl : i = 0 := by simp at bounded; omega
    have ends : mem k = 0 := by simpa using same 0 before
    rw [List.takeWhile_cons_of_neg (by simp [ends])]
  | cons c path ih =>
    have first : mem k = c := by simpa using same 0 (by omega)
    have nonzero : c ≠ 0 := fun zero => nul (by simp [zero])
    rw [first, List.takeWhile_cons_of_pos (by simpa using nonzero)]
    cases i with
    | zero => rfl
    | succ i =>
      rw [List.length_cons] at bounded room
      obtain ⟨m, rfl⟩ : ∃ j, m = j + 1 := ⟨m - 1, by omega⟩
      have later : ∀ j < n - 1, mem (k + 1 + j) = path.getD j 0 := by
        intro j inside
        have there := same (j + 1) (by omega)
        rw [Nat.add_assoc, Nat.add_comm 1 j]
        simpa using there
      have next := ih (i := i) (n := n - 1) later (fun zero => nul (List.mem_cons_of_mem c zero))
        (by omega) (by omega) m (by omega)
      rw [List.range'_succ, List.map_cons]
      simpa using next

/-! ### Components -/

theorem consumed_eq (path : CStr) :
    (path.takeWhile (· == 47)).length + (component path).length = consumed path := by
  have first := congrArg List.length (List.takeWhile_append_dropWhile (p := (· == 47)) (l := path))
  have second := congrArg List.length
    (List.takeWhile_append_dropWhile (p := (· != 47)) (l := path.dropWhile (· == 47)))
  rw [List.length_append] at first second
  simp only [consumed, component, beyond, slash]
  omega

/-- A string whose first character is that of a path. -/
theorem head_of_agrees {string path : CStr} (same : string.getD 0 0 = (c :: path).getD 0 0)
    (nonzero : c ≠ 0) : ∃ tail, string = c :: tail := by
  cases string with
  | nil => exact absurd same.symm (by simpa using nonzero)
  | cons d tail => exact ⟨tail, by simpa using same⟩

/-- A name is cut from a string as from a path that it agrees with up to the character
behind the name. -/
theorem takeWhile_of_agrees {string path : CStr}
    (same : ∀ i < n, string.getD i 0 = path.getD i 0)
    (visible : ∀ i < n, isspace (path.getD i 0) = false) (nul : 0 ∉ path)
    (known : (path.takeWhile (· != 47)).length < n) :
    string.takeWhile (fun ch => ch != 0 && !isspace ch && ch != 47) = path.takeWhile (· != 47) := by
  induction path generalizing string n with
  | nil =>
    have ends := same 0 (by omega)
    cases string with
    | nil => rfl
    | cons d tail =>
      obtain rfl : d = 0 := by simpa using ends
      rfl
  | cons c path ih =>
    have nonzero : c ≠ 0 := fun zero => nul (by simp [zero])
    obtain ⟨tail, rfl⟩ := head_of_agrees (same 0 (by omega)) nonzero
    by_cases slash : c = 47
    · simp [slash]
    · have seen : isspace c = false := visible 0 (by omega)
      have passes : (c != 0 && !isspace c && c != 47) = true := by simp [nonzero, seen, slash]
      have goes : (c != 47) = true := by simpa using slash
      rw [List.takeWhile_cons_of_pos (p := (· != 47)) goes, List.length_cons] at known
      rw [List.takeWhile_cons_of_pos (p := fun ch => ch != 0 && !isspace ch && ch != 47) passes,
        List.takeWhile_cons_of_pos (p := (· != 47)) goes]
      refine congrArg (c :: ·) (ih (n := n - 1) (fun i before => ?_) (fun i before => ?_)
        (fun zero => nul (List.mem_cons_of_mem c zero)) (by omega))
      · simpa using same (i + 1) (by omega)
      · simpa using visible (i + 1) (by omega)

theorem consumed_slash (path : CStr) : consumed (47 :: path) = consumed path + 1 := by
  rw [← consumed_eq, ← consumed_eq, component, component]
  simp [slash]
  omega

/-- The first component of a path is cut right, slashes in front of it included. -/
theorem cutName_of_agrees {string path : CStr} (same : ∀ i < n, string.getD i 0 = path.getD i 0)
    (visible : ∀ i < n, isspace (path.getD i 0) = false) (nul : 0 ∉ path)
    (known : consumed path < n) :
    cutName string = component path ∧
      (string.takeWhile (· == 47)).length + (cutName string).length = consumed path := by
  suffices cutName string = component path ∧
      (string.takeWhile (· == 47)).length = (path.takeWhile (· == 47)).length by
    rw [← consumed_eq, this.1, this.2]
    exact ⟨rfl, rfl⟩
  induction path generalizing string n with
  | nil =>
    have ends := same 0 (by omega)
    cases string with
    | nil => exact ⟨rfl, rfl⟩
    | cons d tail =>
      obtain rfl : d = 0 := by simpa using ends
      exact ⟨rfl, rfl⟩
  | cons c path ih =>
    have nonzero : c ≠ 0 := fun zero => nul (by simp [zero])
    by_cases first : c = 47
    · subst first
      obtain ⟨tail, rfl⟩ := head_of_agrees (same 0 (by omega)) nonzero
      rw [consumed_slash] at known
      have same' : ∀ i < n - 1, tail.getD i 0 = path.getD i 0 := fun i before => by
        simpa using same (i + 1) (by omega)
      obtain ⟨name, count⟩ := ih same'
        (fun i before => by simpa using visible (i + 1) (by omega))
        (fun zero => nul (List.mem_cons_of_mem 47 zero)) (by omega)
      exact ⟨by simpa [cutName, component, slash] using name, by simpa using count⟩
    · have whole : (c :: path).dropWhile (· == 47) = c :: path :=
        List.dropWhile_cons_of_neg (by simpa using first)
      have none : (c :: path).takeWhile (· == 47) = [] :=
        List.takeWhile_cons_of_neg (by simpa using first)
      obtain ⟨tail, rfl⟩ := head_of_agrees (same 0 (by omega)) nonzero
      have whole' : (c :: tail).dropWhile (· == 47) = c :: tail :=
        List.dropWhile_cons_of_neg (by simpa using first)
      have none' : (c :: tail).takeWhile (· == 47) = [] :=
        List.takeWhile_cons_of_neg (by simpa using first)
      rw [← consumed_eq, none, component, slash, whole] at known
      refine ⟨?_, by rw [none, none']⟩
      rw [cutName, whole', component, slash, whole]
      exact takeWhile_of_agrees same visible nul (by simpa using known)

/-! ### Copying -/

/-- A place in `linkbuf` does not lie before offset `n`. -/
def Place.Behind (n : Nat) (place : Place) : Prop := ∀ k ∈ place.offset, n ≤ k

/-- The copy leaves what lies in front of it. -/
theorem copyRest_keeps (limit : Nat) (mem : Bytes) (place : Place) (n : Nat) :
    n ≤ (copyRest limit mem place n).1 ∧ ∀ i < n, (copyRest limit mem place n).2 i = mem i := by
  fun_induction copyRest limit mem place n with
  | case1 mem place n more ch mem' ends =>
    exact ⟨Nat.le_succ n, fun i before => Function.update_of_ne (by omega) _ _⟩
  | case2 mem place n more ch mem' goes ih =>
    obtain ⟨further, kept⟩ := ih
    refine ⟨by omega, fun i before => ?_⟩
    rw [kept i (by omega)]
    exact Function.update_of_ne (by omega) _ _
  | case3 mem place n full => exact ⟨Nat.le_refl n, fun _ _ => rfl⟩

/-- Characters that lie behind the copy arrive, up to the first zero. -/
theorem copyRest_copies {place : Place} {chars : Nat → UInt8}
    (found : ∀ i < m, (place.drop i).char mem = chars i) (behind : place.Behind n)
    (nonzero : ∀ i, i + 1 < m → chars i ≠ 0) (room : n + m ≤ limit) :
    n + m ≤ (copyRest limit mem place n).1 ∧
      ∀ i < m, (copyRest limit mem place n).2 (n + i) = chars i := by
  induction m generalizing mem place n chars with
  | zero => exact ⟨(copyRest_keeps limit mem place n).1, by simp⟩
  | succ m ih =>
    have first : place.char mem = chars 0 := by
      have char := found 0 (by omega)
      cases place <;> simpa [Place.drop] using char
    rw [copyRest, if_pos (by omega), first]
    by_cases ends : chars 0 = 0
    · obtain rfl : m = 0 := by
        by_contra more
        exact nonzero 0 (by omega) ends
      simp only [ends, ↓reduceIte]
      refine ⟨by omega, fun i before => ?_⟩
      obtain rfl : i = 0 := by omega
      rw [ends]
      exact Function.update_self ..
    · simp only [ends, ↓reduceIte]
      have later : ∀ i < m, ((place.drop 1).drop i).char (Function.update mem n (chars 0)) =
          chars (i + 1) := by
        intro i before
        rw [Place.drop_drop, Nat.add_comm, ← found (i + 1) (by omega)]
        cases place with
        | caller rest => rfl
        | linkbuf k =>
          have le : n ≤ k := behind k rfl
          exact Function.update_of_ne (by omega) _ _
      have behind' : (place.drop 1).Behind (n + 1) := by
        intro k there
        rw [Place.drop_offset] at there
        obtain ⟨j, here, rfl⟩ := Option.map_eq_some_iff.mp there
        exact Nat.succ_le_succ (behind j here)
      obtain ⟨further, arrived⟩ := ih later behind' (fun i more => nonzero (i + 1) (by omega))
        (by omega)
      refine ⟨by omega, fun i before => ?_⟩
      cases i with
      | zero =>
        have kept := (copyRest_keeps limit (Function.update mem n (chars 0)) (place.drop 1)
          (n + 1)).2 n (by omega)
        rwa [Function.update_self] at kept
      | succ i => rw [← arrived i (by omega), Nat.add_right_comm, Nat.add_assoc]

/-- Characters in front of the copy are copied, and then their copies, to the end. -/
theorem copyRest_repeats (before : k < n) (nonzero : ∀ j, k ≤ j → j < n → mem j ≠ 0)
    (room : n + m ≤ limit) :
    n + m ≤ (copyRest limit mem (.linkbuf k) n).1 ∧ ∀ i < m,
      (copyRest limit mem (.linkbuf k) n).2 (n + i) =
        (copyRest limit mem (.linkbuf k) n).2 (k + i) := by
  induction m generalizing mem k n with
  | zero => exact ⟨(copyRest_keeps limit mem _ n).1, by simp⟩
  | succ m ih =>
    have char : (Place.linkbuf k).char mem = mem k := rfl
    have later : ∀ j, k + 1 ≤ j → j < n + 1 → Function.update mem n (mem k) j ≠ 0 := by
      intro j after inside
      by_cases last : j = n
      · rw [last, Function.update_self]
        exact nonzero k (Nat.le_refl k) before
      · rw [Function.update_of_ne last]
        exact nonzero j (by omega) (by omega)
    have next := ih (show k + 1 < n + 1 by omega) later (by omega)
    have kept := (copyRest_keeps limit (Function.update mem n (mem k)) (.linkbuf (k + 1)) (n + 1)).2
    rw [copyRest, if_pos (by omega), char]
    simp only [nonzero k (Nat.le_refl k) before, ↓reduceIte, Place.drop]
    refine ⟨by omega, fun i inside => ?_⟩
    cases i with
    | zero =>
      have last := kept n (by omega)
      have copied := kept k (by omega)
      rw [Function.update_self] at last
      rw [Function.update_of_ne (by omega)] at copied
      exact last.trans copied.symm
    | succ i =>
      have copy := next.2 i (by omega)
      rwa [show n + 1 + i = n + (i + 1) by omega, show k + 1 + i = k + (i + 1) by omega] at copy

/-- Behind a text that was read over the rest of the path the copy leaves the text's own
end, again and again. -/
theorem copyRest_overlapped {text : CStr} (loaded : ∀ i < text.length, mem i = text.getD i 0)
    (nul : 0 ∉ text) (before : k < text.length) (room : text.length + m ≤ limit) :
    text.length + m ≤ (copyRest limit mem (.linkbuf k) text.length).1 ∧ ∀ i < m,
      (copyRest limit mem (.linkbuf k) text.length).2 (text.length + i) = overlapped text k i := by
  have nonzero : ∀ j, k ≤ j → j < text.length → mem j ≠ 0 := by
    intro j _ inside zero
    rw [loaded j inside, List.getD_eq_getElem?_getD, List.getElem?_eq_getElem inside,
      Option.getD_some] at zero
    exact nul (zero ▸ List.getElem_mem inside)
  obtain ⟨further, copies⟩ := copyRest_repeats before nonzero room
  refine ⟨further, fun i inside => ?_⟩
  induction i using Nat.strong_induction_on with
  | _ i ih =>
    rw [copies i inside]
    by_cases first : k + i < text.length
    · rw [(copyRest_keeps limit mem _ _).2 _ first, loaded _ first, overlapped,
        Nat.mod_eq_of_lt (by omega)]
    · have earlier := ih (i - (text.length - k)) (by omega) (by omega)
      rw [show text.length + (i - (text.length - k)) = k + i by omega] at earlier
      rw [earlier, overlapped, overlapped, ← Nat.mod_eq_sub_mod (by omega)]

/-! ### The loop -/

/-- The state of the loop at an object with a path still to go. -/
structure At (v : DirVolume) (s : DirState) (h : Held) (ino : Nat) (path : CStr) : Prop where
  here : s.ino = ino
  place : h.offset = s.dirname.offset
  agrees : ∀ i < h.sound, (s.dirname.drop i).char s.linkbuf = path.getD i 0
  visible : ∀ i < h.sound, isspace (path.getD i 0) = false
  bounded : h.sound ≤ path.length + 1
  nul : 0 ∉ path
  ended : 0 ∉ s.dirname.string v.bsize s.linkbuf
  room : ∀ k ∈ s.dirname.offset, k + path.length < v.bsize

/-- The string `xfs_dir` sees is the path as far as its characters are right. -/
theorem At.string {v : DirVolume} (at' : At v s h ino path) (known : i < h.sound) :
    (s.dirname.string v.bsize s.linkbuf).getD i 0 = path.getD i 0 := by
  have agrees := at'.agrees
  have room := at'.room
  cases place : s.dirname with
  | caller rest =>
    rw [← agrees i known, place]
    simp [Place.string, Place.drop, Place.char, List.headD_eq_head?_getD]
  | linkbuf k =>
    rw [place] at agrees room
    have inside := room k rfl
    exact string_getD agrees at'.nul at'.bounded (by omega) known

theorem At.ends {v : DirVolume} (at' : At v s h ino []) (known : 0 < h.sound) :
    s.dirname.string v.bsize s.linkbuf = [] := by
  have first := at'.string known
  have ended := at'.ended
  cases whole : s.dirname.string v.bsize s.linkbuf with
  | nil => rfl
  | cons c tail =>
    obtain rfl : c = 0 := by simpa [whole] using first
    exact absurd (by simp [whole]) ended

theorem At.goes {v : DirVolume} (at' : At v s h ino path) (known : 0 < h.sound)
    (more : path ≠ []) : ¬ (s.dirname.string v.bsize s.linkbuf = [] ∨
      isspace ((s.dirname.string v.bsize s.linkbuf).headD 0) = true) := by
  obtain ⟨c, rest, rfl⟩ := List.exists_cons_of_ne_nil more
  have nonzero : c ≠ 0 := fun zero => at'.nul (by simp [zero])
  obtain ⟨tail, whole⟩ := head_of_agrees (at'.string known) nonzero
  have seen : isspace c = false := by simpa using at'.visible 0 known
  simp [whole, seen]

theorem At.name {v : DirVolume} (at' : At v s h ino path) (known : consumed path < h.sound) :
    cutName (s.dirname.string v.bsize s.linkbuf) = component path ∧
      ((s.dirname.string v.bsize s.linkbuf).takeWhile (· == 47)).length +
        (component path).length = consumed path := by
  obtain ⟨name, count⟩ := cutName_of_agrees (fun i before => at'.string before) at'.visible
    at'.nul known
  rw [name] at count
  exact ⟨name, count⟩

theorem Place.ended_drop {place : Place} (ended : 0 ∉ place.string bsize mem) (n : Nat) :
    0 ∉ (place.drop n).string bsize mem := by
  cases place with
  | caller rest => exact fun member => ended ((List.drop_sublist n rest).subset member)
  | linkbuf k => exact fun member => by simpa using List.mem_takeWhile_imp member

theorem consumed_add (path : CStr) : consumed path + (beyond path).length = path.length := by
  have shorter := (beyond_suffix path).length_le
  unfold consumed
  omega

/-- Moving to an entry of the current directory. -/
theorem At.entry {v : DirVolume} (at' : At v s h ino path) (child : Nat) :
    At v { s with parentIno := ino, ino := child, dirname := s.dirname.drop (consumed path) }
      (h.after (consumed path)) child (beyond path) := by
  have later : ∀ i, (beyond path).getD i 0 = path.getD (consumed path + i) 0 := by
    intro i
    rw [← drop_consumed]
    simp [List.getD_eq_getElem?_getD]
  have total := consumed_add path
  have bounded := at'.bounded
  refine ⟨rfl, ?_, fun i before => ?_, fun i before => ?_, ?_, ?_,
    Place.ended_drop at'.ended _, ?_⟩
  · rw [Held.after, at'.place, Place.drop_offset]
  · rw [Place.drop_drop, later]
    exact at'.agrees _ (Nat.add_lt_of_lt_sub' before)
  · rw [later]
    exact at'.visible _ (Nat.add_lt_of_lt_sub' before)
  · simp only [Held.after]
    omega
  · exact fun member => at'.nul ((beyond_suffix path).subset member)
  · intro k there
    rw [Place.drop_offset] at there
    obtain ⟨j, before, rfl⟩ := Option.map_eq_some_iff.mp there
    have inside := at'.room j before
    omega

theorem At.behind_le {v : DirVolume} (at' : At v s h ino path) :
    h.behind text path ≤ path.length + 1 := by
  have bounded := at'.bounded
  unfold Held.behind
  split
  · exact bounded
  · split
    · exact bounded
    · exact matching_le _ _

theorem At.behind_visible {v : DirVolume} (at' : At v s h ino path)
    (before : i < h.behind text path) : isspace (path.getD i 0) = false := by
  unfold Held.behind at before
  split at before
  · exact at'.visible i before
  · split at before
    · exact at'.visible i before
    · exact (matching_eq before).2

/-- Behind a link nothing is held but what was copied right, and no blank. -/
theorem Held.splice_visible {h : Held}
    (seen : ∀ i < h.behind text path, isspace (path.getD i 0) = false)
    (before : i < (h.splice text path).sound) : isspace ((text ++ path).getD i 0) = false := by
  by_cases inText : i < text.length
  · have char : (text ++ path).getD i 0 = text[i] := by
      simp [List.getD_eq_getElem?_getD, List.getElem?_append_left inText, inText]
    rw [char]
    simp only [Held.splice] at before
    split at before
    next all => simpa using List.all_eq_true.mp all _ (List.getElem_mem inText)
    next =>
      have taken := List.mem_takeWhile_imp (List.getElem_mem before)
      have same := (List.takeWhile_prefix (l := text) fun c => !isspace c).getElem before
      rw [same] at taken
      simpa using taken
  · have char : (text ++ path).getD i 0 = path.getD (i - text.length) 0 := by
      simp [List.getD_eq_getElem?_getD, List.getElem?_append_right (Nat.le_of_not_lt inText)]
    have short := (List.takeWhile_prefix (l := text) fun c => !isspace c).length_le
    rw [char]
    refine seen _ ?_
    simp only [Held.splice] at before
    split at before <;> omega

/-- Where the text does not reach over the rest of the path, the copy is the rest. -/
theorem At.copied_apart {v : DirVolume} (at' : At v s h ino path)
    (apart : s.dirname.Behind n) (room : n + path.length + 1 ≤ limit) (src : Bytes) :
    n + h.sound ≤ (copyRest limit (blit s.linkbuf 0 n src) s.dirname n).1 ∧
      ∀ i < h.sound, (copyRest limit (blit s.linkbuf 0 n src) s.dirname n).2 (n + i) =
        path.getD i 0 := by
  have bounded := at'.bounded
  refine copyRest_copies (fun i before => ?_) apart (fun i more => ?_) (by omega)
  · rw [← at'.agrees i before]
    cases place : s.dirname with
    | caller rest => rfl
    | linkbuf k =>
      rw [place] at apart
      have le : n ≤ k := apart k rfl
      exact blit_outside _ _ (.inr (by omega))
  · intro zero
    have inside : i < path.length := by omega
    rw [List.getD_eq_getElem?_getD, List.getElem?_eq_getElem inside, Option.getD_some] at zero
    exact at'.nul (zero ▸ List.getElem_mem inside)

/-- What the copy leaves behind the text, as far as it is right. -/
theorem At.copied {v : DirVolume} (at' : At v s h ino path) (nul : 0 ∉ text)
    (loaded : mem = blit s.linkbuf 0 text.length fun i => text.getD i 0)
    (room : text.length + path.length + 1 ≤ limit) :
    text.length + h.behind text path ≤ (copyRest limit mem s.dirname text.length).1 ∧
      ∀ i < h.behind text path,
        (copyRest limit mem s.dirname text.length).2 (text.length + i) = path.getD i 0 := by
  have count : h.behind text path ≤ path.length + 1 := at'.behind_le
  have offset := at'.place
  subst loaded
  cases place : s.dirname with
  | caller rest =>
    have apart : s.dirname.Behind text.length := by
      rw [place]
      nofun
    have none : h.behind text path = h.sound := by
      rw [place] at offset
      simp only [Held.behind, offset, Place.offset]
    rw [none, ← place]
    exact at'.copied_apart apart room _
  | linkbuf k =>
    have some : h.offset = some k := by rw [offset, place]; rfl
    by_cases le : text.length ≤ k
    · have apart : s.dirname.Behind text.length := by
        rw [place]
        rintro _ ⟨⟩
        exact le
      have same : h.behind text path = h.sound := by simp only [Held.behind, some, le, ↓reduceIte]
      rw [same, ← place]
      exact at'.copied_apart apart room _
    · have reached : h.behind text path = matching path (overlapped text k) := by
        simp only [Held.behind, some, le, ↓reduceIte]
      have text_char : ∀ i < text.length, blit s.linkbuf 0 text.length (fun i => text.getD i 0) i =
          text.getD i 0 := fun i inside => blit_inside _ _ (Nat.zero_le i) (by omega)
      have room' : text.length + h.behind text path ≤ limit := by omega
      obtain ⟨further, arrived⟩ := copyRest_overlapped text_char nul (Nat.lt_of_not_le le) room'
      refine ⟨further, fun i before => ?_⟩
      rw [arrived i before]
      rw [reached] at before
      exact (matching_eq before).1

/-- Following a link. -/
theorem At.splice {v : DirVolume} (at' : At v s h ino path) (nonempty : text ≠ [])
    (nul : 0 ∉ text) (room : text.length + path.length ≤ v.bsize - 2) :
    At v (spliceLink v text s) (h.splice text path) (v.tree.origin s.parentIno text)
      (text ++ path) := by
  obtain ⟨mem, loaded⟩ : ∃ mem, mem = blit s.linkbuf 0 text.length fun i => text.getD i 0 := ⟨_, rfl⟩
  have size := v.bsize_ge
  have room' : text.length + path.length + 1 ≤ v.bsize - 1 := by omega
  obtain ⟨further, arrived⟩ := at'.copied nul loaded room'
  obtain ⟨count, kept⟩ := copyRest_keeps (v.bsize - 1) mem s.dirname text.length
  have text_char : ∀ i < text.length, mem i = text.getD i 0 := fun i inside => by
    rw [loaded]
    exact blit_inside _ _ (Nat.zero_le i) (by omega)
  obtain ⟨c, tail, start⟩ := List.exists_cons_of_ne_nil nonempty
  have first : mem 0 = c := by rw [text_char 0 (by rw [start]; simp), start]; rfl
  have le : h.behind text path ≤ path.length + 1 := at'.behind_le
  have sound : (h.splice text path).sound ≤ text.length + h.behind text path := by
    have prefix_le := (List.takeWhile_prefix (l := text) fun c => !isspace c).length_le
    simp only [Held.splice]
    split <;> omega
  refine ⟨?_, rfl, fun i before => ?_, fun i before => ?_, ?_, ?_, ?_, ?_⟩
  · have start_ino : (spliceLink v text s).ino =
        if mem 0 = 47 then v.rootino else s.parentIno := by rw [loaded]; rfl
    rw [start_ino, first, FileTree.origin, start]
    simp [slash, DirVolume.tree]
  · simp only [spliceLink, ← loaded, Place.drop, Place.char, Nat.zero_add]
    rw [Function.update_of_ne (by omega)]
    by_cases inText : i < text.length
    · rw [kept i inText, text_char i inText]
      simp [List.getD_eq_getElem?_getD, List.getElem?_append_left inText]
    · have there := arrived (i - text.length) (by omega)
      rw [show text.length + (i - text.length) = i by omega] at there
      rw [there]
      simp [List.getD_eq_getElem?_getD, List.getElem?_append_right (show text.length ≤ i by omega)]
  · exact Held.splice_visible (fun _ => at'.behind_visible) before
  · rw [List.length_append]
    omega
  · intro member
    rcases List.mem_append.mp member with inText | inRest
    · exact nul inText
    · exact at'.nul inRest
  · exact fun member => by simpa using List.mem_takeWhile_imp member
  · rintro _ ⟨⟩
    rw [List.length_append]
    omega

theorem lookup_eq {v : DirVolume} (named : name ≠ []) :
    v.tree.lookup ino name =
      (findEntry (v.object ino).entries name).map fun i => if i ≠ 0 then i else ino := by
  simp only [DirVolume.tree, findEntry, named, ↓reduceIte, Option.map_map]
  rfl

/-- A round that leaves the current directory through one of its entries. -/
theorem At.enter {v : DirVolume} (at' : At v s h ino path) (named : component path ≠ [])
    (dir : v.tree.kind ino = .directory) (known : consumed path < h.sound)
    (found : v.tree.lookup ino (component path) = some child) (fuel : Nat) :
    xfsDirLoop v (fuel + 1) s = xfsDirLoop v fuel
      { s with parentIno := ino, ino := child, dirname := s.dirname.drop (consumed path) } := by
  have kind : (v.object ino).kind = .directory := dir
  obtain ⟨name, count⟩ := at'.name known
  rw [lookup_eq named] at found
  obtain ⟨i, entry, same⟩ := Option.map_eq_some_iff.mp found
  simp only [xfsDirLoop, at'.here, kind, reduceCtorEq, ↓reduceIte,
    at'.goes (by omega) (ne_nil_of_component named), name, entry, count, ne_eq, not_true_eq_false,
    same]

/-- A round in a directory without an entry of the name, or without a name. -/
theorem At.missing {v : DirVolume} (at' : At v s h ino path) (more : path ≠ [])
    (dir : v.tree.kind ino = .directory) (known : consumed path < h.sound)
    (none : findEntry (v.object ino).entries (component path) = none) (fuel : Nat) :
    xfsDirLoop v (fuel + 1) s = some (.error fileErrNotfound) := by
  have kind : (v.object ino).kind = .directory := dir
  simp only [xfsDirLoop, at'.here, kind, reduceCtorEq, ↓reduceIte, at'.goes (by omega) more,
    (at'.name known).1, none, ne_eq, not_true_eq_false]

/-- A round at a link, which `xfs_dir` reaches through its directory. -/
theorem xfsDirLoop_link {v : DirVolume} {s : DirState} (symbolic : (v.object s.ino).kind = .link)
    (few : s.linkCount < maxLinkCount) (room : (v.object s.ino).text.length < v.bsize - 1)
    (fuel : Nat) :
    xfsDirLoop v (fuel + 1) s = xfsDirLoop v fuel (spliceLink v (v.object s.ino).text s) := by
  rw [xfsDirLoop]
  simp only [symbolic, ↓reduceIte, room, if_neg (show ¬ maxLinkCount < s.linkCount + 1 by omega)]

/-- The origin of a link is a directory. -/
theorem origin_kind {v : DirVolume} (dir : v.tree.kind ino = .directory) (text : CStr) :
    v.tree.kind (v.tree.origin ino text) = .directory := by
  unfold FileTree.origin
  split
  · exact v.root_dir
  · exact dir

/-- What `xfs_dir` gives at the end of a way. -/
def Follows (v : DirVolume) (s : DirState) (left ino : Nat) (path : CStr) (slashed : Bool) : Prop :=
  ∃ result, Resolves v.tree (v.bsize - 2) left ino path result ∧
    (slashed = true → result = .badType) ∧
    ∃ n, ∀ fuel, n ≤ fuel → xfsDirLoop v fuel s =
      some (if slashed then .error fileErrNotfound else outcome result)

theorem follows_of_round {v : DirVolume}
    (resolves : Resolves v.tree (v.bsize - 2) left ino path result)
    (round : ∀ fuel, xfsDirLoop v (fuel + 1) s = some (outcome result)) :
    Follows v s left ino path false := by
  refine ⟨result, resolves, nofun, 1, fun fuel enough => ?_⟩
  obtain ⟨fuel, rfl⟩ : ∃ m, fuel = m + 1 := ⟨fuel - 1, by omega⟩
  exact round fuel

/-- On a way whose characters are right `xfs_dir` follows the resolution of the
path, except that it looks slashes at the end up under an empty name. -/
theorem Walks.follows {v : DirVolume}
    (walks : Walks v.tree (v.bsize - 2) left h ino path slashed) (at' : At v s h ino path)
    (plain : v.tree.kind ino ≠ .link) (links : s.linkCount + left = maxLinkCount) :
    Follows v s left ino path slashed := by
  induction walks generalizing s with
  | @done left h ino known =>
    have unlinked : (v.object ino).kind ≠ .link := plain
    by_cases regular : v.tree.kind ino = .regular
    · refine follows_of_round (.opened regular) fun fuel => ?_
      have kind : (v.object ino).kind = .regular := regular
      simp [xfsDirLoop, at'.here, at'.ends known, kind, outcome]
    · refine follows_of_round (.badType regular) fun fuel => ?_
      have kind : (v.object ino).kind ≠ .regular := regular
      simp [xfsDirLoop, at'.here, at'.ends known, kind, unlinked, outcome]
  | @notDir path ino h left more flat known =>
    refine follows_of_round (.notDir more flat) fun fuel => ?_
    have kind : (v.object ino).kind ≠ .directory := flat
    have unlinked : (v.object ino).kind ≠ .link := plain
    simp only [xfsDirLoop, at'.here, kind, unlinked, ↓reduceIte, at'.goes known more, ne_eq,
      not_false_eq_true, outcome]
  | slashes more only dir known =>
    refine ⟨_, .slashes more only dir, fun _ => rfl, 1, fun fuel enough => ?_⟩
    obtain ⟨fuel, rfl⟩ : ∃ m, fuel = m + 1 := ⟨fuel - 1, by omega⟩
    exact at'.missing more dir known (by rw [only]; rfl) fuel
  | notFound named dir known missing =>
    refine follows_of_round (.notFound named dir missing) fun fuel => ?_
    rw [lookup_eq named, Option.map_eq_none_iff] at missing
    exact at'.missing (ne_nil_of_component named) dir known missing fuel
  | entry named dir known found unlinked rest ih =>
    obtain ⟨result, resolves, ends, n, runs⟩ := ih (at'.entry _) unlinked links
    refine ⟨result, .entry named dir found unlinked resolves, ends, n + 1, fun fuel enough => ?_⟩
    obtain ⟨fuel, rfl⟩ : ∃ m, fuel = m + 1 := ⟨fuel - 1, by omega⟩
    rw [at'.enter named dir known found]
    exact runs fuel (by omega)
  | tooManyLinks named dir known found symbolic =>
    refine ⟨_, .tooManyLinks named dir found symbolic, nofun, 2, fun fuel enough => ?_⟩
    obtain ⟨fuel, rfl⟩ : ∃ m, fuel = m + 2 := ⟨fuel - 2, by omega⟩
    have kind : (v.object _).kind = .link := symbolic
    rw [at'.enter named dir known found, xfsDirLoop]
    simp only [kind, ↓reduceIte, if_pos (show maxLinkCount < s.linkCount + 1 by omega), outcome,
      Bool.false_eq_true]
  | @link path ino child left slashed h named dir known found symbolic fits rest ih =>
    have kind : (v.object child).kind = .link := symbolic
    have spliced := (at'.entry child).splice (v.text_ne child kind) (v.text_nul child kind) fits
    obtain ⟨result, resolves, ends, n, runs⟩ := ih spliced (by rw [origin_kind dir]; nofun)
      (by simp only [spliceLink]; omega)
    refine ⟨result, .link named dir found symbolic fits resolves, ends, n + 2, fun fuel enough => ?_⟩
    obtain ⟨fuel, rfl⟩ : ∃ m, fuel = m + 2 := ⟨fuel - 2, by omega⟩
    have size := v.bsize_ge
    have length : (v.object child).text.length < v.bsize - 1 := by
      have le : (v.object child).text.length + (beyond path).length ≤ v.bsize - 2 := fits
      omega
    rw [at'.enter named dir known found, xfsDirLoop_link kind (by simp only; omega) length]
    exact runs fuel (by omega)

/-- The result of the loop does not change with more fuel. -/
theorem xfsDirLoop_more {v : DirVolume} (ends : xfsDirLoop v fuel s = some r) (extra : Nat) :
    xfsDirLoop v (fuel + extra) s = some r := by
  induction fuel generalizing s with
  | zero => cases ends
  | succ fuel ih =>
    rw [show fuel + 1 + extra = fuel + extra + 1 by omega]
    rw [xfsDirLoop] at ends ⊢
    dsimp only at ends ⊢
    split at ends
    next link =>
      rw [if_pos link]
      split at ends
      next many => rw [if_pos many, ends]
      next few =>
        rw [if_neg few]
        split at ends
        next room => rw [if_pos room, ih ends]
        next long => rw [if_neg long, ends]
    next unlinked =>
      rw [if_neg unlinked]
      split at ends
      next last => rw [if_pos last, ends]
      next more =>
        rw [if_neg more]
        split at ends
        next flat => rw [if_pos flat, ends]
        next dir =>
          rw [if_neg dir]
          cases entry : findEntry (v.object s.ino).entries
              (cutName (s.dirname.string v.bsize s.linkbuf)) with
          | none => rw [entry] at ends; exact ends
          | some newIno => rw [entry] at ends; exact ih ends

/-- `xfs_dir` ends with a value. -/
def Ends (v : DirVolume) (linkbuf : Bytes) (path : CStr) (r : Except Int Nat) : Prop :=
  ∃ n, ∀ fuel, n ≤ fuel → xfsDir v fuel linkbuf path = some r

theorem Plain.start {v : DirVolume} (plain : Plain path) (linkbuf : Bytes) :
    At v ⟨v.rootino, v.rootino, 0, linkbuf, .caller path⟩ ⟨none, path.length + 1⟩ v.rootino path := by
  have nul : 0 ∉ path := fun member => (plain 0 member).1 rfl
  refine ⟨rfl, rfl, fun i _ => ?_, fun i _ => ?_, Nat.le_refl _, nul, nul, nofun⟩
  · simp [Place.drop, Place.char, List.headD_eq_head?_getD]
  · by_cases inside : i < path.length
    · rw [List.getD_eq_getElem?_getD, List.getElem?_eq_getElem inside, Option.getD_some]
      exact (plain _ (List.getElem_mem inside)).2
    · simp [List.getD_eq_getElem?_getD, List.getElem?_eq_none (Nat.le_of_not_lt inside), isspace]

/-- What `xfs_dir` returns where it looks at right characters only. -/
theorem Walks.returns {v : DirVolume} (plain : Plain path)
    (walks : Walks v.tree (v.bsize - 2) maxLinkCount ⟨none, path.length + 1⟩ v.rootino path slashed)
    (resolves : Resolves v.tree (v.bsize - 2) maxLinkCount v.rootino path result)
    (linkbuf : Bytes) : (slashed = true → result = .badType) ∧
      Ends v linkbuf path (if slashed then .error fileErrNotfound else outcome result) := by
  have dir : v.tree.kind v.rootino = .directory := v.root_dir
  obtain ⟨result', resolves', ends, runs⟩ :=
    walks.follows (plain.start linkbuf) (by rw [dir]; nofun) rfl
  obtain rfl := resolves.unique resolves'
  exact ⟨ends, runs⟩

/-- `xfs_dir` opens the inode that the path names from the root, or fails as its
resolution does, when it looks at no character that is wrong or a blank and the path
does not end with slashes at a directory. Where all characters it looks at are right,
only then. -/
theorem xfsDir_resolves (v : DirVolume) (linkbuf : Bytes) (plain : Plain path)
    (resolves : Resolves v.tree (v.bsize - 2) maxLinkCount v.rootino path result) :
    (Clean v path → Ends v linkbuf path (outcome result)) ∧
      (Legible v path → Ends v linkbuf path (outcome result) → Clean v path) := by
  constructor
  · intro clean
    exact (clean.returns plain resolves linkbuf).2
  · rintro ⟨slashed, walks⟩ ⟨n, agrees⟩
    cases slashed with
    | false => exact walks
    | true =>
      obtain ⟨ends, m, runs⟩ := walks.returns plain resolves linkbuf
      have both := (agrees (n + m) (by omega)).symm.trans (runs (n + m) (by omega))
      rw [ends rfl] at both
      exact absurd both (by decide)

/-- The root holds the links `a`, `b` and `c` with the texts `b`, `d/f` and `m/x y`, and the
directory `d` with the regular file `f`. -/
def nested : DirVolume where
  bsize := 512
  rootino := 1
  object
    | 1 => ⟨.directory, [([97], 2), ([98], 3), ([99], 6), ([100], 4)], []⟩
    | 2 => ⟨.link, [], [98]⟩
    | 3 => ⟨.link, [], [100, 47, 102]⟩
    | 4 => ⟨.directory, [([102], 5)], []⟩
    | 5 => ⟨.regular, [], []⟩
    | 6 => ⟨.link, [], [109, 47, 120, 32, 121]⟩
    | _ => ⟨.other, [], []⟩
  bsize_ge := by decide
  root_dir := rfl
  text_ne i link := by split at link <;> simp_all
  text_nul i link := by split at link <;> simp_all

theorem nested_b_resolves : Resolves nested.tree 510 8 1 [47, 98] (.opened 5) := by
  have file : Resolves nested.tree 510 7 5 [] (.opened 5) := .opened rfl
  have inner : Resolves nested.tree 510 7 4 [47, 102] (.opened 5) :=
    .entry (by decide) rfl rfl (by decide) file
  have text : Resolves nested.tree 510 7 1 [100, 47, 102] (.opened 5) :=
    .entry (by decide) rfl rfl (by decide) inner
  exact .link (by decide) rfl (show nested.tree.lookup 1 [98] = some 3 from rfl) rfl (by decide) text

theorem nested_b_clean : Clean nested [47, 98] := by
  have file : Walks nested.tree 510 7 ⟨some 3, 1⟩ 5 [] false := .done (by decide)
  have inner : Walks nested.tree 510 7 ⟨some 1, 3⟩ 4 [47, 102] false :=
    .entry (by decide) rfl (by decide) rfl (by decide) file
  have text : Walks nested.tree 510 7 ⟨some 0, 4⟩ 1 [100, 47, 102] false :=
    .entry (by decide) rfl (by decide) rfl (by decide) inner
  exact .link (by decide) rfl (by decide) (show nested.tree.lookup 1 [98] = some 3 from rfl) rfl
    (by decide) text

theorem nested_c_resolves : Resolves nested.tree 510 8 1 [47, 99] .notFound := by
  have text : Resolves nested.tree 510 7 1 [109, 47, 120, 32, 121] .notFound :=
    .notFound (by decide) rfl rfl
  exact .link (by decide) rfl (show nested.tree.lookup 1 [99] = some 6 from rfl) rfl (by decide) text

theorem nested_c_clean : Clean nested [47, 99] := by
  have text : Walks nested.tree 510 7 ⟨some 0, 3⟩ 1 [109, 47, 120, 32, 121] false :=
    .notFound (by decide) rfl (by decide) rfl
  exact .link (by decide) rfl (by decide) (show nested.tree.lookup 1 [99] = some 6 from rfl) rfl
    (by decide) text

/-- The path `/b` goes through one link, and `/c` ends before the blank in its text. -/
theorem nested_direct : Ends nested (fun _ => 0) [47, 98] (.ok 5) ∧
    Ends nested (fun _ => 0) [47, 99] (.error fileErrNotfound) := by
  constructor
  · exact (xfsDir_resolves nested _ (by simp [Plain, isspace]) nested_b_resolves).1 nested_b_clean
  · exact (xfsDir_resolves nested _ (by simp [Plain, isspace]) nested_c_resolves).1 nested_c_clean

/-- The path `/a` leads to the same file as `/b`, but the text of the second link
overwrites the end of the first. -/
theorem nested_overwritten : Resolves nested.tree 510 8 1 [47, 97] (.opened 5) ∧
    Ends nested (fun _ => 0) [47, 97] (.error fileErrNotdir) := by
  have file : Resolves nested.tree 510 6 5 [] (.opened 5) := .opened rfl
  have inner : Resolves nested.tree 510 6 4 [47, 102] (.opened 5) :=
    .entry (by decide) rfl rfl (by decide) file
  have text : Resolves nested.tree 510 6 1 [100, 47, 102] (.opened 5) :=
    .entry (by decide) rfl rfl (by decide) inner
  have second : Resolves nested.tree 510 7 1 [98] (.opened 5) :=
    .link (by decide) rfl (show nested.tree.lookup 1 [98] = some 3 from rfl) rfl (by decide) text
  have first : Resolves nested.tree 510 8 1 [47, 97] (.opened 5) :=
    .link (by decide) rfl (show nested.tree.lookup 1 [97] = some 2 from rfl) rfl (by decide) second
  refine ⟨first, 7, fun fuel enough => ?_⟩
  have ends : xfsDirLoop nested 7 ⟨1, 1, 0, fun _ => 0, .caller [47, 97]⟩ =
      some (.error fileErrNotdir) := by decide +kernel
  rw [← Nat.add_sub_cancel' enough]
  exact xfsDirLoop_more ends (fuel - 7)

end Yaboot.Xfs
