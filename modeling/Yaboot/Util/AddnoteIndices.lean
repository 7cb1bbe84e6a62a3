import Yaboot.Util.AddnoteProofs

/-! Where `util/addnote.c` reads and writes `buf`. The one comparison that keeps it
inside adds and multiplies fields of the file in an `int`. -/
namespace Yaboot.Util
open Buffer CString Word

/-! ### Indices -/

/-- `k` bytes from `at_` on, as an `int` counts. -/
def run (at_ k : Nat) : List Nat := (List.range k).map fun i => u32 (at_ + i)

/-- The loop over the program headers. -/
def scanIndices (buf : Bytes) (ps : Nat) : Nat → Nat → List Nat
  | 0, _ => []
  | np + 1, ph =>
    run (ph + phType) 4 ++
      if word32 buf (ph + phType) = ptNote then [] else scanIndices buf ps np (u32 (ph + ps))

/-- The loop that looks for something behind the headers. -/
def spaceIndices (buf : Bytes) (ph : Nat) : Nat → Nat → List Nat
  | 0, _ => []
  | left + 1, i =>
    u32 (ph + i) :: if buf (ph + i) != 0 then [] else spaceIndices buf ph left (i + 1)

def headerIndices (ph : Nat) : List Nat :=
  run (ph + phType) 4 ++ run (ph + phOffset) 4 ++ run (ph + phFilesz) 4

def noteIndices (ns : Nat) (name : CStr) (room : Nat) (words : List Nat) : List Nat :=
  run ns 12 ++ run (ns + 12) (name.length + 1) ++ run (ns + 12 + room) (4 * words.length)

/-- What is filled in. -/
def fillIndices (ph ps : Nat) : List Nat :=
  let ns := ph + 2 * ps
  headerIndices ph ++ noteIndices ns arch (arch.length + 1) descr ++ headerIndices (ph + ps) ++
    noteIndices (ns + 12 + (arch.length + 1) + 4 * descr.length) rpaname
      (roundup (rpaname.length + 1)) rpanote

/-- From the comparison of the fields on. -/
def tableIndices (n : Nat) (buf : Bytes) : List Nat :=
  let ph := word32 buf ePhoff
  let ps := word16 buf ePhentsize
  let np := word16 buf ePhnum
  if s32 ph < eHsize ∨ ps < phHsize ∨ np < 1 then []
  else if s32 (ph + (np + 2) * ps + nnote + nnote2) > n then []
  else
    scanIndices buf ps np ph ++
      match skipHeaders buf ps np ph with
      | none => []
      | some ph =>
        spaceIndices buf ph (2 * ps + nnote + nnote2) 0 ++
          if (List.range (2 * ps + nnote + nnote2)).any fun i => buf (ph + i) != 0 then []
          else fillIndices ph ps ++ run ePhnum 2

/-- Every index at which `main` looks into `buf` or stores there. -/
def mainIndices (n : Nat) (buf : Bytes) : List Nat :=
  if n < eHsize then []
  else if (List.range 4).map buf ≠ elfMagic then run 0 4
  else if buf eiClass ≠ elfclass32 then run 0 4 ++ [eiClass]
  else if buf eiData ≠ elfdata2msb then run 0 4 ++ [eiClass, eiData]
  else
    run 0 4 ++ [eiClass, eiData] ++ run ePhoff 4 ++ run ePhentsize 2 ++ run ePhnum 2 ++
      tableIndices n buf

/-! ### What keeps them inside -/

/-- The file is refused before its program headers are looked at. -/
def Refused (n : Nat) (buf : Bytes) : Prop :=
  n < eHsize ∨ (List.range 4).map buf ≠ elfMagic ∨ buf eiClass ≠ elfclass32 ∨
    buf eiData ≠ elfdata2msb ∨ s32 (word32 buf ePhoff) < eHsize ∨
    word16 buf ePhentsize < phHsize ∨ word16 buf ePhnum < 1

/-- How far the headers and what is added to them reach. -/
def need (buf : Bytes) : Nat :=
  word32 buf ePhoff + (word16 buf ePhnum + 2) * word16 buf ePhentsize + nnote + nnote2

/-- One of the headers that lie in the bytes read is a note. -/
def NoteInside (n : Nat) (buf : Bytes) : Prop :=
  ∃ i < word16 buf ePhnum, word32 buf ePhoff + i * word16 buf ePhentsize + 4 ≤ n ∧
    word32 buf (word32 buf ePhoff + i * word16 buf ePhentsize) = ptNote

/-! ### Runs -/

variable {n ps np ph at_ k : Nat} {buf : Bytes}

/-- Indices that lie in the bytes read. -/
def Inside (n : Nat) (indices : List Nat) : Prop := ∀ i ∈ indices, i < n

@[simp] theorem inside_nil (n : Nat) : Inside n [] := nofun

@[simp] theorem inside_append {l m : List Nat} :
    Inside n (l ++ m) ↔ Inside n l ∧ Inside n m := List.forall_mem_append

@[simp] theorem inside_cons {i : Nat} {l : List Nat} :
    Inside n (i :: l) ↔ i < n ∧ Inside n l := List.forall_mem_cons

theorem run_inside (fits : at_ + k ≤ n) (small : n ≤ 512) : Inside n (run at_ k) := by
  intro i member
  obtain ⟨j, below, rfl⟩ := List.mem_map.mp member
  have below := List.mem_range.mp below
  rw [u32_of_lt (by omega)]
  omega

theorem word_inside (inside : Inside n (run at_ 4)) (low : at_ < 2 ^ 31) : at_ + 4 ≤ n := by
  have last : u32 (at_ + 3) ∈ run at_ 4 := List.mem_map.mpr ⟨3, by decide, rfl⟩
  have less := inside _ last
  rw [u32_of_lt (by omega)] at less
  omega

/-! ### The scan -/

/-- A note among the headers that lie inside ends the scan in time. -/
theorem scan_note (small : n ≤ 512)
    (note : ∃ i < np, ph + i * ps + 4 ≤ n ∧ word32 buf (ph + i * ps) = ptNote) :
    Inside n (scanIndices buf ps np ph) ∧ skipHeaders buf ps np ph = none := by
  induction np generalizing ph with
  | zero =>
    obtain ⟨i, none, -⟩ := note
    exact absurd none (Nat.not_lt_zero i)
  | succ np ih =>
    obtain ⟨i, less, fits, found⟩ := note
    unfold scanIndices skipHeaders phType
    rw [inside_append, Nat.add_zero]
    have first : Inside n (run ph 4) := run_inside (by omega) small
    by_cases here : word32 buf ph = ptNote
    · rw [if_pos here, if_pos here]
      exact ⟨⟨first, inside_nil n⟩, rfl⟩
    · obtain ⟨i, rfl⟩ : ∃ j, i = j + 1 := by
        refine Nat.exists_eq_succ_of_ne_zero ?_
        rintro rfl
        rw [Nat.zero_mul, Nat.add_zero] at found
        exact here found
      have place : ph + (i + 1) * ps = ph + ps + i * ps := by
        rw [Nat.succ_mul, Nat.add_comm (i * ps), Nat.add_assoc]
      rw [place] at fits found
      rw [if_neg here, if_neg here, u32_of_lt (by omega)]
      obtain ⟨rest, none⟩ := ih ⟨i, by omega, fits, found⟩
      exact ⟨⟨first, rest⟩, none⟩

/-- A scan that stays inside meets a note there, or all headers are there. -/
theorem scan_inside (small : n ≤ 512) (low : ph < 2 ^ 31) (step : ps < 65536)
    (inside : Inside n (scanIndices buf ps np ph)) :
    (∃ i < np, ph + i * ps + 4 ≤ n ∧ word32 buf (ph + i * ps) = ptNote) ∨
      ∀ i < np, ph + i * ps + 4 ≤ n := by
  induction np generalizing ph with
  | zero => exact .inr nofun
  | succ np ih =>
    unfold scanIndices phType at inside
    rw [inside_append, Nat.add_zero] at inside
    obtain ⟨first, rest⟩ := inside
    have here := word_inside first low
    by_cases note : word32 buf ph = ptNote
    · exact .inl ⟨0, Nat.succ_pos np, by omega, by rwa [Nat.zero_mul, Nat.add_zero]⟩
    rw [if_neg note, u32_of_lt (by omega)] at rest
    have place (i : Nat) : ph + (i + 1) * ps = ph + ps + i * ps := by
      rw [Nat.succ_mul, Nat.add_comm (i * ps), Nat.add_assoc]
    rcases ih (by omega) rest with ⟨i, less, fits, found⟩ | all
    · exact .inl ⟨i + 1, by omega, by rw [place]; exact fits, by rw [place]; exact found⟩
    · refine .inr fun i less => ?_
      cases i with
      | zero => omega
      | succ i =>
        rw [place]
        exact all i (by omega)

/-- The scan of the headers stays inside the file when each header does. -/
theorem scan_all (small : n ≤ 512) (all : ∀ i < np, ph + i * ps + 4 ≤ n) :
    Inside n (scanIndices buf ps np ph) := by
  induction np generalizing ph with
  | zero => exact inside_nil n
  | succ np ih =>
    have here := all 0 (Nat.succ_pos np)
    unfold scanIndices phType
    rw [inside_append]
    refine ⟨run_inside (by omega) small, ?_⟩
    split
    · exact inside_nil n
    cases np with
    | zero => exact inside_nil n
    | succ np =>
      have next := all 1 (by omega)
      rw [u32_of_lt (by omega)]
      refine ih fun i less => ?_
      have later := all (i + 1) (by omega)
      rw [Nat.succ_mul] at later
      omega

/-! ### Behind the headers -/

theorem space_inside (small : n ≤ 512) (fits : ph + i + k ≤ n) :
    Inside n (spaceIndices buf ph k i) := by
  induction k generalizing i with
  | zero => exact inside_nil n
  | succ k ih =>
    unfold spaceIndices
    rw [inside_cons, u32_of_lt (by omega)]
    refine ⟨by omega, ?_⟩
    split
    · exact inside_nil n
    · exact ih (by omega)

theorem header_inside (small : n ≤ 512) (fits : ph + 20 ≤ n) : Inside n (headerIndices ph) := by
  have place : phType = 0 ∧ phOffset = 4 ∧ phFilesz = 16 := ⟨rfl, rfl, rfl⟩
  unfold headerIndices
  simp only [inside_append]
  exact ⟨⟨run_inside (by omega) small, run_inside (by omega) small⟩, run_inside (by omega) small⟩

theorem fill_inside (small : n ≤ 512) (large : phHsize ≤ ps)
    (fits : ph + (2 * ps + nnote + nnote2) ≤ n) : Inside n (fillIndices ph ps) := by
  have sizes : phHsize = 32 ∧ nnote = 44 ∧ nnote2 = 68 := ⟨rfl, rfl, rfl⟩
  have lengths : arch.length = 7 ∧ rpaname.length = 21 ∧ descr.length = 6 ∧ rpanote.length = 8 ∧
      roundup (21 + 1) = 24 := ⟨rfl, rfl, rfl, rfl, rfl⟩
  obtain ⟨archLength, rpaLength, words, words', room⟩ := lengths
  unfold fillIndices noteIndices
  dsimp only
  rw [archLength, rpaLength, words, words', room]
  simp only [inside_append]
  exact ⟨⟨⟨header_inside small (by omega),
    ⟨run_inside (by omega) small, run_inside (by omega) small⟩, run_inside (by omega) small⟩,
    header_inside small (by omega)⟩,
    ⟨run_inside (by omega) small, run_inside (by omega) small⟩, run_inside (by omega) small⟩

/-- Where there is nothing behind the headers, all of it is looked at. -/
theorem space_all (zero : ∀ j < k, buf (ph + i + j) = 0) (less : j < k) :
    u32 (ph + i + j) ∈ spaceIndices buf ph k i := by
  induction k generalizing i j with
  | zero => exact absurd less (Nat.not_lt_zero j)
  | succ k ih =>
    have first : buf (ph + i) = 0 := zero 0 (Nat.succ_pos k)
    unfold spaceIndices
    rw [if_neg (by simp [first])]
    cases j with
    | zero => exact List.mem_cons_self
    | succ j =>
      have place (j : Nat) : ph + (i + 1) + j = ph + i + (j + 1) := by omega
      have later := ih (i := i + 1) (j := j)
        (fun j less => by rw [place]; exact zero (j + 1) (Nat.succ_lt_succ less)) (by omega)
      rw [place] at later
      exact List.mem_cons_of_mem _ later

/-! ### The whole program -/

/-- Unless the file is rewritten its bytes stay. -/
theorem hackIn_kept (kept : (hackIn n buf).1 ≠ .rewritten) : (hackIn n buf).2 = buf := by
  unfold hackIn at kept ⊢
  dsimp only at kept ⊢
  split_ifs at kept ⊢ with header class_ fields room
  · rfl
  · rfl
  · rfl
  · rfl
  · split at kept
    · rfl
    · split_ifs at kept ⊢ with space
      · rfl
      · exact absurd rfl kept

/-- A file that is rewritten is looked at up to the end of what is added. -/
theorem mainIndices_rewritten {behind : Nat} (rewritten : (hackIn n buf).1 = .rewritten)
    (scan : skipHeaders buf (word16 buf ePhentsize) (word16 buf ePhnum) (word32 buf ePhoff) =
      some behind)
    (zero : ∀ i < 2 * word16 buf ePhentsize + nnote + nnote2, buf (behind + i) = 0) :
    spaceIndices buf behind (2 * word16 buf ePhentsize + nnote + nnote2) 0 ++ run ePhnum 2 ⊆
      mainIndices n buf := by
  unfold hackIn at rewritten
  dsimp only at rewritten
  split_ifs at rewritten with header class_ fields room
  rw [not_or] at header class_
  have nothing : ¬ (List.range (2 * word16 buf ePhentsize + nnote + nnote2)).any
      fun i => buf (behind + i) != 0 := by
    simpa using zero
  unfold mainIndices tableIndices
  dsimp only
  rw [if_neg header.1, if_neg header.2, if_neg class_.1, if_neg class_.2, if_neg fields,
    if_neg room, scan]
  dsimp only
  rw [if_neg nothing]
  intro i member
  simp only [List.mem_append] at member ⊢
  rcases member with space | number
  · exact .inr (.inr (.inl space))
  · exact .inr (.inr (.inr (.inr number)))

/-- What `main` does not index it does not change. -/
theorem hackIn_outside (n : Nat) (buf : Bytes) {i : Nat} (word : i < 2 ^ 32)
    (outside : i ∉ mainIndices n buf) : (hackIn n buf).2 i = buf i := by
  by_cases rewritten : (hackIn n buf).1 = .rewritten
  · obtain ⟨-, -, large, -, behind, scan, zero, result⟩ := hackIn_rewritten rewritten
    obtain ⟨spaceAway, numberAway⟩ := not_or.mp fun member =>
      outside (mainIndices_rewritten rewritten scan zero (List.mem_append.mpr member))
    have number : i < ePhnum ∨ ePhnum + 2 ≤ i := by
      by_contra inside
      refine numberAway (List.mem_map.mpr ⟨i - ePhnum, List.mem_range.mpr (by omega), ?_⟩)
      rw [Nat.add_sub_cancel' (by omega), u32_of_lt word]
    have space : i < behind ∨ behind + (2 * word16 buf ePhentsize + nnote + nnote2) ≤ i := by
      by_contra inside
      have looked := space_all (i := 0) (j := i - behind)
        (by rwa [Nat.add_zero]) (by omega)
      rw [Nat.add_zero, Nat.add_sub_cancel' (by omega), u32_of_lt word] at looked
      exact spaceAway looked
    rw [result]
    dsimp only
    rw [put16, blit_outside _ _ number, fillIn_outside buf large space]
  · rw [hackIn_kept rewritten]

theorem mul_add_two (np ps : Nat) : (np + 2) * ps = np * ps + 2 * ps := Nat.add_mul np 2 ps

/-- A header table that is not refused is behind the ELF header, and not negative. -/
theorem phoff_low (buf : Bytes) (behind : ¬ s32 (word32 buf ePhoff) < eHsize) :
    word32 buf ePhoff < 2 ^ 31 := by
  have word := word32_lt buf ePhoff
  by_contra high
  have negative := s32_of_ge (Nat.le_of_not_lt high) word
  omega

/-- The indices behind the comparison with the size. -/
def roomIndices (buf : Bytes) : List Nat :=
  scanIndices buf (word16 buf ePhentsize) (word16 buf ePhnum) (word32 buf ePhoff) ++
    match skipHeaders buf (word16 buf ePhentsize) (word16 buf ePhnum) (word32 buf ePhoff) with
    | none => []
    | some ph =>
      spaceIndices buf ph (2 * word16 buf ePhentsize + nnote + nnote2) 0 ++
        if (List.range (2 * word16 buf ePhentsize + nnote + nnote2)).any fun i =>
          buf (ph + i) != 0 then []
        else fillIndices ph (word16 buf ePhentsize) ++ run ePhnum 2

theorem tableIndices_eq (low : word32 buf ePhoff < 2 ^ 31)
    (header : ¬ ((word32 buf ePhoff : Int) < eHsize ∨ word16 buf ePhentsize < phHsize ∨
      word16 buf ePhnum < 1)) :
    tableIndices n buf = if s32 (need buf) > n then [] else roomIndices buf := by
  unfold tableIndices
  dsimp only
  rw [s32_of_lt low, if_neg header]
  rfl

theorem need_eq (buf : Bytes) : need buf = word32 buf ePhoff +
    (word16 buf ePhnum * word16 buf ePhentsize + 2 * word16 buf ePhentsize) + nnote + nnote2 := by
  unfold need
  rw [mul_add_two]

/-- Where the headers and what is added to them end inside, so do the indices. -/
theorem roomIndices_inside (small : n ≤ 512) (fits : need buf ≤ n)
    (large : ¬ word16 buf ePhentsize < phHsize) : Inside n (roomIndices buf) := by
  have sizes : phHsize = 32 ∧ ePhnum = 44 ∧ nnote = 44 ∧ nnote2 = 68 := ⟨rfl, rfl, rfl, rfl⟩
  have whole := need_eq buf
  have all : ∀ i < word16 buf ePhnum, word32 buf ePhoff + i * word16 buf ePhentsize + 4 ≤ n := by
    intro i less
    have next := Nat.mul_le_mul_right (word16 buf ePhentsize) less
    rw [Nat.succ_mul] at next
    omega
  unfold roomIndices
  rw [inside_append]
  refine ⟨scan_all small all, ?_⟩
  cases scan : skipHeaders buf (word16 buf ePhentsize) (word16 buf ePhnum) (word32 buf ePhoff) with
  | none => exact inside_nil n
  | some ph =>
    obtain ⟨rfl, -⟩ := skipHeaders_some (by omega) scan
    dsimp only
    rw [inside_append]
    refine ⟨space_inside small (by omega), ?_⟩
    split
    · exact inside_nil n
    · rw [inside_append]
      exact ⟨fill_inside small (by omega) (by omega), run_inside (by omega) small⟩

/-- Past the comparison with the size the indices are inside if the exact sum is, or a
note ends the scan. -/
theorem table_inside_iff (small : n ≤ 512)
    (header : ¬ (s32 (word32 buf ePhoff) < eHsize ∨ word16 buf ePhentsize < phHsize ∨
      word16 buf ePhnum < 1)) :
    Inside n (tableIndices n buf) ↔
      need buf ≤ n ∨ n < s32 (need buf) ∨ NoteInside n buf := by
  have step := word16_lt buf ePhentsize
  have low := phoff_low buf fun negative => header (.inl negative)
  have whole := need_eq buf
  rw [s32_of_lt low] at header
  rw [tableIndices_eq low header]
  constructor
  · intro inside
    by_cases full : s32 (need buf) > n
    · exact .inr (.inl full)
    rw [if_neg full, roomIndices, inside_append] at inside
    rcases scan_inside small low step inside.1 with note | all
    · exact .inr (.inr note)
    · have sizes : nnote = 44 ∧ nnote2 = 68 := ⟨rfl, rfl⟩
      have last := all (word16 buf ePhnum - 1) (by omega)
      have before : word16 buf ePhnum * word16 buf ePhentsize =
          (word16 buf ePhnum - 1) * word16 buf ePhentsize + word16 buf ePhentsize := by
        rw [← Nat.succ_mul, Nat.succ_eq_add_one, Nat.sub_add_cancel (by omega)]
      rw [s32_of_lt (by omega)] at full
      exact .inl (by omega)
  · rintro (fits | full | note)
    · rw [if_neg (by rw [s32_of_lt (by omega)]; omega)]
      exact roomIndices_inside small fits fun little => header (.inr (.inl little))
    · rw [if_pos full]
      exact inside_nil n
    · obtain ⟨inside, none⟩ := scan_note small note
      split
      · exact inside_nil n
      · rw [roomIndices, inside_append, none]
        exact ⟨inside, inside_nil n⟩

/-- `main` stays inside the bytes read exactly when the file is refused for its header,
the headers with what is added to them end inside, the comparison says that they do
not, or a note among the headers that lie inside ends the scan. -/
theorem main_inside_iff (n : Nat) (buf : Bytes) (small : n ≤ 512) :
    (∀ i ∈ mainIndices n buf, i < n) ↔
      Refused n buf ∨ need buf ≤ n ∨ n < s32 (need buf) ∨ NoteInside n buf := by
  change Inside n (mainIndices n buf) ↔ _
  have places : eHsize = 52 ∧ ePhoff = 28 ∧ ePhentsize = 42 ∧ ePhnum = 44 ∧ eiClass = 4 ∧
      eiData = 5 := ⟨rfl, rfl, rfl, rfl, rfl, rfl⟩
  unfold mainIndices
  by_cases short : n < eHsize
  · rw [if_pos short]
    exact iff_of_true (inside_nil n) (.inl (.inl short))
  rw [if_neg short]
  have magic : Inside n (run 0 4) := run_inside (by omega) small
  by_cases elf : (List.range 4).map buf ≠ elfMagic
  · rw [if_pos elf]
    exact iff_of_true magic (.inl (.inr (.inl elf)))
  rw [if_neg elf]
  by_cases class_ : buf eiClass ≠ elfclass32
  · rw [if_pos class_]
    refine iff_of_true ?_ (.inl (.inr (.inr (.inl class_))))
    simp only [inside_append, inside_cons, inside_nil, and_true]
    exact ⟨magic, by omega⟩
  rw [if_neg class_]
  by_cases data : buf eiData ≠ elfdata2msb
  · rw [if_pos data]
    refine iff_of_true ?_ (.inl (.inr (.inr (.inr (.inl data)))))
    simp only [inside_append, inside_cons, inside_nil, and_true]
    exact ⟨magic, by omega, by omega⟩
  rw [if_neg data]
  have front : Inside n (run 0 4 ++ [eiClass, eiData] ++ run ePhoff 4 ++ run ePhentsize 2 ++
      run ePhnum 2) := by
    simp only [inside_append, inside_cons, inside_nil, and_true]
    exact ⟨⟨⟨⟨magic, by omega, by omega⟩, run_inside (by omega) small⟩,
      run_inside (by omega) small⟩, run_inside (by omega) small⟩
  rw [inside_append, and_iff_right front]
  by_cases header : s32 (word32 buf ePhoff) < eHsize ∨ word16 buf ePhentsize < phHsize ∨
      word16 buf ePhnum < 1
  · have nothing : tableIndices n buf = [] := if_pos header
    rw [nothing]
    exact iff_of_true (inside_nil n) (.inl (.inr (.inr (.inr (.inr header)))))
  · rw [table_inside_iff small header]
    constructor
    · exact .inr
    · rintro ((none | none | none | none | none) | inside)
      · exact absurd none short
      · exact absurd none elf
      · exact absurd none class_
      · exact absurd none data
      · exact absurd none header
      · exact inside

/-- The headers of a boot image end inside the part of the file that was read. -/
theorem image_inside : Inside 512 (mainIndices 512 (bytesOf image)) :=
  (main_inside_iff 512 (bytesOf image) (by decide)).mpr (.inr (.inl (by decide +kernel)))

/-- An image whose headers are said to start just below 2^31. -/
def farImage : List UInt8 :=
  elfMagic ++ [1, 2] ++ List.replicate 22 0 ++ [0x7f, 0xff, 0xff, 0xe0] ++ List.replicate 10 0 ++
    [0, 32, 0, 1] ++ List.replicate 466 0

/-- The sum that is compared with the size is negative. -/
theorem farImage_outside :
    ¬ ∀ (n : Nat) (buf : Bytes), n ≤ 512 → ∀ i ∈ mainIndices n buf, i < n := fun inside =>
  absurd (inside 512 (bytesOf farImage) (by decide) 0x7fffffe0 (by decide +kernel)) (by decide)

end Yaboot.Util
