import Mathlib.Data.List.GetD
import Yaboot.Util.Addnote

/-! What `addnote` leaves in the file, and that a second run changes nothing. -/
namespace Yaboot.Util
open Buffer CString Word

/-! ### Notes -/

/-- An ELF note whose name ends in NUL and whose descriptor consists of words. -/
structure Note where
  name : CStr
  type : Nat
  words : List Nat

/-- `namesz`, `descsz` and `type`, the name padded to a multiple of four, and the
descriptor. -/
def Note.bytes (note : Note) : List UInt8 :=
  bytes32 (note.name.length + 1) ++ bytes32 (note.words.length * 4) ++ bytes32 note.type ++
    (note.name ++ List.replicate (roundup (note.name.length + 1) - note.name.length) 0) ++
    note.words.flatMap bytes32

def chrpNote : Note := ⟨arch, 0x1275, descr⟩
def rpaNote : Note := ⟨rpaname, 0x12759999, rpanote⟩

theorem Note.bytes_length (note : Note) :
    note.bytes.length = 12 + roundup (note.name.length + 1) + 4 * note.words.length := by
  have padded : note.name.length + (roundup (note.name.length + 1) - note.name.length) =
      roundup (note.name.length + 1) := by
    unfold roundup
    omega
  have words : (note.words.flatMap bytes32).length = 4 * note.words.length := by
    induction note.words with
    | nil => rfl
    | cons word rest ih =>
      rw [List.flatMap_cons, List.length_append, ih, List.length_cons]
      show 4 + _ = _
      omega
  unfold Note.bytes
  simp only [List.length_append, List.length_replicate, words, padded]
  rfl

theorem putWords_outside (mem : Bytes) (words : List Nat) {ns i : Nat}
    (outside : i < ns ∨ ns + 4 * words.length ≤ i) : putWords mem ns words i = mem i := by
  induction words generalizing mem ns with
  | nil => rfl
  | cons word rest ih =>
    rw [List.length_cons] at outside
    rw [putWords, ih _ (by omega), store32_outside mem word (by omega)]

theorem slice_putWords (mem : Bytes) (words : List Nat) (ns : Nat) :
    slice (putWords mem ns words) ns (4 * words.length) = words.flatMap bytes32 := by
  induction words generalizing mem ns with
  | nil => rfl
  | cons word rest ih =>
    have first : slice (putWords (store32 mem ns word) (ns + 4) rest) ns 4 = bytes32 word :=
      (slice_congr _ fun i inside => putWords_outside _ rest (.inl (by omega))).trans
        (slice_store32 mem ns word)
    rw [putWords, List.length_cons, show 4 * (rest.length + 1) = 4 + 4 * rest.length by omega,
      slice_append, first, ih, List.flatMap_cons]

theorem strcpy_outside (mem : Bytes) (s : CStr) {off i : Nat}
    (outside : i < off ∨ off + (s.length + 1) ≤ i) : strcpy mem off s i = mem i :=
  blit_outside mem _ outside

/-- The padding behind a name is what was there. -/
theorem slice_strcpy (mem : Bytes) (s : CStr) (off room : Nat) (long : s.length < room)
    (zero : ∀ i < room, mem (off + i) = 0) :
    slice (strcpy mem off s) off room = s ++ List.replicate (room - s.length) 0 := by
  apply List.ext_getElem
  · simp [slice]
    omega
  intro i inside _
  have inside : i < room := by simpa [slice] using inside
  rw [List.getElem_append]
  simp only [slice, List.getElem_map, List.getElem_range, List.getElem_replicate]
  by_cases copied : i < s.length + 1
  · rw [strcpy, blit_inside _ _ (by omega) (by omega), Nat.add_sub_cancel_left]
    by_cases named : i < s.length
    · rw [dif_pos named, List.getD_eq_getElem _ _ named]
    · rw [dif_neg named, List.getD_eq_default _ _ (by omega)]
  · rw [strcpy_outside mem s (.inr (by omega)), zero i inside, dif_neg (by omega)]

theorem putNote_outside (mem : Bytes) (note : Note) {ns room i : Nat}
    (padded : room = roundup (note.name.length + 1))
    (outside : i < ns ∨ ns + note.bytes.length ≤ i) :
    putNote mem ns note.name note.type room note.words i = mem i := by
  rw [note.bytes_length, ← padded] at outside
  have long : note.name.length < room := by
    unfold roundup at padded
    omega
  unfold putNote
  rw [putWords_outside _ note.words (by omega), strcpy_outside _ note.name (by omega),
    store32_outside _ _ (by omega), store32_outside _ _ (by omega), store32_outside _ _ (by omega)]

/-- On zeros, a note is stored whose bytes are exactly those of its encoding. -/
theorem slice_putNote (mem : Bytes) (note : Note) {ns room : Nat}
    (padded : room = roundup (note.name.length + 1))
    (zero : ∀ i < note.bytes.length, mem (ns + i) = 0) :
    slice (putNote mem ns note.name note.type room note.words) ns note.bytes.length =
      note.bytes := by
  rw [note.bytes_length, ← padded] at zero ⊢
  have long : note.name.length < room := by
    unfold roundup at padded
    omega
  have split : 12 + room + 4 * note.words.length =
      4 + 4 + 4 + room + 4 * note.words.length := rfl
  unfold putNote Note.bytes
  dsimp only
  generalize sized : store32 mem ns (note.name.length + 1) = mem₁
  generalize counted : store32 mem₁ (ns + 4) (note.words.length * 4) = mem₂
  generalize typed : store32 mem₂ (ns + 8) note.type = mem₃
  generalize named : strcpy mem₃ (ns + 12) note.name = mem₄
  have words : ∀ i < ns + 12 + room, putWords mem₄ (ns + 12 + room) note.words i = mem₄ i :=
    fun i below => putWords_outside mem₄ note.words (.inl below)
  have header : ∀ i < ns + 12, mem₄ i = mem₃ i := fun i below => by
    rw [← named, strcpy_outside mem₃ note.name (.inl below)]
  have namesz : slice (putWords mem₄ (ns + 12 + room) note.words) ns 4 =
      bytes32 (note.name.length + 1) := by
    rw [← slice_store32 mem ns, sized]
    refine slice_congr _ fun i inside => ?_
    rw [words _ (by omega), header _ (by omega), ← typed, store32_outside _ _ (.inl (by omega)),
      ← counted, store32_outside _ _ (.inl (by omega))]
  have descsz : slice (putWords mem₄ (ns + 12 + room) note.words) (ns + 4) 4 =
      bytes32 (note.words.length * 4) := by
    rw [← slice_store32 mem₁ (ns + 4), counted]
    refine slice_congr _ fun i inside => ?_
    rw [words _ (by omega), header _ (by omega), ← typed, store32_outside _ _ (.inl (by omega))]
  have type : slice (putWords mem₄ (ns + 12 + room) note.words) (ns + (4 + 4)) 4 =
      bytes32 note.type := by
    rw [← slice_store32 mem₂ (ns + 8), typed]
    refine slice_congr _ fun i inside => ?_
    rw [words _ (by omega), header _ (by omega)]
  have name : slice (putWords mem₄ (ns + 12 + room) note.words) (ns + (4 + 4 + 4)) room =
      note.name ++ List.replicate (room - note.name.length) 0 := by
    rw [← slice_strcpy mem₃ note.name (ns + 12) room long, named]
    · exact slice_congr _ fun i inside => words _ (by omega)
    · intro i inside
      rw [← typed, store32_outside _ _ (.inr (by omega)), ← counted,
        store32_outside _ _ (.inr (by omega)), ← sized, store32_outside _ _ (.inr (by omega)),
        Nat.add_assoc]
      exact zero _ (by omega)
  have desc : slice (putWords mem₄ (ns + 12 + room) note.words) (ns + (4 + 4 + 4 + room))
      (4 * note.words.length) = note.words.flatMap bytes32 := by
    rw [show ns + (4 + 4 + 4 + room) = ns + 12 + room by omega]
    exact slice_putWords mem₄ note.words (ns + 12 + room)
  rw [split, slice_append, slice_append _ _ _ room, slice_append _ _ (4 + 4) 4,
    slice_append _ _ 4 4, namesz, descsz, type, name, desc, ← padded]

/-! ### Program headers -/

section Header
variable (mem : Bytes) {ph ns filesz : Nat}

theorem putHeader_outside {i : Nat} (outside : i < ph ∨ ph + 20 ≤ i) :
    putHeader mem ph ns filesz i = mem i := by
  unfold putHeader phType phOffset phFilesz
  rw [store32_outside _ _ (by omega), store32_outside _ _ (by omega), store32_outside _ _ (by omega)]

theorem putHeader_type : word32 (putHeader mem ph ns filesz) ph = ptNote := by
  unfold putHeader phType phOffset phFilesz
  rw [word32_congr fun i _ below => ?_]
  · exact word32_store32 mem ph (show ptNote < 4294967296 by decide)
  · rw [store32_outside _ _ (.inl (by omega)), store32_outside _ _ (.inl (by omega)), Nat.add_zero]

theorem putHeader_offset (fits : ns < 4294967296) :
    word32 (putHeader mem ph ns filesz) (ph + phOffset) = ns := by
  unfold putHeader phType phOffset phFilesz
  rw [word32_congr fun i _ below => ?_]
  · exact word32_store32 (store32 mem (ph + 0) ptNote) (ph + 4) fits
  · rw [store32_outside _ _ (.inl (by omega))]

theorem putHeader_filesz (fits : filesz < 4294967296) :
    word32 (putHeader mem ph ns filesz) (ph + phFilesz) = filesz :=
  word32_store32 _ _ fits

end Header

/-- A header of type `PT_NOTE` for the bytes of a note. -/
structure Describes (mem : Bytes) (ph ns : Nat) (note : Note) : Prop where
  type : word32 mem (ph + phType) = ptNote
  offset : word32 mem (ph + phOffset) = ns
  filesz : word32 mem (ph + phFilesz) = note.bytes.length
  bytes : slice mem ns note.bytes.length = note.bytes

theorem chrpNote_length : chrpNote.bytes.length = nnote := by decide

theorem rpaNote_length : rpaNote.bytes.length = nnote2 := by decide

section Filled
variable {buf : Bytes} {ph ps : Nat}

theorem fillIn_eq (buf : Bytes) (ph ps : Nat) :
    fillIn buf ph ps =
      putNote (putHeader (putNote (putHeader buf ph (ph + 2 * ps) nnote) (ph + 2 * ps)
        chrpNote.name chrpNote.type 8 chrpNote.words) (ph + ps) (ph + 2 * ps + nnote) nnote2)
        (ph + 2 * ps + nnote) rpaNote.name rpaNote.type 24 rpaNote.words := rfl

theorem fillIn_outside (buf : Bytes) (large : phHsize ≤ ps) {i : Nat}
    (outside : i < ph ∨ ph + (2 * ps + nnote + nnote2) ≤ i) : fillIn buf ph ps i = buf i := by
  unfold phHsize at large
  rw [fillIn_eq, putNote_outside _ rpaNote (by decide) (by rw [rpaNote_length]; omega),
    putHeader_outside _ (by omega),
    putNote_outside _ chrpNote (by decide) (by rw [chrpNote_length]; omega),
    putHeader_outside _ (by omega)]

/-- Both headers describe their notes. -/
theorem fillIn_describes (buf : Bytes) (ph : Nat) (large : phHsize ≤ ps)
    (zero : ∀ i < 2 * ps + nnote + nnote2, buf (ph + i) = 0)
    (fits : ph + 2 * ps + nnote < 4294967296) :
    Describes (fillIn buf ph ps) ph (ph + 2 * ps) chrpNote ∧
      Describes (fillIn buf ph ps) (ph + ps) (ph + 2 * ps + nnote) rpaNote := by
  have sizes : nnote = 44 ∧ nnote2 = 68 := by decide
  unfold phHsize at large
  rw [fillIn_eq]
  generalize first : putHeader buf ph (ph + 2 * ps) nnote = mem₁
  generalize chrp : putNote mem₁ (ph + 2 * ps) chrpNote.name chrpNote.type 8 chrpNote.words = mem₂
  generalize second : putHeader mem₂ (ph + ps) (ph + 2 * ps + nnote) nnote2 = mem₃
  have rpa : ∀ i, i < ph + 2 * ps + nnote ∨ ph + 2 * ps + nnote + nnote2 ≤ i →
      putNote mem₃ (ph + 2 * ps + nnote) rpaNote.name rpaNote.type 24 rpaNote.words i = mem₃ i :=
    fun i outside => putNote_outside mem₃ rpaNote (by decide) (by rwa [rpaNote_length])
  have head : ∀ i, i < ph + ps ∨ ph + ps + 20 ≤ i → mem₃ i = mem₂ i := fun i outside => by
    rw [← second, putHeader_outside mem₂ outside]
  have note : ∀ i, i < ph + 2 * ps ∨ ph + 2 * ps + nnote ≤ i → mem₂ i = mem₁ i :=
    fun i outside => by
      rw [← chrp, putNote_outside mem₁ chrpNote (by decide) (by rwa [chrpNote_length])]
  have early : ∀ i, i < ph + ps →
      putNote mem₃ (ph + 2 * ps + nnote) rpaNote.name rpaNote.type 24 rpaNote.words i = mem₁ i :=
    fun i below => by rw [rpa i (by omega), head i (by omega), note i (by omega)]
  constructor
  · refine ⟨?_, ?_, ?_, ?_⟩
    · rw [word32_congr fun i _ below => early i (by unfold phType at below; omega), ← first]
      exact putHeader_type buf
    · rw [word32_congr fun i _ below => early i (by unfold phOffset at below; omega), ← first]
      exact putHeader_offset buf (by omega)
    · rw [word32_congr fun i _ below => early i (by unfold phFilesz at below; omega), ← first,
        chrpNote_length]
      exact putHeader_filesz buf (by omega)
    · rw [chrpNote_length, slice_congr mem₂ fun i inside => ?_, ← chrp, ← chrpNote_length]
      · refine slice_putNote mem₁ chrpNote (by decide) fun i inside => ?_
        rw [chrpNote_length] at inside
        rw [← first, putHeader_outside buf (by omega), Nat.add_assoc]
        exact zero _ (by omega)
      · rw [rpa _ (by omega), head _ (by omega)]
  · refine ⟨?_, ?_, ?_, ?_⟩
    · rw [word32_congr fun i _ below => rpa i (by unfold phType at below; omega), ← second]
      exact putHeader_type mem₂
    · rw [word32_congr fun i _ below => rpa i (by unfold phOffset at below; omega), ← second]
      exact putHeader_offset mem₂ (by omega)
    · rw [word32_congr fun i _ below => rpa i (by unfold phFilesz at below; omega), ← second,
        rpaNote_length]
      exact putHeader_filesz mem₂ (by omega)
    · refine slice_putNote mem₃ rpaNote (by decide) fun i inside => ?_
      rw [rpaNote_length] at inside
      rw [head _ (by omega), note _ (by omega), ← first, putHeader_outside buf (by omega),
        Nat.add_assoc, Nat.add_assoc]
      exact zero _ (by omega)

end Filled

/-! ### The scan -/

/-- The scan ends behind the last header if none of the headers is a note. -/
theorem skipHeaders_some {buf : Bytes} {ps np ph behind : Nat}
    (fits : ph + np * ps < 4294967296) (scan : skipHeaders buf ps np ph = some behind) :
    behind = ph + np * ps ∧ ∀ k < np, word32 buf (ph + k * ps) ≠ ptNote := by
  induction np generalizing ph with
  | zero =>
    obtain rfl := Option.some.inj scan
    exact ⟨by omega, nofun⟩
  | succ np ih =>
    have next : (np + 1) * ps = ps + np * ps := by rw [Nat.succ_mul, Nat.add_comm]
    rw [next] at fits ⊢
    unfold skipHeaders at scan
    split_ifs at scan with here
    rw [u32_of_lt (by omega)] at scan
    obtain ⟨rfl, others⟩ := ih (by omega) scan
    refine ⟨by omega, fun k inside => ?_⟩
    cases k with
    | zero => simpa [phType] using here
    | succ k =>
      have other := others k (by omega)
      rwa [Nat.add_assoc, Nat.add_comm ps, ← Nat.succ_mul] at other

/-- Everything that was checked when the file is written. -/
theorem hackIn_rewritten {n : Nat} {buf : Bytes} (rewritten : (hackIn n buf).1 = .rewritten) :
    eHsize ≤ n ∧ eHsize ≤ s32 (word32 buf ePhoff) ∧ phHsize ≤ word16 buf ePhentsize ∧
      s32 (word32 buf ePhoff + (word16 buf ePhnum + 2) * word16 buf ePhentsize + nnote + nnote2) ≤ n ∧
      ∃ behind,
        skipHeaders buf (word16 buf ePhentsize) (word16 buf ePhnum) (word32 buf ePhoff) =
          some behind ∧
        (∀ i < 2 * word16 buf ePhentsize + nnote + nnote2, buf (behind + i) = 0) ∧
        hackIn n buf = (.rewritten,
          put16 (fillIn buf behind (word16 buf ePhentsize)) ePhnum (word16 buf ePhnum + 2)) := by
  unfold hackIn at rewritten ⊢
  by_cases elf : n < eHsize ∨ (List.range 4).map buf ≠ elfMagic
  · rw [if_pos elf] at rewritten
    cases rewritten
  rw [if_neg elf] at rewritten ⊢
  by_cases kind : buf eiClass ≠ elfclass32 ∨ buf eiData ≠ elfdata2msb
  · rw [if_pos kind] at rewritten
    cases rewritten
  rw [if_neg kind] at rewritten ⊢
  dsimp only at rewritten ⊢
  by_cases header : s32 (word32 buf ePhoff) < eHsize ∨ word16 buf ePhentsize < phHsize ∨
      word16 buf ePhnum < 1
  · rw [if_pos header] at rewritten
    cases rewritten
  rw [if_neg header] at rewritten ⊢
  by_cases full : s32 (word32 buf ePhoff + (word16 buf ePhnum + 2) * word16 buf ePhentsize + nnote +
      nnote2) > n
  · rw [if_pos full] at rewritten
    cases rewritten
  rw [if_neg full] at rewritten ⊢
  cases scan : skipHeaders buf (word16 buf ePhentsize) (word16 buf ePhnum) (word32 buf ePhoff) with
  | none =>
    rw [scan] at rewritten
    cases rewritten
  | some behind =>
    rw [scan] at rewritten
    dsimp only at rewritten ⊢
    by_cases used : ((List.range (2 * word16 buf ePhentsize + nnote + nnote2)).any fun i =>
        buf (behind + i) != 0) = true
    · rw [if_pos used] at rewritten
      cases rewritten
    rw [if_neg used]
    refine ⟨by omega, by omega, by omega, by omega, behind, rfl, fun i inside => ?_, rfl⟩
    by_contra other
    exact used (List.any_eq_true.mpr ⟨i, List.mem_range.mpr inside, by simpa using other⟩)

/-! ### Files -/

def phoff (file : List UInt8) : Nat := word32 (bytesOf file) ePhoff
def phentsize (file : List UInt8) : Nat := word16 (bytesOf file) ePhentsize
def phnum (file : List UInt8) : Nat := word16 (bytesOf file) ePhnum

/-- Where the program header table ends. -/
def tableEnd (file : List UInt8) : Nat := phoff file + phnum file * phentsize file

/-- The size of what is added. -/
def added (file : List UInt8) : Nat := 2 * phentsize file + nnote + nnote2

/-- `out` is `file` with the two notes: everything else is as it was, each of the two
headers behind the old table describes a note, and the notes lie one behind the other
behind the table as enlarged. -/
structure Noted (file out : List UInt8) : Prop where
  length : out.length = file.length
  phnum : phnum out = phnum file + 2
  zero : ∀ i < added file, file[tableEnd file + i]? = some 0
  kept : ∀ i, i < ePhnum ∨ ePhnum + 2 ≤ i → i < tableEnd file ∨ tableEnd file + added file ≤ i →
    out[i]? = file[i]?
  headers : ∀ i, phoff file ≤ i → i < tableEnd file → out[i]? = file[i]?
  chrp : Describes (bytesOf out) (tableEnd file) (tableEnd file + 2 * phentsize file) chrpNote
  rpa : Describes (bytesOf out) (tableEnd file + phentsize file)
    (tableEnd file + 2 * phentsize file + chrpNote.bytes.length) rpaNote
  inside : tableEnd file + 2 * phentsize file + chrpNote.bytes.length + rpaNote.bytes.length ≤
    tableEnd file + added file

theorem Describes.congr {mem mem' : Bytes} {ph ns low high : Nat} {note : Note}
    (describes : Describes mem ph ns note) (same : ∀ i, low ≤ i → i < high → mem' i = mem i)
    (header : low ≤ ph ∧ ph + 20 ≤ high) (inside : low ≤ ns ∧ ns + note.bytes.length ≤ high) :
    Describes mem' ph ns note := by
  have word : ∀ at_, low ≤ at_ → at_ + 4 ≤ high → word32 mem' at_ = word32 mem at_ :=
    fun at_ above below => word32_congr fun i from_ until_ => same i (by omega) (by omega)
  refine ⟨?_, ?_, ?_, ?_⟩
  · rw [word _ (by omega) (by unfold phType; omega), describes.type]
  · rw [word _ (by omega) (by unfold phOffset; omega), describes.offset]
  · rw [word _ (by omega) (by unfold phFilesz; omega), describes.filesz]
  · rw [slice_congr _ fun i below => same _ (by omega) (by omega), describes.bytes]

theorem word16_congr {mem mem' : Bytes} {at_ : Nat} (same : ∀ i, at_ ≤ i → i < at_ + 2 → mem i = mem' i) :
    word16 mem at_ = word16 mem' at_ := by
  unfold word16
  rw [same at_ (by omega) (by omega), same (at_ + 1) (by omega) (by omega)]

theorem word16_put16 (mem : Bytes) (at_ : Nat) {value : Nat} (fits : value < 65536) :
    word16 (put16 mem at_ value) at_ = value := by
  unfold word16 put16
  rw [blit_inside _ _ (by omega) (by omega), blit_inside _ _ (by omega) (by omega),
    Nat.sub_self, Nat.add_sub_cancel_left, if_pos rfl, if_neg (by decide)]
  simp only [UInt8.toNat_ofNat']
  omega

/-- The buffer after `read`. -/
def bufferOf (n : Nat) (file : List UInt8) : Bytes := fun i => if i < n then bytesOf file i else 0

theorem bufferOf_inside {n i : Nat} {file : List UInt8} (inside : i < n) :
    bufferOf n file i = bytesOf file i := if_pos inside

/-- The file after `write`. -/
theorem written_getElem? (n : Nat) (file : List UInt8) (mem : Bytes) (i : Nat) :
    ((List.range n).map mem ++ file.drop n)[i]? =
      if i < n then some (mem i) else file[i]? := by
  by_cases inside : i < n
  · rw [if_pos inside, List.getElem?_append_left (by simpa using inside)]
    simp [inside]
  · rw [if_neg inside, List.getElem?_append_right (by simpa using inside), List.getElem?_drop]
    simp [Nat.add_sub_cancel' (Nat.le_of_not_lt inside)]

theorem bytesOf_written {n : Nat} {file : List UInt8} (mem : Bytes) {i : Nat} (inside : i < n) :
    bytesOf ((List.range n).map mem ++ file.drop n) i = mem i := by
  unfold bytesOf
  rw [List.getD_eq_getElem?_getD, written_getElem?, if_pos inside]
  rfl

theorem bytesOf_getElem? {file : List UInt8} {i : Nat} (inside : i < file.length) :
    file[i]? = some (bytesOf file i) := by
  unfold bytesOf
  rw [List.getD_eq_getElem _ _ inside, List.getElem?_eq_getElem inside]

theorem addnote_writes {n : Nat} {file : List UInt8} {mem : Bytes}
    (run : hackIn n (bufferOf n file) = (.rewritten, mem)) :
    addnote n file = (.rewritten, (List.range n).map mem ++ file.drop n) := by
  unfold bufferOf at run
  unfold addnote
  rw [run]

theorem addnote_keeps {n : Nat} {file : List UInt8}
    (run : (hackIn n (bufferOf n file)).1 ≠ .rewritten) : addnote n file =
      ((hackIn n (bufferOf n file)).1, file) := by
  unfold bufferOf at run ⊢
  unfold addnote
  rcases h : hackIn n fun i => if i < n then bytesOf file i else 0 with ⟨outcome, mem⟩
  rw [h] at run
  cases outcome <;> first | rfl | exact absurd rfl run

/-- The header fields are read from the buffer as they stand in the file. -/
theorem bufferOf_fields {n : Nat} (file : List UInt8) (long : eHsize ≤ n) :
    word32 (bufferOf n file) ePhoff = phoff file ∧
      word16 (bufferOf n file) ePhentsize = phentsize file ∧
      word16 (bufferOf n file) ePhnum = phnum file := by
  unfold eHsize at long
  refine ⟨word32_congr fun i _ below => bufferOf_inside ?_,
    word16_congr fun i _ below => bufferOf_inside ?_,
    word16_congr fun i _ below => bufferOf_inside ?_⟩
  · unfold ePhoff at below
    omega
  · unfold ePhentsize at below
    omega
  · unfold ePhnum at below
    omega

/-- Where the sum does not overflow, the check is the exact one. -/
theorem hackIn_checked {n : Nat} {file : List UInt8}
    (fits : phoff file + (phnum file + 2) * phentsize file + nnote + nnote2 < 2 ^ 31)
    (rewritten : (hackIn n (bufferOf n file)).1 = .rewritten) :
    eHsize ≤ n ∧ eHsize ≤ phoff file ∧ phHsize ≤ phentsize file ∧
      tableEnd file + added file ≤ n ∧
      (∀ k < phnum file, word32 (bufferOf n file) (phoff file + k * phentsize file) ≠ ptNote) ∧
      (∀ i < added file, bufferOf n file (tableEnd file + i) = 0) ∧
      hackIn n (bufferOf n file) = (.rewritten, put16
        (fillIn (bufferOf n file) (tableEnd file) (phentsize file)) ePhnum (phnum file + 2)) := by
  obtain ⟨long, start, large, space, behind, scan, zero, run⟩ := hackIn_rewritten rewritten
  obtain ⟨off, size, num⟩ := bufferOf_fields file long
  rw [off, size, num] at scan
  rw [off] at start
  rw [size] at large zero
  rw [off, size, num, s32_of_lt fits] at space
  rw [size, num] at run
  have room : (phnum file + 2) * phentsize file = phnum file * phentsize file + 2 * phentsize file :=
    Nat.add_mul ..
  rw [s32_of_lt (by omega)] at start
  obtain ⟨rfl, others⟩ := skipHeaders_some (by omega) scan
  unfold tableEnd added
  exact ⟨long, by omega, large, by omega, others, zero, run⟩

/-- A file that was rewritten has its notes behind its program headers, and two headers more for
them. -/
theorem addnote_noted {n : Nat} {file : List UInt8} (read : n ≤ file.length) (fits : n ≤ 512)
    (exact_ : phoff file + (phnum file + 2) * phentsize file + nnote + nnote2 ≤ n)
    (rewritten : (hackIn n (bufferOf n file)).1 = .rewritten) :
    Noted file (addnote n file).2 := by
  obtain ⟨long, start, large, space, -, zero, run⟩ := hackIn_checked (by omega) rewritten
  rw [addnote_writes run]
  dsimp only
  generalize filled : fillIn (bufferOf n file) (tableEnd file) (phentsize file) = mem at run
  have room : (phnum file + 2) * phentsize file = phnum file * phentsize file + 2 * phentsize file :=
    Nat.add_mul ..
  have end_ : tableEnd file = phoff file + phnum file * phentsize file := rfl
  have size : added file = 2 * phentsize file + nnote + nnote2 := rfl
  have sizes : nnote = 44 ∧ nnote2 = 68 ∧ eHsize = 52 ∧ phHsize = 32 ∧ ePhnum = 44 := by decide
  have num : phnum file + 2 < 65536 := by
    have small : phnum file + 2 ≤ (phnum file + 2) * phentsize file :=
      Nat.le_mul_of_pos_right _ (by omega)
    omega
  have kept : ∀ i, i < ePhnum ∨ ePhnum + 2 ≤ i →
      i < tableEnd file ∨ tableEnd file + added file ≤ i →
      ((List.range n).map (put16 mem ePhnum (phnum file + 2)) ++ file.drop n)[i]? = file[i]? := by
    intro i other outside
    rw [written_getElem?]
    by_cases inside : i < n
    · rw [if_pos inside, put16, blit_outside _ _ other, ← filled,
        fillIn_outside _ large (by omega), bufferOf_inside inside, bytesOf_getElem? (by omega)]
    · rw [if_neg inside]
  have same : ∀ i, tableEnd file ≤ i → i < n →
      bytesOf ((List.range n).map (put16 mem ePhnum (phnum file + 2)) ++ file.drop n) i = mem i := by
    intro i behind inside
    rw [bytesOf_written _ inside, put16, blit_outside _ _ (.inr (by omega))]
  obtain ⟨chrp, rpa⟩ := fillIn_describes (bufferOf n file) (tableEnd file) large zero
    (by omega)
  rw [filled] at chrp rpa
  rw [← chrpNote_length] at rpa
  refine ⟨by simp; omega, ?_, ?_, kept, fun i _ below => ?_, ?_, ?_, ?_⟩
  · unfold phnum
    rw [word16_congr fun i _ below => bytesOf_written _ (by omega)]
    exact word16_put16 mem ePhnum num
  · intro i inside
    rw [bytesOf_getElem? (by omega), ← bufferOf_inside (n := n) (by omega), zero i inside]
  · by_cases other : i < ePhnum ∨ ePhnum + 2 ≤ i
    · exact kept i other (.inl below)
    · omega
  · exact chrp.congr same ⟨le_rfl, by omega⟩ ⟨by omega, by rw [chrpNote_length]; omega⟩
  · exact rpa.congr same ⟨by omega, by omega⟩
      ⟨by omega, by rw [chrpNote_length, rpaNote_length]; omega⟩
  · rw [chrpNote_length, rpaNote_length]
    omega

/-- Bytes in front of the table stay, but for the number of its entries. -/
theorem Noted.front {file out : List UInt8} (noted : Noted file out) {i : Nat}
    (other : i < ePhnum) (before : i < tableEnd file) : bytesOf out i = bytesOf file i := by
  unfold bytesOf
  rw [List.getD_eq_getElem?_getD, List.getD_eq_getElem?_getD,
    noted.kept i (.inl other) (.inl before)]

/-- Once a file has its notes, no run of `addnote` changes it. -/
theorem addnote_again {file out : List UInt8} (noted : Noted file out)
    (start : eHsize ≤ tableEnd file) (small : tableEnd file + added file ≤ 512) (m : Nat) :
    (addnote m out).2 = out := by
  by_cases rewritten : (hackIn m (bufferOf m out)).1 = .rewritten
  swap
  · rw [addnote_keeps rewritten]
  exfalso
  have sizes : nnote = 44 ∧ nnote2 = 68 ∧ eHsize = 52 ∧ ePhnum = 44 ∧ ePhoff = 28 ∧
      ePhentsize = 42 := by decide
  have off : phoff out = phoff file :=
    word32_congr fun i _ below => noted.front (by omega) (by omega)
  have entsize : phentsize out = phentsize file :=
    word16_congr fun i _ below => noted.front (by omega) (by omega)
  have num := noted.phnum
  have end_ : tableEnd file = phoff file + phnum file * phentsize file := rfl
  have size : added file = 2 * phentsize file + nnote + nnote2 := rfl
  have more : (phnum out + 2) * phentsize out = phnum file * phentsize file +
      4 * phentsize file := by
    rw [entsize, num, Nat.add_assoc, Nat.add_mul]
  obtain ⟨-, -, -, space, others, -⟩ := hackIn_checked (by omega) rewritten
  have inside : tableEnd file + 20 ≤ m := by
    unfold tableEnd added at space
    rw [entsize, num, off, Nat.add_mul] at space
    omega
  apply others (phnum file) (by omega)
  rw [off, entsize, ← end_, word32_congr fun i _ below => bufferOf_inside (by omega),
    ← noted.chrp.type, phType, Nat.add_zero]

/-- What `addnote` writes is a well-formed file with the two notes behind the program headers it
had, and running it again, whatever is read then, leaves the file alone. -/
theorem addnote_well_formed (n : Nat) (file : List UInt8) (read : n ≤ file.length)
    (fits : n ≤ 512) (rewritten : (addnote n file).1 = .rewritten)
    (exact_ : phoff file + (phnum file + 2) * phentsize file + nnote + nnote2 ≤ n) :
    Noted file (addnote n file).2 ∧
      ∀ m, (addnote m (addnote n file).2).2 = (addnote n file).2 := by
  have accepted : (hackIn n (bufferOf n file)).1 = .rewritten := by
    by_contra other
    rw [addnote_keeps other] at rewritten
    exact other rewritten
  have noted := addnote_noted read fits exact_ accepted
  obtain ⟨-, start, -, space, -⟩ := hackIn_checked (by omega) accepted
  exact ⟨noted, addnote_again noted (start.trans (Nat.le_add_right ..)) (by omega)⟩

/-- An image with one header, and room behind it. -/
def image : List UInt8 :=
  elfMagic ++ [1, 2] ++ List.replicate 22 0 ++ [0, 0, 0, 52] ++ List.replicate 10 0 ++ [0, 32, 0, 1] ++
    List.replicate 6 0 ++ [0, 0, 0, 1] ++ List.replicate 460 0

theorem image_rewritten : (addnote 512 image).1 = .rewritten := by decide +kernel

/-- A boot image gets the two notes behind its program header, once. -/
theorem image_noted : Noted image (addnote 512 image).2 ∧
    ∀ m, (addnote m (addnote 512 image).2).2 = (addnote 512 image).2 :=
  addnote_well_formed 512 image (by decide +kernel) le_rfl image_rewritten
    (by decide +kernel)

end Yaboot.Util
