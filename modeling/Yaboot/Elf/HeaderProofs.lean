import Yaboot.Elf.Header
import Yaboot.Elf.LoadProofs
import Yaboot.Elf.SessionProofs

/-! A kernel that was written for the processor is loaded from its bytes: the headers found
are those written, and each segment is where it was linked, counted from the lowest. -/
namespace Yaboot.Elf.TextUi
open BigEndian Buffer Ramdisk Word

variable {c : ElfClass} {x : Executable c} {f : File} {mem : Bytes} {at_ k v0 : Nat}
  {heap : Nat → Bool} {ui ui' : Ui}

/-! ### The headers -/

theorem eEntry_written (within : x.In f) : eEntry c f.content = x.entry := by
  cases c with
  | elf32 => exact @field_record _ _ (x.fields.take 1) _ f.content identSize within.header x.entry_lt
  | elf64 => exact @field_record _ _ (x.fields.take 1) _ f.content identSize within.header x.entry_lt

theorem ePhoff_written (within : x.In f) : ePhoff c f.content = x.phoff := by
  cases c with
  | elf32 => exact @field_record _ _ (x.fields.take 2) _ f.content identSize within.header x.phoff_lt
  | elf64 =>
    exact @field_record _ _ (x.fields.take 2) _ f.content identSize within.header
      (x.phoff_lt.trans (by decide))

theorem ePhnum_written (within : x.In f) : ePhnum c f.content = x.programs.length := by
  have limit : phnumLimit c ≤ 256 ^ 2 := by cases c <;> decide
  have small : x.programs.length < 256 ^ 2 := x.few.trans_le limit
  cases c with
  | elf32 =>
    exact congrArg Nat.cast
      (@field_record _ _ (x.fields.take 7) _ f.content identSize within.header small)
  | elf64 =>
    have found : field f.content 56 2 = x.programs.length :=
      @field_record _ _ (x.fields.take 7) _ f.content identSize within.header small
    unfold ePhnum
    dsimp only
    rw [found, if_pos (show x.programs.length < 2 ^ 15 from x.few)]

theorem Phdr.eq_of_fields {p q : Phdr c} (type : p.pType = q.pType)
    (offset : p.pOffset = q.pOffset) (vaddr : p.pVaddr = q.pVaddr)
    (filesz : p.pFilesz = q.pFilesz) (memsz : p.pMemsz = q.pMemsz) : p = q := by
  cases p
  cases q
  dsimp only at type offset vaddr filesz memsz
  subst type offset vaddr filesz memsz
  rfl

theorem fields_width (p : Program c) : width p.fields = phdrSize c := by cases c <;> rfl

/-- A program header that was written at a place is read back there. -/
theorem readPhdr_written (p : Program c) (there : slice mem at_ (phdrSize c) = record p.fields) :
    readPhdr mem at_ c = p.phdr := by
  rw [← fields_width p] at there
  cases c with
  | elf32 =>
    refine Phdr.eq_of_fields ?_ ?_ ?_ ?_ ?_
    · exact @field_record _ _ (p.fields.take 0) _ mem at_ there p.type_lt
    · exact @field_record _ _ (p.fields.take 1) _ mem at_ there p.phdr.offset_lt
    · exact @field_record _ _ (p.fields.take 2) _ mem at_ there p.phdr.vaddr_lt
    · exact @field_record _ _ (p.fields.take 4) _ mem at_ there p.phdr.filesz_lt
    · exact @field_record _ _ (p.fields.take 5) _ mem at_ there p.phdr.memsz_lt
  | elf64 =>
    refine Phdr.eq_of_fields ?_ ?_ ?_ ?_ ?_
    · exact @field_record _ _ (p.fields.take 0) _ mem at_ there p.type_lt
    · exact @field_record _ _ (p.fields.take 2) _ mem at_ there p.phdr.offset_lt
    · exact @field_record _ _ (p.fields.take 3) _ mem at_ there p.phdr.vaddr_lt
    · exact @field_record _ _ (p.fields.take 5) _ mem at_ there p.phdr.filesz_lt
    · exact @field_record _ _ (p.fields.take 6) _ mem at_ there p.phdr.memsz_lt

theorem table_length (programs : List (Program c)) :
    (programs.flatMap fun p => record p.fields).length = programs.length * phdrSize c := by
  induction programs with
  | nil => rw [List.flatMap_nil, List.length_nil, List.length_nil, Nat.zero_mul]
  | cons p programs ih =>
    rw [List.flatMap_cons, List.length_append, ih, record_length, fields_width, List.length_cons,
      Nat.succ_mul, Nat.add_comm]

theorem readPhdr_table (within : x.In f) (inside : k < x.programs.length) :
    readPhdr f.content (x.phoff + k * phdrSize c) c = (x.programs.get ⟨k, inside⟩).phdr := by
  have shape : (x.programs.flatMap fun p => record p.fields) =
      ((x.programs.take k).flatMap fun p => record p.fields) ++
        record (x.programs.get ⟨k, inside⟩).fields ++
        (x.programs.drop (k + 1)).flatMap fun p => record p.fields := by
    conv_lhs => rw [← List.take_append_drop k x.programs, List.drop_eq_getElem_cons inside]
    rw [List.flatMap_append, List.flatMap_cons, List.append_assoc]
    rfl
  have whole := within.table
  rw [← table_length, shape] at whole
  have part := slice_part f.content x.phoff whole
  rw [table_length, List.length_take_of_le inside.le, record_length, fields_width] at part
  exact readPhdr_written _ part

/-- The program headers are those written, where there is memory for them. -/
theorem readPhdrs_written (within : x.In f)
    (given : heap (x.programs.length * phdrSize c) = true) :
    readPhdrs c heap f = .ok (x.programs.map Program.phdr) := by
  have low : x.programs.length * phdrSize c < 2 ^ 32 := by
    have limit : phnumLimit c * phdrSize c < 2 ^ 32 := by cases c <;> decide
    calc x.programs.length * phdrSize c
        ≤ phnumLimit c * phdrSize c := Nat.mul_le_mul_right _ x.few.le
      _ < 2 ^ 32 := limit
  have count : ofInt32 (x.programs.length : Nat) = x.programs.length := by
    have limit : phnumLimit c ≤ 2 ^ 16 := by cases c <;> decide
    have few := x.few.trans_le limit
    unfold ofInt32
    omega
  have size : u32 (phdrSize c * ofInt32 (ePhnum c f.content)) = x.programs.length * phdrSize c := by
    rw [ePhnum_written within, count, Nat.mul_comm, u32_of_lt low]
  have place : u32 (ePhoff c f.content) = x.phoff := by
    rw [ePhoff_written within, u32_of_lt x.phoff_lt]
  have whole : min (x.programs.length * phdrSize c) (f.len - x.phoff) =
      x.programs.length * phdrSize c :=
    Nat.min_eq_left (Nat.le_sub_of_add_le (by have whole := within.whole; omega))
  unfold readPhdrs
  simp only [size, place, given, within.seekable, whole, ne_eq, not_true_eq_false, if_false,
    Bool.not_true, Bool.false_eq_true, if_neg (Nat.not_lt.mpr within.long)]
  rw [ePhnum_written within, Int.toNat_natCast]
  refine congrArg Except.ok (List.ext_getElem (by simp) fun k inside _ => ?_)
  rw [List.length_map, List.length_range] at inside
  rw [List.getElem_map, List.getElem_map, List.getElem_range]
  exact readPhdr_table within inside

theorem readImage_written (within : x.In f)
    (given : heap (x.programs.length * phdrSize c) = true) :
    readImage c heap f = ⟨x.entry, some (x.programs.map Program.phdr)⟩ := by
  unfold readImage
  rw [readPhdrs_written within given, eEntry_written within]
  rfl

/-! ### The kernel -/

/-- What `yaboot_text_ui` knows once it has read the front of a kernel. -/
def recognised (c : ElfClass) (ui : Ui) : Ui :=
  { ui with ident := identOf c ++ ui.ident.drop identSize, log := ui.log ++ [.access] }

theorem readIdent_written (within : x.In f) (heap : Nat → Bool) (ui : Ui) :
    readIdent (kernelOf heap f) ui = (true, recognised c ui) := by
  have long : identSize ≤ f.len := Nat.le_trans (by cases c <;> decide) within.long
  have count : min (identSize : Int) f.len = identSize := by omega
  unfold readIdent kernelOf
  dsimp only
  rw [Nat.min_eq_left long, count, within.ident]
  cases c <;> rfl

/-- A file with an executable in it is taken for one of its class and not of the other, and where
there is memory for the table, the loader finds its entry and its program headers as they were
written. -/
theorem written_recognised (within : x.In f)
    (given : heap (x.programs.length * phdrSize c) = true) :
    (isElf32 (kernelOf heap f).ident = true ↔ c = .elf32) ∧
      (isElf64 (kernelOf heap f).ident = true ↔ c = .elf64) ∧
      readImage c heap f = ⟨x.entry, some (x.programs.map Program.phdr)⟩ := by
  have long : identSize ≤ f.len := Nat.le_trans (by cases c <;> decide) within.long
  have ident : (kernelOf heap f).ident = identOf c := by
    rw [← within.ident, ← Nat.min_eq_left long]
    rfl
  rw [ident]
  refine ⟨?_, ?_, readImage_written within given⟩
  · cases c <;> decide
  · cases c <;> decide

/-- The image of the class that is in the file goes to the loader. -/
theorem loadKernel_written (within : x.In f)
    (given : heap (x.programs.length * phdrSize c) = true) (fw : Firmware) (ui : Ui) :
    ∃ loaded, loaded = load fw c ⟨x.entry, some (x.programs.map Program.phdr)⟩
        (kernelOf heap f).trouble f (recognised c ui) ∧
      loadKernel fw (kernelOf heap f) ui =
        (loaded.1, { loaded.2 with log := loaded.2.log ++ [.closed] }) := by
  refine ⟨_, rfl, ?_⟩
  rw [← readImage_written within given]
  unfold loadKernel
  rw [readIdent_written within]
  cases c <;> rfl

/-- A kernel whose segments are placed by one at the lowest address is loaded from its
file: each segment is where it was linked, memory elsewhere is kept, and so is the entry
point. -/
theorem written_loaded (within : x.In f)
    (given : heap (x.programs.length * phdrSize c) = true)
    (separate : Elf.Separate (segments (x.programs.map Program.phdr)) v0)
    (anchored : WellAnchored (segments (x.programs.map Program.phdr)) v0) (fw : Firmware)
    (loaded : loadKernel fw (kernelOf heap f) ui = (true, ui')) :
    (∀ p ∈ segments (x.programs.map Program.phdr), ∀ k < p.pFilesz,
      ui'.mem (u32 (ui'.info.base + (p.pVaddr - v0) + k)) = f.content (p.pOffset + k)) ∧
    (∀ a, (∀ p ∈ segments (x.programs.map Program.phdr), ¬ p.Touches ui'.info a) →
      ui'.mem a = ui.mem a) ∧
    kernelEntry ui'.info = u32 (ui'.info.base + sub32 x.entry v0) := by
  obtain ⟨out, from_, result⟩ := loadKernel_written within given fw ui
  rw [loaded] at result
  obtain ⟨success, rfl⟩ := Prod.mk.inj result
  obtain ⟨copies, plain⟩ := load_loaded fw ⟨x.entry, some (x.programs.map Program.phdr)⟩
    (kernelOf heap f).trouble f (recognised c ui)
  rw [← from_, ← success] at plain
  have image : (⟨x.entry, some (x.programs.map Program.phdr)⟩ : Image c).phdrs =
      some (x.programs.map Program.phdr) := rfl
  rcases loadElf_cases image f _ (recognised c ui).info (recognised c ui).mem with
    ⟨failed, -⟩ | ⟨a, l, ready, start, run⟩
  · rw [plain] at failed
    cases failed
  rw [plain] at run
  obtain ⟨done, info, memory, -⟩ := Loaded.mk.inj run
  have same : ready.loadLoc = u32 v0 := start.loadLoc.trans (anchored.anchor a l start.anchor)
  dsimp only
  rw [info, memory]
  refine ⟨fun p member k inside => ?_, fun a outside => ?_, ?_⟩
  · have stored := separate.bytes same done.symm member inside
    rwa [u32_of_lt (anchored.offsets p member (by omega))] at stored
  · exact loadSegments_kept separate.small done.symm outside
  · unfold kernelEntry
    rw [start.entry, start.loadLoc]
    exact entry_iff.mpr (anchored.anchor a l start.anchor)

/-! A file with one segment in it. -/

def linkedProgram : Program .elf32 := ⟨vmlinuxHeader, by decide, 0xC0000000, 7, 0x10000⟩

theorem linked_entry_lt : 0xC0000000 < 2 ^ ElfClass.elf32.bits := by decide

theorem linked_phoff_lt : 52 < 2 ^ 32 := by decide

theorem linked_few : [linkedProgram].length < phnumLimit .elf32 := by decide

def linked : Executable .elf32 where
  entry := 0xC0000000
  phoff := 52
  programs := [linkedProgram]
  version := 1
  shoff := 0
  flags := 0
  sections := []
  entry_lt := linked_entry_lt
  phoff_lt := linked_phoff_lt
  few := linked_few

def linkedFile : File where
  content a := (identOf .elf32 ++ record linked.fields ++ record linkedProgram.fields).getD a 0x60
  len := 0x11000
  seekable _ := true

theorem linked_in : linked.In linkedFile :=
  ⟨by decide, by decide, by decide, by decide, by decide, rfl⟩

/-- The file with one segment is an ELF32 file and has the program header that was written. -/
theorem linked_recognised :
    (isElf32 (kernelOf (fun _ => true) linkedFile).ident = true ↔ ElfClass.elf32 = .elf32) ∧
      (isElf64 (kernelOf (fun _ => true) linkedFile).ident = true ↔ ElfClass.elf32 = .elf64) ∧
      readImage .elf32 (fun _ => true) linkedFile = ⟨0xC0000000, some [vmlinuxHeader]⟩ :=
  written_recognised linked_in rfl

theorem linked_separate : Elf.Separate (segments (linked.programs.map Program.phdr)) 0xC0000000 :=
  ⟨rfl, by decide, by decide, List.pairwise_singleton _ _⟩

theorem linked_anchored : WellAnchored (segments (linked.programs.map Program.phdr)) 0xC0000000 :=
  ⟨fun _ _ found => by cases found; rfl, by decide⟩

/-- The first byte of the segment is at the base the image is given. -/
theorem linked_loaded : ∃ ui', loadKernel lending (kernelOf (fun _ => true) linkedFile) ready =
      (true, ui') ∧ ui'.mem (u32 (ui'.info.base + 0)) = 0x60 := by
  have success : (loadKernel lending (kernelOf (fun _ => true) linkedFile) ready).1 = true := by
    decide +kernel
  have placed := @written_loaded .elf32 linked linkedFile 0xC0000000 (fun _ => true) ready _
    linked_in rfl linked_separate linked_anchored lending (Prod.ext success rfl)
  have member : vmlinuxHeader ∈ segments (linked.programs.map Program.phdr) :=
    List.mem_singleton_self vmlinuxHeader
  exact ⟨_, Prod.ext success rfl, placed.1 vmlinuxHeader member 0 (by decide)⟩

end Yaboot.Elf.TextUi
