import Yaboot.Elf.ClaimProofs
import Yaboot.Elf.TextUi

/-! What a round of `yaboot_text_ui` leaves behind: no file open, no memory claimed for a
kernel that cannot be booted, and memory of its own for one that is entered and for its
ramdisk. -/
namespace Yaboot.Elf.TextUi
open Buffer CString Word Prompt Ramdisk

variable {fw : Firmware} {c : ElfClass} {log log' log₁ log₂ : Log} {ui ui' : Ui} {read : Int}
  {len size : Nat} {blocks blocks' : List Region} {i out : Initrd}

/-! ### Open files -/

/-- Is a file open after a call? There is no answer once one was read, closed or left
open that should not be. -/
def filesAfter : Option Bool → Call → Option Bool
  | some false, .opened _ => some true
  | some true, .access => some true
  | some true, .closed => some false
  | some false, .entered _ => some false
  | some open_, .claim _ _ => some open_
  | some open_, .release _ => some open_
  | some open_, .malloc _ => some open_
  | _, _ => none

def files (log : Log) : Option Bool := log.foldl filesAfter (some false)

theorem files_append (log : Log) (call : Call) : files (log ++ [call]) = filesAfter (files log) call :=
  List.foldl_append

/-! ### Steps -/

theorem held_entered (log : Log) (e : Entry) : held (log ++ [.entered e]) = held log :=
  held_append log _

/-- Everything held is apart. -/
def Separate (log : Log) : Prop := (held log).Pairwise Region.Apart

/-- What was asked on the way from one log to another, the kernel not being entered: a
file is open before and after as is said, and the new blocks are held in addition. -/
structure Goes (fw : Firmware) (before after : Bool) (new : List Region) (log log' : Log) :
    Prop where
  calls : ∃ calls, log' = log ++ calls ∧ ∀ e, .entered e ∉ calls
  files : files log = some before → files log' = some after
  held : held log' = new ++ held log
  separate : Honest fw → Separate log → Separate log'

theorem Goes.refl : Goes fw before before [] log log where
  calls := ⟨[], (List.append_nil _).symm, fun _ => List.not_mem_nil⟩
  files := id
  held := rfl
  separate _ := id

theorem Goes.trans (first : Goes fw before between new log log₁)
    (second : Goes fw between after more log₁ log₂) :
    Goes fw before after (more ++ new) log log₂ where
  calls := by
    obtain ⟨calls, rfl, none⟩ := first.calls
    obtain ⟨calls', rfl, none'⟩ := second.calls
    refine ⟨calls ++ calls', List.append_assoc _ _ _, fun e member => ?_⟩
    rcases List.mem_append.mp member with old | later
    · exact none e old
    · exact none' e later
  files start := second.files (first.files start)
  held := by rw [second.held, first.held, List.append_assoc]
  separate honest start := second.separate honest (first.separate honest start)

/-- A step behind one that adds nothing. -/
theorem Goes.quietly (first : Goes fw before between [] log log₁)
    (second : Goes fw between after more log₁ log₂) : Goes fw before after more log log₂ := by
  have both := first.trans second
  rwa [List.append_nil] at both

/-- A call that claims and releases nothing. -/
theorem Goes.call {call : Call} (files_ : filesAfter (some before) call = some after)
    (quiet : ∀ e, call ≠ .entered e) (held_ : ∀ blocks, heldAfter blocks call = blocks) :
    Goes fw before after [] log (log ++ [call]) where
  calls := ⟨[call], rfl, fun e member => quiet e (List.mem_singleton.mp member).symm⟩
  files start := by rw [files_append, start, files_]
  held := by rw [held_append, held_]; rfl
  separate _ start := by
    unfold Separate
    rwa [held_append, held_]

theorem Goes.opened : Goes fw false true [] log (log ++ [.opened name]) :=
  .call rfl (by simp) fun _ => rfl

theorem Goes.access : Goes fw true true [] log (log ++ [.access]) :=
  .call rfl (by simp) fun _ => rfl

theorem Goes.closed : Goes fw true false [] log (log ++ [.closed]) :=
  .call rfl (by simp) fun _ => rfl

theorem Goes.malloc : Goes fw state state [] log (log ++ [.malloc given]) :=
  .call (by cases state <;> rfl) (by simp) fun _ => rfl

/-- The block an answer to a claim adds. -/
def gained (size : Nat) : Option Nat → List Region
  | some found => [⟨found, size⟩]
  | none => []

/-- A claim takes at most the block it was asked for, and no file changes its state. -/
theorem Goes.claim (answer : claim fw addr size log = (found, log')) :
    Goes fw state state (gained size found) log log' := by
  unfold TextUi.claim at answer
  obtain ⟨granted, rfl⟩ := Prod.mk.inj answer
  rw [granted]
  refine ⟨⟨_, rfl, fun e member => by simp at member⟩, fun start => ?_, ?_, fun honest start => ?_⟩
  · rw [files_append, start]
    cases state <;> rfl
  · rw [held_append]
    cases found <;> rfl
  · unfold Separate
    rw [held_append]
    cases found with
    | none => exact start
    | some base =>
      refine List.Pairwise.cons (fun s member => ?_) start
      obtain rfl := honest.there granted
      exact Or.symm ((honest.free granted).2 s member)

theorem promClaimChunk_goes (fw : Firmware) (state : Bool) (size addr : Nat) (log : Log) :
    Goes fw state state (gained size (promClaimChunk fw size addr log).1) log
      (promClaimChunk fw size addr log).2 := by
  induction addr, log using promClaimChunk.induct fw size with
  | case1 addr log low found log' answer =>
    rw [promClaimChunk, if_pos low, answer]
    exact .claim answer
  | case2 addr log low log' answer ih =>
    rw [promClaimChunk, if_pos low, answer]
    exact (Goes.claim answer).quietly ih
  | case3 addr log high =>
    rw [promClaimChunk, if_neg high]
    exact .refl

theorem Goes.chunk (answer : promClaimChunk fw size addr log = (found, log')) :
    Goes fw state state (gained size found) log log' := by
  have search := promClaimChunk_goes fw state size addr log
  rwa [answer] at search

theorem promClaimChunk_free (honest : Honest fw)
    (answer : promClaimChunk fw size addr log = (some found, log')) :
    ∃ before, Free before ⟨found, size⟩ := by
  induction addr, log using promClaimChunk.induct fw size with
  | case1 addr log low base log₁ granted =>
    rw [promClaimChunk, if_pos low, granted] at answer
    obtain ⟨same, -⟩ := Prod.mk.inj answer
    obtain rfl := Option.some.inj same
    obtain ⟨granted, -⟩ := Prod.mk.inj granted
    obtain rfl := honest.there granted
    exact ⟨log, honest.free granted⟩
  | case2 addr log low log₁ refused ih =>
    rw [promClaimChunk, if_pos low, refused] at answer
    exact ih answer
  | case3 addr log high =>
    rw [promClaimChunk, if_neg high] at answer
    cases (Prod.mk.inj answer).1

/-- What was claimed last is released. -/
theorem Goes.release (claimed : Goes fw before after [r] log log₁) :
    Goes fw before after [] log (log₁ ++ [.release r]) where
  calls := by
    obtain ⟨calls, rfl, none⟩ := claimed.calls
    refine ⟨calls ++ [.release r], List.append_assoc _ _ _, fun e member => ?_⟩
    rcases List.mem_append.mp member with old | last
    · exact none e old
    · exact absurd (List.mem_singleton.mp last) (by simp)
  files start := by
    rw [files_append, claimed.files start]
    cases after <;> rfl
  held := by
    rw [held_append, claimed.held]
    exact List.erase_cons_head r _
  separate honest start := by
    unfold Separate
    rw [held_append]
    exact (claimed.separate honest start).sublist List.erase_sublist

/-- A read, a seek or a question for memory. -/
def Call.Reads (call : Call) : Prop := call = .access ∨ ∃ given, call = .malloc given

theorem Goes.reads {calls : List Call} (reads : ∀ call ∈ calls, call.Reads) :
    Goes fw true true [] log (log ++ calls) := by
  induction calls generalizing log with
  | nil =>
    rw [List.append_nil]
    exact .refl
  | cons call rest ih =>
    have later : Goes fw true true [] (log ++ [call]) (log ++ [call] ++ rest) :=
      ih fun call member => reads call (List.mem_cons_of_mem _ member)
    rw [List.append_assoc] at later
    rcases reads call List.mem_cons_self with rfl | ⟨given, rfl⟩
    · exact Goes.access.quietly later
    · exact Goes.malloc.quietly later

/-! ### The kernel -/

theorem headerCalls_reads (trouble : Trouble) : ∀ call ∈ headerCalls trouble, call.Reads := by
  unfold Call.Reads
  cases trouble <;> simp [headerCalls]

/-- The calls made for the segments of a kernel seek and read only. -/
theorem segmentCalls_reads (f : File) (phdrs : List (Phdr c)) :
    ∀ call ∈ segmentCalls f phdrs, call.Reads := by
  unfold Call.Reads
  induction phdrs with
  | nil => exact fun call member => absurd member List.not_mem_nil
  | cons p rest ih =>
    unfold segmentCalls
    split
    · exact ih
    split
    · simp
    split
    · simp
    · intro call member
      rcases List.mem_cons.mp member with rfl | member
      · exact .inl rfl
      rcases List.mem_cons.mp member with rfl | member
      · exact .inl rfl
      exact ih call member

/-- The memory of a kernel. -/
def kernelBlock (info : Loadinfo) : Region := ⟨info.base, info.memsize⟩

/-- The memory that stays claimed when the loading of a kernel returns. -/
def leaves (loaded : Bool) (info : Loadinfo) : List Region :=
  if loaded then [kernelBlock info] else []

/-- A kernel that is loaded has its memory, one that is not leaves none claimed. -/
theorem load_goes (fw : Firmware) (e : Image c) (trouble : Trouble) (f : File) (ui : Ui) :
    Goes fw true true
      (leaves (load fw c e trouble f ui).1 (load fw c e trouble f ui).2.info) ui.log
      (load fw c e trouble f ui).2.log := by
  have headers : Goes fw true true [] ui.log (ui.log ++ headerCalls .table) :=
    .reads (headerCalls_reads .table)
  unfold load
  split
  · exact .reads (headerCalls_reads trouble)
  rename_i phdrs given
  dsimp only
  split
  · exact headers
  split
  · rename_i answer
    exact headers.quietly (.chunk answer)
  · rename_i base log answer
    have claimed := (headers.quietly (.chunk answer)).trans (.reads (segmentCalls_reads f phdrs))
    unfold leaves
    dsimp only
    split
    · exact claimed
    · exact claimed.release

/-- The traced routine is the plain one, `prom_claim_chunk` being asked after the headers
were read. -/
theorem load_loaded (fw : Firmware) (e : Image c) (trouble : Trouble) (f : File) (ui : Ui) :
    ∃ copies,
      loadElf c e f
          (fun addr size => (promClaimChunk fw size addr (ui.log ++ headerCalls .table)).1)
          ui.info ui.mem =
        ⟨(load fw c e trouble f ui).1, (load fw c e trouble f ui).2.info,
          (load fw c e trouble f ui).2.mem, copies⟩ := by
  unfold load loadElf
  cases given : e.phdrs with
  | none => exact ⟨[], rfl⟩
  | some phdrs =>
    dsimp only
    split
    · exact ⟨[], rfl⟩
    simp only [beq_iff_eq]
    generalize promClaimChunk fw _ _ _ = search
    obtain ⟨found, log⟩ := search
    cases found with
    | none => exact ⟨[], rfl⟩
    | some base => exact ⟨_, rfl⟩

theorem loadKernel_goes (fw : Firmware) (k : KernelFile) (ui : Ui) :
    Goes fw true false (leaves (loadKernel fw k ui).1 (loadKernel fw k ui).2.info) ui.log
      (loadKernel fw k ui).2.log := by
  have read : Goes fw true true [] ui.log (readIdent k ui).2.log := .access
  unfold loadKernel
  dsimp only
  split
  · exact read.trans .closed
  split
  · exact (read.quietly (load_goes fw k.elf32 k.trouble k.file _)).trans .closed
  split
  · exact (read.quietly (load_goes fw k.elf64 k.trouble k.file _)).trans .closed
  · exact read.trans .closed

/-! ### The ramdisk -/

/-- A ramdisk lies in the address space, and every byte of it is in one of the blocks. -/
structure Covered (base size : Nat) (blocks : List Region) : Prop where
  low : base + size < 2 ^ 32
  bytes : ∀ x < size, ∃ r ∈ blocks, r.base ≤ base + x ∧ base + x < r.base + r.size

theorem Covered.mono (covered : Covered base size blocks) (more : ∀ r ∈ blocks, r ∈ blocks') :
    Covered base size blocks' := by
  refine ⟨covered.low, fun x less => ?_⟩
  obtain ⟨r, member, inside⟩ := covered.bytes x less
  exact ⟨r, more r member, inside⟩

theorem Covered.nothing : Covered 0 0 blocks :=
  ⟨by decide, fun x less => absurd less (Nat.not_lt_zero x)⟩

/-- No read fails, and none delivers more than was asked for. -/
def RamdiskFile.Sound (r : RamdiskFile) : Prop :=
  ∀ read ∈ r.reads, 0 ≤ read ∧ read ≤ chunkLen r.inoSize

/-- What holds of a ramdisk when the loop asks for more: it ends where the last read did. -/
structure Filling (len more initrdRead : Nat) (i : Initrd) (blocks : List Region) : Prop where
  place : i.base + i.size = more + initrdRead
  short : initrdRead ≤ len
  low : more + len < 2 ^ 32 - 1
  covered : Covered i.base i.size blocks

theorem ofInt32_of_le (sound : 0 ≤ read ∧ read ≤ (len : Int)) (low : len < 2 ^ 32) :
    ofInt32 read = read.toNat := by
  unfold ofInt32
  omega

/-- A further chunk keeps what is filled inside the blocks claimed so far. -/
theorem Filling.add (filling : Filling len more len i blocks) (sound : 0 ≤ read ∧ read ≤ (len : Int))
    (low : more + len + len < 2 ^ 32 - 1) :
    Filling len (more + len) (ofInt32 read) (i.add len (more + len) read)
      (⟨more + len, len⟩ :: blocks) := by
  have amount : ofInt32 read = read.toNat := ofInt32_of_le sound (by omega)
  have place := filling.place
  have size : (i.add len (more + len) read).size = i.size + read.toNat := by
    unfold Initrd.add
    dsimp only
    rw [amount]
    exact u32_of_lt (by omega)
  have base : (i.add len (more + len) read).base = i.base := rfl
  refine ⟨?_, by omega, low, ?_, fun x less => ?_⟩
  · rw [size, amount, base]
    omega
  · rw [size, base]
    omega
  · rw [size] at less
    rw [base]
    by_cases old : x < i.size
    · obtain ⟨r, member, inside⟩ := filling.covered.bytes x old
      exact ⟨r, List.mem_cons_of_mem _ member, inside⟩
    · exact ⟨_, List.mem_cons_self, by dsimp only; omega, by dsimp only; omega⟩

/-- The loop stops where it is, or claims the next chunk and reads into it. -/
theorem moreChunks_cases
    (finished : moreChunks fw len reads more initrdRead i log = some (out, log')) :
    (out = i ∧ ∃ new, Goes fw true true new log log') ∨
      ∃ read rest found log₁, reads = read :: rest ∧ len = initrdRead ∧
        claim fw (u32 (more + len)) len log = (found, log₁) ∧
        promClaimed found = u32 (more + len) ∧
        moreChunks fw len rest (u32 (more + len)) (ofInt32 read)
          (i.add len (u32 (more + len)) read) (log₁ ++ [.access]) = some (out, log') := by
  unfold moreChunks at finished
  split at finished
  · rename_i full
    dsimp only at finished
    split at finished
    · obtain ⟨rfl, rfl⟩ := Prod.mk.inj (Option.some.inj finished)
      exact .inl ⟨rfl, _, .claim rfl⟩
    · rename_i granted
      split at finished
      · cases finished
      · rename_i read rest
        exact .inr ⟨read, rest, _, _, rfl, full.symm, rfl, Decidable.not_not.mp granted, finished⟩
  · obtain ⟨rfl, rfl⟩ := Prod.mk.inj (Option.some.inj finished)
    exact .inl ⟨rfl, _, .refl⟩

/-- What the loop over the chunks of a ramdisk claims stays held, and covers the ramdisk it makes.
-/
theorem moreChunks_goes (blocks : List Region)
    (finished : moreChunks fw len reads more initrdRead i log = some (out, log')) :
    ∃ new, Goes fw true true new log log' ∧
      (Honest fw → (∀ read ∈ reads, 0 ≤ read ∧ read ≤ (len : Int)) →
        Filling len more initrdRead i blocks → Covered out.base out.size (new ++ blocks)) := by
  induction reads generalizing more initrdRead i log blocks with
  | nil =>
    rcases moreChunks_cases finished with ⟨rfl, new, goes⟩ | ⟨_, _, _, _, none, _⟩
    · exact ⟨new, goes, fun _ _ filling =>
        filling.covered.mono fun r => List.mem_append_right new⟩
    · cases none
  | cons read rest ih =>
    rcases moreChunks_cases finished with
      ⟨rfl, new, goes⟩ | ⟨_, _, found, log₁, same, rfl, answer, granted, finished⟩
    · exact ⟨new, goes, fun _ _ filling =>
        filling.covered.mono fun r => List.mem_append_right new⟩
    obtain ⟨rfl, rfl⟩ := List.cons.inj same
    obtain ⟨new, goes, covers⟩ := ih (⟨u32 (more + len), len⟩ :: blocks) finished
    refine ⟨_, (Goes.claim answer).trans (Goes.access.quietly goes), fun honest sound filling => ?_⟩
    have want : u32 (more + len) = more + len := u32_of_lt (by have := filling.low; omega)
    rw [want] at answer granted covers
    unfold claim at answer
    obtain ⟨answer, -⟩ := Prod.mk.inj answer
    cases found with
    | none =>
      have low := filling.low
      unfold promClaimed at granted
      rw [Option.getD_none] at granted
      omega
    | some found =>
      obtain rfl := honest.there answer
      have next := filling.add (sound read List.mem_cons_self) (honest.free answer).1
      have rest := covers honest (fun read member => sound read (List.mem_cons_of_mem _ member)) next
      refine rest.mono fun r member => ?_
      simpa [gained] using member

/-- A ramdisk that is read lies inside the blocks newly claimed for it. -/
theorem readRamdisk_goes {info : Loadinfo} {r : RamdiskFile}
    (finished : readRamdisk fw info r log = some (out, log')) :
    ∃ new, Goes fw true true new log log' ∧
      (Honest fw → r.Sound → Covered out.base out.size new) := by
  unfold readRamdisk at finished
  dsimp only at finished
  split at finished
  · rename_i answer
    obtain ⟨rfl, rfl⟩ := Prod.mk.inj (Option.some.inj finished)
    exact ⟨_, .chunk answer, fun _ _ => .nothing⟩
  rename_i found log₁ answer
  split at finished
  · cases finished
  rename_i first rest reads
  obtain ⟨new, goes, covers⟩ := moreChunks_goes [⟨found, chunkLen r.inoSize⟩] finished
  refine ⟨_, (Goes.chunk answer).trans (Goes.access.quietly goes), fun honest sound => ?_⟩
  unfold RamdiskFile.Sound at sound
  rw [reads] at sound
  have count := sound first List.mem_cons_self
  obtain ⟨_, low, -⟩ := promClaimChunk_free honest answer
  dsimp only at low
  have amount : ofInt32 first = first.toNat := ofInt32_of_le count (by omega)
  refine covers honest (fun read member => sound read (List.mem_cons_of_mem _ member)) ?_
  rw [amount]
  by_cases nothing : first.toNat = 0
  · rw [if_pos nothing, nothing]
    exact ⟨rfl, Nat.zero_le _, by omega, .nothing⟩
  · rw [if_neg nothing]
    refine ⟨rfl, by omega, low, by dsimp only; omega, fun x less => ⟨_, List.mem_cons_self, ?_⟩⟩
    dsimp only at less ⊢
    omega

/-- The rounds of the loop over the chunks, as the firmware answers. -/
def roundsOf (fw : Firmware) (len : Nat) : List Int → Nat → Log → List Ramdisk.Round
  | [], more, log =>
    let claimed := promClaimed (claim fw (u32 (more + len)) len log).1
    if claimed ≠ u32 (more + len) then [⟨claimed, 0⟩] else []
  | read :: rest, more, log =>
    ⟨promClaimed (claim fw (u32 (more + len)) len log).1, read⟩ ::
      roundsOf fw len rest (u32 (more + len))
        ((claim fw (u32 (more + len)) len log).2 ++ [.access])

/-- Without its log, the loop over the chunks is that of `load_ramdisk` on the rounds the firmware
allows. -/
theorem moreChunks_plain (fw : Firmware) (len : Nat) (reads : List Int) (more initrdRead : Nat)
    (i : Initrd) (log : Log) :
    (moreChunks fw len reads more initrdRead i log).map Prod.fst =
      chunkLoop len more initrdRead i (roundsOf fw len reads more log) := by
  induction reads generalizing more initrdRead i log with
  | nil =>
    unfold moreChunks roundsOf
    split
    · rename_i full
      dsimp only
      split
      · rename_i other
        rw [chunkLoop, if_pos full]
        exact (if_pos other).symm
      · rw [chunkLoop, if_pos full]
        rfl
    · rename_i short
      exact (chunkLoop_stop short).symm
  | cons read rest ih =>
    unfold moreChunks roundsOf
    split
    · rename_i full
      rw [chunkLoop, if_pos full]
      dsimp only
      split
      · rfl
      · exact ih _ _ _ _
    · rename_i short
      exact (chunkLoop_stop short).symm

/-- The traced loading is the plain one. -/
theorem readRamdisk_plain (fw : Firmware) (info : Loadinfo) (r : RamdiskFile) (log : Log)
    (some_ : r.reads = first :: rest) :
    ∃ more log', (readRamdisk fw info r log).map Prod.fst =
      textUiRamdisk r.inoSize
        (promClaimChunk fw (chunkLen r.inoSize) (u32 (info.base + info.memsize)) log).1 first
        (roundsOf fw (chunkLen r.inoSize) rest more log') := by
  unfold readRamdisk textUiRamdisk loadRamdisk
  dsimp only
  generalize promClaimChunk fw _ _ log = search
  obtain ⟨found, log₁⟩ := search
  cases found with
  | none => exact ⟨0, [], rfl⟩
  | some found =>
    dsimp only
    rw [some_]
    exact ⟨_, _, moreChunks_plain fw _ rest _ _ _ _⟩

/-- There are reads for all chunks that fit into the address space. -/
structure RamdiskFile.Ample (r : RamdiskFile) : Prop where
  some_ : 0 < chunkLen r.inoSize
  reads : 2 ^ 32 ≤ (r.reads.length - 1) * chunkLen r.inoSize

/-- The loop over the chunks ends before the addresses do. -/
theorem moreChunks_returns (honest : Honest fw) (some_ : 0 < len) (low : more + len < 2 ^ 32 - 1)
    (ample : 2 ^ 32 ≤ more + reads.length * len) :
    ∃ result, moreChunks fw len reads more initrdRead i log = some result := by
  induction reads generalizing more initrdRead i log with
  | nil =>
    rw [List.length_nil, Nat.zero_mul] at ample
    omega
  | cons read rest ih =>
    unfold moreChunks
    split
    · have want : u32 (more + len) = more + len := u32_of_lt (by omega)
      dsimp only
      rw [want]
      split
      · exact ⟨_, rfl⟩
      · rename_i granted
        unfold claim promClaimed at granted
        cases answer : fw log (more + len) len with
        | none =>
          rw [answer] at granted
          simp only [Option.getD_none] at granted
          omega
        | some found =>
          refine ih (honest.free answer).1 ?_
          rw [List.length_cons, Nat.succ_mul] at ample
          omega
    · exact ⟨_, rfl⟩

/-- Reading a ramdisk comes to an end on honest firmware. -/
theorem readRamdisk_returns (info : Loadinfo) (log : Log) {r : RamdiskFile}
    (honest : Honest fw) (ample : r.Ample) : ∃ result, readRamdisk fw info r log = some result := by
  obtain ⟨some_, many⟩ := ample
  unfold readRamdisk
  dsimp only
  split
  · exact ⟨_, rfl⟩
  rename_i found log₁ answer
  obtain ⟨_, low, -⟩ := promClaimChunk_free honest answer
  dsimp only at low
  cases reads : r.reads with
  | nil =>
    rw [reads] at many
    simp at many
  | cons first rest =>
    rw [reads, List.length_cons, Nat.add_sub_cancel] at many
    dsimp only
    refine moreChunks_returns honest some_ ?_ (by omega)
    split <;> omega

/-! ### A round -/

/-- The file systems of a round do not fail while a ramdisk is read. -/
def Attempt.Sound (a : Attempt) : Prop := ∀ r, a.ramdisk = some r → r.Sound

theorem openName_goes (fw : Firmware) (state : Bool)
    (answer : openName bootFile file other given log = (name, log')) :
    Goes fw state state [] log log' ∧ (given = true → name ≠ none) := by
  unfold openName at answer
  split at answer
  · obtain ⟨rfl, rfl⟩ := Prod.mk.inj answer
    exact ⟨.malloc, fun some_ => by rw [some_]; simp⟩
  · obtain ⟨rfl, rfl⟩ := Prod.mk.inj answer
    exact ⟨.refl, fun _ => by simp⟩

/-- There is a ramdisk in blocks that were claimed for it, or there was no memory for its
name. -/
theorem initrdOf_goes {rd : Option CStr} {a : Attempt}
    (finished : initrdOf fw bootFile kernel rd a ui = some (initrd, log')) :
    ∃ new, Goes fw false false new ui.log log' ∧
      (initrd = none → new = [] ∧ a.ramdiskName = false) ∧
      ∀ base size, initrd = some (base, size) → Honest fw → a.Sound → Covered base size new := by
  have nothing : ∀ base size, some ((0, 0) : Nat × Nat) = some (base, size) →
      Honest fw → a.Sound → Covered base size [] := fun base size same _ _ => by
    obtain ⟨rfl, rfl⟩ := Prod.mk.inj (Option.some.inj same)
    exact .nothing
  unfold initrdOf at finished
  split at finished
  · rename_i file flat some_
    split at finished
    · rename_i log₁ answer
      obtain ⟨rfl, rfl⟩ := Prod.mk.inj (Option.some.inj finished)
      obtain ⟨goes, given⟩ := openName_goes fw false answer
      refine ⟨[], goes, fun _ => ⟨rfl, ?_⟩, fun _ _ none => nomatch none⟩
      exact Bool.eq_false_iff.mpr fun there => given there rfl
    · rename_i name log₁ answer
      obtain ⟨goes, -⟩ := openName_goes fw false answer
      split at finished
      · obtain ⟨rfl, rfl⟩ := Prod.mk.inj (Option.some.inj finished)
        exact ⟨[], goes, fun none => (nomatch none), nothing⟩
      · rename_i r there
        obtain ⟨⟨i, log₂⟩, read, same⟩ := Option.map_eq_some_iff.mp finished
        obtain ⟨rfl, rfl⟩ := Prod.mk.inj same
        obtain ⟨new, reads, covers⟩ := readRamdisk_goes read
        refine ⟨new, (goes.quietly (.quietly .opened reads)).trans .closed, fun none => (nomatch none), ?_⟩
        intro base size same honest sound
        obtain ⟨rfl, rfl⟩ := Prod.mk.inj (Option.some.inj same)
        exact covers honest (sound r there)
  · obtain ⟨rfl, rfl⟩ := Prod.mk.inj (Option.some.inj finished)
    exact ⟨[], .refl, fun none => (nomatch none), nothing⟩

/-- The kernel that is entered has its memory, and its ramdisk other memory. -/
def Backed (log : Log) (e : Entry) : Prop :=
  kernelBlock e.info ∈ held log ∧
    ∃ ramdisk, (∀ r ∈ ramdisk, r ∈ held log ∧ r.Apart (kernelBlock e.info)) ∧
      Covered (sub32 e.arg1 e.info.loadLoc) e.arg2 ramdisk

/-- How a round ends: at the prompt, with nothing kept if there was memory for the names,
or in the kernel. -/
inductive Ends (fw : Firmware) (a : Attempt) (log : Log) : Log → Prop
  | prompt {later : Log} (goes : Goes fw false false new log later)
      (nothing : a.ramdiskName = true → new = []) : Ends fw a log later
  | entered {later : Log} (goes : Goes fw false false new log later)
      (backed : Honest fw → a.Sound → Separate log → Backed later e) :
      Ends fw a log (later ++ [.entered e])

theorem sub32_arg1 (loadLoc : Nat) (low : base < 2 ^ 32) :
    sub32 (u32 (base + loadLoc)) loadLoc = base := by
  unfold sub32 u32
  omega

/-- The blocks of a ramdisk are apart from the kernel they were claimed behind. -/
theorem Goes.backed (goes : Goes fw before after (new ++ [kernelBlock info]) log log')
    (honest : Honest fw) (start : Separate log) (covered : Covered base size new) :
    Backed log' ⟨info, address, u32 (base + info.loadLoc), size, args⟩ := by
  have separate := goes.separate honest start
  unfold Separate at separate
  rw [goes.held, List.append_assoc] at separate
  have apart := (List.pairwise_append.mp separate).2.2
  refine ⟨?_, new, fun r member => ⟨?_, ?_⟩, ?_⟩
  · rw [goes.held]
    simp
  · rw [goes.held]
    simp [member]
  · exact apart r member _ (by simp)
  · dsimp only
    rwa [sub32_arg1 _ (Nat.lt_of_le_of_lt (Nat.le_add_right _ _) covered.low)]

/-- An attempt of `yaboot_text_ui` ends at the prompt with what it claimed released, or in the
kernel on memory that is held. -/
theorem bootKernel_ends {params : BootParam} {a : Attempt}
    (finished : bootKernel fw bootFile file params a ui = some ui') :
    Ends fw a ui.log ui'.log := by
  unfold bootKernel at finished
  split at finished
  · rename_i log answer
    obtain rfl := Option.some.inj finished
    exact .prompt (openName_goes fw false answer).1 fun _ => rfl
  rename_i name log answer
  have named : Goes fw false false [] ui.log log := (openName_goes fw false answer).1
  split at finished
  · obtain rfl := Option.some.inj finished
    exact .prompt named fun _ => rfl
  rename_i k there
  have loaded := (named.quietly .opened).quietly
    (loadKernel_goes fw k { ui with log := log ++ [.opened name] })
  split at finished
  · rename_i ui₁ failed
    rw [failed] at loaded
    obtain rfl := Option.some.inj finished
    exact .prompt loaded fun _ => rfl
  · rename_i ui₁ success
    rw [success] at loaded
    obtain ⟨⟨initrd, log₁⟩, read, same⟩ := Option.map_eq_some_iff.mp finished
    obtain ⟨new, goes, nothing, covers⟩ := initrdOf_goes read
    cases initrd with
    | none =>
      obtain rfl := same
      refine .prompt (loaded.trans goes) fun given => ?_
      exact absurd given (by rw [(nothing rfl).2]; decide)
    | some initrd =>
      obtain rfl := same
      exact .entered (loaded.trans goes) fun honest sound start =>
        (loaded.trans goes).backed honest start (covers _ _ rfl honest sound)

theorem round_ends {w : World} {inp : Input} {a : Attempt}
    (finished : round fw w inp a ui = some (stop, ui')) : Ends fw a ui.log ui'.log := by
  have same : Ends fw a ui.log ui.log := .prompt .refl fun _ => rfl
  unfold round at finished
  dsimp only at finished
  split at finished
  · obtain ⟨-, rfl⟩ := Prod.mk.inj (Option.some.inj finished)
    exact same
  split at finished
  · obtain ⟨-, rfl⟩ := Prod.mk.inj (Option.some.inj finished)
    exact same
  · obtain ⟨ui₁, booted, last⟩ := Option.map_eq_some_iff.mp finished
    obtain ⟨-, rfl⟩ := Prod.mk.inj last
    have ends := bootKernel_ends booted
    exact ends

theorem initrdOf_returns (bootFile kernel : CStr) (rd : Option CStr) (ui : Ui) {a : Attempt}
    (honest : Honest fw) (ample : ∀ r, a.ramdisk = some r → r.Ample) :
    ∃ result, initrdOf fw bootFile kernel rd a ui = some result := by
  unfold initrdOf
  split
  · split
    · exact ⟨_, rfl⟩
    split
    · exact ⟨_, rfl⟩
    · rename_i name log answer _ r there
      obtain ⟨result, read⟩ := readRamdisk_returns ui.info (log ++ [.opened name]) honest
        (ample r there)
      exact ⟨_, by rw [read]; rfl⟩
  · exact ⟨_, rfl⟩

/-- A round of `yaboot_text_ui` comes to an end on honest firmware. -/
theorem round_returns (w : World) (inp : Input) (ui : Ui) {a : Attempt} (honest : Honest fw)
    (ample : ∀ r, a.ramdisk = some r → r.Ample) : ∃ result, round fw w inp a ui = some result := by
  unfold round
  dsimp only
  split
  · exact ⟨_, rfl⟩
  split
  · exact ⟨_, rfl⟩
  unfold bootKernel
  split
  · exact ⟨_, rfl⟩
  split
  · exact ⟨_, rfl⟩
  split
  · exact ⟨_, rfl⟩
  · rename_i kernel _ _ _ _ _ _ ui₁ _
    obtain ⟨result, read⟩ := initrdOf_returns (w.boot.file.getD w.lowString) kernel
      (getParams w inp ui.statics).1.params.rd.file ui₁ honest ample
    exact ⟨_, by rw [read]; rfl⟩

end Yaboot.Elf.TextUi
