import Yaboot.Xfs.Read

/-! The loop of `xfs_read_data` over the extents of an inode: where their blocks
lie on the disk, what a round does with an extent, and the runs of extents that
follow each other without a gap. -/
namespace Yaboot.Xfs
open Buffer Word

/-! ### The file -/

/-- The extents of an inode in extents format. -/
def Dinode.extents (inode : Dinode) : List Xad :=
  (List.range inode.nextents).map fun n => (recordAt inode.literal (16 * n)).xad

def Xad.Covers (e : Xad) (block : Nat) : Prop := e.offset ≤ block ∧ block < e.offset + e.len

instance (e : Xad) (block : Nat) : Decidable (e.Covers block) := inferInstanceAs (Decidable (_ ∧ _))

/-- An extent list as the format allows it: sorted, without overlap, each extent
inside one allocation group, and no file longer than 2^63 bytes. -/
structure Mapped (g : Geometry) (extents : List Xad) : Prop where
  sorted : extents.Pairwise fun e f => e.offset + e.len ≤ f.offset
  some_block : ∀ e ∈ extents, 0 < e.len
  group : ∀ e ∈ extents, e.start / 2 ^ g.agblklog < g.agcount
  inside : ∀ e ∈ extents, e.start % 2 ^ g.agblklog + e.len ≤ g.agblocks
  low : ∀ e ∈ extents, (e.offset + e.len) * g.bsize < 2 ^ 63

/-- The partition ends within the 64-bit range of device addresses. -/
def Disk.Holds (d : Disk) (g : Geometry) : Prop :=
  d.partitionOffset + g.agcount * g.agblocks * g.bsize ≤ 2 ^ 64

instance (d : Disk) (g : Geometry) : Decidable (d.Holds g) := inferInstanceAs (Decidable (_ ≤ _))

/-- The file's bytes, holes reading as zeros. Every extent counts as written; the
driver does not look at the mark of preallocated ones. -/
def fileByte (g : Geometry) (d : Disk) (extents : List Xad) : Bytes := fun i =>
  match extents.find? (fun e => decide (e.Covers (i / g.bsize))) with
  | none => 0
  | some e => readDiskBlock d (fsb2daddr g (e.start + (i / g.bsize - e.offset))) 0 (i % g.bsize)

theorem Mapped.tail {g : Geometry} (mapped : Mapped g (e :: rest)) : Mapped g rest where
  sorted := (List.pairwise_cons.mp mapped.sorted).2
  some_block f member := mapped.some_block f (List.mem_cons_of_mem e member)
  group f member := mapped.group f (List.mem_cons_of_mem e member)
  inside f member := mapped.inside f (List.mem_cons_of_mem e member)
  low f member := mapped.low f (List.mem_cons_of_mem e member)

/-! ### Disk addresses -/

theorem Geometry.bsize_eq (g : Geometry) : g.bsize = 2 ^ g.bdlog * 512 := by
  have ge := g.blklog_ge
  rw [bsize, bdlog, show (512 : Nat) = 2 ^ 9 from rfl, ← Nat.pow_add]
  congr 1
  omega

theorem mask32lo_eq (small : n ≤ 31) : mask32lo n = 2 ^ n - 1 := by
  have le : 2 ^ n ≤ 2 ^ 31 := Nat.pow_le_pow_right (by decide) small
  rw [mask32lo, Nat.one_shiftLeft, u32_of_lt (by omega)]

/-- The number of a block counted from the start of the partition. -/
def rawBlock (g : Geometry) (fsbno : Nat) : Nat :=
  fsbno / 2 ^ g.agblklog * g.agblocks + fsbno % 2 ^ g.agblklog

/-- The first device byte of a file system block. -/
def blockAddress (g : Geometry) (d : Disk) (fsbno : Nat) : Nat :=
  d.partitionOffset + rawBlock g fsbno * g.bsize

theorem fsb2daddr_eq {g : Geometry} (group : f / 2 ^ g.agblklog < g.agcount)
    (fits : rawBlock g f * g.bsize < 2 ^ 64) : fsb2daddr g f = rawBlock g f * 2 ^ g.bdlog := by
  have bits : 2 ^ g.agblklog ≤ 2 ^ 31 := Nat.pow_le_pow_right (by decide) g.agblklog_le
  have count := g.agcount_lt
  have agno : u32 (f >>> g.agblklog) = f / 2 ^ g.agblklog := by
    rw [Nat.shiftRight_eq_div_pow, u32_of_lt (by omega)]
  have agbno : u32 (f &&& mask32lo g.agblklog) = f % 2 ^ g.agblklog := by
    have small := Nat.mod_lt f (Nat.two_pow_pos g.agblklog)
    rw [mask32lo_eq g.agblklog_le, Nat.and_two_pow_sub_one_eq_mod, u32_of_lt (by omega)]
  have sectors : rawBlock g f * 2 ^ g.bdlog * 512 = rawBlock g f * g.bsize := by
    rw [g.bsize_eq, Nat.mul_assoc]
  have whole : rawBlock g f < 2 ^ 64 := (Nat.le_mul_of_pos_right _ g.bsize_pos).trans_lt fits
  have part : f / 2 ^ g.agblklog * g.agblocks < 2 ^ 64 := (Nat.le_add_right _ _).trans_lt whole
  rw [fsb2daddr, agno, agbno, agb2daddr, u64_of_lt part, ← rawBlock, u64_of_lt whole,
    Nat.shiftLeft_eq, u64_of_lt (by omega)]

theorem readDiskBlock_eq {g : Geometry} {d : Disk} (group : f / 2 ^ g.agblklog < g.agcount)
    (before : blockAddress g d f + s < 2 ^ 64) (i : Nat) :
    readDiskBlock d (fsb2daddr g f) s i = d.bytes (blockAddress g d f + s + i) := by
  unfold blockAddress at before ⊢
  have fits : rawBlock g f * g.bsize < 2 ^ 64 := by omega
  have sectors : rawBlock g f * 2 ^ g.bdlog * 512 = rawBlock g f * g.bsize := by
    rw [g.bsize_eq, Nat.mul_assoc]
  rw [readDiskBlock, fsb2daddr_eq group fits, sectors, u64_of_lt fits, u64_of_lt (by omega)]
  congr 1
  omega

theorem split_add {g : Geometry} (inside : f % 2 ^ g.agblklog + j < g.agblocks) :
    (f + j) / 2 ^ g.agblklog = f / 2 ^ g.agblklog ∧
      (f + j) % 2 ^ g.agblklog = f % 2 ^ g.agblklog + j := by
  have fits := g.agblocks_le
  have split := Nat.div_add_mod f (2 ^ g.agblklog)
  have whole : f + j = 2 ^ g.agblklog * (f / 2 ^ g.agblklog) + (f % 2 ^ g.agblklog + j) := by omega
  have small : f % 2 ^ g.agblklog + j < 2 ^ g.agblklog := by omega
  constructor
  · rw [whole, Nat.mul_add_div (Nat.two_pow_pos _), Nat.div_eq_of_lt small, Nat.add_zero]
  · rw [whole, Nat.mul_add_mod, Nat.mod_eq_of_lt small]

theorem blockAddress_add {g : Geometry} (d : Disk) (inside : f % 2 ^ g.agblklog + j < g.agblocks) :
    blockAddress g d (f + j) = blockAddress g d f + j * g.bsize := by
  obtain ⟨group, block⟩ := split_add inside
  rw [blockAddress, blockAddress, rawBlock, rawBlock, group, block, ← Nat.add_assoc,
    Nat.add_mul _ j]
  omega

/-- The blocks of an extent lie inside the partition. -/
theorem blockAddress_end {g : Geometry} {d : Disk} (holds : d.Holds g)
    (group : f / 2 ^ g.agblklog < g.agcount) (inside : f % 2 ^ g.agblklog + n ≤ g.agblocks) :
    blockAddress g d f + n * g.bsize ≤ 2 ^ 64 := by
  refine le_trans ?_ holds
  rw [blockAddress, rawBlock, Nat.add_assoc, ← Nat.add_mul]
  apply Nat.add_le_add_left
  apply Nat.mul_le_mul_right
  calc f / 2 ^ g.agblklog * g.agblocks + f % 2 ^ g.agblklog + n
      ≤ f / 2 ^ g.agblklog * g.agblocks + g.agblocks := by omega
    _ = (f / 2 ^ g.agblklog + 1) * g.agblocks := by rw [Nat.add_mul, Nat.one_mul]
    _ ≤ g.agcount * g.agblocks := Nat.mul_le_mul_right _ group

/-! ### The bytes of an extent and of a hole -/

/-- An extent covers the block of a byte when its bytes do. -/
theorem covers_div_iff (g : Geometry) (e : Xad) (i : Nat) :
    e.Covers (i / g.bsize) ↔ e.offset * g.bsize ≤ i ∧ i < (e.offset + e.len) * g.bsize := by
  unfold Xad.Covers
  rw [Nat.le_div_iff_mul_le g.bsize_pos, Nat.div_lt_iff_lt_mul g.bsize_pos]

theorem not_covers_div (g : Geometry) (e : Xad)
    (apart : i < e.offset * g.bsize ∨ (e.offset + e.len) * g.bsize ≤ i) :
    ¬ e.Covers (i / g.bsize) := by
  rw [covers_div_iff]
  omega

theorem find_covers {extents : List Xad} {e : Xad}
    (sorted : extents.Pairwise fun e f => e.offset + e.len ≤ f.offset)
    (member : e ∈ extents) (covers : e.Covers b) :
    extents.find? (fun e => decide (e.Covers b)) = some e := by
  induction extents with
  | nil => cases member
  | cons head rest ih =>
    obtain ⟨first, tail⟩ := List.pairwise_cons.mp sorted
    rcases List.mem_cons.mp member with rfl | later
    · simp [covers]
    · have apart := first e later
      have misses : ¬ head.Covers b := by
        unfold Xad.Covers at covers ⊢
        omega
      rw [List.find?_cons_of_neg (by simpa using misses)]
      exact ih tail later

/-- A byte that an extent covers is the one in the block the extent names. -/
theorem fileByte_covered {g : Geometry} {d : Disk} (holds : d.Holds g) (mapped : Mapped g extents)
    (member : e ∈ extents) (after : e.offset * g.bsize ≤ i)
    (before : i < (e.offset + e.len) * g.bsize) :
    fileByte g d extents i = d.bytes (blockAddress g d e.start + (i - e.offset * g.bsize)) := by
  have size := g.bsize_pos
  have small := Nat.mod_lt i size
  have split := Nat.div_add_mod i g.bsize
  obtain ⟨first, last⟩ := (covers_div_iff g e i).mpr ⟨after, before⟩
  obtain ⟨j, block⟩ := Nat.exists_eq_add_of_le first
  have place := mapped.inside e member
  have found := find_covers mapped.sorted member ⟨first, last⟩
  have address := blockAddress_add d (show e.start % 2 ^ g.agblklog + j < g.agblocks by omega)
  have limit := blockAddress_end holds (mapped.group e member) place
  have inside : j * g.bsize + g.bsize ≤ e.len * g.bsize := by
    rw [← Nat.succ_mul]
    exact Nat.mul_le_mul_right _ (by omega)
  have group : (e.start + j) / 2 ^ g.agblklog < g.agcount := by
    rw [(split_add (show e.start % 2 ^ g.agblklog + j < g.agblocks by omega)).1]
    exact mapped.group e member
  have shift : g.bsize * (e.offset + j) = e.offset * g.bsize + j * g.bsize := by
    rw [Nat.mul_comm, Nat.add_mul]
  rw [block, shift] at split
  simp only [fileByte, found]
  rw [block, Nat.add_sub_cancel_left, readDiskBlock_eq group (by omega), address]
  congr 1
  omega

theorem fileByte_hole {g : Geometry} {d : Disk} {extents : List Xad}
    (hole : ∀ e ∈ extents, ¬ e.Covers (i / g.bsize)) :
    fileByte g d extents i = 0 := by
  have none : extents.find? (fun e => decide (e.Covers (i / g.bsize))) = none := by
    rw [List.find?_eq_none]
    intro e member
    simpa using hole e member
  simp only [fileByte, none]

/-! ### One round of the loop -/

/-- The number of bytes a round takes when it is not cut short by the end. -/
def quota (endpos stop : Nat) (len gap : Nat) : Nat := if endpos ≤ stop then len else gap

theorem isinxt_iff {g : Geometry} {e : Xad} (low : (e.offset + e.len) * g.bsize < 2 ^ 63)
    (pos : Nat) : isinxt (pos >>> g.blklog) e.offset e.len = true ↔ e.Covers (pos / g.bsize) := by
  have fits : e.offset + e.len < 2 ^ 64 :=
    (Nat.le_mul_of_pos_right _ g.bsize_pos).trans_lt (by omega)
  simp only [isinxt, Nat.shiftRight_eq_div_pow, u64_of_lt fits, Geometry.bsize, Xad.Covers]
  split
  · simp [*]
  · simp [*]

theorem shift_eq {g : Geometry} (low : n * g.bsize < 2 ^ 63) : u64 (n <<< g.blklog) = n * g.bsize := by
  rw [Nat.shiftLeft_eq]
  exact u64_of_lt (by unfold Geometry.bsize at low; omega)

theorem take_eq (p : Progress) (left : p.len = l) (far : p.pos + n < 2 ^ 63) (src : Bytes) :
    p.take n n src =
      { p with
        mem := blit p.mem p.buf n src, buf := p.buf + n, len := (l : Int) - n, pos := p.pos + n } := by
  rw [Progress.take, add64_of_lt (by omega), left]

/-- A round inside an extent reads up to the end of the extent. -/
theorem readExtent_covers {g : Geometry} {d : Disk} {e : Xad} {p : Progress} {endpos : Nat}
    (low : (e.offset + e.len) * g.bsize < 2 ^ 63) (covers : e.Covers (p.pos / g.bsize))
    (left : p.len = (l : Nat)) (here : p.pos < 2 ^ 31)
    (near : endpos < 2 ^ 31) :
    readExtent g d endpos e p =
      { p.take (quota endpos ((e.offset + e.len) * g.bsize) l
            ((e.offset + e.len) * g.bsize - p.pos))
          (quota endpos ((e.offset + e.len) * g.bsize) l ((e.offset + e.len) * g.bsize - p.pos) :
            Nat)
          (readDiskBlock d (fsb2daddr g e.start) (p.pos - e.offset * g.bsize)) with
        endofprev := e.offset + e.len } := by
  have size := g.bsize_pos
  have fits : e.offset + e.len < 2 ^ 64 := (Nat.le_mul_of_pos_right _ size).trans_lt (by omega)
  obtain ⟨first, last⟩ := (covers_div_iff g e p.pos).mp covers
  have stop : u64 ((e.offset + e.len) <<< g.blklog) = (e.offset + e.len) * g.bsize := shift_eq low
  have start : u64 (e.offset <<< g.blklog) = e.offset * g.bsize := shift_eq (by omega)
  have offset : ofInt64 (s32 (sub64 p.pos (e.offset * g.bsize))) = p.pos - e.offset * g.bsize := by
    rw [sub64_of_le (by omega) first, s32_of_lt (by omega), ofInt64_of_lt (by omega)]
  have inside := (isinxt_iff low p.pos).mpr covers
  simp only [readExtent, inside, ↓reduceIte, stop, start, offset, u64_of_lt fits,
    ofInt64_of_lt (show endpos < 2 ^ 64 by omega), quota, left]
  by_cases done : endpos ≤ (e.offset + e.len) * g.bsize
  · simp only [if_pos done, Int.toNat_natCast]
  · have rest : s32 (sub64 ((e.offset + e.len) * g.bsize) p.pos) =
        ((e.offset + e.len) * g.bsize - p.pos : Nat) := by
      rw [sub64_of_le (by omega) last.le, s32_of_lt (by omega)]
    simp only [if_neg done, rest, Int.toNat_natCast]

/-- A round at a gap fills the width of the gap, wherever the position is. -/
theorem readExtent_gap {g : Geometry} {d : Disk} {e : Xad} {p : Progress} {endpos : Nat}
    (low : (e.offset + e.len) * g.bsize < 2 ^ 63) (misses : ¬ e.Covers (p.pos / g.bsize))
    (gap : p.endofprev < e.offset) (left : p.len = (l : Nat)) (short : l < 2 ^ 31)
    (near : endpos < 2 ^ 31) :
    readExtent g d endpos e p =
      p.take (quota endpos (e.offset * g.bsize) l ((e.offset - p.endofprev) * g.bsize))
        (quota endpos (e.offset * g.bsize) l ((e.offset - p.endofprev) * g.bsize) : Nat)
        fun _ => 0 := by
  have size := g.bsize_pos
  have within : e.offset * g.bsize ≤ (e.offset + e.len) * g.bsize :=
    Nat.mul_le_mul_right _ (Nat.le_add_right _ _)
  have fits : e.offset < 2 ^ 64 := (Nat.le_mul_of_pos_right _ size).trans_lt (by omega)
  have start : u64 (e.offset <<< g.blklog) = e.offset * g.bsize := shift_eq (by omega)
  have outside : isinxt (p.pos >>> g.blklog) e.offset e.len = false := by
    rw [Bool.eq_false_iff]
    exact fun inside => misses ((isinxt_iff low p.pos).mp inside)
  simp only [readExtent, outside, Bool.false_eq_true, ↓reduceIte, gap, start,
    ofInt64_of_lt (show endpos < 2 ^ 64 by omega), quota, left]
  by_cases done : endpos ≤ e.offset * g.bsize
  · simp only [if_pos done]
    congr 1
    omega
  · have narrow : (e.offset - p.endofprev) * g.bsize ≤ e.offset * g.bsize :=
      Nat.mul_le_mul_right _ (Nat.sub_le _ _)
    have width : s32 (u64 (sub64 e.offset p.endofprev <<< g.blklog)) =
        ((e.offset - p.endofprev) * g.bsize : Nat) := by
      rw [sub64_of_le fits gap.le, shift_eq (by omega), s32_of_lt (by omega)]
    simp only [if_neg done, width]
    congr 1
    omega

/-- A round that does neither remembers the end of the extent. -/
theorem readExtent_skip {g : Geometry} {d : Disk} {e : Xad} {p : Progress}
    (low : (e.offset + e.len) * g.bsize < 2 ^ 63) (misses : ¬ e.Covers (p.pos / g.bsize))
    (joined : e.offset ≤ p.endofprev) (endpos : Int) :
    readExtent g d endpos e p = { p with endofprev := e.offset + e.len } := by
  have fits : e.offset + e.len < 2 ^ 64 :=
    (Nat.le_mul_of_pos_right _ g.bsize_pos).trans_lt (by omega)
  have outside : isinxt (p.pos >>> g.blklog) e.offset e.len = false := by
    rw [Bool.eq_false_iff]
    exact fun inside => misses ((isinxt_iff low p.pos).mp inside)
  simp only [readExtent, outside, Bool.false_eq_true, ↓reduceIte, Nat.not_lt.mpr joined,
    u64_of_lt fits]

/-! ### The loop over an extent list -/

def readList (g : Geometry) (d : Disk) (endpos : Int) : List Xad → Progress → Progress
  | [], p => p
  | e :: rest, p => if 0 < p.len then readList g d endpos rest (readExtent g d endpos e p) else p

theorem take_keeps (p : Progress) (n : Nat) (toread : Int) (src : Bytes) :
    p.buf ≤ (p.take n toread src).buf ∧ ∀ i < p.buf, (p.take n toread src).mem i = p.mem i :=
  ⟨Nat.le_add_right _ _, fun _ before => blit_outside _ _ (.inl before)⟩

theorem readExtent_keeps (g : Geometry) (d : Disk) (endpos : Int) (e : Xad) (p : Progress) :
    p.buf ≤ (readExtent g d endpos e p).buf ∧
      ∀ i < p.buf, (readExtent g d endpos e p).mem i = p.mem i := by
  rw [readExtent]
  split
  · exact ⟨Nat.le_add_right _ _, fun _ before => blit_outside _ _ (.inl before)⟩
  · split
    · exact take_keeps p _ _ _
    · exact ⟨Nat.le_refl _, fun _ _ => rfl⟩

/-- Bytes already handed over stay. -/
theorem readList_mem {g : Geometry} {d : Disk} {endpos : Int} (extents : List Xad)
    (before : i < p.buf) : (readList g d endpos extents p).mem i = p.mem i := by
  induction extents generalizing p with
  | nil => rfl
  | cons e rest ih =>
    rw [readList]
    obtain ⟨grown, kept⟩ := readExtent_keeps g d endpos e p
    split
    · rw [ih (by omega), kept i before]
    · rfl

theorem readList_done {g : Geometry} {d : Disk} {endpos : Int} (xads : List Xad)
    (none : p.len ≤ 0) : readList g d endpos xads p = p := by
  cases xads with
  | nil => rfl
  | cons e rest => rw [readList, if_neg (by omega)]

/-! ### Contiguous runs -/

/-- The end of the run of extents that starts at block `v`, and the extents
behind it. -/
def run (v : Nat) : List Xad → Nat × List Xad
  | [] => (v, [])
  | e :: rest => if e.offset = v then run (e.offset + e.len) rest else (v, e :: rest)

theorem le_run (v : Nat) (extents : List Xad) : v ≤ (run v extents).1 := by
  induction extents generalizing v with
  | nil => exact Nat.le_refl v
  | cons e rest ih =>
    rw [run]
    split
    · have later := ih (e.offset + e.len)
      omega
    · exact Nat.le_refl v

/-- A list is its run followed by the extents behind, and the first of those
starts after a gap. -/
theorem run_split {extents : List Xad}
    (sorted : extents.Pairwise fun e f => e.offset + e.len ≤ f.offset)
    (bounded : ∀ e ∈ extents, v ≤ e.offset) :
    (∃ front, extents = front ++ (run v extents).2 ∧
        ∀ e ∈ front, e.offset + e.len ≤ (run v extents).1) ∧
      ∀ f ∈ (run v extents).2, (run v extents).1 < f.offset := by
  induction extents generalizing v with
  | nil => exact ⟨⟨[], rfl, by simp⟩, by simp [run]⟩
  | cons e rest ih =>
    obtain ⟨first, tail⟩ := List.pairwise_cons.mp sorted
    rw [run]
    by_cases starts : e.offset = v
    · rw [if_pos starts]
      obtain ⟨⟨front, whole, ends⟩, behind⟩ := ih tail first
      refine ⟨⟨e :: front, by rw [List.cons_append, ← whole], ?_⟩, behind⟩
      intro f member
      rcases List.mem_cons.mp member with rfl | later
      · exact le_run _ rest
      · exact ends f later
    · rw [if_neg starts]
      refine ⟨⟨[], rfl, by simp⟩, ?_⟩
      have head := bounded e (by simp)
      intro f member
      rcases List.mem_cons.mp member with rfl | later
      · dsimp only
        omega
      · have apart := first f later
        dsimp only
        omega

theorem head_le {e f : Xad} {rest : List Xad}
    (sorted : (e :: rest).Pairwise fun e f => e.offset + e.len ≤ f.offset)
    (member : f ∈ e :: rest) : e.offset ≤ f.offset := by
  rcases List.mem_cons.mp member with rfl | later
  · exact Nat.le_refl _
  · have apart := (List.pairwise_cons.mp sorted).1 f later
    omega

theorem lt_run {e : Xad} (some_block : 0 < e.len) (rest : List Xad) :
    e.offset < (run e.offset (e :: rest)).1 := by
  have next := le_run (e.offset + e.len) rest
  rw [run, if_pos rfl]
  omega

end Yaboot.Xfs
