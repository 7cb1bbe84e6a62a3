import Yaboot.Xfs.ReadProofs

/-! What the walk over the extents of an inode shows to the loop of
`xfs_read_data`, and the outcome of the loop in terms of that list alone. -/
namespace Yaboot.Xfs
open Buffer Word

/-- Repeated calls of `next_extent` return the given extents and then null. -/
def Yields (g : Geometry) (d : Disk) (inode : Dinode) : List Xad → Walk → Prop
  | [], w => nextExtent g d inode w = none
  | e :: rest, w => ∃ w', nextExtent g d inode w = some (e, w') ∧ Yields g d inode rest w'

/-- Repeated calls of `next_extent` return the given extents first. -/
def Shows (g : Geometry) (d : Disk) (inode : Dinode) : List Xad → Walk → Prop
  | [], _ => True
  | e :: rest, w => ∃ w', nextExtent g d inode w = some (e, w') ∧ Shows g d inode rest w'

variable {g : Geometry} {d : Disk} {inode : Dinode}

/-! ### The loop over what is shown -/

theorem readLoop_yields {endpos : Int} (yields : Yields g d inode xads w)
    (enough : xads.length < fuel) (p : Progress) :
    readLoop g d inode endpos fuel w p = some (readList g d endpos xads p) := by
  induction xads generalizing fuel w p with
  | nil =>
    obtain ⟨fuel, rfl⟩ := Nat.exists_eq_add_of_lt enough
    have none : nextExtent g d inode w = none := yields
    simp only [readLoop, none, ite_self, readList]
  | cons e rest ih =>
    obtain ⟨fuel, rfl⟩ : ∃ m, fuel = m + 1 := ⟨fuel - 1, by omega⟩
    obtain ⟨w', taken, later⟩ := yields
    rw [readLoop, readList]
    by_cases more : 0 < p.len
    · simp only [if_pos more, taken]
      exact ih later (Nat.lt_of_succ_lt_succ enough) _
    · simp only [if_neg more]

/-- What comes behind the extents shown does not matter when they are all the loop
needs. -/
theorem readLoop_shows {endpos : Int} (shows_ : Shows g d inode xads w)
    (enough : xads.length < fuel) (done : (readList g d endpos xads p).len ≤ 0) :
    readLoop g d inode endpos fuel w p = some (readList g d endpos xads p) := by
  induction xads generalizing fuel w p with
  | nil =>
    obtain ⟨fuel, rfl⟩ := Nat.exists_eq_add_of_lt enough
    rw [readList] at done
    rw [readLoop, if_neg (by omega), readList]
  | cons e rest ih =>
    obtain ⟨fuel, rfl⟩ : ∃ m, fuel = m + 1 := ⟨fuel - 1, by omega⟩
    obtain ⟨w', taken, later⟩ := shows_
    rw [readList] at done
    rw [readLoop, readList]
    by_cases more : 0 < p.len
    · rw [if_pos more] at done
      simp only [if_pos more, taken]
      exact ih later (Nat.lt_of_succ_lt_succ enough) done
    · simp only [if_neg more]

/-! ### Inodes in extents format -/

theorem yields_range (inline : inode.format = .extents) (count : w.nextents = n)
    (small : n < 2 ^ 32) (place : w.xt = 16 * k) :
    Yields g d inode ((List.range' k n).map fun n => (recordAt inode.literal (16 * n)).xad) w := by
  induction n generalizing w k with
  | zero => simp [Yields, nextExtent, inline, count]
  | succ n ih =>
    rw [List.range'_succ, List.map_cons]
    refine ⟨{ w with xt := w.xt + 16, nextents := n }, ?_, ih rfl (by omega) (by simp only [place]; omega)⟩
    simp [nextExtent, inline, count, place, sub32_of_le small (show 1 ≤ n + 1 by omega)]

/-- The walk shows the records of the inode in order, and then ends. -/
theorem extents_yield (g : Geometry) (d : Disk) (inline : inode.format = .extents) (fuel : Nat)
    (w : Walk) : ∃ w', initExtents g d fuel inode w = some w' ∧
      Yields g d inode inode.extents w' := by
  refine ⟨{ w with xt := 0, nextents := inode.nextents }, ?_, ?_⟩
  · simp only [initExtents, inline]
  · unfold Dinode.extents
    rw [List.range_eq_range']
    exact yields_range inline rfl inode.nextents_lt rfl

/-! ### The call -/

/-- Where a request ends, and the file if it ends first, as long as an `int` can hold
that place. -/
theorem endOfRead_eq {pos len size stop : Nat} (within : pos ≤ size) (short : len < 2 ^ 31)
    (ends : stop = min (pos + len) size) (near : stop < 2 ^ 31) :
    endOfRead ⟨pos, size⟩ len = stop := by
  have total : add64 pos len = pos + len := add64_of_lt (by omega)
  simp only [endOfRead, total]
  by_cases fits : pos + len < 2 ^ 31
  · have int : s32 (pos + len) = (pos + len : Nat) := s32_of_lt fits
    have word : ofInt64 (pos + len : Nat) = pos + len := ofInt64_of_lt (by omega)
    rw [int, word]
    by_cases whole : pos + len ≤ size
    · rw [if_neg (by omega)]
      omega
    · rw [if_pos (by omega), s32_of_lt (by omega)]
      omega
  · have wrapped : ofInt64 (s32 (pos + len)) = 2 ^ 64 - 2 ^ 32 + (pos + len) := by
      unfold ofInt64 s32
      omega
    rw [if_pos (by rw [wrapped]; omega), s32_of_lt (by omega)]
    omega

/-- The outcome of a read when the walk starts and the loop ends. -/
theorem xfsReadData_of_loop {pos len size stop : Nat} (remote : inode.format ≠ .local)
    (within : pos ≤ size) (short : len < 2 ^ 31) (ends : stop = min (pos + len) size)
    (near : stop < 2 ^ 31) (starts : initExtents g d fuel inode w = some w') {mem : Bytes}
    (looped : readLoop g d inode stop fuel w' ⟨pos, len, 2 ^ 64 - 1, 0, mem⟩ = some p) :
    xfsReadData g d fuel inode w ⟨pos, size⟩ len mem =
      some ⟨s32 (add64 p.pos (-(pos : Int))), p.pos, p.mem⟩ := by
  have start : s32 pos = pos := s32_of_lt (by omega)
  simp only [xfsReadData, if_neg remote, starts, endOfRead_eq within short ends near, looped, start,
    Option.bind_eq_bind, Option.bind_some]
  rfl

end Yaboot.Xfs
