import Yaboot.Xfs.ReadProofs

/-! A request to `xfs_read_data`, and what the loop does for it with an extent at the
position, with a run of extents, and with the holes behind and in front of the
position. -/
namespace Yaboot.Xfs
open Buffer Word

/-! ### Requests -/

/-- The bytes filled for extents that lie behind a hole in front of the position:
for each the distance of its start from the end of the run before the hole. -/
def strides (g : Geometry) (stop : Nat) (xads : List Xad) : Nat :=
  (xads.map fun e => (e.offset - stop) * g.bsize).sum

theorem strides_pos (g : Geometry) {xads : List Xad} (gap : ∀ e ∈ xads, stop < e.offset)
    (some_one : xads ≠ []) : 0 < strides g stop xads := by
  cases xads with
  | nil => exact absurd rfl some_one
  | cons e rest =>
    have first : 0 < (e.offset - stop) * g.bsize :=
      Nat.mul_pos (Nat.sub_pos_of_lt (gap e (by simp))) g.bsize_pos
    exact Nat.add_pos_left first _

/-- A request for the bytes from `start` up to `asked`. The file has those up to
`stop`. -/
structure Span where
  g : Geometry
  d : Disk
  extents : List Xad
  start : Nat
  stop : Nat
  asked : Nat
  mem : Bytes
  holds : d.Holds g
  mapped : Mapped g extents
  start_le : start ≤ stop
  stop_le : stop ≤ asked
  stop_lt : stop < 2 ^ 31
  short : asked < start + 2 ^ 31

namespace Span

def content (r : Span) : Bytes := fileByte r.g r.d r.extents

/-- The start of the loop, once it has seen an extent that ends with this block. -/
def starting (r : Span) (prev : Nat) : Progress :=
  ⟨r.start, (r.asked - r.start : Nat), prev, 0, r.mem⟩

@[simp]
theorem starting_pos (r : Span) (prev : Nat) : (r.starting prev).pos = r.start := rfl

@[simp]
theorem starting_endofprev (r : Span) (prev : Nat) : (r.starting prev).endofprev = prev := rfl

def begun (r : Span) : Progress := r.starting (2 ^ 64 - 1)

/-- The loop over some of the extents. -/
def loop (r : Span) (xads : List Xad) (p : Progress) : Progress := readList r.g r.d r.stop xads p

theorem loop_cons (r : Span) (e : Xad) (rest : List Xad) (running : 0 < p.len) :
    r.loop (e :: rest) p = r.loop rest (readExtent r.g r.d r.stop e p) := if_pos running

theorem loop_done (r : Span) (xads : List Xad) (none : p.len ≤ 0) : r.loop xads p = p :=
  readList_done xads none

/-- So far the loop handed over what it should. -/
structure Reading (r : Span) (p : Progress) : Prop where
  delivered : Delivered r.content r.mem p.mem r.start p.buf
  place : p.pos = r.start + p.buf
  within : p.pos ≤ r.stop
  left : p.len = (r.asked - p.pos : Nat)

theorem starting_reading (r : Span) (prev : Nat) : r.Reading (r.starting prev) :=
  ⟨⟨Copied.none _ _ _, Kept.refl _ _⟩, rfl, r.start_le, rfl⟩

theorem begun_reading (r : Span) : r.Reading r.begun := r.starting_reading _

theorem Reading.take {r : Span} (reading : Reading r p) (fits : n ≤ r.stop - p.pos)
    (same : ∀ i < n, src i = r.content (p.pos + i)) : Reading r (p.take n n src) := by
  have place := reading.place
  have within := reading.within
  have more := r.stop_le
  have bound := r.stop_lt
  rw [take_eq p reading.left (by omega)]
  refine ⟨⟨?_, reading.delivered.kept.extend src n⟩, ?_, ?_, ?_⟩
  · exact reading.delivered.copied.extend (by rwa [← place])
  · dsimp only
    omega
  · dsimp only
    omega
  · dsimp only
    omega

theorem Reading.running {r : Span} (reading : Reading r p) (more : p.pos < r.asked) :
    0 < p.len := by
  rw [reading.left]
  omega

theorem Reading.left_lt {r : Span} (reading : Reading r p) : r.asked - p.pos < 2 ^ 31 := by
  have short := r.short
  have place := reading.place
  omega

/-- The loop after it has filled so many bytes with zeros. -/
def filled (p : Progress) (n : Nat) : Progress :=
  { p with mem := blit p.mem p.buf n fun _ => 0, buf := p.buf + n, len := p.len - n, pos := p.pos + n }

theorem filled_zero (p : Progress) : filled p 0 = p := by
  simp [filled]

theorem filled_filled (p : Progress) (n k : Nat) : filled (filled p n) k = filled p (n + k) := by
  unfold filled
  rw [blit_blit]
  simp only [ite_self, Nat.add_assoc, Progress.mk.injEq, true_and, and_true]
  omega

/-- Where the loop stands and what is left, however far it went. -/
structure Standing (r : Span) (p : Progress) : Prop where
  place : p.pos = r.start + p.buf
  left : p.len = (r.asked : Int) - p.pos

theorem Reading.standing {r : Span} (reading : Reading r p) : r.Standing p :=
  ⟨reading.place, by
    have left := reading.left
    have within := reading.within
    have more := r.stop_le
    omega⟩

theorem standing_filled {r : Span} (standing : r.Standing p) (n : Nat) :
    r.Standing (filled p n) := by
  have place := standing.place
  have left := standing.left
  constructor <;> dsimp only [filled] <;> omega

/-- Zeros handed over for a part of a hole are right. -/
theorem Reading.zeros {r : Span} (reading : Reading r p) (fits : n ≤ r.stop - p.pos)
    (hole : ∀ i < n, r.content (p.pos + i) = 0) : Reading r (filled p n) := by
  have left := reading.left
  have within := reading.within
  have bound := r.stop_lt
  have taken : Reading r (p.take n n fun _ => 0) :=
    reading.take fits fun i before => (hole i before).symm
  rwa [take_eq p left (by omega), ← left] at taken

/-- A round at a gap fills zeros, wherever the position is: all that is left when the
file ends in front of the extent, or else the width of the gap. -/
theorem gap_step {r : Span} {e : Xad} {p : Progress} (standing : r.Standing p)
    (known : e ∈ r.extents) (running : p.pos < r.asked) (misses : ¬ e.Covers (p.pos / r.g.bsize))
    (gap : p.endofprev < e.offset) : readExtent r.g r.d r.stop e p =
      filled p (quota r.stop (e.offset * r.g.bsize) (r.asked - p.pos)
        ((e.offset - p.endofprev) * r.g.bsize)) := by
  have place := standing.place
  have left := standing.left
  have bound := r.stop_lt
  have short := r.short
  have within := r.start_le
  have narrow : (e.offset - p.endofprev) * r.g.bsize ≤ e.offset * r.g.bsize :=
    Nat.mul_le_mul_right _ (Nat.sub_le _ _)
  have small : quota r.stop (e.offset * r.g.bsize) (r.asked - p.pos)
      ((e.offset - p.endofprev) * r.g.bsize) < 2 ^ 31 := by
    unfold quota
    split <;> omega
  rw [readExtent_gap (r.mapped.low e known) misses gap (l := r.asked - p.pos) (by omega) (by omega)
    bound, take_eq p (l := r.asked - p.pos) (by omega) (by omega), filled]
  congr 1
  omega

/-- A round inside an extent hands over its bytes, up to the end of the extent. Up
to the end of the request it does so only where the file goes on that far. -/
theorem Reading.covered {r : Span} (reading : Reading r p) (known : e ∈ r.extents)
    (after : e.offset * r.g.bsize ≤ p.pos) (inside : p.pos < (e.offset + e.len) * r.g.bsize) :
    ∃ q, readExtent r.g r.d r.stop e p = q ∧ q.endofprev = e.offset + e.len ∧
      ((e.offset + e.len) * r.g.bsize < r.stop →
        q.pos = (e.offset + e.len) * r.g.bsize ∧ Reading r q) ∧
      (r.stop ≤ (e.offset + e.len) * r.g.bsize →
        q.pos = r.asked ∧ q.len = 0 ∧ (r.asked = r.stop → Reading r q)) := by
  have bound := r.stop_lt
  have within := reading.within
  have more := r.stop_le
  have small := reading.left_lt
  have covers : e.Covers (p.pos / r.g.bsize) := (covers_div_iff r.g e p.pos).mpr ⟨after, inside⟩
  have same : ∀ i < (e.offset + e.len) * r.g.bsize - p.pos,
      readDiskBlock r.d (fsb2daddr r.g e.start) (p.pos - e.offset * r.g.bsize) i =
        r.content (p.pos + i) := by
    intro i before
    have limit := blockAddress_end r.holds (r.mapped.group e known) (r.mapped.inside e known)
    have near : p.pos - e.offset * r.g.bsize < e.len * r.g.bsize := by
      rw [Nat.add_mul] at inside
      omega
    rw [content, fileByte_covered r.holds r.mapped known (by omega) (by omega),
      readDiskBlock_eq (r.mapped.group e known) (by omega)]
    congr 1
    omega
  rw [readExtent_covers (r.mapped.low e known) covers reading.left (by omega) bound]
  refine ⟨_, rfl, rfl, fun early => ?_, fun last => ?_⟩
  · rw [quota, if_neg (by omega)]
    have taken := reading.take (n := (e.offset + e.len) * r.g.bsize - p.pos) (by omega) same
    refine ⟨?_, taken.delivered, taken.place, taken.within, taken.left⟩
    rw [take_eq p reading.left (by omega)]
    dsimp only
    omega
  · rw [quota, if_pos last]
    have moved := take_eq p reading.left (n := r.asked - p.pos) (by omega)
      (readDiskBlock r.d (fsb2daddr r.g e.start) (p.pos - e.offset * r.g.bsize))
    refine ⟨?_, ?_, fun whole => ?_⟩
    · rw [moved]
      dsimp only
      omega
    · rw [moved]
      dsimp only
      omega
    · have taken := reading.take (n := r.asked - p.pos) (by omega) fun i before =>
        same i (by omega)
      exact ⟨taken.delivered, taken.place, taken.within, taken.left⟩

/-- The loop reads the part of a run that is wanted and arrives behind it. -/
theorem Reading.run {r : Span} {xads : List Xad} (sub : ∀ e ∈ xads, e ∈ r.extents)
    (reading : Reading r p) (after : v * r.g.bsize ≤ p.pos) (joined : v ≤ p.endofprev)
    (more : p.pos < r.asked) :
    (r.stop ≤ (Xfs.run v xads).1 * r.g.bsize → p.pos < (Xfs.run v xads).1 * r.g.bsize →
        (r.loop xads p).pos = r.asked ∧ (r.asked = r.stop → Reading r (r.loop xads p))) ∧
      ((Xfs.run v xads).1 * r.g.bsize < r.stop →
        ∃ q, r.loop xads p = r.loop (Xfs.run v xads).2 q ∧ Reading r q ∧
          q.pos = max p.pos ((Xfs.run v xads).1 * r.g.bsize) ∧
          (q.endofprev = (Xfs.run v xads).1 ∨ q = p ∧ (Xfs.run v xads).1 = v)) := by
  induction xads generalizing v p with
  | nil =>
    simp only [Xfs.run]
    refine ⟨fun _ inside => ?_, fun _ => ⟨p, rfl, reading, ?_, .inr ⟨rfl, trivial⟩⟩⟩ <;> omega
  | cons e rest ih =>
    have behind := fun f member => sub f (List.mem_cons_of_mem e member)
    have known := sub e (by simp)
    have far := r.stop_le
    have settle : ∀ {q q' : Progress}, (q'.endofprev = (Xfs.run (e.offset + e.len) rest).1 ∨
        q' = q ∧ (Xfs.run (e.offset + e.len) rest).1 = e.offset + e.len) →
        q.endofprev = e.offset + e.len →
        q'.endofprev = (Xfs.run (e.offset + e.len) rest).1 := by
      rintro q q' (prev | ⟨rfl, stays⟩) start
      · exact prev
      · rw [start, stays]
    by_cases starts : e.offset = v
    · subst starts
      have next : (e.offset + e.len) * r.g.bsize ≤
          (Xfs.run (e.offset + e.len) rest).1 * r.g.bsize :=
        Nat.mul_le_mul_right _ (le_run (e.offset + e.len) rest)
      simp only [Xfs.run, ↓reduceIte, r.loop_cons e rest (reading.running more)]
      by_cases inside : p.pos < (e.offset + e.len) * r.g.bsize
      · obtain ⟨q, read, prev, early, last⟩ := reading.covered known after inside
        rw [read]
        by_cases ends : r.stop ≤ (e.offset + e.len) * r.g.bsize
        · obtain ⟨moved, done, taken⟩ := last ends
          rw [r.loop_done rest (by omega)]
          exact ⟨fun _ _ => ⟨moved, taken⟩, fun short => by omega⟩
        · obtain ⟨moved, taken⟩ := early (by omega)
          obtain ⟨whole, beyond⟩ := ih behind taken (by omega) prev.ge (by omega)
          refine ⟨fun through _ => whole through (by omega), fun short => ?_⟩
          obtain ⟨q', same, reading', moved', prev'⟩ := beyond short
          refine ⟨q', same, reading', ?_, .inl (settle prev' prev)⟩
          clear beyond
          omega
      · have misses := not_covers_div r.g e (.inr (Nat.le_of_not_lt inside))
        rw [readExtent_skip (r.mapped.low e known) misses joined]
        have kept : Reading r { p with endofprev := e.offset + e.len } :=
          ⟨reading.delivered, reading.place, reading.within, reading.left⟩
        obtain ⟨whole, beyond⟩ := ih behind kept (by dsimp only; omega) (Nat.le_refl _) more
        refine ⟨whole, fun short => ?_⟩
        obtain ⟨q', same, reading', moved', prev'⟩ := beyond short
        exact ⟨q', same, reading', moved', .inl (settle prev' rfl)⟩
    · simp only [Xfs.run, if_neg starts]
      refine ⟨fun _ inside => ?_, fun _ => ⟨p, rfl, reading, ?_, .inr ⟨rfl, trivial⟩⟩⟩ <;> omega

/-- A run the position lies in front of, or behind, is passed over. -/
theorem loop_outside {r : Span} {xads : List Xad} (sub : ∀ e ∈ xads, e ∈ r.extents)
    (running : 0 < p.len) (joined : v ≤ p.endofprev)
    (outside : p.pos < v * r.g.bsize ∨ (Xfs.run v xads).1 * r.g.bsize ≤ p.pos) :
    ∃ prev, r.loop xads p = r.loop (Xfs.run v xads).2 { p with endofprev := prev } ∧
      (prev = (Xfs.run v xads).1 ∨ prev = p.endofprev ∧ (Xfs.run v xads).1 = v) := by
  induction xads generalizing v p with
  | nil => exact ⟨p.endofprev, rfl, .inr ⟨rfl, rfl⟩⟩
  | cons e rest ih =>
    have behind := fun f member => sub f (List.mem_cons_of_mem e member)
    by_cases starts : e.offset = v
    · subst starts
      rw [Xfs.run, if_pos rfl] at outside ⊢
      have stop := Nat.mul_le_mul_right r.g.bsize (le_run (e.offset + e.len) rest)
      have grown : e.offset * r.g.bsize ≤ (e.offset + e.len) * r.g.bsize :=
        Nat.mul_le_mul_right _ (Nat.le_add_right _ _)
      have misses : ¬ e.Covers (p.pos / r.g.bsize) := not_covers_div r.g e (by omega)
      rw [r.loop_cons e rest running, readExtent_skip (r.mapped.low e (sub e (by simp))) misses joined]
      obtain ⟨prev, same, settled⟩ := ih (v := e.offset + e.len) behind
        (p := { p with endofprev := e.offset + e.len }) running (Nat.le_refl _)
        (outside.imp_left fun before => by dsimp only; omega)
      refine ⟨prev, same, .inl ?_⟩
      rcases settled with settled | ⟨settled, stays⟩
      · exact settled
      · rw [settled, stays]
    · rw [Xfs.run, if_neg starts]
      exact ⟨p.endofprev, rfl, .inr ⟨rfl, rfl⟩⟩

/-- Where the request ends in the hole at the position, the extent behind the hole
has the whole rest filled with zeros. -/
theorem Reading.fill {r : Span} (reading : Reading r p) (known : f ∈ r.extents)
    (gap : p.endofprev < f.offset) (ahead : p.pos < f.offset * r.g.bsize) (more : p.pos < r.asked)
    (ends : r.stop ≤ f.offset * r.g.bsize) (rest : List Xad) :
    (r.loop (f :: rest) p).pos = r.asked ∧
      (r.asked = r.stop → (∀ i, p.pos ≤ i → i < r.stop → r.content i = 0) →
        Reading r (r.loop (f :: rest) p)) := by
  have bound := r.stop_lt
  have small := reading.left_lt
  have misses := not_covers_div r.g f (.inl ahead)
  have within := reading.within
  have left := reading.left
  rw [r.loop_cons f rest (reading.running more), gap_step reading.standing known more misses gap,
    quota, if_pos ends, r.loop_done rest (by dsimp only [filled]; omega)]
  refine ⟨by dsimp only [filled]; omega, fun whole hole => ?_⟩
  exact reading.zeros (by omega) fun i before => hole _ (by omega) (by omega)

/-! ### Holes in front of the position -/

/-- A round for an extent that lies behind a hole in front of the position. -/
theorem stride_step {r : Span} {e : Xad} {p : Progress} (known : e ∈ r.extents)
    (gap : p.endofprev < e.offset) (passed : (e.offset + e.len) * r.g.bsize ≤ r.start)
    (standing : r.Standing p) (more : p.pos < r.asked) :
    readExtent r.g r.d r.stop e p = filled p ((e.offset - p.endofprev) * r.g.bsize) := by
  have place := standing.place
  have within := r.start_le
  have size := r.g.bsize_pos
  have block := r.mapped.some_block e known
  have width : 0 < e.len * r.g.bsize := Nat.mul_pos block size
  have ends : e.offset * r.g.bsize + e.len * r.g.bsize = (e.offset + e.len) * r.g.bsize :=
    (Nat.add_mul _ _ _).symm
  have misses : ¬ e.Covers (p.pos / r.g.bsize) := not_covers_div r.g e (.inr (by omega))
  rw [gap_step standing known more misses gap, quota, if_neg (by omega)]

/-- The extents behind a hole in front of the position have zeros filled at the
position, until nothing is left to be read. -/
theorem loop_strides {r : Span} {xads : List Xad} {p : Progress} (more : List Xad)
    (sub : ∀ e ∈ xads, e ∈ r.extents) (gap : ∀ e ∈ xads, p.endofprev < e.offset)
    (passed : ∀ e ∈ xads, (e.offset + e.len) * r.g.bsize ≤ r.start) (standing : r.Standing p)
    (within : p.pos ≤ r.asked) :
    (p.pos + strides r.g p.endofprev xads ≤ r.asked →
        r.loop (xads ++ more) p = r.loop more (filled p (strides r.g p.endofprev xads))) ∧
      (r.asked < p.pos + strides r.g p.endofprev xads →
        ∃ front, front <+: xads ∧ r.asked ≤ p.pos + strides r.g p.endofprev front ∧
          r.loop (xads ++ more) p = filled p (strides r.g p.endofprev front)) := by
  induction xads generalizing p with
  | nil =>
    simp only [strides, List.map_nil, List.sum_nil, filled_zero, List.nil_append]
    exact ⟨fun _ => trivial, fun beyond => by omega⟩
  | cons e rest ih =>
    have left := standing.left
    obtain ⟨n, stride⟩ : ∃ n, n = (e.offset - p.endofprev) * r.g.bsize := ⟨_, rfl⟩
    have total (xads : List Xad) :
        strides r.g p.endofprev (e :: xads) = n + strides r.g p.endofprev xads := by
      rw [stride]
      rfl
    have first := gap e (by simp)
    have positive : 0 < n := by
      rw [stride]
      exact Nat.mul_pos (by omega) r.g.bsize_pos
    rw [total]
    by_cases running : p.pos < r.asked
    · have step := stride_step (sub e (by simp)) first (passed e (by simp)) standing running
      rw [← stride] at step
      rw [List.cons_append, r.loop_cons e _ (by rw [left]; omega), step]
      by_cases over_ : p.pos + n ≤ r.asked
      · have next := ih (p := filled p n) (fun f later => sub f (List.mem_cons_of_mem e later))
          (fun f later => gap f (List.mem_cons_of_mem e later))
          (fun f later => passed f (List.mem_cons_of_mem e later))
          (standing_filled standing n) over_
        simp only [filled_filled] at next
        rw [show (filled p n).endofprev = p.endofprev from rfl,
          show (filled p n).pos = p.pos + n from rfl] at next
        refine ⟨fun fits => next.1 (by omega), fun beyond => ?_⟩
        obtain ⟨front, part, enough, same⟩ := next.2 (by omega)
        refine ⟨e :: front, List.cons_prefix_cons.mpr ⟨rfl, part⟩, ?_, ?_⟩
        · rw [total]
          omega
        · rw [same, total]
      · refine ⟨fun fits => by omega, fun _ => ⟨[e], ⟨rest, rfl⟩, ?_, ?_⟩⟩
        · rw [total]
          omega
        · rw [r.loop_done _ (by dsimp only [filled]; omega), total]
          rfl
    · refine ⟨fun fits => by omega, fun _ => ⟨[], List.nil_prefix, ?_, ?_⟩⟩
      · omega
      · rw [r.loop_done _ (by omega)]
        exact (filled_zero p).symm

/-- From inside an extent the loop reads its run, up to the end of the request or
to the hole behind the run. -/
theorem Reading.reach {r : Span} {e : Xad} {rest : List Xad}
    (sub : ∀ f ∈ e :: rest, f ∈ r.extents) (reading : Reading r p)
    (after : e.offset * r.g.bsize ≤ p.pos) (inside : p.pos < (e.offset + e.len) * r.g.bsize)
    (more : p.pos < r.asked) :
    (r.stop ≤ (Xfs.run e.offset (e :: rest)).1 * r.g.bsize →
        (r.loop (e :: rest) p).pos = r.asked ∧
          (r.asked = r.stop → Reading r (r.loop (e :: rest) p))) ∧
      ((Xfs.run e.offset (e :: rest)).1 * r.g.bsize < r.stop →
        ∃ q, r.loop (e :: rest) p = r.loop (Xfs.run e.offset (e :: rest)).2 q ∧ Reading r q ∧
          q.pos = (Xfs.run e.offset (e :: rest)).1 * r.g.bsize ∧
          q.endofprev = (Xfs.run e.offset (e :: rest)).1) := by
  have far := r.stop_le
  have next : (e.offset + e.len) * r.g.bsize ≤
      (Xfs.run (e.offset + e.len) rest).1 * r.g.bsize :=
    Nat.mul_le_mul_right _ (le_run (e.offset + e.len) rest)
  rw [Xfs.run, if_pos rfl, r.loop_cons e rest (reading.running more)]
  obtain ⟨q, read, prev, early, last⟩ := reading.covered (sub e (by simp)) after inside
  rw [read]
  by_cases ends : r.stop ≤ (e.offset + e.len) * r.g.bsize
  · obtain ⟨moved, done, taken⟩ := last ends
    rw [r.loop_done rest (by omega)]
    exact ⟨fun _ => ⟨moved, taken⟩, fun short => by omega⟩
  · obtain ⟨moved, taken⟩ := early (by omega)
    obtain ⟨whole, beyond⟩ := taken.run (v := e.offset + e.len)
      (fun f member => sub f (List.mem_cons_of_mem e member)) (by omega) prev.ge (by omega)
    refine ⟨fun through => whole through (by omega), fun short => ?_⟩
    obtain ⟨q', same, reading', moved', prev'⟩ := beyond short
    refine ⟨q', same, reading', by clear beyond; omega, ?_⟩
    rcases prev' with settled | ⟨rfl, stays⟩
    · exact settled
    · rw [prev, stays]

end Span

end Yaboot.Xfs
