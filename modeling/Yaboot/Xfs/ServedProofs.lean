import Mathlib.Data.List.TakeWhile
import Yaboot.Xfs.SpanProofs

/-! Which requests `xfs_read_data` serves. The loop takes the extents of a run as
they come and fills the hole behind it, but the extent behind a hole is consumed
with the hole, a hole in front of the first extent is never seen, and a hole in
front of the position is filled at the position. -/
namespace Yaboot.Xfs
open Buffer Word

/-! ### Which requests are served -/

/-- The extents that end in front of a position, and those that do not. -/
def passed (g : Geometry) (pos : Nat) (xads : List Xad) : List Xad :=
  xads.takeWhile fun e => (e.offset + e.len) * g.bsize ≤ pos

def ahead (g : Geometry) (pos : Nat) (xads : List Xad) : List Xad :=
  xads.dropWhile fun e => (e.offset + e.len) * g.bsize ≤ pos

/-- The run of extents that starts with this one reaches the end of the request, or
the end falls into the hole behind the run and an extent follows the hole. -/
def Reaches (g : Geometry) (stop : Nat) (e : Xad) (rest : List Xad) : Prop :=
  stop ≤ (run e.offset (e :: rest)).1 * g.bsize ∨
    ∃ f ∈ (run e.offset (e :: rest)).2.head?, stop ≤ f.offset * g.bsize

/-- Where a request starts when the extents between the first run and the position
have had their zeros filled at the position. -/
def moved (g : Geometry) (pos : Nat) (first : Nat × List Xad) : Nat :=
  pos + strides g first.1 (passed g pos first.2)

/-- The requests from `pos` up to `stop` that the extents of a file let the loop
serve. -/
inductive Served (g : Geometry) : List Xad → Nat → Nat → Prop
  /-- Nothing is asked for. -/
  | nothing : Served g extents pos pos
  /-- The request lies in front of all extents, and there is a hole between those. -/
  | front (before : stop ≤ e.offset * g.bsize) (hole : (run e.offset (e :: rest)).2 ≠ []) :
      Served g (e :: rest) pos stop
  /-- It starts in the first run. -/
  | first (after : e.offset * g.bsize ≤ pos) (inside : pos < (run e.offset (e :: rest)).1 * g.bsize)
      (reaches : Reaches g stop e rest) : Served g (e :: rest) pos stop
  /-- It starts behind the first run, in a hole that it does not leave, and is made
  up by the zeros filled for some of the extents passed. -/
  | made (behind : (run e.offset (e :: rest)).1 * g.bsize ≤ pos)
      (some_of : passing <+: passed g pos (run e.offset (e :: rest)).2)
      (whole : pos + strides g (run e.offset (e :: rest)).1 passing = stop)
      (clear : ∀ f ∈ (ahead g pos (run e.offset (e :: rest)).2).head?, stop ≤ f.offset * g.bsize) :
      Served g (e :: rest) pos stop
  /-- It starts there, and an extent follows the hole. -/
  | hole (behind : (run e.offset (e :: rest)).1 * g.bsize ≤ pos)
      (fits : moved g pos (run e.offset (e :: rest)) ≤ stop)
      (next : (ahead g pos (run e.offset (e :: rest)).2).head? = some f)
      (ends : stop ≤ f.offset * g.bsize) : Served g (e :: rest) pos stop
  /-- It starts behind the first run, in an extent when no other was passed, or so
  far in front of one as the zeros filled for those passed. -/
  | data (behind : (run e.offset (e :: rest)).1 * g.bsize ≤ pos)
      (fits : moved g pos (run e.offset (e :: rest)) ≤ stop)
      (next : ahead g pos (run e.offset (e :: rest)).2 = f :: later)
      (there : f.offset * g.bsize ≤ pos ∧ passed g pos (run e.offset (e :: rest)).2 = [] ∨
        f.offset * g.bsize = moved g pos (run e.offset (e :: rest)))
      (reaches : Reaches g stop f later) : Served g (e :: rest) pos stop

/-- The positions from which the loop comes to the end of a file of `size` bytes
and finds nothing to go on with, however much is asked for. -/
inductive Spent (g : Geometry) : List Xad → Nat → Nat → Prop
  /-- There are no extents. -/
  | empty : Spent g [] size size
  /-- The end lies in front of all extents, and there is no hole between those. -/
  | front (before : size < e.offset * g.bsize) (joined : (run e.offset (e :: rest)).2 = []) :
      Spent g (e :: rest) size size
  /-- All extents were passed, and the zeros filled for them lead to the end. -/
  | behind (behind : (run e.offset (e :: rest)).1 * g.bsize ≤ pos)
      (last : ahead g pos (run e.offset (e :: rest)).2 = [])
      (whole : moved g pos (run e.offset (e :: rest)) = size) : Spent g (e :: rest) pos size

/-! ### Serving them -/

theorem passed_append_ahead (g : Geometry) (pos : Nat) (xads : List Xad) :
    passed g pos xads ++ ahead g pos xads = xads := List.takeWhile_append_dropWhile

theorem passed_ends (member : e ∈ passed g pos xads) : (e.offset + e.len) * g.bsize ≤ pos := by
  unfold passed at member
  simpa using List.mem_takeWhile_imp member

theorem ahead_head (next : (ahead g pos xads).head? = some f) :
    pos < (f.offset + f.len) * g.bsize := by
  have stop := List.head?_dropWhile_not
    (fun e : Xad => decide ((e.offset + e.len) * g.bsize ≤ pos)) xads
  unfold ahead at next
  rw [next] at stop
  simpa using stop

theorem content_zero {g : Geometry} {d : Disk} {extents : List Xad}
    (clear : ∀ e ∈ extents, (e.offset + e.len) * g.bsize ≤ i ∨ i < e.offset * g.bsize) :
    fileByte g d extents i = 0 := by
  apply fileByte_hole
  exact fun e member => not_covers_div g e (clear e member).symm

namespace Span

/-- Between two parts of the extents the file has a hole. -/
theorem hole_content {r : Span} (split : r.extents = front ++ more)
    (ends : ∀ e ∈ front, (e.offset + e.len) * r.g.bsize ≤ i)
    (starts : ∀ f ∈ more.head?, i < f.offset * r.g.bsize) : r.content i = 0 := by
  refine content_zero fun e member => ?_
  rw [split] at member
  rcases List.mem_append.mp member with inFront | inMore
  · exact .inl (ends e inFront)
  · have sorted := r.mapped.sorted
    rw [split] at sorted
    cases more with
    | nil => cases inMore
    | cons f later =>
      have first := starts f rfl
      have le := Nat.mul_le_mul_right r.g.bsize
        (head_le (List.pairwise_append.mp sorted).2.1 inMore)
      exact .inr (by omega)

/-- Zeros filled at the position are right where a hole goes on so far. -/
theorem filled_reading {r : Span} {n : Nat} (prev : Nat) (fits : r.start + n ≤ r.stop)
    (hole : ∀ i, r.start ≤ i → i < r.start + n → r.content i = 0) :
    r.Reading (filled (r.starting prev) n) := by
  have here : (r.starting prev).pos = r.start := rfl
  exact (r.starting_reading prev).zeros (by omega) fun i before => hole _ (by omega) (by omega)

section

variable {r : Span} {e : Xad} {rest : List Xad} (list : r.extents = e :: rest)

include list

/-- The first run ends behind its start, and a gap follows it. -/
theorem first_run : e.offset < (Xfs.run e.offset (e :: rest)).1 ∧ e.offset ≤ 2 ^ 64 - 1 ∧
    (∃ front, r.extents = front ++ (Xfs.run e.offset (e :: rest)).2 ∧
      ∀ f ∈ front, f.offset + f.len ≤ (Xfs.run e.offset (e :: rest)).1) ∧
    ∀ f ∈ (Xfs.run e.offset (e :: rest)).2, (Xfs.run e.offset (e :: rest)).1 < f.offset := by
  have mapped := r.mapped
  rw [list] at mapped
  have low := mapped.low e (by simp)
  have le := Nat.le_mul_of_pos_right (e.offset + e.len) r.g.bsize_pos
  have split := run_split mapped.sorted fun _ => head_le mapped.sorted
  rw [list]
  exact ⟨lt_run (mapped.some_block e (by simp)) rest, by omega, split⟩

/-- A first run that does not hold the position is passed over. -/
theorem loop_begun (more : r.start < r.asked)
    (outside : r.start < e.offset * r.g.bsize ∨
      (Xfs.run e.offset (e :: rest)).1 * r.g.bsize ≤ r.start) :
    r.loop r.extents r.begun = r.loop (Xfs.run e.offset (e :: rest)).2
      (r.starting (Xfs.run e.offset (e :: rest)).1) := by
  obtain ⟨grown, small, -, -⟩ := r.first_run list
  have sub : ∀ f ∈ e :: rest, f ∈ r.extents := fun f member => by rwa [list]
  obtain ⟨prev, same, settled⟩ := loop_outside (r := r) (v := e.offset) sub
    (r.begun_reading.running more) small outside
  rw [list, same, settled.resolve_right fun stays => by omega]
  rfl

/-- Behind the first run, the zeros filled for the extents passed are the next the
loop hands over. -/
theorem loop_passed (more : r.start < r.asked)
    (behind : (Xfs.run e.offset (e :: rest)).1 * r.g.bsize ≤ r.start) :
    (moved r.g r.start (Xfs.run e.offset (e :: rest)) ≤ r.asked →
        r.loop r.extents r.begun = r.loop (ahead r.g r.start (Xfs.run e.offset (e :: rest)).2)
          (filled (r.starting (Xfs.run e.offset (e :: rest)).1)
            (strides r.g (Xfs.run e.offset (e :: rest)).1
              (passed r.g r.start (Xfs.run e.offset (e :: rest)).2)))) ∧
      (r.asked < moved r.g r.start (Xfs.run e.offset (e :: rest)) →
        ∃ front, front <+: passed r.g r.start (Xfs.run e.offset (e :: rest)).2 ∧
          r.asked ≤ r.start + strides r.g (Xfs.run e.offset (e :: rest)).1 front ∧
          r.loop r.extents r.begun =
            filled (r.starting (Xfs.run e.offset (e :: rest)).1)
              (strides r.g (Xfs.run e.offset (e :: rest)).1 front)) := by
  obtain ⟨-, -, ⟨front, split, -⟩, gap⟩ := r.first_run list
  rw [r.loop_begun list more (.inr behind)]
  have cut := passed_append_ahead r.g r.start (Xfs.run e.offset (e :: rest)).2
  have known : ∀ f ∈ passed r.g r.start (Xfs.run e.offset (e :: rest)).2,
      f ∈ (Xfs.run e.offset (e :: rest)).2 := fun f member => by
    rw [← cut]
    exact List.mem_append_left _ member
  have through := loop_strides (r := r) (p := r.starting (Xfs.run e.offset (e :: rest)).1)
    (ahead r.g r.start (Xfs.run e.offset (e :: rest)).2)
    (fun f member => by rw [split]; exact List.mem_append_right front (known f member))
    (fun f member => gap f (known f member)) (fun f member => passed_ends member)
    (r.starting_reading _).standing more.le
  rw [cut] at through
  exact through

/-- Up to the extent ahead of the position the file has a hole, when the position is
behind the first run and behind all extents passed. -/
theorem hole_ahead (behind : (Xfs.run e.offset (e :: rest)).1 * r.g.bsize ≤ r.start)
    (after : r.start ≤ i)
    (before : ∀ f ∈ (ahead r.g r.start (Xfs.run e.offset (e :: rest)).2).head?,
      i < f.offset * r.g.bsize) : r.content i = 0 := by
  obtain ⟨-, -, ⟨front, split, ends⟩, -⟩ := r.first_run list
  have cut := passed_append_ahead r.g r.start (Xfs.run e.offset (e :: rest)).2
  have whole : r.extents = (front ++ passed r.g r.start (Xfs.run e.offset (e :: rest)).2) ++
      ahead r.g r.start (Xfs.run e.offset (e :: rest)).2 := by
    rw [List.append_assoc, cut, ← split]
  refine r.hole_content whole (fun f member => ?_) before
  rcases List.mem_append.mp member with inFront | inPassed
  · have le := Nat.mul_le_mul_right r.g.bsize (ends f inFront)
    omega
  · have stop := passed_ends inPassed
    omega

theorem passed_gap : ∀ f ∈ passed r.g r.start (Xfs.run e.offset (e :: rest)).2,
    (Xfs.run e.offset (e :: rest)).1 < f.offset := by
  intro f member
  refine (r.first_run list).2.2.2 f ?_
  rw [← passed_append_ahead r.g r.start (Xfs.run e.offset (e :: rest)).2]
  exact List.mem_append_left _ member

theorem ahead_split : (∃ front, r.extents =
      front ++ ahead r.g r.start (Xfs.run e.offset (e :: rest)).2) ∧
    ∀ f ∈ ahead r.g r.start (Xfs.run e.offset (e :: rest)).2,
      f ∈ r.extents ∧ (Xfs.run e.offset (e :: rest)).1 < f.offset := by
  obtain ⟨-, -, ⟨front, split, -⟩, gap⟩ := r.first_run list
  have cut := passed_append_ahead r.g r.start (Xfs.run e.offset (e :: rest)).2
  have whole : r.extents = (front ++ passed r.g r.start (Xfs.run e.offset (e :: rest)).2) ++
      ahead r.g r.start (Xfs.run e.offset (e :: rest)).2 := by
    rw [List.append_assoc, cut, ← split]
  refine ⟨⟨_, whole⟩, fun f member => ⟨?_, gap f ?_⟩⟩
  · rw [whole]
    exact List.mem_append_right _ member
  · rw [← cut]
    exact List.mem_append_right _ member

end

/-- What the loop does from inside an extent: it reads the run to the end of the
request, or comes to the hole behind it. -/
structure Runs (r : Span) (f : Xad) (later : List Xad) (final : Progress) : Prop where
  through : r.stop ≤ (Xfs.run f.offset (f :: later)).1 * r.g.bsize →
    final.pos = r.asked ∧ (r.asked = r.stop → Reading r final)
  beyond : (Xfs.run f.offset (f :: later)).1 * r.g.bsize < r.stop →
    ∃ q, final = r.loop (Xfs.run f.offset (f :: later)).2 q ∧ Reading r q ∧
      q.pos = (Xfs.run f.offset (f :: later)).1 * r.g.bsize ∧
      q.endofprev = (Xfs.run f.offset (f :: later)).1

/-- The extents behind a run come after a gap, and the gap is a hole. -/
theorem run_hole {r : Span} {f : Xad} {later : List Xad} (split : r.extents = front ++ f :: later) :
    (∃ front, r.extents = front ++ (Xfs.run f.offset (f :: later)).2) ∧
      (∀ x ∈ (Xfs.run f.offset (f :: later)).2, (Xfs.run f.offset (f :: later)).1 < x.offset) ∧
      ∀ i, (Xfs.run f.offset (f :: later)).1 * r.g.bsize ≤ i →
        (∀ x ∈ (Xfs.run f.offset (f :: later)).2.head?, i < x.offset * r.g.bsize) →
          r.content i = 0 := by
  have sorted := r.mapped.sorted
  rw [split] at sorted
  obtain ⟨-, inner, cross⟩ := List.pairwise_append.mp sorted
  obtain ⟨⟨run, whole, ends⟩, gap⟩ := run_split inner fun _ => head_le inner
  have block := r.mapped.some_block f (by rw [split]; simp)
  have grown := lt_run block later
  have parts : r.extents = (front ++ run) ++ (Xfs.run f.offset (f :: later)).2 := by
    rw [List.append_assoc, ← whole, ← split]
  refine ⟨⟨_, parts⟩, gap, fun i after before => ?_⟩
  refine r.hole_content parts (fun x member => ?_) before
  have stop : x.offset + x.len ≤ (Xfs.run f.offset (f :: later)).1 := by
    rcases List.mem_append.mp member with inFront | inRun
    · have apart := cross x inFront f (by simp)
      omega
    · exact ends x inRun
  have le := Nat.mul_le_mul_right r.g.bsize stop
  omega

/-- What reaches the end of the request is read to it. -/
theorem Runs.reaches {r : Span} {f : Xad} {later : List Xad} (runs : r.Runs f later final)
    (split : r.extents = front ++ f :: later) (whole : r.asked = r.stop)
    (reaches : Reaches r.g r.stop f later) : r.Reading final ∧ final.pos = r.stop := by
  by_cases ends : r.stop ≤ (Xfs.run f.offset (f :: later)).1 * r.g.bsize
  · obtain ⟨arrived, reading⟩ := runs.through ends
    exact ⟨reading whole, by omega⟩
  · obtain ⟨q, same, reading, here, prev⟩ := runs.beyond (by omega)
    obtain ⟨x, head, before⟩ := reaches.resolve_left ends
    obtain ⟨⟨front, parts⟩, gap, hole⟩ := r.run_hole split
    rw [same]
    cases tail : (Xfs.run f.offset (f :: later)).2 with
    | nil =>
      rw [tail] at head
      cases head
    | cons y more =>
      rw [tail] at head parts gap hole
      obtain rfl : y = x := Option.some.inj head
      have behind := gap y (by simp)
      have member : y ∈ r.extents := by
        rw [parts]
        simp
      obtain ⟨arrived, filled⟩ := reading.fill member (by omega) (by omega) (by omega) before more
      refine ⟨filled whole fun i after stop => hole i (by omega) fun z first => ?_, by omega⟩
      obtain rfl := Option.some.inj first
      omega

section

variable {r : Span} {e : Xad} {rest : List Xad} (list : r.extents = e :: rest)
  (more : r.start < r.asked)

include list more

/-- In front of all extents the rest of the request is filled with zeros at the
second run. -/
theorem front_fill (before : r.stop ≤ e.offset * r.g.bsize)
    (tail : (Xfs.run e.offset (e :: rest)).2 = f :: later) (early : r.start < e.offset * r.g.bsize) :
    (r.loop r.extents r.begun).pos = r.asked ∧
      (r.asked = r.stop → r.Reading (r.loop r.extents r.begun)) := by
  obtain ⟨-, -, ⟨front, split, -⟩, gap⟩ := r.first_run list
  have known : f ∈ r.extents := by
    rw [split, tail]
    simp
  have sorted := r.mapped.sorted
  rw [list] at sorted
  have first := Nat.mul_le_mul_right r.g.bsize (head_le sorted (list ▸ known))
  obtain ⟨arrived, reading⟩ := (r.starting_reading _).fill known (gap f (by rw [tail]; simp))
    (by dsimp only [starting]; omega) (by dsimp only [starting]; omega) (by omega) later
  rw [r.loop_begun list more (.inl early), tail]
  refine ⟨arrived, fun whole => reading whole fun i after stop => ?_⟩
  refine r.hole_content (List.nil_append r.extents).symm (by simp) fun x head => ?_
  rw [list] at head
  obtain rfl := Option.some.inj head
  omega

/-- From inside the first run the loop reads it. -/
theorem first_runs (after : e.offset * r.g.bsize ≤ r.start)
    (inside : r.start < (Xfs.run e.offset (e :: rest)).1 * r.g.bsize) :
    r.Runs e rest (r.loop r.extents r.begun) := by
  obtain ⟨grown, small, -, -⟩ := r.first_run list
  have sub : ∀ f ∈ e :: rest, f ∈ r.extents := fun f member => by rwa [list]
  obtain ⟨through, beyond⟩ := r.begun_reading.run sub after small more
  have here : r.begun.pos = r.start := rfl
  rw [list]
  refine ⟨fun last => through last inside, fun short => ?_⟩
  obtain ⟨q, same, reading, moved, prev⟩ := beyond short
  refine ⟨q, same, reading, by clear through beyond; omega, ?_⟩
  exact prev.resolve_right fun stays => by omega

/-- Zeros filled for some of the extents passed make up the request. -/
theorem made_reads (behind : (Xfs.run e.offset (e :: rest)).1 * r.g.bsize ≤ r.start)
    (some_of : passing <+: passed r.g r.start (Xfs.run e.offset (e :: rest)).2)
    (total : r.start + strides r.g (Xfs.run e.offset (e :: rest)).1 passing = r.stop)
    (clear : ∀ f ∈ (ahead r.g r.start (Xfs.run e.offset (e :: rest)).2).head?,
      r.stop ≤ f.offset * r.g.bsize) (whole : r.asked = r.stop) :
    r.Reading (r.loop r.extents r.begun) ∧ (r.loop r.extents r.begun).pos = r.stop := by
  obtain ⟨-, -, ⟨front, split, -⟩, gap⟩ := r.first_run list
  obtain ⟨others, parts⟩ := some_of
  have cut := passed_append_ahead r.g r.start (Xfs.run e.offset (e :: rest)).2
  rw [← parts, List.append_assoc] at cut
  have inPassed : ∀ f ∈ passing, f ∈ passed r.g r.start (Xfs.run e.offset (e :: rest)).2 :=
    fun f member => by
      rw [← parts]
      exact List.mem_append_left _ member
  have inTail : ∀ f ∈ passing, f ∈ (Xfs.run e.offset (e :: rest)).2 := fun f member => by
    rw [← cut]
    exact List.mem_append_left _ member
  have through := (loop_strides (r := r) (p := r.starting (Xfs.run e.offset (e :: rest)).1)
    (others ++ ahead r.g r.start (Xfs.run e.offset (e :: rest)).2)
    (fun f member => by rw [split]; exact List.mem_append_right front (inTail f member))
    (fun f member => gap f (inTail f member)) (fun f member => passed_ends (inPassed f member))
    (r.starting_reading _).standing more.le).1
  have here : r.begun.pos = r.start := rfl
  rw [cut, ← r.loop_begun list more (.inr behind)] at through
  simp only [starting_pos, starting_endofprev] at through
  rw [through (by omega), r.loop_done _ (by dsimp only [filled, starting]; omega)]
  refine ⟨r.filled_reading _ (by omega) fun i after before => ?_, total⟩
  exact r.hole_ahead list behind after fun f head => by
    have stop := clear f head
    omega

variable (behind : (Xfs.run e.offset (e :: rest)).1 * r.g.bsize ≤ r.start)
  (fits : moved r.g r.start (Xfs.run e.offset (e :: rest)) ≤ r.stop)

include behind fits

/-- When the zeros filled for the extents passed do not reach the extent ahead, and
the request ends in front of it, the rest is filled with zeros there. -/
theorem hole_fill (next : ahead r.g r.start (Xfs.run e.offset (e :: rest)).2 = f :: later)
    (before : r.stop ≤ f.offset * r.g.bsize)
    (running : moved r.g r.start (Xfs.run e.offset (e :: rest)) < r.asked)
    (early : moved r.g r.start (Xfs.run e.offset (e :: rest)) < f.offset * r.g.bsize) :
    (r.loop r.extents r.begun).pos = r.asked ∧
      (r.asked = r.stop → r.Reading (r.loop r.extents r.begun)) := by
  obtain ⟨known, gap⟩ := (r.ahead_split list).2 f (by rw [next]; simp)
  have same := (r.loop_passed list more behind).1 running.le
  have clear : ∀ i, r.start ≤ i → i < r.stop → r.content i = 0 := fun i after stop =>
    r.hole_ahead list behind after fun x head => by
      rw [next] at head
      obtain rfl := Option.some.inj head
      omega
  have here : r.begun.pos = r.start := rfl
  unfold moved at fits running early
  have reading := r.filled_reading (Xfs.run e.offset (e :: rest)).1 fits
    fun i after before => clear i after (by omega)
  obtain ⟨arrived, whole⟩ := reading.fill known gap (by dsimp only [filled, starting]; omega)
    (by dsimp only [filled, starting]; omega) before later
  rw [same, next]
  exact ⟨arrived, fun through => whole through fun i after => clear i (by
    dsimp only [filled, starting] at after
    omega)⟩

/-- When they lead to the start of the extent ahead, or there are none and the
position is in that extent, its run is read. -/
theorem data_runs (next : ahead r.g r.start (Xfs.run e.offset (e :: rest)).2 = f :: later)
    (running : moved r.g r.start (Xfs.run e.offset (e :: rest)) < r.asked)
    (there : f.offset * r.g.bsize ≤ r.start ∧
        passed r.g r.start (Xfs.run e.offset (e :: rest)).2 = [] ∨
      f.offset * r.g.bsize = moved r.g r.start (Xfs.run e.offset (e :: rest))) :
    r.Runs f later (r.loop r.extents r.begun) := by
  have known : ∀ x ∈ f :: later, x ∈ r.extents := fun x member =>
    ((r.ahead_split list).2 x (by rw [next]; exact member)).1
  have same := (r.loop_passed list more behind).1 running.le
  have inside := ahead_head (congrArg List.head? next)
  have block := r.mapped.some_block f (known f (by simp))
  have width : f.offset * r.g.bsize < (f.offset + f.len) * r.g.bsize :=
    Nat.mul_lt_mul_of_pos_right (by omega) r.g.bsize_pos
  have here : r.begun.pos = r.start := rfl
  have reading := r.filled_reading (Xfs.run e.offset (e :: rest)).1 fits
    fun i after before => r.hole_ahead list behind after fun x head => by
      rw [next] at head
      obtain rfl := Option.some.inj head
      unfold moved at there
      rcases there with ⟨-, none⟩ | there
      · rw [none] at before
        simp [strides] at before
        omega
      · omega
  have start : moved r.g r.start (Xfs.run e.offset (e :: rest)) < (f.offset + f.len) * r.g.bsize ∧
      f.offset * r.g.bsize ≤ moved r.g r.start (Xfs.run e.offset (e :: rest)) := by
    rcases there with ⟨after, none⟩ | there
    · rw [moved, none]
      simp [strides]
      omega
    · omega
  unfold moved at start running
  obtain ⟨through, beyond⟩ := reading.reach known (by dsimp only [filled, starting]; omega)
    (by dsimp only [filled, starting]; omega) (by dsimp only [filled, starting]; omega)
  rw [same, next]
  exact ⟨through, beyond⟩

end

end Span

/-- A request that the extents let the loop serve is served, whatever the disk
holds. -/
theorem Served.reads {r : Span} (served : Served r.g r.extents r.start r.stop)
    (whole : r.asked = r.stop) :
    r.Reading (r.loop r.extents r.begun) ∧ (r.loop r.extents r.begun).pos = r.stop := by
  have within := r.start_le
  have arrives : (r.loop r.extents r.begun).pos = r.asked ∧
      (r.asked = r.stop → r.Reading (r.loop r.extents r.begun)) →
      r.Reading (r.loop r.extents r.begun) ∧ (r.loop r.extents r.begun).pos = r.stop :=
    fun both => ⟨both.2 whole, by omega⟩
  by_cases none : r.stop ≤ r.start
  · rw [r.loop_done _ (by dsimp only [Span.begun, Span.starting]; omega)]
    exact ⟨r.begun_reading, by dsimp only [Span.begun, Span.starting]; omega⟩
  have more : r.start < r.asked := by omega
  obtain ⟨start, begins⟩ : ∃ start, start = r.start := ⟨_, rfl⟩
  obtain ⟨stop, ends⟩ : ∃ stop, stop = r.stop := ⟨_, rfl⟩
  obtain ⟨extents, list⟩ : ∃ extents, extents = r.extents := ⟨_, rfl⟩
  rw [← begins, ← ends, ← list] at served
  cases served with
  | nothing => omega
  | front before hole =>
    subst ends
    obtain ⟨f, later, tail⟩ := List.exists_cons_of_ne_nil hole
    exact arrives (r.front_fill list.symm more before tail (by omega))
  | first after inside reaches =>
    subst begins ends
    have split : r.extents = [] ++ _ :: _ := list.symm
    exact (r.first_runs list.symm more after inside).reaches split whole reaches
  | made behind some_of total clear =>
    subst begins ends
    exact r.made_reads list.symm more behind some_of total clear whole
  | hole behind fits next before =>
    subst begins ends
    rename_i e rest f
    obtain ⟨later, next⟩ := List.head?_eq_some_iff.mp next
    by_cases arrived : moved r.g r.start (run e.offset (e :: rest)) = r.stop
    · refine r.made_reads list.symm more behind List.prefix_rfl arrived (fun x head => ?_) whole
      rw [next] at head
      obtain rfl := Option.some.inj head
      exact before
    · exact arrives (r.hole_fill list.symm more behind fits next before (by omega) (by omega))
  | data behind fits next there reaches =>
    subst begins ends
    rename_i e rest f later
    by_cases arrived : moved r.g r.start (run e.offset (e :: rest)) = r.stop
    · refine r.made_reads list.symm more behind List.prefix_rfl arrived (fun x head => ?_) whole
      rw [next] at head
      obtain rfl := Option.some.inj head
      rcases there with ⟨-, empty⟩ | there
      · rw [moved, empty] at arrived
        simp [strides] at arrived
        omega
      · omega
    · obtain ⟨⟨front, split⟩, -⟩ := r.ahead_split list.symm
      rw [next] at split
      exact (r.data_runs list.symm more behind fits next (by omega) there).reaches split whole
        reaches

/-- From such a position everything the file has left is handed over, and no more,
when more is asked for. -/
theorem Spent.reads {r : Span} (spent : Spent r.g r.extents r.start r.stop)
    (far : r.stop < r.asked) :
    r.Reading (r.loop r.extents r.begun) ∧ (r.loop r.extents r.begun).pos = r.stop := by
  have within := r.start_le
  have more : r.start < r.asked := by omega
  obtain ⟨start, begins⟩ : ∃ start, start = r.start := ⟨_, rfl⟩
  obtain ⟨stop, ends⟩ : ∃ stop, stop = r.stop := ⟨_, rfl⟩
  obtain ⟨extents, list⟩ : ∃ extents, extents = r.extents := ⟨_, rfl⟩
  rw [← begins, ← ends, ← list] at spent
  cases spent with
  | empty =>
    rw [← list]
    exact ⟨r.begun_reading, begins.symm.trans ends⟩
  | front before joined =>
    rw [r.loop_begun list.symm more (.inl (by omega)), joined]
    exact ⟨r.starting_reading _, begins.symm.trans ends⟩
  | behind behind last whole =>
    subst begins ends
    rename_i e rest
    rw [(r.loop_passed list.symm more behind).1 (by omega), last]
    unfold moved at whole
    refine ⟨r.filled_reading _ whole.le fun i after before => ?_, whole⟩
    refine r.hole_ahead list.symm behind after fun f head => ?_
    rw [last] at head
    cases head

end Yaboot.Xfs
