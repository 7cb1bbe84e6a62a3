import Yaboot.Xfs.ServedProofs
import Yaboot.Xfs.WalkProofs

/-! The other requests go wrong on some disk: the loop stops at another place than the
end of the request or of the file, or stores a zero for a byte of an extent. -/
namespace Yaboot.Xfs
open Buffer Word

/-! ### Requests that go wrong -/

namespace Span

/-- The loop stopped elsewhere than at the end of what the file has, or a byte in
front of that end is not the file's. -/
def Wrong (r : Span) (p : Progress) : Prop :=
  p.pos ≠ r.stop ∨ ∃ i < r.stop - r.start, p.mem i ≠ r.content (r.start + i)

/-- No byte of an extent can be mistaken for a hole. -/
def Dense (r : Span) : Prop :=
  ∀ e ∈ r.extents, ∀ i, e.offset * r.g.bsize ≤ i → i < (e.offset + e.len) * r.g.bsize →
    r.content i ≠ 0

/-- A zero handed over for a byte of an extent stays wrong. -/
theorem zero_wrong {r : Span} (dense : r.Dense) (known : e ∈ r.extents)
    (first : e.offset * r.g.bsize ≤ i) (last : i < (e.offset + e.len) * r.g.bsize)
    (after : r.start ≤ i) (before : i < r.stop) (stored : i - r.start < p.buf)
    (zero : p.mem (i - r.start) = 0) (xads : List Xad) : r.Wrong (r.loop xads p) := by
  refine .inr ⟨i - r.start, by omega, ?_⟩
  rw [show (r.loop xads p).mem (i - r.start) = p.mem (i - r.start) from readList_mem xads stored,
    zero, Nat.add_sub_cancel' after]
  exact (dense e known i first last).symm

/-- Behind the end a round goes on to where the request ends, or does nothing but
fill zeros. -/
theorem past_step {r : Span} (known : e ∈ r.extents) (standing : r.Standing p)
    (running : p.pos < r.asked) (past : r.stop < p.pos) :
    r.Standing (readExtent r.g r.d r.stop e p) ∧
      r.stop < (readExtent r.g r.d r.stop e p).pos := by
  have place := standing.place
  have left := standing.left
  have bound := r.stop_lt
  have short := r.short
  have within := r.start_le
  have low := r.mapped.low e known
  by_cases covers : e.Covers (p.pos / r.g.bsize)
  · have last := ((covers_div_iff r.g e p.pos).mp covers).2
    have inside := (isinxt_iff low p.pos).mpr covers
    have ends : u64 ((e.offset + e.len) <<< r.g.blklog) = (e.offset + e.len) * r.g.bsize :=
      shift_eq low
    have fits : e.offset + e.len < 2 ^ 64 :=
      (Nat.le_mul_of_pos_right _ r.g.bsize_pos).trans_lt (by omega)
    have reached : r.stop ≤ (e.offset + e.len) * r.g.bsize := by omega
    have amount : p.len = (r.asked - p.pos : Nat) := by omega
    simp only [readExtent, inside, ↓reduceIte, ends, u64_of_lt fits,
      ofInt64_of_lt (show r.stop < 2 ^ 64 by omega), reached, amount, Int.toNat_natCast]
    rw [take_eq p amount (by omega)]
    exact ⟨⟨by dsimp only; omega, by dsimp only; omega⟩, by dsimp only; omega⟩
  · by_cases gap : p.endofprev < e.offset
    · rw [gap_step standing known running covers gap]
      exact ⟨standing_filled standing _, by dsimp only [filled]; omega⟩
    · rw [readExtent_skip low covers (by omega)]
      exact ⟨⟨place, left⟩, past⟩

/-- A loop that came behind the end stays behind it. -/
theorem past_wrong {r : Span} {xads : List Xad} (sub : ∀ e ∈ xads, e ∈ r.extents)
    (standing : r.Standing p) (past : r.stop < p.pos) : r.Wrong (r.loop xads p) := by
  refine .inl (Nat.ne_of_gt ?_)
  induction xads generalizing p with
  | nil => exact past
  | cons e rest ih =>
    have left := standing.left
    by_cases running : p.pos < r.asked
    · obtain ⟨next, further⟩ := past_step (sub e (by simp)) standing running past
      rw [r.loop_cons e rest (by omega)]
      exact ih (fun f member => sub f (List.mem_cons_of_mem e member)) next further
    · rwa [r.loop_done _ (by omega)]

/-- With no extent left that holds a byte in front of it, the loop does not pass
that byte, or fills it with a zero. -/
theorem late_wrong {r : Span} {xads : List Xad} (dense : r.Dense) (known : e ∈ r.extents)
    (first : e.offset * r.g.bsize ≤ i) (last : i < (e.offset + e.len) * r.g.bsize)
    (sub : ∀ f ∈ xads, f ∈ r.extents) (beyond : ∀ f ∈ xads, i < f.offset * r.g.bsize)
    (standing : r.Standing p) (before : p.pos ≤ i) (inside : i < r.stop) :
    r.Wrong (r.loop xads p) := by
  induction xads generalizing p with
  | nil =>
    refine .inl ?_
    dsimp only [loop, readList]
    omega
  | cons f rest ih =>
    have place := standing.place
    have left := standing.left
    have more := r.stop_le
    have later := beyond f (by simp)
    have low := r.mapped.low f (sub f (by simp))
    have misses : ¬ f.Covers (p.pos / r.g.bsize) := not_covers_div r.g f (.inl (by omega))
    have rest_sub := fun x member => sub x (List.mem_cons_of_mem f member)
    have rest_beyond := fun x member => beyond x (List.mem_cons_of_mem f member)
    rw [r.loop_cons f rest (by omega)]
    by_cases gap : p.endofprev < f.offset
    · obtain ⟨n, step⟩ : ∃ n, readExtent r.g r.d r.stop f p = filled p n :=
        ⟨_, gap_step standing (sub f (by simp)) (by omega) misses gap⟩
      rw [step]
      by_cases shy : p.pos + n ≤ i
      · exact ih rest_sub rest_beyond (standing_filled standing n) shy
      · have zero : blit p.mem p.buf n (fun _ => 0) (i - r.start) = 0 :=
          blit_inside _ _ (by omega) (by omega)
        exact r.zero_wrong dense known first last (by omega) inside (by dsimp only [filled, starting]; omega)
          zero rest
    · rw [readExtent_skip low misses (by omega)]
      exact ih rest_sub rest_beyond ⟨place, left⟩ before

/-- An extent that is met at a hole ends the hole too late: its own bytes are lost, or
have been filled with zeros. -/
theorem gap_wrong {r : Span} (dense : r.Dense) (split : r.extents = front ++ f :: later)
    (gap : p.endofprev < f.offset) (passed : p.endofprev * r.g.bsize ≤ p.pos)
    (early : p.pos < f.offset * r.g.bsize) (inside : f.offset * r.g.bsize < r.stop)
    (standing : r.Standing p) : r.Wrong (r.loop (f :: later) p) := by
  have place := standing.place
  have left := standing.left
  have more := r.stop_le
  have known : f ∈ r.extents := by
    rw [split]
    simp
  have sub : ∀ x ∈ later, x ∈ r.extents := fun x member => by
    rw [split]
    simp [member]
  have sorted := r.mapped.sorted
  rw [split] at sorted
  have ordered := (List.pairwise_cons.mp (List.pairwise_append.mp sorted).2.1).1
  have block := r.mapped.some_block f known
  have width : f.offset * r.g.bsize < (f.offset + f.len) * r.g.bsize :=
    Nat.mul_lt_mul_of_pos_right (by omega) r.g.bsize_pos
  have jump : p.endofprev * r.g.bsize + (f.offset - p.endofprev) * r.g.bsize =
      f.offset * r.g.bsize := by
    rw [← Nat.add_mul]
    congr 1
    omega
  have misses := not_covers_div r.g f (.inl early)
  rw [r.loop_cons f later (by omega), gap_step standing known (by omega) misses gap, quota,
    if_neg (by omega)]
  obtain ⟨n, amount⟩ : ∃ n, n = (f.offset - p.endofprev) * r.g.bsize := ⟨_, rfl⟩
  rw [← amount] at jump ⊢
  by_cases exact_ : p.pos + n ≤ f.offset * r.g.bsize
  · refine r.late_wrong dense known (Nat.le_refl _) width sub (fun x member => ?_)
      (standing_filled standing n) exact_ inside
    have apart := Nat.mul_le_mul_right r.g.bsize (ordered x member)
    omega
  · have zero : blit p.mem p.buf n (fun _ => 0) (f.offset * r.g.bsize - r.start) = 0 :=
      blit_inside _ _ (by omega) (by omega)
    exact r.zero_wrong dense known (Nat.le_refl _) width (by omega) inside
      (by dsimp only [filled]; omega) zero later

/-- A run the request leaves again is not read to the end. -/
theorem Runs.wrong {r : Span} {f : Xad} {later : List Xad} (dense : r.Dense)
    (runs : r.Runs f later final) (split : r.extents = front ++ f :: later)
    (bad : Reaches r.g r.stop f later → r.stop < r.asked) : r.Wrong final := by
  by_cases ends : r.stop ≤ (Xfs.run f.offset (f :: later)).1 * r.g.bsize
  · have beyond := bad (.inl ends)
    exact .inl (by rw [(runs.through ends).1]; omega)
  · obtain ⟨q, same, reading, here, prev⟩ := runs.beyond (by omega)
    have within := reading.within
    have more := r.stop_le
    rw [same]
    cases tail : (Xfs.run f.offset (f :: later)).2 with
    | nil => exact .inl (by dsimp only [loop, readList]; omega)
    | cons x others =>
      obtain ⟨⟨before, parts⟩, gaps, -⟩ := r.run_hole split
      rw [tail] at parts gaps
      have gap := gaps x (by simp)
      have apart : (Xfs.run f.offset (f :: later)).1 * r.g.bsize < x.offset * r.g.bsize :=
        Nat.mul_lt_mul_of_pos_right gap r.g.bsize_pos
      by_cases inside : x.offset * r.g.bsize < r.stop
      · exact r.gap_wrong dense parts (by omega) (by rw [prev]; omega) (by omega) inside
          reading.standing
      · have beyond := bad (.inr ⟨x, by rw [tail]; rfl, by omega⟩)
        have known : x ∈ r.extents := by
          rw [parts]
          simp
        have arrived := (reading.fill known (by omega) (by omega) (by omega) (by omega) others).1
        exact .inl (by omega)

/-- Zeros filled at the position that come into the extent ahead. -/
theorem zeros_wrong {r : Span} {e : Xad} {rest : List Xad} (list : r.extents = e :: rest)
    (dense : r.Dense)
    (next : ahead r.g r.start (Xfs.run e.offset (e :: rest)).2 = f :: later)
    (before : r.start < r.stop) (into : f.offset * r.g.bsize < r.start + n)
    (some_zero : 0 < n) (inside : f.offset * r.g.bsize < r.stop) (xads : List Xad) :
    r.Wrong (r.loop xads (filled (r.starting prev) n)) := by
  obtain ⟨known, -⟩ := (r.ahead_split list).2 f (by rw [next]; simp)
  have ends := ahead_head (congrArg List.head? next)
  have block := r.mapped.some_block f known
  have width : f.offset * r.g.bsize < (f.offset + f.len) * r.g.bsize :=
    Nat.mul_lt_mul_of_pos_right (by omega) r.g.bsize_pos
  have zero : blit r.mem 0 n (fun _ => 0) (max r.start (f.offset * r.g.bsize) - r.start) = 0 :=
    blit_inside _ _ (Nat.zero_le _) (by omega)
  exact r.zero_wrong dense known (i := max r.start (f.offset * r.g.bsize)) (by omega) (by omega)
    (by omega) (by omega) (by dsimp only [filled, starting]; omega) zero xads

section

variable {r : Span} {e : Xad} {rest : List Xad} (list : r.extents = e :: rest)
  (more : r.start < r.asked) (dense : r.Dense)

include list more dense

/-- In front of all extents. -/
theorem front_wrong (early : r.start < e.offset * r.g.bsize)
    (joined : (Xfs.run e.offset (e :: rest)).2 = [] → r.start < r.stop)
    (bad : (Xfs.run e.offset (e :: rest)).2 ≠ [] → r.stop ≤ e.offset * r.g.bsize →
      r.stop < r.asked) : r.Wrong (r.loop r.extents r.begun) := by
  cases tail : (Xfs.run e.offset (e :: rest)).2 with
  | nil =>
    have short := joined tail
    rw [r.loop_begun list more (.inl early), tail]
    exact .inl (by dsimp only [loop, readList, starting]; omega)
  | cons f later =>
    by_cases before : r.stop ≤ e.offset * r.g.bsize
    · have beyond := bad (by simp [tail]) before
      exact .inl (by rw [(r.front_fill list more before tail early).1]; omega)
    · obtain ⟨grown, -, ⟨front, split, -⟩, gap⟩ := r.first_run list
      have known : e ∈ r.extents := by simp [list]
      have block := r.mapped.some_block e known
      rw [r.loop_begun list more (.inl early)]
      refine r.late_wrong dense known (Nat.le_refl _)
        (Nat.mul_lt_mul_of_pos_right (by omega) r.g.bsize_pos) (fun x member => ?_)
        (fun x member => ?_) (r.starting_reading _).standing early.le (by omega)
      · rw [split]
        exact List.mem_append_right front member
      · have apart := gap x member
        exact Nat.mul_lt_mul_of_pos_right (by omega) r.g.bsize_pos

variable (behind : (Xfs.run e.offset (e :: rest)).1 * r.g.bsize ≤ r.start)

include behind

/-- The zeros filled for the extents passed make up more than the request, or as much
where the extent ahead has its bytes. -/
theorem made_wrong (over_ : r.asked ≤ moved r.g r.start (Xfs.run e.offset (e :: rest)))
    (bad : r.asked = r.stop →
      ∀ passing, passing <+: passed r.g r.start (Xfs.run e.offset (e :: rest)).2 →
        r.start + strides r.g (Xfs.run e.offset (e :: rest)).1 passing = r.stop →
        ∃ f ∈ (ahead r.g r.start (Xfs.run e.offset (e :: rest)).2).head?,
          f.offset * r.g.bsize < r.stop) : r.Wrong (r.loop r.extents r.begun) := by
  have far := r.stop_le
  obtain ⟨front, part, enough, same⟩ : ∃ front,
      front <+: passed r.g r.start (Xfs.run e.offset (e :: rest)).2 ∧
        r.asked ≤ r.start + strides r.g (Xfs.run e.offset (e :: rest)).1 front ∧
        r.loop r.extents r.begun = filled (r.starting (Xfs.run e.offset (e :: rest)).1)
          (strides r.g (Xfs.run e.offset (e :: rest)).1 front) := by
    obtain ⟨through, short⟩ := r.loop_passed list more behind
    rcases Nat.lt_or_eq_of_le over_ with beyond | equal
    · exact short beyond
    · unfold moved at equal
      refine ⟨_, List.prefix_rfl, by omega, ?_⟩
      rw [through (by unfold moved; omega), r.loop_done _ (by dsimp only [filled, starting]; omega)]
  by_cases exact_ : r.start + strides r.g (Xfs.run e.offset (e :: rest)).1 front = r.stop
  · obtain ⟨f, head, before⟩ := bad (by omega) front part exact_
    obtain ⟨later, next⟩ := List.head?_eq_some_iff.mp head
    have wrong : r.Wrong (r.loop [] (filled (r.starting (Xfs.run e.offset (e :: rest)).1)
        (strides r.g (Xfs.run e.offset (e :: rest)).1 front))) :=
      r.zeros_wrong list dense next (by omega) (by omega) (by omega) before []
    rwa [same]
  · refine .inl ?_
    rw [same]
    exact exact_

/-- The zeros filled for the extents passed make up less than the request. -/
theorem behind_wrong (running : moved r.g r.start (Xfs.run e.offset (e :: rest)) < r.asked)
    (last : ahead r.g r.start (Xfs.run e.offset (e :: rest)).2 = [] →
      moved r.g r.start (Xfs.run e.offset (e :: rest)) ≠ r.stop)
    (hole : ∀ f ∈ (ahead r.g r.start (Xfs.run e.offset (e :: rest)).2).head?,
      r.stop ≤ f.offset * r.g.bsize → r.stop < r.asked)
    (data : ∀ f later, ahead r.g r.start (Xfs.run e.offset (e :: rest)).2 = f :: later →
      (f.offset * r.g.bsize ≤ r.start ∧
          passed r.g r.start (Xfs.run e.offset (e :: rest)).2 = [] ∨
        f.offset * r.g.bsize = moved r.g r.start (Xfs.run e.offset (e :: rest))) →
      Reaches r.g r.stop f later → r.stop < r.asked) : r.Wrong (r.loop r.extents r.begun) := by
  have far := r.stop_le
  have same := (r.loop_passed list more behind).1 running.le
  obtain ⟨⟨front, split⟩, gaps⟩ := r.ahead_split list
  have standing := standing_filled (r.starting_reading (Xfs.run e.offset (e :: rest)).1).standing
    (strides r.g (Xfs.run e.offset (e :: rest)).1
      (passed r.g r.start (Xfs.run e.offset (e :: rest)).2))
  by_cases fits : moved r.g r.start (Xfs.run e.offset (e :: rest)) ≤ r.stop
  · cases next : ahead r.g r.start (Xfs.run e.offset (e :: rest)).2 with
    | nil =>
      rw [same, next]
      exact .inl (last next)
    | cons f later =>
      rw [next] at split gaps
      obtain ⟨known, gap⟩ := gaps f (by simp)
      have ends := ahead_head (congrArg List.head? next)
      have runs := fun there => (r.data_runs list more behind fits next running there).wrong dense
        split (data f later next there)
      rcases Nat.lt_trichotomy (moved r.g r.start (Xfs.run e.offset (e :: rest)))
        (f.offset * r.g.bsize) with early | there | late
      · by_cases inside : f.offset * r.g.bsize < r.stop
        · rw [same, next]
          exact r.gap_wrong dense split gap (by dsimp only [filled, starting]; omega) early inside
            standing
        · have beyond := hole f (by rw [next]; rfl) (by omega)
          exact .inl (by
            rw [(r.hole_fill list more behind fits next (by omega) running early).1]
            omega)
      · exact runs (.inr there.symm)
      · by_cases none : passed r.g r.start (Xfs.run e.offset (e :: rest)).2 = []
        · refine runs (.inl ⟨?_, none⟩)
          rw [moved, none] at late
          simp only [strides, List.map_nil, List.sum_nil] at late
          omega
        · have some_zero := strides_pos r.g (r.passed_gap list) none
          rw [same]
          unfold moved at late fits
          exact r.zeros_wrong list dense next (by omega) late some_zero (by omega) _
  · rw [same]
    exact r.past_wrong (fun f member => (gaps f member).1) standing (Nat.lt_of_not_le fits)

end

end Span

/-- Any other request goes wrong where no byte of an extent reads as a hole does. -/
theorem Span.wrong {r : Span} (dense : r.Dense)
    (bad : r.asked = r.stop → ¬ Served r.g r.extents r.start r.stop)
    (far : r.stop < r.asked → ¬ Spent r.g r.extents r.start r.stop) :
    r.Wrong (r.loop r.extents r.begun) := by
  have within := r.start_le
  have beyond := r.stop_le
  by_cases more : r.start < r.asked
  · cases list : r.extents with
    | nil =>
      rw [list] at far
      refine .inl fun same => ?_
      have same : r.start = r.stop := same
      exact far (by omega) (same ▸ Spent.empty)
    | cons e rest =>
      rw [← list]
      rw [list] at bad far
      by_cases early : r.start < e.offset * r.g.bsize
      · refine r.front_wrong list more dense early (fun joined => ?_) fun hole before => ?_
        · refine Nat.lt_of_le_of_ne within fun same => ?_
          refine far (by omega) ?_
          rw [← same]
          exact .front early joined
        · refine Nat.lt_of_le_of_ne beyond fun same => ?_
          exact bad same.symm (.front before hole)
      · by_cases inside : r.start < (run e.offset (e :: rest)).1 * r.g.bsize
        · refine (r.first_runs list more (by omega) inside).wrong dense
            (show r.extents = [] ++ e :: rest from list) fun reaches => ?_
          refine Nat.lt_of_le_of_ne beyond fun same => ?_
          exact bad same.symm (.first (by omega) inside reaches)
        · have behind := Nat.le_of_not_lt inside
          by_cases running : moved r.g r.start (run e.offset (e :: rest)) < r.asked
          · refine r.behind_wrong list more dense behind running (fun last whole => ?_)
              (fun f head before => ?_) fun f later next there reaches => ?_
            · rcases Nat.lt_or_eq_of_le beyond with farther | same
              · exact far farther (.behind behind last whole)
              · omega
            · refine Nat.lt_of_le_of_ne beyond fun same => ?_
              exact bad same.symm (.hole behind (by omega) head before)
            · refine Nat.lt_of_le_of_ne beyond fun same => ?_
              exact bad same.symm (.data behind (by omega) next there reaches)
          · refine r.made_wrong list more dense behind (by omega) fun same passing part whole => ?_
            by_contra none
            refine bad same (.made behind part whole fun f head => ?_)
            by_contra inFront
            exact none ⟨f, head, by omega⟩
  · have same : r.start = r.stop := by omega
    refine absurd ?_ (bad (by omega))
    rw [← same]
    exact .nothing

/-! ### The call -/

namespace Span

/-- A call returned what the file has left of the request, and nothing else. -/
def Answered (r : Span) (outcome : Option Outcome) : Prop :=
  ∃ mem', outcome = some ⟨(r.stop - r.start : Nat), r.stop, mem'⟩ ∧
    Delivered r.content r.mem mem' r.start (r.stop - r.start)

/-- The outcome of a loop that ended. -/
def outcome (r : Span) (p : Progress) : Outcome := ⟨s32 (add64 p.pos (-(r.start : Int))), p.pos, p.mem⟩

theorem Reading.answered {r : Span} (reading : r.Reading p) (arrived : p.pos = r.stop) :
    r.Answered (some (r.outcome p)) := by
  have place := reading.place
  have within := r.start_le
  have bound := r.stop_lt
  have amount : p.buf = r.stop - r.start := by omega
  have back : add64 r.stop (-(r.start : Int)) = r.stop - r.start := by
    unfold add64
    omega
  refine ⟨p.mem, ?_, amount ▸ reading.delivered⟩
  rw [outcome, arrived, back, s32_of_lt (by omega)]

theorem Wrong.not_answered {r : Span} (wrong : r.Wrong p) : ¬ r.Answered (some (r.outcome p)) := by
  rintro ⟨mem', same, delivered⟩
  simp only [outcome, Option.some.injEq, Outcome.mk.injEq] at same
  rcases wrong with elsewhere | ⟨i, inside, differs⟩
  · exact elsewhere same.2.1
  · apply differs
    rw [same.2.2, delivered.copied i inside]

/-- The extents let the loop serve the request, or the file ends first and they let the
loop end with it. -/
def Fine (r : Span) : Prop :=
  r.asked = r.stop ∧ Served r.g r.extents r.start r.stop ∨
    r.stop < r.asked ∧ Spent r.g r.extents r.start r.stop

/-- A request that the extents shown first let the loop serve is answered, whatever the
walk shows behind them. -/
theorem answered_of_shows {r : Span} {inode : Dinode} (remote : inode.format ≠ .local)
    (inside : r.stop ≤ size) (starts : initExtents r.g r.d fuel inode w = some w')
    (shown : Shows r.g r.d inode r.extents w') (enough : r.extents.length < fuel)
    (whole : r.asked = r.stop) (served : Served r.g r.extents r.start r.stop) : r.Answered
      (xfsReadData r.g r.d fuel inode w ⟨r.start, size⟩ (r.asked - r.start : Nat) r.mem) := by
  have within := r.start_le
  have short := r.short
  obtain ⟨reading, arrived⟩ := served.reads whole
  have left := reading.left
  have looped : readLoop r.g r.d inode r.stop fuel w' r.begun =
      some (r.loop r.extents r.begun) := readLoop_shows shown enough (by
    show (r.loop r.extents r.begun).len ≤ 0
    omega)
  rw [xfsReadData_of_loop remote (by omega) (by omega) (by omega) r.stop_lt starts looped]
  exact reading.answered arrived

section

variable {r : Span} {inode : Dinode} {w w' : Walk} {fuel size : Nat}
  (remote : inode.format ≠ .local) (ends : r.stop = min r.asked size)
  (starts : initExtents r.g r.d fuel inode w = some w')
  (yields : Yields r.g r.d inode r.extents w') (enough : r.extents.length < fuel)

include remote ends starts yields enough

/-- `xfs_read_data` returns what the loop over the extents arrives at, when the walk
shows those. -/
theorem called : xfsReadData r.g r.d fuel inode w ⟨r.start, size⟩ (r.asked - r.start : Nat) r.mem =
    some (r.outcome (r.loop r.extents r.begun)) := by
  have within := r.start_le
  have beyond := r.stop_le
  have short := r.short
  exact xfsReadData_of_loop remote (by omega) (by omega) (by omega) r.stop_lt starts
    (readLoop_yields yields enough _)

theorem answered_of_fine (fine : r.Fine) : r.Answered
    (xfsReadData r.g r.d fuel inode w ⟨r.start, size⟩ (r.asked - r.start : Nat) r.mem) := by
  rw [r.called remote ends starts yields enough]
  rcases fine with ⟨whole, served⟩ | ⟨far, spent⟩
  · obtain ⟨reading, arrived⟩ := served.reads whole
    exact reading.answered arrived
  · obtain ⟨reading, arrived⟩ := spent.reads far
    exact reading.answered arrived

theorem fine_of_answered (dense : r.Dense) (answered : r.Answered
    (xfsReadData r.g r.d fuel inode w ⟨r.start, size⟩ (r.asked - r.start : Nat) r.mem)) :
    r.Fine := by
  rw [r.called remote ends starts yields enough] at answered
  have beyond := r.stop_le
  by_contra bad
  refine Wrong.not_answered (Span.wrong dense (fun whole served => ?_) fun far spent => ?_) answered
  · exact bad (.inl ⟨whole, served⟩)
  · exact bad (.inr ⟨far, spent⟩)

end

end Span

/-- A disk on which no byte of a file can be mistaken for a hole. -/
def ones (partitionOffset : Nat) : Disk := ⟨fun _ => 1, partitionOffset⟩

theorem Span.dense_ones {r : Span} {partitionOffset : Nat} (disk : r.d = ones partitionOffset) : r.Dense := by
  intro e member i first last
  rw [content, fileByte_covered r.holds r.mapped member first last, disk]
  exact (by decide : (1 : UInt8) ≠ 0)

section

variable {g : Geometry} {partitionOffset : Nat} {inode : Dinode} {extents : List Xad}
  {pos len size stop : Nat}

/-- A request is answered with the bytes up to `stop`, whatever the disk and the buffer
hold. -/
def Answers (g : Geometry) (partitionOffset : Nat) (extents : List Xad) (pos stop : Nat)
    (read : Disk → Bytes → Option Outcome) : Prop :=
  ∀ bytes mem, ∃ mem', read ⟨bytes, partitionOffset⟩ mem = some ⟨(stop - pos : Nat), stop, mem'⟩ ∧
    Delivered (fileByte g ⟨bytes, partitionOffset⟩ extents) mem mem' pos (stop - pos)

/-- Which requests to a file of `size` bytes are answered with what it has left, when
the walk shows its extents on every disk. -/
theorem xfsReadData_answers_iff (remote : inode.format ≠ .local)
    (mapped : Mapped g extents) (holds : (ones partitionOffset).Holds g)
    (walk : ∀ bytes, ∃ w', initExtents g ⟨bytes, partitionOffset⟩ fuel inode w = some w' ∧
      Yields g ⟨bytes, partitionOffset⟩ inode extents w')
    (enough : extents.length < fuel) (within : pos ≤ size) (short : len < 2 ^ 31)
    (ends : stop = min (pos + len) size) (near : stop < 2 ^ 31) :
    Answers g partitionOffset extents pos stop
        (fun d mem => xfsReadData g d fuel inode w ⟨pos, size⟩ len mem) ↔
      (pos + len ≤ size ∧ Served g extents pos (pos + len)) ∨
        size < pos + len ∧ Spent g extents pos size := by
  have taken : pos + len - pos = len := Nat.add_sub_cancel_left ..
  have fine : (pos + len ≤ size ∧ Served g extents pos (pos + len)) ∨
      size < pos + len ∧ Spent g extents pos size ↔
        pos + len = stop ∧ Served g extents pos stop ∨
          stop < pos + len ∧ Spent g extents pos stop := by
    rcases Nat.lt_or_ge size (pos + len) with far | whole
    · obtain rfl : stop = size := by omega
      simp [far, far.ne', Nat.not_le.mpr far]
    · obtain rfl : stop = pos + len := by omega
      simp [whole, Nat.not_lt.mpr whole]
  have request : ∀ bytes mem, ∃ r : Span, r = ⟨g, ⟨bytes, partitionOffset⟩, extents, pos, stop,
      pos + len, mem, holds, mapped, by omega, by omega, near, by omega⟩ := fun _ _ => ⟨_, rfl⟩
  rw [fine]
  constructor
  · intro answers
    obtain ⟨r, same⟩ := request (fun _ => 1) fun _ => 0
    obtain ⟨w', starts, yields⟩ := walk fun _ => 1
    have dense : r.Dense := Span.dense_ones (by rw [same]; rfl)
    have answer := answers (fun _ => 1) fun _ => 0
    subst same
    refine Span.fine_of_answered remote ends starts yields enough dense ?_
    dsimp only
    rw [taken]
    exact answer
  · intro fine bytes mem
    obtain ⟨r, same⟩ := request bytes mem
    obtain ⟨w', starts, yields⟩ := walk bytes
    have answered := r.answered_of_fine remote (by rw [same]; exact ends)
      (by rw [same]; exact starts) (by rw [same]; exact yields) (by rw [same]; exact enough)
      (by rw [same]; exact fine)
    rw [same] at answered
    dsimp only at answered
    rw [taken] at answered
    exact answered

end

/-- A request inside a file of `size` bytes hands over exactly its bytes, whatever
the disk and the buffer hold. -/
def ReadsRight (g : Geometry) (partitionOffset : Nat) (inode : Dinode) (size pos len : Nat) : Prop :=
  ∀ (bytes mem : Bytes) (w : Walk) (fuel : Nat), inode.nextents < fuel →
    ∃ mem', xfsReadData g ⟨bytes, partitionOffset⟩ fuel inode w ⟨pos, size⟩ len mem =
        some ⟨len, pos + len, mem'⟩ ∧
      Delivered (fileByte g ⟨bytes, partitionOffset⟩ inode.extents) mem mem' pos len

/-- `xfs_read_data` reads a part of a file in extents format correctly, whatever the
disk holds, exactly when the extents let the loop serve that request. -/
theorem xfsReadData_right_iff {g : Geometry} {partitionOffset : Nat} {inode : Dinode}
    (inline : inode.format = .extents) (mapped : Mapped g inode.extents)
    (holds : (ones partitionOffset).Holds g) (small : size < 2 ^ 31) (inside : pos + len ≤ size) :
    ReadsRight g partitionOffset inode size pos len ↔ Served g inode.extents pos (pos + len) := by
  have remote : inode.format ≠ .local := by simp [inline]
  have count : inode.extents.length = inode.nextents := by simp [Dinode.extents]
  have each : ∀ w fuel, inode.nextents < fuel →
      (Answers g partitionOffset inode.extents pos (pos + len)
          (fun d mem => xfsReadData g d fuel inode w ⟨pos, size⟩ len mem) ↔
        Served g inode.extents pos (pos + len)) := by
    intro w fuel enough
    rw [xfsReadData_answers_iff remote mapped holds
      (fun bytes => extents_yield g ⟨bytes, partitionOffset⟩ inline fuel w) (by omega) (by omega)
      (by omega) (by omega) (by omega)]
    simp [inside, Nat.not_lt.mpr inside]
  have taken : pos + len - pos = len := Nat.add_sub_cancel_left ..
  unfold Answers at each
  rw [taken] at each
  constructor
  · intro right
    exact (each ⟨0, 0, 0, 0, 0⟩ _ (Nat.lt_succ_self _)).mp fun bytes mem =>
      right bytes mem _ _ (Nat.lt_succ_self _)
  · intro served bytes mem w fuel enough
    exact (each w fuel enough).mpr served bytes mem

/-- The records of an extent list as they lie in an inode. -/
def encode (records : List BmbtRec) : Bytes := fun i =>
  match records[i / 16]? with
  | none => 0
  | some r =>
    let word := if i % 16 < 4 then r.l0 else if i % 16 < 8 then r.l1 else if i % 16 < 12 then r.l2 else r.l3
    UInt8.ofNat (word / 256 ^ (3 - i % 4))

/-- Two blocks of 512 bytes with a hole of one block between them. -/
def holed : Dinode where
  format := .extents
  nextents := 2
  nextents_lt := by decide
  literal := encode [⟨0, 0, 0, 8 * 2 ^ 21 + 1⟩, ⟨0, 2 * 2 ^ 9, 0, 9 * 2 ^ 21 + 1⟩]
  ptr0 := 0

def smallGeometry : Geometry where
  blklog := 9
  blklog_ge := by decide
  blklog_le := by decide
  agblocks := 16
  agblklog := 4
  agblocks_pos := by decide
  agblocks_le := by decide
  agblklog_le := by decide
  agcount := 1
  agcount_lt := by decide

theorem holed_extents : holed.extents = [⟨0, 8, 1⟩, ⟨2, 9, 1⟩] := by decide +kernel

theorem holed_mapped : Mapped smallGeometry holed.extents := by
  rw [holed_extents]
  constructor <;> decide

/-- Of the file with the hole, a request in the first block is read correctly, and so is
one in the block behind the hole. -/
theorem holed_reads_parts :
    ReadsRight smallGeometry 0 holed 1536 0 512 ∧ ReadsRight smallGeometry 0 holed 1536 1024 512 := by
  constructor
  · refine (xfsReadData_right_iff rfl holed_mapped (by decide +kernel) (by decide) (by decide)).mpr ?_
    rw [holed_extents]
    exact .first (by decide) (by decide) (.inl (by decide))
  · refine (xfsReadData_right_iff rfl holed_mapped (by decide +kernel) (by decide) (by decide)).mpr ?_
    rw [holed_extents]
    exact .data (by decide) (by decide) rfl (.inl (by decide)) (.inl (by decide))

/-- The block behind the hole is missing from a read of the whole file. -/
theorem holed_read_short :
    Mapped smallGeometry holed.extents ∧ (ones 0).Holds smallGeometry ∧
      (xfsReadData smallGeometry (ones 0) 3 holed ⟨0, 0, 0, 0, 0⟩ ⟨0, 1536⟩ 1536
        fun _ => 255).map Outcome.returned = some 1024 ∧
      ¬ ReadsRight smallGeometry 0 holed 1536 0 1536 := by
  have short : (xfsReadData smallGeometry (ones 0) 3 holed ⟨0, 0, 0, 0, 0⟩ ⟨0, 1536⟩ 1536
      fun _ => 255).map Outcome.returned = some 1024 := by decide +kernel
  refine ⟨holed_mapped, by decide +kernel, short, ?_⟩
  intro right
  obtain ⟨mem', read, -⟩ := right (fun _ => 1) (fun _ => 255) ⟨0, 0, 0, 0, 0⟩ 3 (by decide)
  have whole : (xfsReadData smallGeometry (ones 0) 3 holed ⟨0, 0, 0, 0, 0⟩ ⟨0, 1536⟩ 1536
      fun _ => 255) = some ⟨1536, 1536, mem'⟩ := read
  rw [whole] at short
  simp at short

end Yaboot.Xfs
