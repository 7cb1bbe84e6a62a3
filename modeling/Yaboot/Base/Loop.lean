/-! Loops that are left from inside their body, run with a bound on the rounds, and the
rule for what they come to. -/
namespace Yaboot.Loop

/-- What a round comes to: another round, or the way out. -/
inductive Round (σ ρ : Type) where
  | again (s : σ)
  | out (r : ρ)

variable {σ ρ τ : Type}

/-- At most `fuel` rounds. A loop that is still running then has no result. -/
def spin (body : σ → Round σ ρ) : Nat → σ → Option ρ
  | 0, _ => none
  | fuel + 1, s =>
    match body s with
    | .again next => spin body fuel next
    | .out r => some r

/-- A round goes on with what `again` says, or leaves with what `out` says. -/
inductive Round.Meets (next : σ → Prop) (post : ρ → Prop) : Round σ ρ → Prop
  | again (holds : next s) : Meets next post (.again s)
  | out (holds : post r) : Meets next post (.out r)

theorem Round.Meets.mono {next next' : σ → Prop} {post post' : ρ → Prop} {round : Round σ ρ}
    (meets : round.Meets next post) (more : ∀ s, next s → next' s)
    (done : ∀ r, post r → post' r) : round.Meets next' post' := by
  cases meets with
  | again holds => exact .again (more _ holds)
  | out holds => exact .out (done _ holds)

/-- A round that may come to nothing leaves the loop without a result. -/
def Round.ofOption : Option (Round σ ρ) → Round σ (Option ρ)
  | none => .out none
  | some (.again s) => .again s
  | some (.out r) => .out (some r)

/-- There is a result, and it is as `post` says. -/
def Returns (o : Option ρ) (post : ρ → Prop) : Prop := ∃ r, o = some r ∧ post r

theorem Returns.mono {post post' : ρ → Prop} {o : Option ρ} (returns : Returns o post)
    (weaker : ∀ r, post r → post' r) : Returns o post' := by
  obtain ⟨r, result, holds⟩ := returns
  exact ⟨r, result, weaker r holds⟩

theorem Returns.of_some {post : ρ → Prop} (holds : post r) : Returns (some r) post :=
  ⟨r, rfl, holds⟩

theorem Returns.bind {post : ρ → Prop} {post' : τ → Prop} {o : Option ρ} {f : ρ → Option τ}
    (returns : Returns o post) (rest : ∀ r, post r → Returns (f r) post') :
    Returns (o.bind f) post' := by
  obtain ⟨r, rfl, holds⟩ := returns
  exact rest r holds

theorem Returns.map {post : ρ → Prop} {post' : τ → Prop} {o : Option ρ} {f : ρ → τ}
    (returns : Returns o post) (rest : ∀ r, post r → post' (f r)) :
    Returns (o.map f) post' := by
  obtain ⟨r, rfl, holds⟩ := returns
  exact ⟨f r, rfl, rest r holds⟩

/-- Where each round lowers what is left, a loop ends, and what is kept holds then. -/
theorem spin_rule {body : σ → Round σ ρ} (inv : Nat → σ → Prop) (post : ρ → Prop)
    (step : ∀ left s, inv left s → (body s).Meets (fun next => ∃ less < left, inv less next) post)
    (start : inv left s) (enough : left < fuel) : Returns (spin body fuel s) post := by
  induction fuel generalizing left s with
  | zero => exact absurd enough (Nat.not_lt_zero left)
  | succ fuel ih =>
    have round := step left s start
    rw [spin]
    cases result : body s with
    | again next =>
      rw [result] at round
      cases round with
      | again holds =>
        obtain ⟨less, lower, holds⟩ := holds
        exact ih holds (Nat.lt_of_lt_of_le lower (Nat.le_of_lt_succ enough))
    | out r =>
      rw [result] at round
      cases round with
      | out holds => exact .of_some holds

end Yaboot.Loop
