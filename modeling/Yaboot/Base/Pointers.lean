import Yaboot.Base.CString

/-! Computations that note the pointers they hand to string functions. One
without a value has read memory that is not there. -/
namespace Yaboot.Pointers
open CString

structure Run (σ α : Type) where
  value : Option α
  state : σ
  given : List (Option CStr)
  deriving DecidableEq, Repr

def Handing (σ α : Type) : Type := σ → Run σ α

variable {σ α β : Type}

namespace Handing

def pure (a : α) : Handing σ α := fun s => ⟨some a, s, []⟩

/-- What the second computation hands on comes behind what the first does. -/
def bind (x : Handing σ α) (f : α → Handing σ β) : Handing σ β := fun s =>
  let first := x s
  match first.value with
  | none => ⟨none, first.state, first.given⟩
  | some a =>
    let second := f a first.state
    ⟨second.value, second.state, first.given ++ second.given⟩

instance : Monad (Handing σ) where
  pure := pure
  bind := bind

end Handing

/-- Handing on a pointer. -/
def hand (p : Option CStr) : Handing σ Unit := fun s => ⟨some (), s, [p]⟩

/-- Handing on a pointer in one case only. -/
def handIf (c : Prop) [Decidable c] (p : Option CStr) : Handing σ Unit :=
  if c then hand p else pure ()

/-- A value that is there if the memory is. -/
def reading (a : Option α) : Handing σ α := fun s => ⟨a, s, []⟩

def state : Handing σ σ := fun s => ⟨some s, s, []⟩

def modify (f : σ → σ) : Handing σ Unit := fun s => ⟨some (), f s, []⟩

/-- Neither is a null pointer handed on, nor is the state changed. -/
def Clean (x : Handing σ α) : Prop := ∀ s, (x s).state = s ∧ none ∉ (x s).given

theorem bind_value {x : Handing σ α} {f : α → Handing σ β} (returned : (x s).value = some a) :
    ((x >>= f) s).value = (f a (x s).state).value := by
  show (Handing.bind x f s).value = _
  unfold Handing.bind
  simp only [returned]

theorem bind_state {x : Handing σ α} {f : α → Handing σ β} (returned : (x s).value = some a) :
    ((x >>= f) s).state = (f a (x s).state).state := by
  show (Handing.bind x f s).state = _
  unfold Handing.bind
  simp only [returned]

theorem bind_given {x : Handing σ α} {f : α → Handing σ β} (returned : (x s).value = some a) :
    ((x >>= f) s).given = (x s).given ++ (f a (x s).state).given := by
  show (Handing.bind x f s).given = _
  unfold Handing.bind
  simp only [returned]

theorem bind_none {x : Handing σ α} {f : α → Handing σ β} (lost : (x s).value = none) :
    (x >>= f) s = ⟨none, (x s).state, (x s).given⟩ := by
  show Handing.bind x f s = _
  unfold Handing.bind
  simp only [lost]

/-- A value comes from a value of the first computation. -/
theorem bind_returned {x : Handing σ α} {f : α → Handing σ β}
    (returned : ((x >>= f) s).value = some b) :
    ∃ a, (x s).value = some a ∧ (f a (x s).state).value = some b := by
  cases first : (x s).value with
  | none => simp [bind_none first] at returned
  | some a => exact ⟨a, rfl, by rwa [bind_value first] at returned⟩

@[simp] theorem pure_value (a : α) (s : σ) : ((pure a : Handing σ α) s).value = some a := rfl

@[simp] theorem pure_state (a : α) (s : σ) : ((pure a : Handing σ α) s).state = s := rfl

@[simp] theorem pure_given (a : α) (s : σ) : ((pure a : Handing σ α) s).given = [] := rfl

@[simp] theorem hand_bind_state (p : Option CStr) (f : Unit → Handing σ β) (s : σ) :
    ((hand p >>= f) s).state = (f () s).state := rfl

@[simp] theorem hand_bind_given (p : Option CStr) (f : Unit → Handing σ β) (s : σ) :
    ((hand p >>= f) s).given = p :: (f () s).given := rfl

@[simp] theorem hand_bind_value (p : Option CStr) (f : Unit → Handing σ β) (s : σ) :
    ((hand p >>= f) s).value = (f () s).value := rfl

@[simp] theorem handIf_bind_value (c : Prop) [Decidable c] (p : Option CStr)
    (f : Unit → Handing σ β) (s : σ) : ((handIf c p >>= f) s).value = (f () s).value := by
  unfold handIf
  split
  · rfl
  · rfl

@[simp] theorem state_bind (f : σ → Handing σ β) (s : σ) : (state >>= f) s = f s s := rfl

@[simp] theorem modify_bind (g : σ → σ) (f : Unit → Handing σ β) (s : σ) :
    (modify g >>= f) s = f () (g s) := rfl

theorem clean_pure (a : α) : Clean (Pure.pure a : Handing σ α) := fun _ => ⟨rfl, List.not_mem_nil⟩

theorem clean_hand (s : CStr) : Clean (hand (some s) : Handing σ Unit) :=
  fun _ => ⟨rfl, by simp [hand]⟩

theorem clean_reading (a : Option α) : Clean (reading a : Handing σ α) :=
  fun _ => ⟨rfl, List.not_mem_nil⟩

theorem clean_state : Clean (state : Handing σ σ) := fun _ => ⟨rfl, List.not_mem_nil⟩

theorem clean_if {c : Prop} [Decidable c] {x y : Handing σ α} (taken : c → Clean x)
    (other : ¬ c → Clean y) : Clean (if c then x else y) := by
  split
  · exact taken ‹_›
  · exact other ‹_›

theorem clean_handIf (c : Prop) [Decidable c] (s : CStr) :
    Clean (handIf c (some s) : Handing σ Unit) :=
  clean_if (fun _ => clean_hand s) fun _ => clean_pure ()

/-- What follows a computation keeps to what that one has done. -/
theorem bind_clean {x : Handing σ α} {f : α → Handing σ β} {s : σ}
    (rest : ∀ a, (x s).value = some a → Clean (f a)) :
    ((x >>= f) s).state = (x s).state ∧ (none ∉ (x s).given → none ∉ ((x >>= f) s).given) := by
  cases value : (x s).value with
  | none => simp [bind_none value]
  | some a =>
    rw [bind_state value, bind_given value]
    obtain ⟨same, given⟩ := rest a value (x s).state
    exact ⟨same, fun first => by simp [first, given]⟩

theorem Clean.bind {x : Handing σ α} {f : α → Handing σ β} (first : Clean x)
    (rest : ∀ a, Clean (f a)) : Clean (x >>= f) := by
  intro s
  obtain ⟨same, given⟩ := first s
  obtain ⟨kept, more⟩ := bind_clean (s := s) fun a (_ : (x s).value = some a) => rest a
  exact ⟨kept.trans same, more given⟩

end Yaboot.Pointers
