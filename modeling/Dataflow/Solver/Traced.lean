import Dataflow.Solver.Event

/-! Computations that report events and end with a value or a fault. Events stand beside the
outcome in order, and those that come before a fault are kept. Forgetting the events leaves
an ordinary computation with faults, step by step. -/
namespace Dataflow

structure Traced (β ι α : Type) where
  events : List (Event β ι)
  outcome : Except Fault α

namespace Traced

variable {β ι α γ : Type}

def ofExcept (outcome : Except Fault α) : Traced β ι α := ⟨[], outcome⟩

def emit (event : Event β ι) : Traced β ι Unit := ⟨[event], .ok ()⟩

def fail (fault : Fault) : Traced β ι α := ⟨[], .error fault⟩

def check (holds : Bool) (fault : Fault) : Traced β ι Unit :=
  if holds then ofExcept (.ok ()) else fail fault

instance : Monad (Traced β ι) where
  pure value := ⟨[], .ok value⟩
  bind first next :=
    match first.outcome with
    | .error fault => ⟨first.events, .error fault⟩
    | .ok value => ⟨first.events ++ (next value).events, (next value).outcome⟩

@[simp] theorem outcome_pure (value : α) : (pure value : Traced β ι α).outcome = .ok value := rfl

@[simp] theorem events_pure (value : α) : (pure value : Traced β ι α).events = [] := rfl

@[simp] theorem outcome_bind (first : Traced β ι α) (next : α → Traced β ι γ) :
    (first >>= next).outcome = first.outcome.bind fun value => (next value).outcome := by
  obtain ⟨events, outcome⟩ := first
  cases outcome <;> rfl

theorem outcome_bind_eq_ok {first : Traced β ι α} {next : α → Traced β ι γ} {value : γ} :
    (first >>= next).outcome = .ok value ↔
      ∃ middle, first.outcome = .ok middle ∧ (next middle).outcome = .ok value := by
  rw [outcome_bind]
  cases first.outcome <;> simp [Except.bind]

theorem bind_of_ok {first : Traced β ι α} {value : α} (ended : first.outcome = .ok value)
    (next : α → Traced β ι γ) :
    first >>= next = ⟨first.events ++ (next value).events, (next value).outcome⟩ := by
  obtain ⟨events, outcome⟩ := first
  subst ended
  rfl

theorem bind_of_error {first : Traced β ι α} {fault : Fault} (ended : first.outcome = .error fault)
    (next : α → Traced β ι γ) : first >>= next = ⟨first.events, .error fault⟩ := by
  obtain ⟨events, outcome⟩ := first
  subst ended
  rfl

@[simp] theorem outcome_check (holds : Bool) (fault : Fault) :
    (check holds fault : Traced β ι Unit).outcome = if holds then .ok () else .error fault := by
  unfold check
  split <;> rfl

@[simp] theorem events_check (holds : Bool) (fault : Fault) :
    (check holds fault : Traced β ι Unit).events = [] := by
  unfold check
  split <;> rfl

private theorem traced_id_map (first : Traced β ι α) : id <$> first = first := by
  obtain ⟨events, outcome⟩ := first
  cases outcome <;> simp [Functor.map]

private theorem traced_pure_bind (value : α) (next : α → Traced β ι γ) :
    pure value >>= next = next value := by
  simp [bind, pure]

private theorem traced_bind_assoc {δ : Type} (first : Traced β ι α) (next : α → Traced β ι γ)
    (last : γ → Traced β ι δ) :
    first >>= next >>= last = first >>= fun value => next value >>= last := by
  obtain ⟨events, outcome⟩ := first
  cases outcome with
  | error fault => rfl
  | ok value => cases ended : (next value).outcome <;> simp [bind, ended]

instance : LawfulMonad (Traced β ι) :=
  LawfulMonad.mk' (Traced β ι) traced_id_map traced_pure_bind traced_bind_assoc

end Traced

end Dataflow
