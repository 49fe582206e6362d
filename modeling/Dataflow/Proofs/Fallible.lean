import Mathlib.Data.List.Basic

/-! Loops whose steps may fail. Such a loop succeeds exactly if every step does. -/
namespace Dataflow.Fallible

variable {ε α γ : Type}

theorem bind_eq_ok {first : Except ε α} {next : α → Except ε γ} {result : γ} :
    first >>= next = .ok result ↔ ∃ value, first = .ok value ∧ next value = .ok result := by
  cases first <;> simp [bind, Except.bind]

/-- A check in front of a computation. -/
theorem check_eq_ok {check : Except ε Unit} {next : Unit → Except ε γ} {result : γ} :
    check >>= next = .ok result ↔ check = .ok () ∧ next () = .ok result := by
  cases check <;> simp [bind, Except.bind]

theorem forM_eq_ok {body : α → Except ε Unit} {items : List α} :
    items.forM body = .ok () ↔ ∀ item ∈ items, body item = .ok () := by
  induction items with
  | nil => simp [List.forM, pure, Except.pure]
  | cons item rest ih =>
    rw [List.forall_mem_cons, ← ih]
    exact check_eq_ok

theorem mapM_eq_map {body : α → Except ε γ} {value : α → γ} {items : List α}
    (each : ∀ item ∈ items, body item = .ok (value item)) :
    items.mapM body = .ok (items.map value) := by
  induction items with
  | nil => rfl
  | cons item rest ih =>
    obtain ⟨first, others⟩ := List.forall_mem_cons.mp each
    rw [List.mapM_cons, first, ih others]
    rfl

theorem exists_of_mapM {body : α → Except ε γ} {items : List α} {results : List γ}
    (run : items.mapM body = .ok results) : ∀ item ∈ items, ∃ result, body item = .ok result := by
  induction items generalizing results with
  | nil => exact fun _ absent => absurd absent List.not_mem_nil
  | cons item rest ih =>
    rw [List.mapM_cons] at run
    obtain ⟨value, first, run⟩ := bind_eq_ok.mp run
    obtain ⟨values, others, _⟩ := bind_eq_ok.mp run
    exact List.forall_mem_cons.mpr ⟨⟨value, first⟩, ih others⟩

end Dataflow.Fallible
