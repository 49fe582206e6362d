import Dataflow.Fact.Lemmas
import Dataflow.Proofs.Fallible

/-! Joins of many facts. Each item contributes a fact or a fault; the join answers exactly if every
contribution is there and has the width of the start, and then holds what any of them holds. -/
namespace Dataflow.Fact

theorem union_eq_ok {left right result : Fact} :
    (left.union right).map Prod.fst = .ok result ↔
      ∃ same : left.width = right.width, left.join right same = result := by
  by_cases same : left.width = right.width
  · simp [union_of_width same, same]
  · simp [union, combine, same, Except.map]

def joinAll {α : Type} (contribution : α → Except Fault Fact) (start : Fact) (items : List α) :
    Except Fault Fact :=
  items.foldlM (fun joined item => do
    let given ← contribution item
    (joined.union given).map Prod.fst) start

variable {α : Type} {contribution : α → Except Fault Fact}

theorem joinAll_cons_eq_ok {start result : Fact} {item : α} {rest : List α} :
    joinAll contribution start (item :: rest) = .ok result ↔
      ∃ given, contribution item = .ok given ∧ ∃ same : start.width = given.width,
        joinAll contribution (start.join given same) rest = .ok result := by
  rw [joinAll, List.foldlM_cons]
  simp only [Fallible.bind_eq_ok, union_eq_ok]
  constructor
  · rintro ⟨_, ⟨given, contributes, same, rfl⟩, run⟩
    exact ⟨given, contributes, same, run⟩
  · rintro ⟨given, contributes, same, run⟩
    exact ⟨_, ⟨given, contributes, same, rfl⟩, run⟩

/-- All contributions can be joined if they have the width of the start. -/
theorem exists_joinAll_iff {start : Fact} {items : List α} :
    (∃ result, joinAll contribution start items = .ok result) ↔
      ∀ item ∈ items, ∃ given, contribution item = .ok given ∧ given.width = start.width := by
  induction items generalizing start with
  | nil => exact iff_of_true ⟨start, rfl⟩ (by simp)
  | cons item rest ih =>
    simp only [joinAll_cons_eq_ok, List.forall_mem_cons]
    constructor
    · rintro ⟨result, given, contributes, same, run⟩
      exact ⟨⟨given, contributes, same.symm⟩, (@ih (start.join given same)).mp ⟨result, run⟩⟩
    · rintro ⟨⟨given, contributes, same⟩, others⟩
      obtain ⟨result, run⟩ := (@ih (start.join given same.symm)).mpr others
      exact ⟨result, given, contributes, same.symm, run⟩

theorem mem_joinAll {start result : Fact} {items : List α}
    (run : joinAll contribution start items = .ok result) :
    result.width = start.width ∧ ∀ i, i ∈ result ↔ i ∈ start ∨
      ∃ item ∈ items, ∃ given, contribution item = .ok given ∧ i ∈ given := by
  induction items generalizing start with
  | nil =>
    cases run
    exact ⟨rfl, by simp⟩
  | cons item rest ih =>
    obtain ⟨given, contributes, same, run⟩ := joinAll_cons_eq_ok.mp run
    obtain ⟨width, members⟩ := ih run
    refine ⟨width, fun i => ?_⟩
    rw [members, mem_join, or_assoc]
    simp [contributes]

end Dataflow.Fact
