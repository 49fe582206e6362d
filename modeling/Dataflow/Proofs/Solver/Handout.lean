import Dataflow.Proofs.Domain.Numbering
import Dataflow.Proofs.Solver.Stable

/-! Results as they are handed out, whatever the client answers and whoever drives the solver. All
their facts are as wide as the domain, those that blocks were entered with too, so they can be
decoded, and every listed block has been entered. -/
namespace Dataflow

variable {σ β ι ν ε : Type} [DecidableEq β] [DecidableEq ι]

namespace Problem

section Entries

variable {problem : Problem σ β ι ν ε} {session next : Session σ β ι ε}

/-- A visit records how its block was entered and forgets nothing. -/
theorem entered_of_visit {item : β × List ι} {pass after : Pass σ β ι}
    (visited : (problem.visit session pass item).outcome = .ok after) {block : β}
    (known : block = item.1 ∨ (pass.entries.get? block).isSome) :
    (after.entries.get? block).isSome := by
  obtain ⟨entry, entered, last, passed, enters, _, passes, rfl⟩ := visit_eq_ok visited
  have untouched := (kept_of_advances passes).2.trans (kept_of_enter enters).2.2.1
  simp only [untouched, Assignment.get?_set]
  split
  · rfl
  · next other => exact known.resolve_left other

theorem entered_of_visits {items : List (β × List ι)} {pass after : Pass σ β ι}
    (visited : (items.foldlM (problem.visit session) pass).outcome = .ok after) {block : β}
    (known : block ∈ items.map Prod.fst ∨ (pass.entries.get? block).isSome) :
    (after.entries.get? block).isSome := by
  induction items generalizing pass with
  | nil =>
    cases visited
    exact known.resolve_left List.not_mem_nil
  | cons item rest ih =>
    rw [List.foldlM_cons] at visited
    obtain ⟨middle, first, others⟩ := Traced.outcome_bind_eq_ok.mp visited
    rw [List.map_cons, List.mem_cons, or_assoc, or_left_comm] at known
    exact ih others (known.imp_right (entered_of_visit first))

/-- A sweep enters every listed block. -/
theorem SweepsTo.entered (swept : problem.SweepsTo session next) {block : β}
    (listed : block ∈ problem.graph.blocks) : (next.entries.get? block).isSome := by
  obtain ⟨_, swept⟩ := swept
  have planned : block ∈ problem.plan.map Prod.fst := by
    rw [plan, List.map_map]
    exact List.mem_map.mpr
      ⟨block, (problem.client.direction.mem_blockOrder problem.graph).mpr listed, rfl⟩
  obtain ⟨pass, visited, ⟨_, _, _, rfl⟩ | ⟨_, _, rfl⟩⟩ := sweep_eq_ok swept
  · exact entered_of_visits visited (.inl planned)
  · exact entered_of_visits visited (.inl planned)

end Entries

variable [DecidableEq ε]

inductive HandsOut (problem : Problem σ β ι ν ε) : Results β ι ε → Prop where
  | solved {solver : Solver σ β ι ν ε} {patience : Nat} {results : Results β ι ε}
      (driven : Solver.Driven problem solver)
      (solves : (solver.trySolve patience).outcome = .ok (some (.ok results))) :
      HandsOut problem results
  | finished {solver : Solver σ β ι ν ε} {results : Results β ι ε}
      (driven : Solver.Driven problem solver) (finishes : solver.finish.outcome = .ok results) :
      HandsOut problem results

namespace HandsOut

variable {problem : Problem σ β ι ν ε} {results : Results β ι ε}

theorem exists_session (handed : problem.HandsOut results) :
    ∃ first final, problem.Starts first ∧ problem.Sweeps first final ∧
      final.stage = .converged ∧ results = problem.resultsOf final := by
  cases handed with
  | solved driven solves => exact driven.trySolve_eq_ok solves
  | @finished solver _ driven finishes =>
    obtain ⟨rfl, sessions⟩ := driven.reached
    cases here : solver.session? with
    | none =>
      rw [Solver.finish, here] at finishes
      cases finishes
    | some session =>
      rw [Solver.finish, here] at finishes
      obtain ⟨first, started, sweeps⟩ := sessions session here
      obtain ⟨stage, final, last, same⟩ := conclude_eq_ok finishes
      exact ⟨first, final, started, sweeps.trans last, last.converged stage, same⟩

theorem distinct (handed : problem.HandsOut results) : problem.graph.program.Nodup := by
  obtain ⟨first, _, started, _⟩ := handed.exists_session
  exact started.distinct

theorem direction (handed : problem.HandsOut results) :
    results.direction = problem.client.direction := by
  obtain ⟨_, _, _, _, _, rfl⟩ := handed.exists_session
  rfl

/-- Elements are shown as the client shows them on the graph that was analyzed. -/
theorem names (handed : problem.HandsOut results) :
    results.names =
      (results.domain.elements.map (problem.client.elementName problem.graph)).toArray := by
  obtain ⟨_, _, _, _, _, rfl⟩ := handed.exists_session
  rfl

theorem width_fact (handed : problem.HandsOut results) {inst : ι} {fact : Fact}
    (found : results.factOf? inst = some fact) : fact.width = results.domain.size := by
  obtain ⟨first, final, started, sweeps, _, rfl⟩ := handed.exists_session
  have width := started.widths sweeps inst
  rw [show final.store.get? inst = some fact from found] at width
  split at width
  · exact (Option.some.inj width).trans (congrArg Domain.size sweeps.sameRun.domain.symm)
  · cases width

theorem width_entry (handed : problem.HandsOut results) {block : β} {entry : EntryFact}
    (found : results.entryFact? block = some entry) : entry.fact.width = results.domain.size := by
  obtain ⟨first, final, started, sweeps, _, rfl⟩ := handed.exists_session
  exact Sweeps.sized sweeps started.sized_entries block entry found

theorem exists_entry (handed : problem.HandsOut results) {block : β}
    (listed : block ∈ problem.graph.blocks) : ∃ entry, results.entryFact? block = some entry := by
  obtain ⟨first, final, started, sweeps, converged, rfl⟩ := handed.exists_session
  -- nothing has converged at the start, so there was a last sweep
  rcases Relation.ReflTransGen.cases_tail sweeps with none | ⟨last, before, sweep⟩
  · have stage := (begin_eq_ok (starts_iff.mp started).2).2.2.2.1
    rw [none, stage] at converged
    cases converged
  · exact Option.isSome_iff_exists.mp (sweep.entered listed)

/-- Every instruction has its elements, and asking for one of them gives the same answer. -/
theorem exists_elements (handed : problem.HandsOut results) (inst : ι) :
    ∃ elements, results.elementsOf inst = .ok elements ∧
      elements.Sublist results.domain.elements ∧
      ∀ e, results.holds inst e = .ok (decide (e ∈ elements)) := by
  unfold Results.elementsOf Results.holds
  cases found : results.factOf? inst with
  | none => exact ⟨[], rfl, List.nil_sublist _, fun e => by simp⟩
  | some fact =>
    have sized := handed.width_fact found
    refine ⟨_, results.domain.decode_eq_filter sized.le, List.filter_sublist, fun e => ?_⟩
    cases place : results.domain.indexOf? e with
    | none =>
      have absent : e ∉ results.domain.elements := by
        rw [← results.domain.indexOf?_isSome_iff, place]
        exact Bool.false_ne_true
      simp [absent]
    | some i =>
      have listed : e ∈ results.domain.elements := by
        rw [← results.domain.indexOf?_isSome_iff, place]
        rfl
      have bound : i < fact.width := (Domain.lt_size_of_indexOf? place).trans_eq sized.symm
      simp [Fact.contains, bound, listed, Domain.coded_iff place]

end HandsOut

/-- A run that ends has handed out its results. -/
theorem handsOut_of_endsWith {problem : Problem σ β ι ν ε} {results : Results β ι ε}
    (ends : (Solver.ofProblem problem).EndsWith results) : problem.HandsOut results := by
  have solves := ends results.stats.sweeps
  rw [if_pos (Nat.le_refl _)] at solves
  exact .solved .fresh solves

end Problem

theorem Liveness.handsOut_on_loops :
    ∃ results, (liveVariables.on Table.loops.graph .standard).HandsOut results := by
  obtain ⟨results, ends, _⟩ : ∃ results,
      (Solver.ofProblem (liveVariables.on Table.loops.graph .standard)).EndsWith results ∧ _ :=
    Liveness.endsWith (by decide) (by decide) (by decide) (by decide) rfl
  exact ⟨results, Problem.handsOut_of_endsWith ends⟩

variable [DecidableEq ε]

/-- Elements are numbered as they first come, and every insertion answers with the number that its
element keeps. The frozen domain looks elements up as the builder does. Facts as wide as a domain code its sets of elements. Results therefore say the same
of an instruction whether they are asked for its elements or for one of them. -/
theorem numbers_code_elements :
    (∀ inserted : List ε,
      (Domain.Builder.empty.insertAll inserted).2.freeze.Numbers inserted ∧
      (Domain.Builder.empty.insertAll inserted).1.map some =
        inserted.map (Domain.Builder.empty.insertAll inserted).2.freeze.indexOf? ∧
      ∀ e, (Domain.Builder.empty.insertAll inserted).2.freeze.indexOf? e =
        (Domain.Builder.empty.insertAll inserted).2.index.get? e) ∧
    (∀ domain : Domain ε, domain.Codes) ∧
    ∀ (problem : Problem σ β ι ν ε) (results : Results β ι ε), problem.HandsOut results →
      ∀ inst, ∃ elements, results.elementsOf inst = .ok elements ∧
        ∀ e, results.holds inst e = .ok (decide (e ∈ elements)) := by
  refine ⟨fun inserted => ⟨?_, ?_, ?_⟩, fun domain => ?_, fun problem results handed inst => ?_⟩
  · rw [Domain.Builder.freeze_insertAll, Domain.Builder.freeze_empty]
    exact Domain.numbers_ofList inserted
  · exact Domain.Builder.empty.answers_insertAll inserted
  · exact (Domain.Builder.empty.insertAll inserted).2.indexOf?_freeze
  · exact ⟨domain.decode_factOf, fun _ => domain.factOf_decode⟩
  · obtain ⟨elements, answered, _, asked⟩ := handed.exists_elements inst
    exact ⟨elements, answered, asked⟩

theorem numbers_code_elements_on_loops :
    ((Domain.Builder.empty.insertAll [7, 5, 7, 9, 5]).1 = [0, 1, 0, 2, 1] ∧
      (Domain.Builder.empty.insertAll [7, 5, 7, 9, 5]).2.freeze.Numbers [7, 5, 7, 9, 5] ∧
      (Domain.Builder.empty.insertAll [7, 5, 7, 9, 5]).2.freeze.indexOf? 9 = some 2) ∧
    ∃ results, (liveVariables.on Table.loops.graph .standard).HandsOut results ∧
      results.domain.Codes ∧ ∀ inst, ∃ elements, results.elementsOf inst = .ok elements ∧
        ∀ e, results.holds inst e = .ok (decide (e ∈ elements)) := by
  obtain ⟨numbering, codes, asked⟩ := numbers_code_elements (σ := Unit) (β := Nat) (ι := Nat)
    (ν := Nat) (ε := Nat)
  obtain ⟨results, handed⟩ := Liveness.handsOut_on_loops
  refine ⟨⟨by decide, (numbering _).1, ?_⟩, results, handed, codes _, asked _ results handed⟩
  rw [(numbering _).2.2]
  decide

end Dataflow
