import Dataflow.Proofs.Solver.Equations

/-! Sweeps after convergence. Where the operators are functions of what they are given, the last
counted sweep has asked every question that a further sweep asks, and has stored every answer. A
further sweep therefore changes nothing but what the client remembers: no fact, no entry, no count,
and it reports nothing. -/
namespace Dataflow

theorem Call.exists_traced {σ α : Type} (β ι : Type) {call : Call σ α} {value : α}
    (answers : call.Answers value) (memory : σ) :
    ∃ after, (call.traced memory : Traced β ι (α × σ)) = pure (value, after) := by
  refine ⟨(call.run memory).2, ?_⟩
  simp only [Call.traced, answers memory]
  rfl

variable {σ β ι ν ε : Type} [DecidableEq β] [DecidableEq ι]

def Session.EntriesSized (session : Session σ β ι ε) (entries : Assignment β EntryFact) : Prop :=
  ∀ block entry, entries.get? block = some entry → entry.fact.width = session.domain.size

namespace Problem

variable {problem : Problem σ β ι ν ε} {session next : Session σ β ι ε}

section Entries

theorem sized_of_visit {item : β × List ι} {pass after : Pass σ β ι}
    (visited : (problem.visit session pass item).outcome = .ok after)
    (sized : session.EntriesSized pass.entries) : session.EntriesSized after.entries := by
  obtain ⟨entry, entered, last, passed, enters, width, passes, rfl⟩ := visit_eq_ok visited
  have untouched := (kept_of_advances passes).2.trans (kept_of_enter enters).2.2.1
  intro block other found
  simp only [untouched, Assignment.get?_set] at found
  split at found
  · cases found
    exact width
  · exact sized block other found

theorem sized_of_visits {items : List (β × List ι)} {pass after : Pass σ β ι}
    (visited : (items.foldlM (problem.visit session) pass).outcome = .ok after)
    (sized : session.EntriesSized pass.entries) : session.EntriesSized after.entries := by
  induction items generalizing pass with
  | nil =>
    cases visited
    exact sized
  | cons item rest ih =>
    rw [List.foldlM_cons] at visited
    obtain ⟨middle, first, others⟩ := Traced.outcome_bind_eq_ok.mp visited
    exact ih others (sized_of_visit first sized)

theorem SweepsTo.sized (swept : problem.SweepsTo session next)
    (sized : session.EntriesSized session.entries) : next.EntriesSized next.entries := by
  obtain ⟨_, swept⟩ := swept
  obtain ⟨pass, visited, ⟨_, _, _, rfl⟩ | ⟨_, _, rfl⟩⟩ := sweep_eq_ok swept
  · exact sized_of_visits visited sized
  · exact sized_of_visits visited sized

theorem Sweeps.sized (swept : problem.Sweeps session next)
    (sized : session.EntriesSized session.entries) : next.EntriesSized next.entries := by
  induction swept with
  | refl => exact sized
  | tail _ step ih => exact step.sized ih

omit [DecidableEq β] in
theorem entries_of_begin [DecidableEq ε] (began : problem.begin.outcome = .ok session) :
    session.entries = Assignment.empty := by
  unfold Problem.begin at began
  obtain ⟨_, _, began⟩ := Traced.outcome_bind_eq_ok.mp began
  obtain ⟨_, _, began⟩ := Traced.outcome_bind_eq_ok.mp began
  obtain ⟨_, _, began⟩ := Traced.outcome_bind_eq_ok.mp began
  obtain ⟨_, _, began⟩ := Traced.outcome_bind_eq_ok.mp began
  obtain ⟨_, _, began⟩ := Traced.outcome_bind_eq_ok.mp began
  obtain ⟨_, _, began⟩ := Traced.outcome_bind_eq_ok.mp began
  obtain ⟨_, _, began⟩ := Traced.outcome_bind_eq_ok.mp began
  cases began
  rfl

theorem Starts.sized_entries [DecidableEq ε] (started : problem.Starts session) :
    session.EntriesSized session.entries := by
  intro block entry found
  rw [entries_of_begin (starts_iff.mp started).2, Assignment.get?_empty] at found
  cases found

end Entries

theorem enter_of_enters {block : β} {entry : EntryFact} (pass : Pass σ β ι)
    (enters : problem.Enters session.domain session.boundary pass.store block entry) :
    ∃ memory meets,
      problem.enter session pass block = pure (entry, { pass with memory, meets }) := by
  cases enters with
  | boundary outer =>
    refine ⟨pass.memory, pass.meets, ?_⟩
    simp [Problem.enter, outer]
  | meet inner nonempty answers =>
    obtain ⟨memory, asked⟩ := Call.exists_traced β ι answers pass.memory
    refine ⟨memory, pass.meets + 1, ?_⟩
    simp only [Problem.enter, inner, List.isEmpty_eq_false_iff.mpr nonempty, Bool.or_self,
      Bool.false_eq_true, if_false, asked, pure_bind]

omit [DecidableEq β] in
theorem advance_of_answers {block : β} {inst : ι} {input output : Fact} (pass : Pass σ β ι)
    (answers : (problem.client.transfer ⟨problem.graph, session.domain, pass.store⟩ inst
      input).Answers output) (found : pass.store.get? inst = some output) :
    ∃ memory, problem.advance session block (input, pass) inst =
      pure (output, { pass with memory, transfers := pass.transfers + 1 }) := by
  have kept : pass.store.update inst output = .ok (false, pass.store) := by
    rw [Store.update_eq found rfl, Assignment.set_eq_self found]
    simp [found]
  obtain ⟨memory, asked⟩ := Call.exists_traced β ι answers pass.memory
  refine ⟨memory, ?_⟩
  simp only [Problem.advance, asked, pure_bind, kept]
  rfl

omit [DecidableEq β] in
theorem advances_of_reproduces (block : β) {insts : List ι} {input : Fact} (pass : Pass σ β ι)
    (reproduces : problem.Reproduces session.domain pass.store input insts) :
    ∃ output memory transfers, insts.foldlM (problem.advance session block) (input, pass) =
      pure (output, { pass with memory, transfers }) := by
  induction insts generalizing input pass with
  | nil => exact ⟨input, pass.memory, pass.transfers, rfl⟩
  | cons inst rest ih =>
    obtain ⟨output, answers, found, others⟩ := reproduces
    obtain ⟨memory, step⟩ := advance_of_answers pass answers found
    obtain ⟨last, after, transfers, passes⟩ :=
      ih { pass with memory, transfers := pass.transfers + 1 } others
    exact ⟨last, after, transfers, by rw [List.foldlM_cons, step, pure_bind, passes]⟩

/-- Visiting a block that is balanced asks the client and changes nothing. -/
theorem visit_of_balanced {block : β} (pass : Pass σ β ι)
    (sized : session.EntriesSized pass.entries)
    (balanced : problem.Balanced session.domain session.boundary pass.store pass.entries block) :
    ∃ memory meets transfers, problem.visit session pass
        (block, problem.client.direction.instructionOrder problem.graph block) =
      pure { pass with memory, meets, transfers } := by
  obtain ⟨entry, found, enters, reproduces⟩ := balanced
  obtain ⟨first, meets, entered⟩ := enter_of_enters pass enters
  obtain ⟨last, memory, transfers, passes⟩ :=
    advances_of_reproduces block { pass with memory := first, meets } reproduces
  refine ⟨memory, meets, transfers, ?_⟩
  have width : (Traced.check (entry.fact.width = session.domain.size)
      (.meetWidth entry.fact.width session.domain.size) : Traced β ι Unit) = pure () := by
    simp only [Traced.check, sized block entry found, decide_true, if_true]
    rfl
  simp only [Problem.visit, entered, pure_bind, width, passes, Assignment.set_eq_self found]

theorem visits_of_balanced {blocks : List β} (pass : Pass σ β ι)
    (sized : session.EntriesSized pass.entries)
    (balanced : ∀ block ∈ blocks,
      problem.Balanced session.domain session.boundary pass.store pass.entries block) :
    ∃ memory meets transfers, (blocks.map fun block =>
        (block, problem.client.direction.instructionOrder problem.graph block)).foldlM
          (problem.visit session) pass = pure { pass with memory, meets, transfers } := by
  induction blocks generalizing pass with
  | nil => exact ⟨pass.memory, pass.meets, pass.transfers, rfl⟩
  | cons block rest ih =>
    rw [List.forall_mem_cons] at balanced
    obtain ⟨first, some, few, visited⟩ := visit_of_balanced pass sized balanced.1
    obtain ⟨memory, meets, transfers, others⟩ :=
      ih { pass with memory := first, meets := some, transfers := few } sized balanced.2
    refine ⟨memory, meets, transfers, ?_⟩
    rw [List.map_cons, List.foldlM_cons, visited, pure_bind, others]

/-- A converged run whose blocks are all balanced is swept without a trace. -/
theorem sweep_of_balanced (converged : session.stage = .converged)
    (sized : session.EntriesSized session.entries)
    (balanced : ∀ block ∈ problem.graph.blocks,
      problem.Balanced session.domain session.boundary session.store session.entries block) :
    ∃ memory, problem.sweep session = pure (false, { session with memory }) := by
  obtain ⟨memory, meets, transfers, visited⟩ := visits_of_balanced session.opening sized
    fun block member =>
      balanced block ((problem.client.direction.mem_blockOrder problem.graph).mp member)
  refine ⟨memory, ?_⟩
  have traversed : problem.traverse session =
      pure { session.opening with memory, meets, transfers } := visited
  have steady : (Traced.check (!decide (0 < session.opening.changes))
      (.unstable problem.client.name) : Traced β ι Unit) = pure () := rfl
  simp only [Problem.sweep, traversed, pure_bind, if_pos converged, steady]
  rfl

variable [DecidableEq ε] (pure : problem.IsPure) {first : Session σ β ι ε}
  (started : problem.Starts first) (sweeps : problem.Sweeps first session)
  (converged : session.stage = .converged)

include pure started sweeps converged

/-- Once a run has converged, a further sweep leaves it as it is. -/
theorem Starts.sweep_converged :
    ∃ memory, problem.sweep session = Pure.pure (false, { session with memory }) :=
  sweep_of_balanced converged (Sweeps.sized sweeps started.sized_entries)
    fun _ listed => started.balanced pure sweeps converged listed

/-- A converged run is reported and handed out as it is, verified or not. -/
theorem Starts.conclude_converged :
    problem.conclude session = (do
      .emit (.converged problem.client.name problem.client.direction session.stats)
      return problem.resultsOf session) := by
  obtain ⟨memory, swept⟩ := started.sweep_converged pure sweeps converged
  have passed : (Traced.check (session.stage = .converged) (.notConverged (some session.stage)) :
      Traced β ι Unit) = Pure.pure () := by
    simp only [Traced.check, converged, decide_true, if_true]
    rfl
  simp only [conclude, passed, pure_bind]
  split
  · rw [swept, map_pure, pure_bind]
    rfl
  · rfl

end Problem

end Dataflow
