import Dataflow.Proofs.Reaching.Exact

/-! What monotone problems compute, and how long they take. Growing from nothing a run ends on
the least solution of its equations, shrinking from everything on the greatest, and in either
case before it has run out of facts to change. -/
namespace Dataflow

def Reaching.startedFrom {β ι ν : Type} [DecidableEq ν] (polarity : Polarity) : Analysis β ι ν ν :=
  { reachingDefinitions with initial := fun cx => .ok (polarity.seed cx.domain.size) }

theorem Reaching.starts {β ι ν : Type} [DecidableEq β] [DecidableEq ι] [DecidableEq ν]
    (graph : FlowGraph β ι ν) (polarity : Polarity) (config : Config) (sound : graph.defect? = none)
    (distinct : graph.program.Nodup) :
    ∃ session, ((startedFrom polarity).on graph config).Starts session ∧
      session.domain = reachingDefinitions.domain graph ∧
      ((startedFrom polarity).on graph config).Computes session.domain
        (operators graph session.domain) ∧
      ((startedFrom polarity).on graph config).client.Seeds graph session.domain polarity := by
  obtain ⟨session, started, domain, _⟩ := Analysis.starts
    (show ((startedFrom polarity).on graph config).defect? = none by simp [Problem.defect?, sound])
    distinct rfl rfl (polarity.width_seed _) (Domain.width_factOf _ _)
  have computes : (reachingDefinitions.on graph config).Computes session.domain
      (operators graph session.domain) := computes
  exact ⟨session, started, domain, ⟨computes.meet, computes.transfer⟩, fun _ => rfl⟩

variable {σ β ι ν ε : Type} [DecidableEq β] [DecidableEq ι] [DecidableEq ε]
  {problem : Problem σ β ι ν ε} {session : Session σ β ι ε} {ops : Operators β ι}
  {polarity : Polarity}

/-- A run that may sweep once more than it has bits to change ends with an answer. -/
theorem monotone_problem_converges (started : problem.Starts session)
    (computes : problem.Computes session.domain ops)
    (sized : ops.Sized session.domain.size) (monotone : ops.Monotone session.domain.size)
    (seeds : problem.client.Seeds problem.graph session.domain polarity)
    (unlimited : ∀ limit ∈ problem.config.maxSweeps,
      session.domain.size * problem.graph.instructionCount + 1 ≤ limit) :
    ∃ results, (Solver.ofProblem problem).EndsWith results ∧
      results.stats.domainSize = session.domain.size ∧
      results.stats.instructions = problem.graph.instructionCount ∧
      1 ≤ results.stats.sweeps ∧
      results.stats.sweeps ≤ results.stats.domainSize * results.stats.instructions + 1 := by
  rw [FlowGraph.instructionCount_eq] at unlimited ⊢
  obtain ⟨results, ends, _, _, _, first, last, domainSize, instructions⟩ :=
    (Problem.Follows.of_computes computes (started.sized sized)).endsWith_of_monotone started
      started.fills monotone seeds unlimited
  exact ⟨results, ends, domainSize, instructions, first, by rwa [domainSize, instructions]⟩

theorem monotone_problem_converges_on_loops :
    ∃ session, ((Reaching.startedFrom .ascending).on Table.loops.graph ⟨some 21, true, true⟩).Starts
        session ∧
      ∃ results, (Solver.ofProblem ((Reaching.startedFrom .ascending).on Table.loops.graph
          ⟨some 21, true, true⟩)).EndsWith results ∧
        results.stats.domainSize = session.domain.size ∧
        results.stats.instructions = Table.loops.graph.instructionCount ∧
        1 ≤ results.stats.sweeps ∧
        results.stats.sweeps ≤ results.stats.domainSize * results.stats.instructions + 1 := by
  obtain ⟨session, started, domain, computes, seeds⟩ := Reaching.starts Table.loops.graph .ascending
    ⟨some 21, true, true⟩ (by decide) (by decide)
  have enough : session.domain.size * Table.loops.graph.instructionCount + 1 ≤ 21 := by
    rw [domain]
    decide
  exact ⟨session, started, monotone_problem_converges started computes Reaching.operators_sized
    Reaching.operators_monotone seeds (by simpa using enough)⟩

/-- The answer is the solution that the climb comes to first. -/
theorem monotone_problem_extremal (started : problem.Starts session)
    (computes : problem.Computes session.domain ops)
    (sized : ops.Sized session.domain.size) (monotone : ops.Monotone session.domain.size)
    (seeds : problem.client.Seeds problem.graph session.domain polarity)
    (unlimited : problem.config.maxSweeps = none) :
    ∃ results, (Solver.ofProblem problem).EndsWith results ∧ results.domain = session.domain ∧
      (problem.system session.domain session.boundary ops).Extremal polarity results.store := by
  let system := problem.system session.domain session.boundary ops
  have regular : system.Regular := ⟨started.sized sized, monotone, started.distinct⟩
  have fresh : system.Fresh polarity session.store := started.fresh seeds
  have within : problem.Follows session.domain session.boundary ops fun store =>
      system.Covers store ∧ ∀ bound, system.Covers bound → system.Bounds polarity bound →
        polarity.Under store bound :=
    (Problem.Follows.of_computes computes regular.sized).strengthen
      fun _ _ covers under listed bound coversBound bounds =>
        bounds.under_settle regular covers coversBound (under bound coversBound bounds) listed
  obtain ⟨results, ends, domain, ⟨covers, under⟩, solves, _⟩ := within.endsWith_of_monotone started
    ⟨fresh.covers, fun _ coversBound _ => fresh.under coversBound⟩ monotone seeds
    (by simp [unlimited])
  exact ⟨results, ends, domain, covers, solves, under⟩

/-- Started from everything, the loops end on a greatest solution. -/
theorem monotone_problem_extremal_on_loops :
    ∃ session, ((Reaching.startedFrom .descending).on Table.loops.graph .standard).Starts session ∧
      ∃ results, (Solver.ofProblem ((Reaching.startedFrom .descending).on Table.loops.graph
          .standard)).EndsWith results ∧ results.domain = session.domain ∧
        (Problem.system ((Reaching.startedFrom .descending).on Table.loops.graph .standard)
          session.domain session.boundary
          (Reaching.operators Table.loops.graph session.domain)).Extremal .descending
            results.store := by
  obtain ⟨session, started, _, computes, seeds⟩ := Reaching.starts Table.loops.graph .descending
    .standard (by decide) (by decide)
  exact ⟨session, started, monotone_problem_extremal started computes Reaching.operators_sized
    Reaching.operators_monotone seeds rfl⟩

end Dataflow
