import Dataflow.Proofs.Solver.Listing
import Dataflow.Proofs.Solver.Verification

/-! Problems that cannot be told apart. Two problems may find different facts in front of a block and
still enter it alike, at least on the stores that runs come to. From there on they do the same: every
visit, every sweep and every run of one of them is a visit, a sweep and a run of the other, down to
what is reported. -/
namespace Dataflow

variable {σ β ι ν ε : Type} [DecidableEq β] [DecidableEq ι]

namespace Problem

/-- On valid stores the second problem enters blocks as the first one does, and in all else it does
what the first one does on any store. -/
structure Alike (first second : Problem σ β ι ν ε) (domain : Domain ε) (boundary : Fact)
    (valid : Store ι → Prop) : Prop where
  config : second.config = first.config
  name : second.client.name = first.client.name
  plan : second.plan = first.plan
  enter : ∀ (session : Session σ β ι ε) (pass : Pass σ β ι) (block : β),
    session.domain = domain → session.boundary = boundary → valid pass.store →
    block ∈ first.graph.blocks → second.enter session pass block = first.enter session pass block
  advance : ∀ session : Session σ β ι ε, second.advance session = first.advance session
  results : ∀ session, second.resultsOf session = first.resultsOf session

/-- Runs of the two problems cannot be told apart. They start alike, and after any number of sweeps
they have the same facts, entries and counts; solved at once they answer and report the same, and
whatever results are handed out, the listing for either graph is the same. -/
structure SameRuns [DecidableEq ε] (first second : Problem σ β ι ν ε) : Prop where
  sweeps : ∃ session, first.Starts session ∧ second.Starts session ∧ ∀ times, ∃ answers next,
    (Solver.sweepTimes times ⟨first, some session⟩).outcome = .ok (answers, ⟨first, some next⟩) ∧
    (Solver.sweepTimes times ⟨second, some session⟩).outcome = .ok (answers, ⟨second, some next⟩)
  solves : ∀ patience, (Solver.ofProblem second).trySolve patience =
    (Solver.ofProblem first).trySolve patience
  ends : first.config.maxSweeps = none → ∃ results,
    (Solver.ofProblem first).EndsWith results ∧ (Solver.ofProblem second).EndsWith results
  listings : ∀ results, first.HandsOut results → ∃ text,
    results.dump first.graph = .ok text ∧ results.dump second.graph = .ok text

theorem conclude_eq_bind (problem : Problem σ β ι ν ε) (session : Session σ β ι ε) :
    problem.conclude session = (do
      .check (session.stage = .converged) (.notConverged (some session.stage))
      let session ← if problem.config.verifyFixpoint then Prod.snd <$> problem.sweep session
        else pure session
      .emit (.converged problem.client.name (problem.resultsOf session).direction session.stats)
      return problem.resultsOf session) := rfl

namespace Alike

variable {first second : Problem σ β ι ν ε} {session : Session σ β ι ε} {ops : Operators β ι}
  {valid : Store ι → Prop}

section Sweeps

variable (alike : first.Alike second session.domain session.boundary valid)

include alike

theorem visit {pass : Pass σ β ι} (good : valid pass.store) {block : β}
    (listed : block ∈ first.graph.blocks) (insts : List ι) :
    second.visit session pass (block, insts) = first.visit session pass (block, insts) := by
  simp only [Problem.visit, alike.enter session pass block rfl rfl good listed, alike.advance]

variable (follows : first.Follows session.domain session.boundary ops valid)

include follows

theorem visits {blocks : List β} (pass : Pass σ β ι) (good : valid pass.store)
    (listed : ∀ block ∈ blocks, block ∈ first.graph.blocks) :
    (blocks.map fun block =>
        (block, first.client.direction.instructionOrder first.graph block)).foldlM
          (second.visit session) pass =
      (blocks.map fun block =>
        (block, first.client.direction.instructionOrder first.graph block)).foldlM
          (first.visit session) pass := by
  induction blocks generalizing pass with
  | nil => rfl
  | cons block rest ih =>
    obtain ⟨here, others⟩ := List.forall_mem_cons.mp listed
    rw [List.map_cons, List.foldlM_cons, List.foldlM_cons, alike.visit good here]
    -- only the first problem's visits are known to keep stores valid, and they are the second's
    refine Traced.bind_congr_of_ok fun middle visited => ih middle ?_ others
    obtain ⟨next, ended, recorded⟩ := follows.outcome_visit good here
    cases visited.symm.trans ended
    rw [recorded.store]
    exact follows.settle pass.store block good here

theorem sweep (good : valid session.store) : second.sweep session = first.sweep session := by
  have traversed : second.traverse session = first.traverse session := by
    unfold Problem.traverse
    rw [alike.plan]
    exact alike.visits follows session.opening good fun _ =>
      (first.client.direction.mem_blockOrder first.graph).mp
  simp only [Problem.sweep, traversed, alike.name]

end Sweeps

section Runs

variable {start : Session σ β ι ε} (alike : first.Alike second start.domain start.boundary valid)
  (follows : first.Follows start.domain start.boundary ops valid) (good : valid start.store)
  (running : start.stage ≠ .converged)

include alike follows good running

/-- Wherever a run has come, both problems sweep on alike. -/
theorem sweep_of_sweeps (sweeps : first.Sweeps start session) :
    second.sweep session = first.sweep session := by
  obtain ⟨here, goodHere, _⟩ := follows.reached good running sweeps
  rw [← sweeps.sameRun.domain, ← sweeps.sameRun.boundary] at alike
  exact alike.sweep here goodHere

theorem sweepTimes [DecidableEq ε] (sweeps : first.Sweeps start session) (times : Nat) :
    ∃ answers next,
      (Solver.sweepTimes times ⟨first, some session⟩).outcome = .ok (answers, ⟨first, some next⟩) ∧
      (Solver.sweepTimes times ⟨second, some session⟩).outcome =
        .ok (answers, ⟨second, some next⟩) := by
  induction times generalizing session with
  | zero => exact ⟨[], session, rfl, rfl⟩
  | succ times ih =>
    obtain ⟨⟨changed, middle⟩, swept⟩ := follows.exists_sweep good running sweeps
    have sweptToo : (second.sweep session).outcome = .ok (changed, middle) := by
      rw [alike.sweep_of_sweeps follows good running sweeps, swept]
    obtain ⟨answers, next, others, othersToo⟩ := ih (sweeps.tail ⟨changed, swept⟩)
    exact ⟨changed :: answers, next, sweepTimes_succ swept others, sweepTimes_succ sweptToo othersToo⟩

theorem iterate (sweeps : first.Sweeps start session) (patience : Nat) :
    second.iterate patience session = first.iterate patience session := by
  have limit : ∀ count, second.atLimit count = first.atLimit count := fun count => by
    rw [atLimit, atLimit, alike.config]
  induction patience generalizing session with
  | zero => rw [Problem.iterate, Problem.iterate, limit, alike.name]
  | succ patience ih =>
    by_cases converged : session.stage = .converged
    · rw [iterate_of_converged converged, iterate_of_converged converged]
    · cases below : first.atLimit session.stats.sweeps with
      | true =>
        rw [Problem.iterate, Problem.iterate, limit, below, alike.name, if_neg converged,
          if_pos rfl, if_neg converged, if_pos rfl]
      | false =>
        rw [iterate_succ converged below, iterate_succ converged ((limit _).trans below),
          alike.sweep_of_sweeps follows good running sweeps]
        exact Traced.bind_congr_of_ok fun swept ended => ih (sweeps.tail ⟨swept.1, ended⟩)

theorem conclude (sweeps : first.Sweeps start session) :
    second.conclude session = first.conclude session := by
  rw [conclude_eq_bind, conclude_eq_bind]
  simp only [alike.config, alike.name, alike.results,
    alike.sweep_of_sweeps follows good running sweeps]

theorem trySolve [DecidableEq ε] (sound : first.defect? = none) (soundToo : second.defect? = none)
    (begins : second.begin = first.begin) (started : first.Starts start) (patience : Nat) :
    (Solver.ofProblem second).trySolve patience = (Solver.ofProblem first).trySolve patience := by
  have ready : (Solver.ofProblem second).running = (Solver.ofProblem first).running := by
    simp only [Solver.running, Solver.ofProblem, sound, soundToo, begins]
  unfold Solver.trySolve
  rw [ready]
  refine Traced.bind_congr_of_ok fun answer ran => ?_
  cases answer with
  | error error => rfl
  | ok session =>
    obtain ⟨other, startedOther, sweeps⟩ := Solver.Driven.fresh.reached_of_running ran
    cases started.unique startedOther
    have loop : (Solver.ofProblem second).problem.iterate patience session =
        (Solver.ofProblem first).problem.iterate patience session :=
      alike.iterate follows good running sweeps patience
    simp only [loop]
    refine Traced.bind_congr_of_ok fun ended looped => ?_
    rcases ended with _ | _ | final
    · rfl
    · rfl
    · have concluded : (Solver.ofProblem second).problem.conclude final =
          (Solver.ofProblem first).problem.conclude final :=
        alike.conclude follows good running (sweeps.trans (sweeps_of_iterate looped).1)
      simp only [concluded]

theorem sameRuns [DecidableEq ε] (started : first.Starts start) (sound : second.defect? = none)
    (begins : second.begin = first.begin)
    (ends : first.config.maxSweeps = none → ∃ results, (Solver.ofProblem first).EndsWith results)
    (lists : ∀ results : Results β ι ε, results.dump second.graph = results.dump first.graph) :
    first.SameRuns second := by
  have began := starts_iff.mp started
  have solves := alike.trySolve follows good running began.1 sound begins started
  refine ⟨⟨start, started, ?_, alike.sweepTimes follows good running .refl⟩, solves, ?_, ?_⟩
  · exact starts_iff.mpr ⟨sound, begins ▸ began.2⟩
  · intro unlimited
    obtain ⟨results, ended⟩ := ends unlimited
    refine ⟨results, ended, fun patience => ?_⟩
    rw [solves]
    exact ended patience
  · intro results handed
    obtain ⟨text, listed⟩ := handed.exists_dump first.graph
    exact ⟨text, listed, (lists results).trans listed⟩

end Runs

end Alike

end Problem

end Dataflow
