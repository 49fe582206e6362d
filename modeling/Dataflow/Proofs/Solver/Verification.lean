import Dataflow.Proofs.Solver.Stepwise

/-! Verification does not show. Where the operators are functions of what they are given, of the
facts so far too, a converged run can be swept on for ever: every sweep answers that nothing has
changed, and nothing has. Whether the results are verified before they are handed out therefore
makes no difference to what a caller or a reader of the log can see. -/
namespace Dataflow

theorem Traced.bind_congr_of_ok {β ι α γ : Type} {first : Traced β ι α}
    {next other : α → Traced β ι γ}
    (agree : ∀ value, first.outcome = .ok value → next value = other value) :
    first >>= next = first >>= other := by
  cases ended : first.outcome with
  | error fault => rw [bind_of_error ended, bind_of_error ended]
  | ok value => rw [bind_of_ok ended, bind_of_ok ended, agree value ended]

variable {σ β ι ν ε : Type} [DecidableEq β] [DecidableEq ι]

def Problem.verifying (problem : Problem σ β ι ν ε) (verify : Bool) : Problem σ β ι ν ε :=
  { problem with config := { problem.config with verifyFixpoint := verify } }

def Solver.verifying (solver : Solver σ β ι ν ε) (verify : Bool) : Solver σ β ι ν ε :=
  { solver with problem := solver.problem.verifying verify }

namespace Problem

variable {problem : Problem σ β ι ν ε} {session : Session σ β ι ε}

theorem sweep_verifying (problem : Problem σ β ι ν ε) (verify : Bool)
    (session : Session σ β ι ε) :
    (problem.verifying verify).sweep session = problem.sweep session := rfl

/-- The loop of sweeps does not ask for verification. -/
theorem iterate_verifying (problem : Problem σ β ι ν ε) (verify : Bool) (patience : Nat)
    (session : Session σ β ι ε) :
    (problem.verifying verify).iterate patience session = problem.iterate patience session := by
  have limit : ∀ sweeps, (problem.verifying verify).atLimit sweeps = problem.atLimit sweeps :=
    fun _ => rfl
  induction patience generalizing session with
  | zero =>
    rw [iterate, iterate, limit]
    rfl
  | succ patience ih =>
    simp only [iterate, limit, sweep_verifying, ih]
    rfl

variable [DecidableEq ε] (pure : problem.IsPure)

include pure

/-- Verifying a converged run changes neither its results nor what it reports. -/
theorem Starts.conclude_verifying {first final : Session σ β ι ε} (started : problem.Starts first)
    (sweeps : problem.Sweeps first final) (converged : final.stage = .converged) (verify : Bool) :
    (problem.verifying verify).conclude final = problem.conclude final := by
  have pureToo : (problem.verifying verify).IsPure := ⟨pure.meet, pure.transfer⟩
  have startedToo : (problem.verifying verify).Starts first := by
    obtain ⟨sound, began⟩ := starts_iff.mp started
    exact starts_iff.mpr ⟨sound, began⟩
  rw [startedToo.conclude_converged pureToo sweeps converged,
    started.conclude_converged pure sweeps converged]
  rfl

theorem trySolve_verifying {solver : Solver σ β ι ν ε} (driven : Solver.Driven problem solver)
    (verify : Bool) (patience : Nat) :
    (solver.verifying verify).trySolve patience = solver.trySolve patience := by
  obtain ⟨rfl, _⟩ := driven.reached
  have running : (solver.verifying verify).running = solver.running := rfl
  unfold Solver.trySolve
  rw [running]
  refine Traced.bind_congr_of_ok fun answer ran => ?_
  cases answer with
  | error error => rfl
  | ok session =>
    have loop : (solver.verifying verify).problem.iterate patience session =
        solver.problem.iterate patience session := iterate_verifying _ _ _ _
    simp only [loop]
    refine Traced.bind_congr_of_ok fun ended looped => ?_
    rcases ended with _ | _ | final
    · rfl
    · rfl
    · obtain ⟨first, started, sweeps⟩ := driven.reached_of_running ran
      obtain ⟨others, converged⟩ := sweeps_of_iterate looped
      have concluded : (solver.verifying verify).problem.conclude final =
          solver.problem.conclude final :=
        started.conclude_verifying pure (sweeps.trans others) converged verify
      simp only [concluded]

end Problem

/-- A converged run can be swept any number of times without a trace, so whether a solver verifies
does not show in what it answers, in the faults it runs into or in what it reports. -/
theorem verification_transparent [DecidableEq ε] {problem : Problem σ β ι ν ε}
    (pure : problem.IsPure) {solver : Solver σ β ι ν ε} (driven : Solver.Driven problem solver) :
    (∀ session, solver.session? = some session → session.stage = .converged → ∀ times,
      ∃ memory, solver.sweepTimes times = Pure.pure (List.replicate times false,
        { solver with session? := some { session with memory } })) ∧
    ∀ patience, (solver.verifying true).trySolve patience =
      (solver.verifying false).trySolve patience := by
  constructor
  · intro session here converged times
    obtain ⟨owner, session?⟩ := solver
    obtain ⟨rfl, sessions⟩ := driven.reached
    cases here
    obtain ⟨first, started, sweeps⟩ := sessions session rfl
    obtain ⟨memory, _, swept⟩ := started.sweepTimes_quiet pure sweeps converged times
    exact ⟨memory, swept⟩
  · intro patience
    rw [Problem.trySolve_verifying pure driven, Problem.trySolve_verifying pure driven]

theorem verification_transparent_on_loops :
    (liveVariables.on Table.loops.graph .standard).IsPure ∧ ∃ solver session,
      Solver.Driven (liveVariables.on Table.loops.graph .standard) solver ∧
      solver.session? = some session ∧ session.stage = .converged ∧
      (∀ times, ∃ memory, solver.sweepTimes times = Pure.pure (List.replicate times false,
        { solver with session? := some { session with memory } })) ∧
      ∀ patience, (solver.verifying true).trySolve patience =
        (solver.verifying false).trySolve patience := by
  have pure := liveVariables.isPure_on Table.loops.graph .standard
  have run : (do
      let (_, begun) ← (Solver.ofProblem (liveVariables.on Table.loops.graph .standard)).start
      let (_, first) ← begun.sweep
      let (_, second) ← first.sweep
      let (_, third) ← second.sweep
      return third.stage?).outcome = .ok (some .converged) := by decide +kernel
  obtain ⟨⟨_, begun⟩, starts, run⟩ := Traced.outcome_bind_eq_ok.mp run
  obtain ⟨⟨_, first⟩, sweepsFirst, run⟩ := Traced.outcome_bind_eq_ok.mp run
  obtain ⟨⟨_, second⟩, sweepsSecond, run⟩ := Traced.outcome_bind_eq_ok.mp run
  obtain ⟨⟨_, third⟩, sweepsThird, run⟩ := Traced.outcome_bind_eq_ok.mp run
  obtain ⟨session, here, converged⟩ := Option.map_eq_some_iff.mp (Except.ok.inj run)
  have driven : Solver.Driven (liveVariables.on Table.loops.graph .standard) third :=
    .swept (.swept (.swept (.started .fresh starts) sweepsFirst) sweepsSecond) sweepsThird
  obtain ⟨quiet, same⟩ := verification_transparent pure driven
  exact ⟨pure, third, session, driven, here, converged, quiet session here converged, same⟩

end Dataflow
