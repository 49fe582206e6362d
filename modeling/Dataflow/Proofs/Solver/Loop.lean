import Dataflow.Proofs.Solver.Start

/-! The loop of sweeps. If every round that finds no solution lowers some number, the loop ends
after at most that many sweeps and one more, on a solution. How long the loop takes is a
number of its own: with less patience nothing is answered yet, with more the answer is the
same. -/
namespace Dataflow

variable {σ β ι ν ε : Type} [DecidableEq β] [DecidableEq ι]

namespace Problem

variable {problem : Problem σ β ι ν ε} {session : Session σ β ι ε}

theorem iterate_of_converged (converged : session.stage = .converged) (patience : Nat) :
    problem.iterate patience session = pure (some (.ok session)) := by
  cases patience <;> rw [iterate, if_pos converged]

theorem iterate_zero (running : session.stage ≠ .converged)
    (below : problem.atLimit session.stats.sweeps = false) :
    problem.iterate 0 session = pure none := by
  rw [iterate, if_neg running, below, if_neg (by simp)]

theorem iterate_succ (running : session.stage ≠ .converged)
    (below : problem.atLimit session.stats.sweeps = false) (patience : Nat) :
    problem.iterate (patience + 1) session =
      problem.sweep session >>= fun swept => problem.iterate patience swept.2 := by
  rw [iterate, if_neg running, below, if_neg (by simp)]

omit [DecidableEq β] [DecidableEq ι] in
theorem atLimit_eq_false {sweeps : Nat}
    (unlimited : ∀ limit ∈ problem.config.maxSweeps, sweeps < limit) :
    problem.atLimit sweeps = false := by
  unfold atLimit
  cases limited : problem.config.maxSweeps with
  | none => rfl
  | some limit => simpa using unlimited limit (by simp [limited])

end Problem

namespace Problem.Follows

variable {problem : Problem σ β ι ν ε} {domain : Domain ε} {boundary : Fact} {ops : Operators β ι}
  {valid : Store ι → Prop} (follows : problem.Follows domain boundary ops valid)

include follows

theorem outcome_iterate {gap : Store ι → Nat}
    (shrinks : ∀ store, valid store → ¬ (problem.system domain boundary ops).Solves store →
      gap ((problem.system domain boundary ops).round store) < gap store)
    {session : Session σ β ι ε} (sameDomain : session.domain = domain)
    (sameBoundary : session.boundary = boundary) (good : valid session.store)
    (running : session.stage ≠ .converged)
    (unlimited : ∀ limit ∈ problem.config.maxSweeps,
      session.stats.sweeps + gap session.store + 1 ≤ limit) :
    ∃ sweeps final, 1 ≤ sweeps ∧ sweeps ≤ gap session.store + 1 ∧
      final.stats.sweeps = session.stats.sweeps + sweeps ∧ session.SameRun final ∧
      final.stage = .converged ∧ valid final.store ∧
      (problem.system domain boundary ops).Solves final.store ∧
      ∀ patience, (problem.iterate patience session).outcome =
        .ok (if sweeps ≤ patience then some (.ok final) else none) := by
  -- the number of sweeps left is not known beforehand, so the induction is on the gap
  generalize size : gap session.store = fuel at unlimited
  induction fuel using Nat.strongRecOn generalizing session with
  | ind fuel ih =>
    have below : problem.atLimit session.stats.sweeps = false :=
      Problem.atLimit_eq_false fun limit member => by have := unlimited limit member; omega
    subst sameDomain sameBoundary
    obtain ⟨changed, next, swept, same, goodNext, store, counted, ends⟩ :=
      follows.outcome_sweep good running
    have unfolds : ∀ patience, (problem.iterate (patience + 1) session).outcome =
        (problem.iterate patience next).outcome := by
      intro patience
      rw [Problem.iterate_succ running below, Traced.outcome_bind, swept]
      rfl
    have waits : (problem.iterate 0 session).outcome = .ok none := by
      rw [Problem.iterate_zero running below]
      rfl
    by_cases solves : (problem.system session.domain session.boundary ops).Solves session.store
    · have converged := ends.mpr solves
      refine ⟨1, next, Nat.le_refl 1, by omega, counted, same, converged, goodNext, ?_, ?_⟩
      · rw [store, solves.round]
        exact solves
      · intro patience
        cases patience with
        | zero => exact waits
        | succ patience =>
          rw [unfolds, Problem.iterate_of_converged converged]
          simp
    · have smaller : gap next.store < fuel := by
        rw [store, ← size]
        exact shrinks session.store good solves
      obtain ⟨sweeps, final, first, last, total, sameFinal, converged, goodFinal, solved, answers⟩ :=
        ih (gap next.store) smaller same.domain same.boundary goodNext (mt ends.mp solves) rfl
          (fun limit member => by have := unlimited limit member; omega)
      refine ⟨sweeps + 1, final, by omega, by omega, by omega, same.trans sameFinal, converged,
        goodFinal, solved, ?_⟩
      intro patience
      cases patience with
      | zero => simpa using waits
      | succ patience =>
        rw [unfolds, answers]
        simp

/-- A converged run on a solution gives its facts away as they are, verified or not. -/
theorem outcome_conclude {session : Session σ β ι ε} (sameDomain : session.domain = domain)
    (sameBoundary : session.boundary = boundary) (good : valid session.store)
    (converged : session.stage = .converged)
    (solves : (problem.system domain boundary ops).Solves session.store) :
    ∃ results, (problem.conclude session).outcome = .ok results ∧ results.domain = domain ∧
      results.store = session.store ∧ results.stats = session.stats := by
  subst sameDomain sameBoundary
  obtain ⟨next, verified, same, store, stats⟩ := follows.outcome_verify good converged solves
  simp only [Problem.conclude, converged, Traced.outcome_bind, Traced.outcome_check, decide_true,
    if_true, Except.bind]
  split
  · have kept : (Prod.snd <$> problem.sweep session).outcome = .ok next := by
      rw [map_eq_pure_bind, Traced.outcome_bind, verified]
      rfl
    rw [Traced.outcome_bind, kept]
    exact ⟨_, rfl, same.domain, store, stats⟩
  · exact ⟨_, rfl, rfl, rfl, rfl⟩

end Problem.Follows

variable [DecidableEq ε]

/-- The run ends with these results, after as many sweeps as they count. A caller with less
patience has no answer. -/
def Solver.EndsWith (solver : Solver σ β ι ν ε) (results : Results β ι ε) : Prop :=
  ∀ patience, (solver.trySolve patience).outcome =
    .ok (if results.stats.sweeps ≤ patience then some (.ok results) else none)

theorem Solver.EndsWith.unique {solver : Solver σ β ι ν ε} {first second : Results β ι ε}
    (ends : solver.EndsWith first) (endsToo : solver.EndsWith second) : first = second := by
  have same := (ends (first.stats.sweeps + second.stats.sweeps)).symm.trans
    (endsToo (first.stats.sweeps + second.stats.sweeps))
  simpa using same

theorem Problem.Follows.endsWith {problem : Problem σ β ι ν ε} {session : Session σ β ι ε}
    {ops : Operators β ι} {valid : Store ι → Prop} (started : problem.Starts session)
    (follows : problem.Follows session.domain session.boundary ops valid)
    (good : valid session.store) (gap : Store ι → Nat)
    (shrinks : ∀ store, valid store →
      ¬ (problem.system session.domain session.boundary ops).Solves store →
      gap ((problem.system session.domain session.boundary ops).round store) < gap store)
    (unlimited : ∀ limit ∈ problem.config.maxSweeps, gap session.store + 1 ≤ limit) :
    ∃ results, (Solver.ofProblem problem).EndsWith results ∧ results.domain = session.domain ∧
      valid results.store ∧
      (problem.system session.domain session.boundary ops).Solves results.store ∧
      1 ≤ results.stats.sweeps ∧ results.stats.sweeps ≤ gap session.store + 1 ∧
      results.stats.domainSize = session.domain.size ∧
      results.stats.instructions = problem.graph.program.length := by
  obtain ⟨sound, began⟩ := Problem.starts_iff.mp started
  obtain ⟨_, _, stats, stage, _⟩ := Problem.begin_eq_ok began
  have fresh : session.stats.sweeps = 0 := by rw [stats]
  obtain ⟨sweeps, final, first, last, total, same, converged, goodFinal, solves, answers⟩ :=
    follows.outcome_iterate shrinks rfl rfl good (by simp [stage])
      (fun limit member => by have := unlimited limit member; omega)
  obtain ⟨results, concluded, domain, store, counted⟩ :=
    follows.outcome_conclude same.domain same.boundary goodFinal converged solves
  have taken : results.stats.sweeps = sweeps := by rw [counted, total, fresh, Nat.zero_add]
  refine ⟨results, fun patience => ?_, domain, store ▸ goodFinal, store ▸ solves, by omega, by omega,
    ?_, ?_⟩
  · rw [Solver.trySolve, Traced.outcome_bind, Problem.outcome_running sound, began, taken]
    simp only [Except.map, Except.bind, Traced.outcome_bind, Solver.ofProblem, answers]
    by_cases enough : sweeps ≤ patience
    · simp only [if_pos enough, Traced.outcome_bind, concluded]
      rfl
    · simp only [if_neg enough]
      rfl
  · rw [counted, same.domainSize, stats]
  · rw [counted, same.instructions, stats]

end Dataflow
