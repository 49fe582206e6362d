import Dataflow.Proofs.Solver.Stable
import Dataflow.Proofs.Solver.Totality
import Mathlib.Data.ENat.Lattice

/-! Solving step by step and solving at once. All sweeps of a run up to the first that changes
nothing are the same, whoever makes them, and what comes after it changes nothing either. So the
number of that sweep decides everything: a run that has been swept by hand and is then solved under
a limit gives the results of a run without a limit if the number is within reach, and otherwise it
gives up where it may sweep no more. -/
namespace Dataflow

variable {σ β ι ν ε : Type} [DecidableEq β] [DecidableEq ι]

def Solver.sweepTimes [DecidableEq ε] : Nat → Solver σ β ι ν ε →
    Traced β ι (List Bool × Solver σ β ι ν ε)
  | 0, solver => pure ([], solver)
  | times + 1, solver => do
    let (changed, solver) ← solver.sweep
    let (answers, solver) ← solver.sweepTimes times
    return (changed :: answers, solver)

namespace Problem

def limited (problem : Problem σ β ι ν ε) (limit : Option Nat) : Problem σ β ι ν ε :=
  { problem with config := { problem.config with maxSweeps := limit } }

/-- Wherever sweeps lead from the session, the operators answer another sweep, as long as the run
has not converged. -/
def Able (problem : Problem σ β ι ν ε) (session : Session σ β ι ε) : Prop :=
  ∀ reached, problem.Sweeps session reached → reached.stage ≠ .converged →
    ∃ next, problem.SweepsTo reached next

def QuietAt [DecidableEq ε] (problem : Problem σ β ι ν ε) (number : Nat) : Prop :=
  ∃ begun answers after, (Solver.ofProblem problem).start.outcome = .ok (.ok (), begun) ∧
    (begun.sweepTimes number).outcome = .ok (answers ++ [false], after)

/-- The number of the first sweep that finds nothing to change. -/
noncomputable def settling [DecidableEq ε] (problem : Problem σ β ι ν ε) : ℕ∞ :=
  ⨅ number : {number // problem.QuietAt number}, (number.val : ℕ∞)

/-- So many sweeps lead from the first session to the second, none of them made after
convergence. -/
inductive Marches (problem : Problem σ β ι ν ε) :
    Nat → Session σ β ι ε → Session σ β ι ε → Prop where
  | done (session : Session σ β ι ε) : Marches problem 0 session session
  | more {count : Nat} {session next final : Session σ β ι ε}
      (running : session.stage ≠ .converged) (swept : problem.SweepsTo session next)
      (others : Marches problem count next final) : Marches problem (count + 1) session final

variable {problem : Problem σ β ι ν ε} {session next final : Session σ β ι ε} {count : Nat}

/-- A sweep of a run that has not converged is counted, and its answer says whether the run has
converged now. -/
theorem sweep_of_running (running : session.stage ≠ .converged)
    (swept : problem.SweepsTo session next) :
    (problem.sweep session).outcome = .ok (decide (next.stage ≠ .converged), next) ∧
      next.stats.sweeps = session.stats.sweeps + 1 := by
  obtain ⟨changed, swept⟩ := swept
  obtain ⟨pass, _, ⟨converged, _⟩ | ⟨_, rfl, rfl⟩⟩ := sweep_eq_ok swept
  · exact absurd converged running
  · refine ⟨?_, rfl⟩
    rw [swept]
    by_cases some : 0 < pass.changes <;> simp [Session.counted, some]

namespace Marches

theorem tail (marches : problem.Marches count session next) (running : next.stage ≠ .converged)
    (swept : problem.SweepsTo next final) : problem.Marches (count + 1) session final := by
  induction marches with
  | done session => exact .more running swept (.done final)
  | more runs first _ ih => exact .more runs first (ih running swept)

theorem sweeps (marches : problem.Marches count session final) : problem.Sweeps session final := by
  induction marches with
  | done session => exact .refl
  | more _ first _ ih => exact ih.head first

theorem counts (marches : problem.Marches count session final) :
    final.stats.sweeps = session.stats.sweeps + count := by
  induction marches with
  | done session => rfl
  | more running first _ ih =>
    rw [ih, (sweep_of_running running first).2]
    omega

theorem split {early late : Nat} (marches : problem.Marches (early + late) session final) :
    ∃ middle, problem.Marches early session middle ∧ problem.Marches late middle final := by
  induction early generalizing session with
  | zero =>
    rw [Nat.zero_add] at marches
    exact ⟨session, .done session, marches⟩
  | succ early ih =>
    rw [Nat.succ_add] at marches
    cases marches with
    | more running first others =>
      obtain ⟨middle, before, after⟩ := ih others
      exact ⟨middle, .more running first before, after⟩

theorem limited (marches : problem.Marches count session final) (limit : Option Nat) :
    (problem.limited limit).Marches count session final := by
  induction marches with
  | done session => exact .done session
  | more running first _ ih => exact .more running first ih

theorem running (marches : problem.Marches count session final)
    (running : final.stage ≠ .converged) : session.stage ≠ .converged := by
  cases marches with
  | done => exact running
  | more runs _ _ => exact runs

theorem unique {other : Session σ β ι ε} (marches : problem.Marches count session final)
    (marchesToo : problem.Marches count session other) : final = other := by
  induction marches with
  | done session =>
    cases marchesToo
    rfl
  | more running first _ ih =>
    cases marchesToo with
    | more _ firstToo others =>
      have same := (sweep_of_running running first).1.symm.trans
        (sweep_of_running running firstToo).1
      obtain ⟨_, rfl⟩ := Prod.mk.inj (Except.ok.inj same)
      exact ih others

theorem rest {early late : Nat} {reached : Session σ β ι ε}
    (marches : problem.Marches early session reached)
    (whole : problem.Marches (early + late) session final) :
    problem.Marches late reached final := by
  obtain ⟨middle, before, after⟩ := whole.split
  cases marches.unique before
  exact after

/-- Convergence comes with a last sweep. -/
theorem exists_last (marches : problem.Marches count session final)
    (begins : session.stage ≠ .converged) (converged : final.stage = .converged) :
    ∃ fewer last, count = fewer + 1 ∧ problem.Marches fewer session last ∧
      last.stage ≠ .converged ∧ problem.SweepsTo last final := by
  cases count with
  | zero =>
    cases marches
    exact absurd converged begins
  | succ fewer =>
    obtain ⟨last, before, sweep⟩ := marches.split
    cases sweep with
    | more running swept rest =>
      cases rest
      exact ⟨fewer, last, rfl, before, running, swept⟩

/-- The loop follows the march as far as the limit admits. -/
theorem outcome_iterate (marches : problem.Marches count session final)
    (admitted : ∀ limit ∈ problem.config.maxSweeps,
      session.stats.sweeps + count ≤ max limit session.stats.sweeps) (patience : Nat) :
    (problem.iterate (count + patience) session).outcome =
      (problem.iterate patience final).outcome := by
  induction marches with
  | done session => rw [Nat.zero_add]
  | @more count session next final running first _ ih =>
    obtain ⟨swept, counted⟩ := sweep_of_running running first
    have below : problem.atLimit session.stats.sweeps = false :=
      atLimit_eq_false fun limit member => by
        have := admitted limit member
        omega
    rw [Nat.succ_add, iterate_succ running below, Traced.outcome_bind, swept]
    refine ih fun limit member => ?_
    have := admitted limit member
    omega

end Marches

/-- Up to any number of sweeps the run goes on, or it converges on the way. -/
theorem Able.marches (able : problem.Able session) (running : session.stage ≠ .converged)
    (count : Nat) :
    (∃ reached, problem.Marches count session reached ∧ reached.stage ≠ .converged) ∨
      ∃ early ≤ count, ∃ final, problem.Marches early session final ∧ final.stage = .converged := by
  induction count with
  | zero => exact Or.inl ⟨session, .done session, running⟩
  | succ count ih =>
    rcases ih with ⟨reached, marches, runs⟩ | ⟨early, below, settles⟩
    · obtain ⟨next, swept⟩ := able reached marches.sweeps runs
      have further := marches.tail runs swept
      by_cases converged : next.stage = .converged
      · exact Or.inr ⟨count + 1, Nat.le_refl _, next, further, converged⟩
      · exact Or.inl ⟨next, further, converged⟩
    · exact Or.inr ⟨early, Nat.le_succ_of_le below, settles⟩

section Answers

variable [DecidableEq ε]

theorem Starts.running (started : problem.Starts session) :
    session.stage ≠ .converged ∧ session.stats.sweeps = 0 := by
  obtain ⟨_, _, stats, stage, _⟩ := begin_eq_ok (starts_iff.mp started).2
  simp [stage, stats]

theorem Marches.counts_from_start (started : problem.Starts session)
    (marches : problem.Marches count session final) : final.stats.sweeps = count := by
  rw [marches.counts, started.running.2, Nat.zero_add]

theorem sweepTimes_succ {changed : Bool} {times : Nat} {answers : List Bool}
    {after : Solver σ β ι ν ε} (swept : (problem.sweep session).outcome = .ok (changed, next))
    (others : (Solver.sweepTimes times ⟨problem, some next⟩).outcome = .ok (answers, after)) :
    (Solver.sweepTimes (times + 1) ⟨problem, some session⟩).outcome =
      .ok (changed :: answers, after) := by
  refine Traced.outcome_bind_eq_ok.mpr ⟨(changed, ⟨problem, some next⟩), ?_, ?_⟩
  · exact Traced.outcome_bind_eq_ok.mpr ⟨(changed, next), swept, rfl⟩
  · exact Traced.outcome_bind_eq_ok.mpr ⟨(answers, after), others, rfl⟩

/-- The sweeps of a run that still has not converged have all answered that facts changed. -/
theorem Marches.sweepTimes (marches : problem.Marches count session final)
    (running : final.stage ≠ .converged) {times : Nat} {answers : List Bool}
    {after : Solver σ β ι ν ε}
    (others : (Solver.sweepTimes times ⟨problem, some final⟩).outcome = .ok (answers, after)) :
    (Solver.sweepTimes (count + times) ⟨problem, some session⟩).outcome =
      .ok (List.replicate count true ++ answers, after) := by
  induction marches with
  | done session => simpa using others
  | @more count session next final runs first rest ih =>
    have swept := (sweep_of_running runs first).1
    rw [decide_eq_true (rest.running running)] at swept
    rw [Nat.succ_add]
    exact sweepTimes_succ swept (ih running others)

theorem Marches.answers (marches : problem.Marches count session final)
    (running : final.stage ≠ .converged) :
    (Solver.sweepTimes count ⟨problem, some session⟩).outcome =
      .ok (List.replicate count true, ⟨problem, some final⟩) := by
  have none : (Solver.sweepTimes 0 ⟨problem, some final⟩).outcome =
      .ok ([], (⟨problem, some final⟩ : Solver σ β ι ν ε)) := rfl
  simpa using marches.sweepTimes running none

/-- The sweep after which the run has converged is the first to answer that nothing changed. -/
theorem Marches.sweepTimes_converged (marches : problem.Marches count session final)
    (begins : session.stage ≠ .converged) (converged : final.stage = .converged) {times : Nat}
    {answers : List Bool} {after : Solver σ β ι ν ε}
    (others : (Solver.sweepTimes times ⟨problem, some final⟩).outcome = .ok (answers, after)) :
    ∃ earlier, (Solver.sweepTimes (count + times) ⟨problem, some session⟩).outcome =
      .ok (earlier ++ [false] ++ answers, after) := by
  obtain ⟨fewer, last, rfl, before, running, swept⟩ := marches.exists_last begins converged
  have quiet := (sweep_of_running running swept).1
  rw [decide_eq_false (not_not_intro converged)] at quiet
  refine ⟨List.replicate fewer true, ?_⟩
  have whole := before.sweepTimes running (sweepTimes_succ quiet others)
  rw [Nat.add_right_comm, Nat.add_assoc]
  simpa using whole

theorem Marches.quietAt (started : problem.Starts session)
    (marches : problem.Marches count session final) (converged : final.stage = .converged) :
    problem.QuietAt count := by
  have none : (Solver.sweepTimes 0 ⟨problem, some final⟩).outcome =
      .ok ([], (⟨problem, some final⟩ : Solver σ β ι ν ε)) := rfl
  obtain ⟨earlier, swept⟩ := marches.sweepTimes_converged started.running.1 converged none
  exact ⟨_, earlier, _, started, by simpa using swept⟩

theorem Marches.lt_of_quietAt (started : problem.Starts session)
    (marches : problem.Marches count session final) (running : final.stage ≠ .converged)
    {number : Nat} (quiet : problem.QuietAt number) : count < number := by
  by_contra within
  obtain ⟨begun, answers, after, startedToo, swept⟩ := quiet
  cases started.symm.trans startedToo
  obtain ⟨rest, rfl⟩ := Nat.exists_eq_add_of_le (Nat.not_lt.mp within)
  obtain ⟨middle, early, late⟩ := marches.split
  have changing := swept.symm.trans (early.answers (late.running running))
  simp only [Except.ok.injEq, Prod.mk.injEq] at changing
  have member : false ∈ List.replicate number true := changing.1 ▸ by simp
  simp at member

variable (started : problem.Starts session) (able : problem.Able session)

include started able

/-- Before the number is reached the run goes on. -/
theorem exists_running (below : (count : ℕ∞) < problem.settling) :
    ∃ reached, problem.Marches count session reached ∧ reached.stage ≠ .converged := by
  rcases able.marches started.running.1 count with runs | ⟨early, within, final, marches, converged⟩
  · exact runs
  · have reached : problem.settling ≤ early :=
      iInf_le (fun number : {number // problem.QuietAt number} => (number.val : ℕ∞))
        ⟨early, marches.quietAt started converged⟩
    exact absurd (reached.trans (by exact_mod_cast within)) (not_le_of_gt below)

/-- Once the number is within reach, it is the number of sweeps after which the run has
converged. -/
theorem exists_settled (within : problem.settling ≤ (count : ℕ∞)) :
    ∃ number ≤ count, problem.settling = number ∧
      ∃ final, problem.Marches number session final ∧ final.stage = .converged := by
  rcases able.marches started.running.1 count with
    ⟨reached, marches, running⟩ | ⟨early, below, final, marches, converged⟩
  · have later : ((count + 1 : Nat) : ℕ∞) ≤ problem.settling :=
      le_iInf fun number => by
        exact_mod_cast marches.lt_of_quietAt started running number.property
    have impossible : count + 1 ≤ count := by exact_mod_cast later.trans within
    omega
  · refine ⟨early, below, ?_, final, marches, converged⟩
    refine ENat.iInf_eq_natCast_iff.mpr ⟨⟨⟨early, marches.quietAt started converged⟩, rfl⟩, ?_⟩
    intro number
    obtain ⟨fewer, last, rfl, before, running, _⟩ :=
      marches.exists_last started.running.1 converged
    exact_mod_cast before.lt_of_quietAt started running number.property

end Answers

section Solving

variable [DecidableEq ε] (pure : problem.IsPure) {first : Session σ β ι ε}
  (started : problem.Starts first)

include pure started

/-- However often a converged run is swept, it stays as it is and reports nothing. -/
theorem Starts.sweepTimes_quiet (sweeps : problem.Sweeps first session)
    (converged : session.stage = .converged) (times : Nat) :
    ∃ memory, problem.Sweeps first { session with memory } ∧
      Solver.sweepTimes times ⟨problem, some session⟩ =
        Pure.pure (List.replicate times false, ⟨problem, some { session with memory }⟩) := by
  induction times generalizing session with
  | zero => exact ⟨session.memory, sweeps, rfl⟩
  | succ times ih =>
    obtain ⟨memory, swept⟩ := started.sweep_converged pure sweeps converged
    have step := sweeps.tail ⟨false, congrArg Traced.outcome swept⟩
    obtain ⟨last, reaches, others⟩ := ih step converged
    refine ⟨last, reaches, ?_⟩
    simp only [Solver.sweepTimes, Solver.sweep, swept, pure_bind, others]
    rfl

theorem Starts.sweepTimes_converged (sweeps : problem.Sweeps first session)
    (converged : session.stage = .converged) (times : Nat) :
    ∃ memory, problem.Sweeps first { session with memory } ∧
      (Solver.sweepTimes times ⟨problem, some session⟩).outcome =
        .ok (List.replicate times false, ⟨problem, some { session with memory }⟩) := by
  obtain ⟨memory, reaches, swept⟩ := started.sweepTimes_quiet pure sweeps converged times
  exact ⟨memory, reaches, congrArg Traced.outcome swept⟩

/-- A converged run is handed out as it is, verified or not. -/
theorem Starts.outcome_conclude (sweeps : problem.Sweeps first session)
    (converged : session.stage = .converged) :
    (problem.conclude session).outcome = .ok (problem.resultsOf session) := by
  rw [started.conclude_converged pure sweeps converged]
  rfl

end Solving

section Limits

variable [DecidableEq ε]

/-- Solving a run that has been started sweeps it to the end and hands it out. -/
theorem outcome_trySolve (problem : Problem σ β ι ν ε) (session : Session σ β ι ε)
    (patience : Nat) :
    (Solver.trySolve ⟨problem, some session⟩ patience).outcome =
      (problem.iterate patience session).outcome.bind fun
        | none => .ok none
        | some (.error error) => .ok (some (.error error))
        | some (.ok final) =>
          (problem.conclude final).outcome.map fun results => some (.ok results) := by
  simp only [Solver.trySolve, Solver.running, pure_bind, Traced.outcome_bind]
  congr 1
  funext ended
  rcases ended with _ | _ | final
  · rfl
  · rfl
  · simp only [Traced.outcome_bind]
    cases (problem.conclude final).outcome <;> rfl

theorem Starts.outcome_trySolve (started : problem.Starts session) (patience : Nat) :
    ((Solver.ofProblem problem).trySolve patience).outcome =
      (Solver.trySolve ⟨problem, some session⟩ patience).outcome := by
  obtain ⟨sound, began⟩ := starts_iff.mp started
  rw [Solver.trySolve, Traced.outcome_bind, outcome_running sound, began]
  rfl

omit [DecidableEq β] [DecidableEq ι] [DecidableEq ε] in
theorem IsPure.limited (pure : problem.IsPure) (limit : Option Nat) :
    (problem.limited limit).IsPure :=
  ⟨pure.meet, pure.transfer⟩

theorem Starts.limited (started : problem.Starts session) (limit : Option Nat) :
    (problem.limited limit).Starts session := by
  obtain ⟨sound, began⟩ := starts_iff.mp started
  exact starts_iff.mpr ⟨sound, began⟩

variable (pure : problem.IsPure) (started : problem.Starts session)

include pure started

/-- A march into convergence that the limit admits gives the results, for all who are patient
enough. -/
theorem Marches.outcome_trySolve {reached : Session σ β ι ε}
    (sweeps : problem.Sweeps session reached)
    (marches : problem.Marches count reached final) (converged : final.stage = .converged)
    (admitted : ∀ limit ∈ problem.config.maxSweeps,
      reached.stats.sweeps + count ≤ max limit reached.stats.sweeps) {patience : Nat}
    (enough : count ≤ patience) :
    (Solver.trySolve ⟨problem, some reached⟩ patience).outcome =
      .ok (some (.ok (problem.resultsOf final))) := by
  obtain ⟨rest, rfl⟩ := Nat.exists_eq_add_of_le enough
  have concluded := started.outcome_conclude pure (sweeps.trans marches.sweeps) converged
  rw [Problem.outcome_trySolve, marches.outcome_iterate admitted, iterate_of_converged converged,
    Traced.outcome_pure]
  simp only [Except.bind, concluded]
  rfl

omit pure started in
/-- A march that stays short of convergence and leads up to the limit is where the run gives up. -/
theorem Marches.outcome_trySolve_of_limit {reached : Session σ β ι ε} {limit : Nat}
    (marches : problem.Marches count reached final) (running : final.stage ≠ .converged)
    (limited : problem.config.maxSweeps = some limit)
    (admitted : reached.stats.sweeps + count = max limit reached.stats.sweeps) {patience : Nat}
    (enough : count ≤ patience) :
    (Solver.trySolve ⟨problem, some reached⟩ patience).outcome =
      .ok (some (.error (.noFixpoint (max limit reached.stats.sweeps)))) := by
  obtain ⟨rest, rfl⟩ := Nat.exists_eq_add_of_le enough
  have counts := marches.counts
  have spent : problem.atLimit final.stats.sweeps = true := by
    simp only [atLimit, limited, Option.any_some, decide_eq_true_eq]
    omega
  have follows := marches.outcome_iterate (fun other member => by
    cases limited.symm.trans member
    exact admitted.le) rest
  rw [Problem.outcome_trySolve, follows, outcome_iterate_of_atLimit running spent, counts, admitted]
  rfl

/-- Without a limit the run ends with what it converges to. -/
theorem Marches.endsWith (marches : problem.Marches count session final)
    (converged : final.stage = .converged) (unlimited : problem.config.maxSweeps = none) :
    (Solver.ofProblem problem).EndsWith (problem.resultsOf final) := by
  intro patience
  have sweeps : (problem.resultsOf final).stats.sweeps = count := marches.counts_from_start started
  rw [started.outcome_trySolve, sweeps]
  by_cases enough : count ≤ patience
  · rw [if_pos enough]
    exact marches.outcome_trySolve pure started .refl converged (by simp [unlimited]) enough
  · rw [if_neg enough]
    obtain ⟨missing, rfl⟩ := Nat.exists_eq_add_of_lt (Nat.not_le.mp enough)
    rw [Nat.add_assoc] at marches
    obtain ⟨reached, early, late⟩ := marches.split
    cases late with
    | more running _ _ =>
      have below : problem.atLimit reached.stats.sweeps = false :=
        atLimit_eq_false (by simp [unlimited])
      have stops := early.outcome_iterate (by simp [unlimited]) 0
      rw [Nat.add_zero, iterate_zero running below] at stops
      rw [Problem.outcome_trySolve, stops]
      rfl

end Limits

end Problem

/-- Where the operators answer as functions, no sweep fails. -/
theorem Problem.Follows.able {problem : Problem σ β ι ν ε} {session : Session σ β ι ε}
    {ops : Operators β ι} {valid : Store ι → Prop}
    (follows : problem.Follows session.domain session.boundary ops valid)
    (good : valid session.store) (running : session.stage ≠ .converged) : problem.Able session := by
  intro reached sweeps _
  obtain ⟨⟨changed, next⟩, swept⟩ := follows.exists_sweep good running sweeps
  exact ⟨next, changed, swept⟩

theorem Reaching.able [DecidableEq ν] {graph : FlowGraph β ι ν} {config : Config}
    {session : Session Unit β ι ν} (started : (reachingDefinitions.on graph config).Starts session) :
    (reachingDefinitions.on graph config).Able session :=
  (follows started).able started.fills started.running.1

variable [DecidableEq ε]

structure Problem.SolvedStepwise (problem : Problem σ β ι ν ε) (times limit : Nat)
    (driven : Solver σ β ι ν ε) : Prop where
  /-- If the first sweep that changes nothing is among those made by hand or those that the limit
  admits, the results are the ones of a run without a limit. -/
  within : problem.settling ≤ (max times limit : Nat) → ∃ results,
    (Solver.ofProblem (problem.limited none)).EndsWith results ∧
    (results.stats.sweeps : ℕ∞) = problem.settling ∧
    ∀ patience, limit ≤ patience → (driven.trySolve patience).outcome = .ok (some (.ok results))
  /-- Otherwise the run gives up once both are used up. -/
  beyond : (max times limit : Nat) < problem.settling → ∀ patience, limit ≤ patience →
    (driven.trySolve patience).outcome = .ok (some (.error (.noFixpoint (max times limit))))
  /-- Without a sweep by hand this is solving at once. -/
  direct : times = 0 → ∀ patience,
    ((Solver.ofProblem (problem.limited (some limit))).trySolve patience).outcome =
      (driven.trySolve patience).outcome

namespace Problem

variable {problem : Problem σ β ι ν ε} {session reached final : Session σ β ι ε}
  {count times limit : Nat} (pure : problem.IsPure) (started : problem.Starts session)

include pure started

/-- What a run converges to is what it gives without a limit. -/
theorem Marches.exists_results (marches : problem.Marches count session final)
    (converged : final.stage = .converged) (number : problem.settling = count) :
    (Solver.ofProblem (problem.limited none)).EndsWith (problem.resultsOf final) ∧
      ((problem.resultsOf final).stats.sweeps : ℕ∞) = problem.settling := by
  refine ⟨(marches.limited none).endsWith (pure.limited none) (started.limited none) converged
    rfl, ?_⟩
  rw [number]
  exact congrArg Nat.cast (marches.counts_from_start started)

/-- A run that still goes on when it is handed over makes the rest of its sweeps under the limit. -/
theorem Marches.solvedStepwise (able : problem.Able session)
    (marches : problem.Marches times session reached) (running : reached.stage ≠ .converged)
    (before : (times : ℕ∞) < problem.settling) :
    problem.SolvedStepwise times limit ⟨problem.limited (some limit), some reached⟩ := by
  have begun := started.limited (some limit)
  have here := marches.counts_from_start started
  constructor
  · intro within
    obtain ⟨number, within, same, final, all, converged⟩ := exists_settled started able within
    obtain ⟨ends, counted⟩ := all.exists_results pure started converged same
    refine ⟨_, ends, counted, fun patience enough => ?_⟩
    have later : times < number := by exact_mod_cast same ▸ before
    obtain ⟨count, rfl⟩ := Nat.exists_eq_add_of_le later.le
    have others := (marches.rest all).limited (some limit)
    refine others.outcome_trySolve (pure.limited _) begun (marches.limited _).sweeps converged
      (fun other member => ?_) (by omega)
    cases member
    omega
  · intro beyond patience enough
    obtain ⟨last, all, runs⟩ := exists_running started able beyond
    have split : max times limit = times + (limit - times) := by omega
    rw [split] at all
    have others := (marches.rest all).limited (some limit)
    rw [Nat.max_comm, ← here]
    exact others.outcome_trySolve_of_limit runs rfl (by omega) (by omega)
  · rintro rfl patience
    cases marches
    exact begun.outcome_trySolve patience

/-- A run that has converged by the time it is handed over is beyond any limit. -/
theorem Marches.solvedStepwise_of_converged (marches : problem.Marches count session final)
    (converged : final.stage = .converged) (number : problem.settling = count)
    (within : count ≤ times) {memory : σ}
    (reaches : (problem.limited (some limit)).Sweeps session { final with memory }) :
    problem.SolvedStepwise times limit
      ⟨problem.limited (some limit), some { final with memory }⟩ := by
  have begun := started.limited (some limit)
  constructor
  · intro _
    obtain ⟨ends, counted⟩ := marches.exists_results pure started converged number
    refine ⟨_, ends, counted, fun patience _ => ?_⟩
    exact (Marches.done _).outcome_trySolve (pure.limited _) begun reaches converged
      (fun _ _ => Nat.le_max_right _ _) (Nat.zero_le patience)
  · intro beyond
    rw [number] at beyond
    have impossible : max times limit < count := by exact_mod_cast beyond
    omega
  · intro none
    obtain ⟨fewer, _, more, _⟩ := marches.exists_last started.running.1 converged
    omega

end Problem

/-- Solving step by step agrees with solving at once, and the limit is exact. -/
theorem stepwise_solving_exact {problem : Problem σ β ι ν ε} (pure : problem.IsPure)
    {session : Session σ β ι ε} (started : problem.Starts session) (able : problem.Able session)
    (times limit : Nat) :
    ∃ begun answers driven,
      (Solver.ofProblem (problem.limited (some limit))).start.outcome = .ok (.ok (), begun) ∧
      (begun.sweepTimes times).outcome = .ok (answers, driven) ∧
      problem.SolvedStepwise times limit driven := by
  have begun := started.limited (some limit)
  rcases lt_or_ge (times : ℕ∞) problem.settling with before | settled
  · obtain ⟨reached, marches, running⟩ := Problem.exists_running started able before
    exact ⟨_, _, _, begun, (marches.limited (some limit)).answers running,
      marches.solvedStepwise pure started able running before⟩
  · obtain ⟨number, within, same, final, all, converged⟩ :=
      Problem.exists_settled started able settled
    obtain ⟨rest, rfl⟩ := Nat.exists_eq_add_of_le within
    have marches := all.limited (some limit)
    obtain ⟨memory, reaches, others⟩ :=
      begun.sweepTimes_converged (pure.limited _) marches.sweeps converged rest
    obtain ⟨earlier, swept⟩ := marches.sweepTimes_converged started.running.1 converged others
    exact ⟨_, _, _, begun, swept,
      all.solvedStepwise_of_converged pure started converged same within reaches⟩

theorem stepwise_solving_exact_on_loops :
    (reachingDefinitions.on Table.loops.graph .standard).IsPure ∧ ∃ session begun answers driven,
      (reachingDefinitions.on Table.loops.graph .standard).Starts session ∧
      (reachingDefinitions.on Table.loops.graph .standard).Able session ∧
      (Solver.ofProblem ((reachingDefinitions.on Table.loops.graph .standard).limited
        (some 3))).start.outcome = .ok (.ok (), begun) ∧
      (begun.sweepTimes 1).outcome = .ok (answers, driven) ∧
      (reachingDefinitions.on Table.loops.graph .standard).SolvedStepwise 1 3 driven := by
  have pure := reachingDefinitions.isPure_on Table.loops.graph .standard
  obtain ⟨session, started⟩ : ∃ session,
      (reachingDefinitions.on Table.loops.graph .standard).Starts session :=
    Reaching.exists_session (by decide) (by decide)
  have able := Reaching.able started
  obtain ⟨begun, answers, driven, solves⟩ := stepwise_solving_exact pure started able 1 3
  exact ⟨pure, session, begun, answers, driven, started, able, solves⟩

end Dataflow
