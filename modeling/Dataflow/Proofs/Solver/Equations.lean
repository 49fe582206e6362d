import Dataflow.Proofs.Liveness.Exact
import Dataflow.Proofs.Solver.Steps

/-! What a converged run has found. The operators only have to be functions of what they are
given, of the facts so far too, and need not be monotone. A sweep without a change has then read
one and the same store everywhere, so the facts that every block was entered with and the facts
that came out of its instructions belong to the store that is handed out. -/
namespace Dataflow

def Call.Answers {σ α : Type} (call : Call σ α) (value : α) : Prop :=
  ∀ memory, (call.run memory).1 = .ok value

def Call.IsPure {σ α : Type} (call : Call σ α) : Prop :=
  ∀ first second, (call.run first).1 = (call.run second).1

theorem Call.IsPure.answers {σ α : Type} {call : Call σ α} (pure : call.IsPure) {memory after : σ}
    {value : α} (ran : call.run memory = (.ok value, after)) : call.Answers value := by
  intro other
  rw [pure other memory, ran]

theorem Call.run_bind {σ α γ : Type} {call : Call σ α} {next : α → Call σ γ} {memory after : σ}
    {value : α} (ran : call.run memory = (.ok value, after)) :
    (call >>= next).run memory = (next value).run after := by
  change (ExceptT.bindCont next (call.run memory).1).run (call.run memory).2 = _
  rw [ran]
  rfl

/-- Collecting cannot fail if every instruction has something to report, or nothing. -/
theorem Problem.exists_collect {σ β ι ν ε : Type} [DecidableEq ε] {problem : Problem σ β ι ν ε}
    {elements : ι → List ε}
    (reports : ∀ inst, (problem.client.collect problem.graph inst).Answers (elements inst))
    (memory : σ) :
    ∃ after, problem.collect.run memory = (.ok (problem.graph.program.foldl
      (fun domain inst => domain.insertAll (elements inst)) Domain.empty), after) := by
  unfold Problem.collect
  generalize Domain.empty = domain
  induction problem.graph.program generalizing domain memory with
  | nil => exact ⟨memory, rfl⟩
  | cons inst rest ih =>
    have asked : (problem.client.collect problem.graph inst).run memory =
        (.ok (elements inst), ((problem.client.collect problem.graph inst).run memory).2) :=
      Prod.ext (reports inst memory) rfl
    rw [List.foldlM_cons, List.foldl_cons, bind_assoc]
    simp only [pure_bind]
    rw [Call.run_bind asked]
    exact ih _ _

/-- Meet and transfer are functions of their arguments, the facts so far among them, on the graph
that they are used on. -/
structure Problem.IsPure {σ β ι ν ε : Type} (problem : Problem σ β ι ν ε) : Prop where
  meet : ∀ domain store block neighbors,
    (problem.client.meet ⟨problem.graph, domain, store⟩ block neighbors).IsPure
  transfer : ∀ domain store inst input,
    (problem.client.transfer ⟨problem.graph, domain, store⟩ inst input).IsPure

theorem Analysis.isPure_on {β ι ν ε : Type} (analysis : Analysis β ι ν ε) (graph : FlowGraph β ι ν)
    (config : Config) : (analysis.on graph config).IsPure :=
  ⟨fun _ _ _ _ _ _ => rfl, fun _ _ _ _ _ _ => rfl⟩

variable {σ β ι ν ε : Type} [DecidableEq β] [DecidableEq ι]

namespace Problem

inductive Enters (problem : Problem σ β ι ν ε) (domain : Domain ε) (boundary : Fact)
    (store : Store ι) (block : β) : EntryFact → Prop where
  | boundary (outer : problem.client.direction.usesBoundary problem.graph block = true ∨
      problem.arriving store block = []) :
      Enters problem domain boundary store block (.boundary boundary)
  | meet {fact : Fact}
      (inner : problem.client.direction.usesBoundary problem.graph block = false)
      (nonempty : problem.arriving store block ≠ [])
      (answers : (problem.client.meet ⟨problem.graph, domain, store⟩ block
        (problem.arriving store block)).Answers fact) :
      Enters problem domain boundary store block (.meet fact)

/-- Passed through the instructions one by one, the fact gives at each of them the fact that the
store has there. -/
def Reproduces (problem : Problem σ β ι ν ε) (domain : Domain ε) (store : Store ι) :
    Fact → List ι → Prop
  | _, [] => True
  | input, inst :: rest => ∃ output,
    (problem.client.transfer ⟨problem.graph, domain, store⟩ inst input).Answers output ∧
      store.get? inst = some output ∧ Reproduces problem domain store output rest

def Balanced (problem : Problem σ β ι ν ε) (domain : Domain ε) (boundary : Fact) (store : Store ι)
    (entries : Assignment β EntryFact) (block : β) : Prop :=
  ∃ entry, entries.get? block = some entry ∧ problem.Enters domain boundary store block entry ∧
    problem.Reproduces domain store entry.fact
      (problem.client.direction.instructionOrder problem.graph block)

/-- The results have a fact of the right width for every listed instruction and for nothing else,
and they solve the equations of all blocks, with the boundary that the run was started with. -/
structure SolvedBy [DecidableEq ε] (problem : Problem σ β ι ν ε) (results : Results β ι ε) :
    Prop where
  keys : ∀ inst, inst ∈ results.store.keys ↔ inst ∈ problem.graph.program
  sized : ∀ inst fact, results.store.get? inst = some fact → fact.width = results.domain.size
  equations : ∃ first, problem.Starts first ∧ results.domain = first.domain ∧
    ∀ block ∈ problem.graph.blocks,
      problem.Balanced first.domain first.boundary results.store results.entries block

variable {problem : Problem σ β ι ν ε} {session next : Session σ β ι ε}

/-- From the start to any later session exactly the listed instructions have facts, all of the
domain's width. -/
theorem Starts.widths [DecidableEq ε] (started : problem.Starts session)
    (sweeps : problem.Sweeps session next) (inst : ι) :
    (next.store.get? inst).map Fact.width =
      if inst ∈ problem.graph.program then some session.domain.size else none := by
  obtain ⟨_, _, _, _, initial, _, _, width, seeded⟩ := begin_eq_ok (starts_iff.mp started).2
  rw [sweeps.sameShape inst, seeded inst]
  split
  · exact congrArg some width
  · rfl

variable (pure : problem.IsPure)

include pure

omit [DecidableEq β] in
theorem reproduces_of_advances {block : β} {insts : List ι} {input output : Fact}
    {pass after : Pass σ β ι}
    (advanced : (insts.foldlM (problem.advance session block) (input, pass)).outcome =
      .ok (output, after)) (steady : after.changes = pass.changes) :
    problem.Reproduces session.domain pass.store input insts := by
  induction insts generalizing input pass with
  | nil => trivial
  | cons inst rest ih =>
    rw [List.foldlM_cons] at advanced
    obtain ⟨⟨given, middle⟩, first, others⟩ := Traced.outcome_bind_eq_ok.mp advanced
    have early := kept_of_advance first
    have late := (kept_of_advances others).1.changes
    have unchanged : middle.changes = pass.changes := by
      have := early.changes
      omega
    obtain ⟨old, ran, found, _, same⟩ := advance_eq_ok first
    have stored : old = given := by
      rw [same] at unchanged
      dsimp only at unchanged
      split at unchanged
      · assumption
      · omega
    have later := ih others (by omega)
    rw [early.steady unchanged] at later
    exact ⟨given, (pure.transfer _ _ inst input).answers ran, stored ▸ found, later⟩

theorem enters_of_enter {block : β} {pass after : Pass σ β ι} {entry : EntryFact}
    (entered : (problem.enter session pass block).outcome = .ok (entry, after)) :
    problem.Enters session.domain session.boundary pass.store block entry := by
  rcases enter_eq_ok entered with ⟨rfl, _, outer⟩ | ⟨fact, rfl, inner, nonempty, ran, _⟩
  · exact .boundary outer
  · exact .meet inner nonempty ((pure.meet _ _ block _).answers ran)

/-- A visit without a change balances its own block and leaves the others as they are. -/
theorem balanced_of_visit {block other : β} {pass after : Pass σ β ι}
    (visited : (problem.visit session pass
      (block, problem.client.direction.instructionOrder problem.graph block)).outcome = .ok after)
    (steady : after.changes = pass.changes)
    (known : other = block ∨
      problem.Balanced session.domain session.boundary pass.store pass.entries other) :
    problem.Balanced session.domain session.boundary after.store after.entries other := by
  rw [(kept_of_visit visited).steady steady]
  obtain ⟨entry, entered, last, passed, enters, _, passes, rfl⟩ := visit_eq_ok visited
  obtain ⟨_, store, entries, changes⟩ := kept_of_enter enters
  have untouched := (kept_of_advances passes).2.trans entries
  simp only [untouched]
  by_cases own : other = block
  · subst own
    refine ⟨entry, Assignment.get?_set_self _ _ _, enters_of_enter pure enters, ?_⟩
    rw [← store]
    exact reproduces_of_advances pure passes (steady.trans changes.symm)
  · obtain ⟨given, found, balanced⟩ := known.resolve_left own
    exact ⟨given, (Assignment.get?_set_ne _ _ own).trans found, balanced⟩

theorem balanced_of_visits {blocks : List β} {pass after : Pass σ β ι} {block : β}
    (visited : ((blocks.map fun block =>
        (block, problem.client.direction.instructionOrder problem.graph block)).foldlM
          (problem.visit session) pass).outcome = .ok after)
    (steady : after.changes = pass.changes)
    (known : block ∈ blocks ∨
      problem.Balanced session.domain session.boundary pass.store pass.entries block) :
    problem.Balanced session.domain session.boundary after.store after.entries block := by
  induction blocks generalizing pass with
  | nil =>
    cases visited
    exact known.resolve_left List.not_mem_nil
  | cons head rest ih =>
    rw [List.map_cons, List.foldlM_cons] at visited
    obtain ⟨middle, first, others⟩ := Traced.outcome_bind_eq_ok.mp visited
    have early := (kept_of_visit first).changes
    have late := (kept_of_visits others).changes
    apply ih others (by omega)
    rw [List.mem_cons, or_assoc, or_left_comm] at known
    exact known.imp_right (balanced_of_visit pure first (by omega))

/-- A sweep that ends in convergence balances every block. -/
theorem SweepsTo.balanced (swept : problem.SweepsTo session next)
    (converged : next.stage = .converged) {block : β} (listed : block ∈ problem.graph.blocks) :
    problem.Balanced session.domain session.boundary next.store next.entries block := by
  obtain ⟨_, swept⟩ := swept
  obtain ⟨pass, visited, ended⟩ := sweep_eq_ok swept
  have quiet : pass.changes = 0 ∧ next.store = pass.store ∧ next.entries = pass.entries := by
    rcases ended with ⟨_, none, _, rfl⟩ | ⟨_, _, rfl⟩
    · exact ⟨none, rfl, rfl⟩
    · refine ⟨?_, rfl, rfl⟩
      by_contra some
      simp [Session.counted, Nat.pos_of_ne_zero some] at converged
  rw [quiet.2.1, quiet.2.2]
  refine balanced_of_visits pure visited quiet.1 (.inl ?_)
  exact (problem.client.direction.mem_blockOrder problem.graph).mpr listed

/-- A run has converged only by a sweep, and that sweep has balanced all blocks. -/
theorem Starts.balanced [DecidableEq ε] {first : Session σ β ι ε} (started : problem.Starts first)
    (sweeps : problem.Sweeps first session) (converged : session.stage = .converged) {block : β}
    (listed : block ∈ problem.graph.blocks) :
    problem.Balanced session.domain session.boundary session.store session.entries block := by
  rcases Relation.ReflTransGen.cases_tail sweeps with none | ⟨last, before, sweep⟩
  · have stage := (begin_eq_ok (starts_iff.mp started).2).2.2.2.1
    rw [none, stage] at converged
    cases converged
  · have balanced := sweep.balanced pure converged listed
    have run := sweep.sameRun
    rwa [← run.domain, ← run.boundary] at balanced

end Problem

variable [DecidableEq ε]

/-- Whoever drives the solver, and whether or not it verifies: what it hands out solves the
equations. -/
theorem converged_results_solve {problem : Problem σ β ι ν ε} (pure : problem.IsPure)
    {solver : Solver σ β ι ν ε} (driven : Solver.Driven problem solver) {patience : Nat}
    {results : Results β ι ε}
    (solved : (solver.trySolve patience).outcome = .ok (some (.ok results))) :
    problem.SolvedBy results := by
  obtain ⟨first, final, started, sweeps, converged, rfl⟩ := driven.trySolve_eq_ok solved
  have widths := started.widths sweeps
  have domain : final.domain = first.domain := sweeps.sameRun.domain
  refine ⟨fun inst => ?_, fun inst fact found => ?_, first, started, domain, fun block listed => ?_⟩
  · rw [← Assignment.get?_isSome_iff]
    have known := congrArg Option.isSome (widths inst)
    rw [Option.isSome_map] at known
    change (final.store.get? inst).isSome ↔ _
    rw [known]
    split <;> simpa
  · have width := widths inst
    rw [show final.store.get? inst = some fact from found] at width
    split at width
    · exact (Option.some.inj width).trans (congrArg Domain.size domain.symm)
    · cases width
  · rw [← domain, ← sweeps.sameRun.boundary]
    exact started.balanced pure sweeps converged listed

theorem converged_results_solve_on_loops :
    (liveVariables.on Table.loops.graph .standard).IsPure ∧ ∃ patience results,
      ((Solver.ofProblem (liveVariables.on Table.loops.graph .standard)).trySolve patience).outcome =
        .ok (some (.ok results)) ∧
      (liveVariables.on Table.loops.graph .standard).SolvedBy results := by
  have pure := liveVariables.isPure_on Table.loops.graph .standard
  obtain ⟨results, ends, _⟩ : ∃ results,
      (Solver.ofProblem (liveVariables.on Table.loops.graph .standard)).EndsWith results ∧ _ :=
    Liveness.endsWith (by decide) (by decide) (by decide) (by decide) rfl
  have solved := ends results.stats.sweeps
  rw [if_pos (Nat.le_refl _)] at solved
  exact ⟨pure, _, results, solved, converged_results_solve pure .fresh solved⟩

end Dataflow
