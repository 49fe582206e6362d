import Dataflow.Proofs.Duality.Mirror
import Dataflow.Proofs.Ssa.Function

/-! Forward and backward are one analysis. Seen in reverse, a function is walked backward in the
same way as it is walked forward, if no edge leads back to its entry. Clients that obey one recipe then
find the same elements in both directions, after the start, after every sweep and in their results.
Only the numbers of the elements differ, since they are collected in the order of each view. -/
namespace Dataflow

def Domain.Alike {ε : Type} (first second : Domain ε) (left right : Fact) : Prop :=
  Agree (fun these those => ∀ e, e ∈ these ↔ e ∈ those) (first.decode left) (second.decode right)

inductive EntryFact.Alike {ε : Type} (first second : Domain ε) : EntryFact → EntryFact → Prop where
  | boundary {left right : Fact} (here : first.Alike second left right) :
      EntryFact.Alike first second (.boundary left) (.boundary right)
  | meet {left right : Fact} (here : first.Alike second left right) :
      EntryFact.Alike first second (.meet left) (.meet right)

variable {σ τ β ι ν ε : Type} [DecidableEq β] [DecidableEq ι] [DecidableEq ε]

structure Solver.Alike (program : List ι) (first : Solver σ β ι ν ε) (second : Solver τ β ι ν ε) :
    Prop where
  stage : first.stage? = second.stage?
  stats : first.stats = second.stats
  facts : ∀ inst ∈ program, ∃ domain domainToo fact factToo,
    first.domain? = some domain ∧ second.domain? = some domainToo ∧
    first.factOf? inst = some fact ∧ second.factOf? inst = some factToo ∧
    domain.Alike domainToo fact factToo

structure Results.Alike (graph : FlowGraph β ι ν) (first second : Results β ι ε) : Prop where
  facts : ∀ inst ∈ graph.program, ∃ fact factToo,
    first.factOf? inst = some fact ∧ second.factOf? inst = some factToo ∧
    first.domain.Alike second.domain fact factToo
  entries : ∀ block ∈ graph.blocks, ∃ entry entryToo,
    first.entryFact? block = some entry ∧ second.entryFact? block = some entryToo ∧
    entry.Alike first.domain second.domain entryToo
  stats : first.stats = second.stats

namespace Problem

section Start

variable {problem : Problem σ β ι ν ε} {recipe : Recipe ι ε}
  (obeys : problem.client.Obeys problem.graph recipe)

include obeys

/-- The run of a client that obeys a recipe starts with what the recipe says. -/
theorem exists_start (sound : problem.defect? = none) (distinct : problem.graph.program.Nodup) :
    ∃ session, problem.Starts session ∧
      (∀ e, e ∈ session.domain.elements ↔ ∃ inst ∈ problem.graph.program, e ∈ recipe.collect inst) ∧
      session.boundary = recipe.boundary.fact session.domain ∧
      ∀ inst, session.store.get? inst =
        if inst ∈ problem.graph.program then some (recipe.initial.fact session.domain) else none := by
  have sized (level : Recipe.Level) (domain : Domain ε) :
      (level.fact domain).width = domain.size :=
    (Domain.Matches.level domain domain level).width
  obtain ⟨first, collected⟩ := exists_collect obeys.collect problem.memory
  obtain ⟨session, started, domain, boundary⟩ := starts_of_answers sound distinct collected
    (Prod.ext (obeys.initial _ _ _) rfl) (Prod.ext (obeys.boundary _ _ _) rfl)
    (sized _ _) (sized _ _)
  obtain ⟨_, _, _, _, initial, memory, answered, _, store⟩ := begin_eq_ok (starts_iff.mp started).2
  refine ⟨session, started, fun e => ?_, ?_, fun inst => ?_⟩
  · rw [domain, Domain.mem_foldl_insertAll]
    simp [Domain.empty]
  · rw [boundary, domain]
  · cases answered.symm.trans (obeys.initial _ _ _)
    exact store inst

end Start

variable {ahead : Problem σ β ι ν ε} {back : Problem τ β ι ν ε} {recipe : Recipe ι ε}
  {left : Session σ β ι ε} {right : Session τ β ι ε}

/-- Runs of dual problems are in step from the start. -/
theorem Dual.start (dual : ahead.Dual back recipe) (sound : ahead.defect? = none)
    (soundToo : back.defect? = none) (distinct : ahead.graph.program.Nodup) :
    ∃ left right, ahead.Starts left ∧ back.Starts right ∧ ahead.InStep back left right := by
  have order : back.graph.program.Perm ahead.graph.program :=
    back.plan_perm.symm.trans (dual.plan ▸ ahead.plan_perm)
  obtain ⟨left, started, collects, boundary, store⟩ := exists_start dual.obeys sound distinct
  obtain ⟨right, startedToo, collectsToo, boundaryToo, storeToo⟩ :=
    exists_start dual.obeysToo soundToo (order.nodup_iff.mpr distinct)
  refine ⟨left, right, started, startedToo, ⟨left, started, .refl⟩, ⟨right, startedToo, .refl⟩, ?_⟩
  obtain ⟨_, _, stats, stage, _⟩ := begin_eq_ok (starts_iff.mp started).2
  obtain ⟨_, _, statsToo, stageToo, _⟩ := begin_eq_ok (starts_iff.mp startedToo).2
  have same : left.domain.SameElements right.domain := by
    intro e
    rw [collects, collectsToo]
    simp only [order.mem_iff]
  refine ⟨same, ?_, ⟨fun inst => ?_, fun inst listed => ?_, fun block => ?_, rfl, rfl, rfl⟩, ?_, ?_⟩
  · rw [boundary, boundaryToo]
    exact .level _ _ _
  · change Option.Rel _ (left.store.get? inst) (right.store.get? inst)
    rw [store, storeToo]
    simp only [order.mem_iff]
    split
    · exact .some (.level _ _ _)
    · exact .none
  · change (left.store.get? inst).isSome
    rw [store, if_pos listed]
    rfl
  · change Option.Rel _ (left.entries.get? block) (right.entries.get? block)
    rw [entries_of_begin (starts_iff.mp started).2, entries_of_begin (starts_iff.mp startedToo).2]
    exact .none
  · rw [stats, statsToo, same.size_eq, order.length_eq]
  · rw [stage, stageToo]

/-- Runs in step hold the same elements at every listed instruction. -/
theorem InStep.exists_alike (inStep : ahead.InStep back left right) {inst : ι}
    (listed : inst ∈ ahead.graph.program) :
    ∃ fact factToo, left.store.get? inst = some fact ∧ right.store.get? inst = some factToo ∧
      left.domain.Alike right.domain fact factToo := by
  obtain ⟨fact, factToo, found, foundToo, matching⟩ := inStep.mirrors.state.exists_facts listed
  exact ⟨fact, factToo, found, foundToo, matching.decode inStep.mirrors.domain⟩

theorem InStep.solver_alike (inStep : ahead.InStep back left right) :
    Solver.Alike ahead.graph.program ⟨ahead, some left⟩ ⟨back, some right⟩ where
  stage := congrArg some inStep.mirrors.stage
  stats := inStep.mirrors.stats
  facts := by
    intro inst listed
    obtain ⟨fact, factToo, found, foundToo, alike⟩ := inStep.exists_alike listed
    exact ⟨_, _, fact, factToo, rfl, rfl, found, foundToo, alike⟩

theorem InStep.results_alike (dual : ahead.Dual back recipe) (inStep : ahead.InStep back left right)
    (converged : left.stage = .converged) :
    Results.Alike ahead.graph (ahead.resultsOf left) (back.resultsOf right) where
  facts := fun _ listed => inStep.exists_alike listed
  entries := by
    intro block listed
    obtain ⟨first, started, sweeps⟩ := inStep.reached
    obtain ⟨entry, found, _⟩ :=
      started.balanced (isPure_of_obeys dual.obeys) sweeps converged listed
    obtain ⟨entryToo, foundToo, matching⟩ :=
      exists_of_rel (found ▸ inStep.mirrors.state.entries block)
    refine ⟨entry, entryToo, found, foundToo, ?_⟩
    cases matching with
    | boundary here => exact .boundary (here.decode inStep.mirrors.domain)
    | meet here => exact .meet (here.decode inStep.mirrors.domain)
  stats := inStep.mirrors.stats

/-- Whatever sweeps by hand the runs have behind them, they are solved alike. -/
theorem Dual.trySolve (dual : ahead.Dual back recipe) (inStep : ahead.InStep back left right)
    (patience : Nat) :
    Agree (Option.Rel (SameOutcome (Results.Alike ahead.graph)))
      (Solver.trySolve ⟨ahead, some left⟩ patience).outcome
      (Solver.trySolve ⟨back, some right⟩ patience).outcome := by
  rw [outcome_trySolve, outcome_trySolve]
  refine (dual.iterate patience inStep).bind fun ended endedToo same => ?_
  cases same with
  | none => exact .of_ok .none
  | some outcome =>
    cases outcome with
    | failed error => exact .of_ok (.some (.failed error))
    | solved there =>
      obtain ⟨reaches, converged⟩ := there
      obtain ⟨first, started, sweeps⟩ := reaches.reached
      obtain ⟨second, startedToo, sweepsToo⟩ := reaches.reachedToo
      have concluded := started.outcome_conclude (isPure_of_obeys dual.obeys) sweeps converged
      have concludedToo := startedToo.outcome_conclude (isPure_of_obeys dual.obeysToo) sweepsToo
        (reaches.mirrors.stage ▸ converged)
      simp only [concluded, concludedToo]
      exact .of_ok (.some (.solved (reaches.results_alike dual converged)))

omit [DecidableEq ι] in
/-- A graph is walked forward as its reversal is walked backward, if nothing leads back to the
entry: then every block starts from the boundary on both sides or on neither. -/
theorem dual_of_reverse {graph : FlowGraph β ι ν} {forward : Client σ β ι ν ε}
    {backward : Client τ β ι ν ε} (onward : forward.direction = .forward)
    (homeward : backward.direction = .backward)
    (free : ∀ block, graph.entry = some block → graph.predecessors block = [])
    (obeys : forward.Obeys graph recipe) (obeysToo : backward.Obeys graph.reverse recipe)
    (first : σ) (second : τ) (config : Config) :
    Dual ⟨forward, first, graph, config⟩ ⟨backward, second, graph.reverse, config⟩ recipe where
  plan := by
    simp [Problem.plan, onward, homeward, Direction.blockOrder, Direction.instructionOrder,
      FlowGraph.reverse]
  neighbors := fun block => by
    rw [onward, homeward]
    rfl
  exit? := fun block => by
    simp [onward, homeward, Direction.exit?, Direction.instructionOrder, FlowGraph.reverse]
  usesBoundary := fun block => by
    rw [onward, homeward]
    change (graph.predecessors block).isEmpty =
      (decide (graph.entry = some block) || (graph.predecessors block).isEmpty)
    by_cases entry : graph.entry = some block
    · simp [entry, free block entry]
    · simp [entry]
  config := rfl
  obeys := obeys
  obeysToo := obeysToo

end Problem

def Script.turnover (direction : Direction) : Script :=
  ⟨direction, [.definitions, .operands], .empty, .full, .union, [.eraseOperands, .insertDefinition]⟩

namespace Ssa

/-- Run forward over a function and backward over its reversal, clients that obey one recipe are in
step throughout and give the same results. -/
theorem direction_duality {σ τ : Type} (name : String) (steps : List Step) (function : Function)
    (built : ((Draft.empty name).steps steps).2.toFunction = .ok function)
    (free : ∀ block, function.graph.entry = some block → function.graph.predecessors block = [])
    (forward : Client σ Block Inst Value Value) (backward : Client τ Block Inst Value Value)
    (onward : forward.direction = .forward) (homeward : backward.direction = .backward)
    (recipe : Recipe Inst Value) (obeys : forward.Obeys function.graph recipe)
    (obeysToo : backward.Obeys function.graph.reverse recipe) (first : σ) (second : τ)
    (config : Config) :
    ∃ begun begunToo,
      (Solver.ofProblem ⟨forward, first, function.graph, config⟩).start.outcome =
        .ok (.ok (), begun) ∧
      (Solver.ofProblem ⟨backward, second, function.graph.reverse, config⟩).start.outcome =
        .ok (.ok (), begunToo) ∧
      (∀ times, ∃ answers driven drivenToo,
        (begun.sweepTimes times).outcome = .ok (answers, driven) ∧
        (begunToo.sweepTimes times).outcome = .ok (answers, drivenToo) ∧
        driven.Alike function.graph.program drivenToo) ∧
      ∀ patience, Agree (Option.Rel (SameOutcome (Results.Alike function.graph)))
        ((Solver.ofProblem ⟨forward, first, function.graph, config⟩).trySolve patience).outcome
        ((Solver.ofProblem ⟨backward, second, function.graph.reverse, config⟩).trySolve
          patience).outcome := by
  obtain ⟨edges, finished⟩ := (Draft.Coherent.steps name steps).finished built
  have sound := finished.defect?_eq_none
  have dual := Problem.dual_of_reverse onward homeward free obeys obeysToo first second config
  obtain ⟨left, right, started, startedToo, inStep⟩ := dual.start
    (Problem.defect?_of_sound sound) (Problem.defect?_of_sound (FlowGraph.defect?_reverse sound))
    finished.program_nodup
  refine ⟨_, _, started, startedToo, fun times => ?_, fun patience => ?_⟩
  · obtain ⟨answers, next, nextToo, swept, sweptToo, there⟩ := dual.sweepTimes times inStep
    exact ⟨answers, _, _, swept, sweptToo, there.solver_alike⟩
  · rw [started.outcome_trySolve, startedToo.outcome_trySolve]
    exact dual.trySolve inStep patience

theorem direction_duality_of_countdown :
    ∃ function, ((Draft.empty "countdown").steps Step.countdown).2.toFunction = .ok function ∧
      ∃ begun begunToo,
        (Solver.ofProblem ⟨(Script.turnover .forward).client, 0, function.graph,
          .standard⟩).start.outcome = .ok (.ok (), begun) ∧
        (Solver.ofProblem ⟨(Script.turnover .backward).client, 0, function.graph.reverse,
          .standard⟩).start.outcome = .ok (.ok (), begunToo) ∧
        ∃ answers driven drivenToo,
          (begun.sweepTimes 2).outcome = .ok (answers, driven) ∧
          (begunToo.sweepTimes 2).outcome = .ok (answers, drivenToo) ∧
          driven.Alike function.graph.program drivenToo := by
  obtain ⟨function, built⟩ : ∃ function,
      ((Draft.empty "countdown").steps Step.countdown).2.toFunction = .ok function := ⟨_, rfl⟩
  have entry : ((Draft.empty "countdown").steps Step.countdown).2.toFunction.map (fun function =>
      (function.graph.entry, function.graph.predecessors ⟨0⟩)) = .ok (some ⟨0⟩, []) := rfl
  rw [built] at entry
  obtain ⟨first, none⟩ := Prod.mk.inj (Except.ok.inj entry)
  have free : ∀ block, function.graph.entry = some block →
      function.graph.predecessors block = [] := by
    intro block entry
    cases first.symm.trans entry
    exact none
  obtain ⟨begun, begunToo, starts, startsToo, sweeps, _⟩ := direction_duality "countdown"
    Step.countdown function built free (Script.turnover .forward).client
    (Script.turnover .backward).client rfl rfl _
    (Recipe.script_obeys .forward function.graph [.definitions, .operands] .empty .full .union
      [.eraseOperands, .insertDefinition])
    (Recipe.script_obeys .backward function.graph.reverse [.definitions, .operands] .empty .full
      .union [.eraseOperands, .insertDefinition]) 0 0 .standard
  exact ⟨function, built, begun, begunToo, starts, startsToo, sweeps 2⟩

end Ssa

end Dataflow
