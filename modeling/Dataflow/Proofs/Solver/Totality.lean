import Dataflow.Proofs.Liveness.Operators
import Dataflow.Proofs.Reaching.Exact
import Dataflow.Proofs.Solver.Steps

/-! Runs that cannot fail. Where the operators answer on every store that a run can come to, every
sweep can be made, whoever drives the solver and however far it has got. The analyses are such on
tables of any shape: edges need not agree and may lead nowhere, blocks may be empty, and merges may
stand anywhere. What live variables demands of two facts that are stored apart holds at every block
of every sweep. -/
namespace Dataflow

variable {σ β ι ν ε : Type} [DecidableEq β] [DecidableEq ι]

namespace Problem

variable {problem : Problem σ β ι ν ε} {first session : Session σ β ι ε} {ops : Operators β ι}
  {valid : Store ι → Prop}

/-- Along a run the client keeps answering, and a session that has converged is a solution. -/
theorem Follows.reached (follows : problem.Follows first.domain first.boundary ops valid)
    (good : valid first.store) (running : first.stage ≠ .converged)
    (sweeps : problem.Sweeps first session) :
    problem.Follows session.domain session.boundary ops valid ∧ valid session.store ∧
      (session.stage = .converged →
        (problem.system session.domain session.boundary ops).Solves session.store) := by
  induction sweeps with
  | refl => exact ⟨follows, good, fun converged => absurd converged running⟩
  | @tail middle next _ step ih =>
    obtain ⟨there, goodMiddle, solution⟩ := ih
    have run := step.sameRun
    obtain ⟨changed, swept⟩ := step
    rw [run.domain, run.boundary]
    refine ⟨there, ?_⟩
    by_cases converged : middle.stage = .converged
    · obtain ⟨_, verified, _, store, _⟩ :=
        there.outcome_verify goodMiddle converged (solution converged)
      cases swept.symm.trans verified
      rw [store]
      exact ⟨goodMiddle, fun _ => solution converged⟩
    · obtain ⟨_, _, counted, _, goodNext, store, _, ends⟩ := there.outcome_sweep goodMiddle converged
      cases swept.symm.trans counted
      refine ⟨goodNext, fun stable => ?_⟩
      have solves := ends.mp stable
      rw [store, solves.round]
      exact solves

theorem Follows.exists_sweep (follows : problem.Follows first.domain first.boundary ops valid)
    (good : valid first.store) (running : first.stage ≠ .converged)
    (sweeps : problem.Sweeps first session) :
    ∃ answer, (problem.sweep session).outcome = .ok answer := by
  obtain ⟨here, goodHere, solution⟩ := follows.reached good running sweeps
  by_cases converged : session.stage = .converged
  · obtain ⟨_, swept, _⟩ := here.outcome_verify goodHere converged (solution converged)
    exact ⟨_, swept⟩
  · obtain ⟨_, _, swept, _⟩ := here.outcome_sweep goodHere converged
    exact ⟨_, swept⟩

/-- A sweep comes to each block, and then stands on a valid store. -/
theorem Follows.exists_before (follows : problem.Follows session.domain session.boundary ops valid)
    (good : valid session.store) {before after : List (β × List ι)} {item : β × List ι}
    (split : problem.plan = before ++ item :: after) :
    item.1 ∈ problem.graph.blocks ∧ ∃ pass,
      (before.foldlM (problem.visit session) session.opening).outcome = .ok pass ∧
        valid pass.store := by
  obtain ⟨earlier, others, order, rfl, rest⟩ := List.map_eq_append_iff.mp split
  obtain ⟨block, later, rfl, rfl, _⟩ := List.map_eq_cons_iff.mp rest
  have listed : ∀ other ∈ earlier ++ block :: later, other ∈ problem.graph.blocks := by
    rw [← order]
    exact fun _ => (problem.client.direction.mem_blockOrder problem.graph).mp
  have listedEarlier : ∀ other ∈ earlier, other ∈ problem.graph.blocks :=
    fun other member => listed other (List.mem_append_left _ member)
  obtain ⟨pass, visited, _, goodPass, _⟩ := follows.outcome_visits session.opening good listedEarlier
  exact ⟨listed block (by simp), pass, visited, goodPass⟩

variable [DecidableEq ε]

theorem Starts.unique {second : Session σ β ι ε} (left : problem.Starts first)
    (right : problem.Starts second) : first = second := by
  cases left.symm.trans right
  rfl

/-- The run can be started, every sweep of it can be made, and it ends with an answer before it
has run out of facts to change. -/
structure Total (problem : Problem σ β ι ν ε) : Prop where
  starts : ∃ session, problem.Starts session
  sweeps : ∀ solver session, Solver.Driven problem solver → solver.session? = some session →
    ∃ answer, solver.sweep.outcome = .ok answer
  ends : ∃ results, (Solver.ofProblem problem).EndsWith results ∧
    results.stats.domainSize = results.domain.size ∧
    results.stats.instructions = problem.graph.instructionCount ∧
    results.stats.sweeps ≤ results.stats.domainSize * results.stats.instructions + 1

/-- All sessions of a problem come from one start. -/
theorem Starts.driven {solver : Solver σ β ι ν ε} (started : problem.Starts first)
    (driven : Solver.Driven problem solver) (here : solver.session? = some session) :
    first.stage ≠ .converged ∧ problem.Sweeps first session := by
  obtain ⟨other, startedOther, sweeps⟩ := driven.reached.2 session here
  cases started.unique startedOther
  have stage := (begin_eq_ok (starts_iff.mp started).2).2.2.2.1
  exact ⟨by simp [stage], sweeps⟩

theorem Follows.total {polarity : Polarity} (started : problem.Starts first)
    (follows : problem.Follows first.domain first.boundary ops valid) (good : valid first.store)
    (monotone : ops.Monotone first.domain.size)
    (seeds : problem.client.Seeds problem.graph first.domain polarity)
    (unlimited : problem.config.maxSweeps = none) : problem.Total where
  starts := ⟨first, started⟩
  sweeps := by
    rintro ⟨owner, _⟩ session driven rfl
    obtain ⟨running, sweeps⟩ := started.driven driven rfl
    obtain ⟨rfl, _⟩ := driven.reached
    obtain ⟨⟨changed, next⟩, swept⟩ := follows.exists_sweep good running sweeps
    exact ⟨_, Traced.outcome_bind_eq_ok.mpr ⟨(changed, next), swept, rfl⟩⟩
  ends := by
    obtain ⟨results, ends, domain, _, _, _, bound, size, count⟩ :=
      follows.endsWith_of_monotone started good monotone seeds (by simp [unlimited])
    refine ⟨results, ends, by rw [size, domain], ?_, by rwa [size, count]⟩
    rw [count, FlowGraph.instructionCount_eq]

end Problem

variable [DecidableEq ν]

theorem Reaching.total {graph : FlowGraph β ι ν} {config : Config}
    (sound : (reachingDefinitions.on graph config).defect? = none) (distinct : graph.program.Nodup)
    (unlimited : config.maxSweeps = none) : (reachingDefinitions.on graph config).Total := by
  obtain ⟨session, started⟩ := exists_session sound distinct
  have seeds : (reachingDefinitions.on graph config).client.Seeds graph session.domain .ascending :=
    fun _ => rfl
  exact (follows started).total started started.fills operators_monotone seeds unlimited

namespace Liveness

/-- Of the values that the merges of a neighbour select on other edges only, those that are live
into the neighbour are live past its merges. -/
def LivePast (cx : Context β ι ν ν) (source : β) (neighbor : Neighbor β) : Prop :=
  ∀ inst past, firstOrdinary? cx.graph neighbor.block = some inst →
    cx.store.get? inst = some past →
    ∀ i ∈ selectedElsewhere cx source neighbor.block, i ∈ neighbor.fact → i ∈ past

/-- A sweep of the session comes to every block of its plan, and finds it so with each neighbour
that has a fact to give. -/
def Guarded (problem : Problem σ β ι ν ν) (session : Session σ β ι ν) : Prop :=
  ∀ before item after, problem.plan = before ++ item :: after → ∃ pass,
    (before.foldlM (problem.visit session) session.opening).outcome = .ok pass ∧
      ∀ neighbor ∈ problem.arriving pass.store item.1,
        LivePast ⟨problem.graph, session.domain, pass.store⟩ item.1 neighbor

variable [Shown β] [Shown ν] {graph : FlowGraph β ι ν} {config : Config}
  (sound : (liveVariables.on graph config).defect? = none) (distinct : graph.program.Nodup)
  (closed : ∀ block ∈ graph.blocks, ∀ target ∈ graph.successors block,
    target ∈ graph.blocks ∨ graph.instructions target = [])

include sound distinct closed

/-- A run of live variables starts on a store that its operators answer on. -/
theorem exists_follows : ∃ session, (liveVariables.on graph config).Starts session ∧
    (liveVariables.on graph config).Follows session.domain session.boundary
      (operators graph session.domain)
      (fun store => (system graph session.domain).Covers store ∧ Passing graph store) ∧
    (liveVariables.on graph config).client.Seeds graph session.domain .ascending ∧
    (system graph session.domain).Covers session.store ∧ Passing graph session.store := by
  obtain ⟨session, started, boundary⟩ := exists_session sound distinct
  have seeds : (liveVariables.on graph config).client.Seeds graph session.domain .ascending :=
    fun _ => rfl
  have fresh : (system graph session.domain).Fresh .ascending session.store :=
    (started.fresh seeds : ((liveVariables.on graph config).system _ _
      (operators graph session.domain)).Fresh _ _)
  refine ⟨session, started, ?_, seeds, fresh.covers, passing_of_fresh fresh⟩
  rw [boundary]
  exact follows session.domain distinct closed config

theorem total (unlimited : config.maxSweeps = none) : (liveVariables.on graph config).Total := by
  obtain ⟨session, started, follows, seeds, good⟩ := exists_follows sound distinct closed
  exact follows.total started good operators_monotone seeds unlimited

theorem guarded {solver : Solver Unit β ι ν ν} {session : Session Unit β ι ν}
    (driven : Solver.Driven (liveVariables.on graph config) solver)
    (here : solver.session? = some session) : Guarded (liveVariables.on graph config) session := by
  intro before item after split
  obtain ⟨first, started, follows, _, good⟩ := exists_follows sound distinct closed
  obtain ⟨running, sweeps⟩ := started.driven driven here
  obtain ⟨answers, valid, _⟩ := follows.reached good running sweeps
  obtain ⟨listed, pass, visited, _, passing⟩ := answers.exists_before valid split
  refine ⟨pass, visited, fun neighbor arrives inst past found stored i _ live => ?_⟩
  exact passing.arriving session.domain (closed item.1 listed) arrives found stored i live

end Liveness

namespace Table

/-- Every position that the tables name has an entry in them. -/
@[mk_iff] structure InRange (table : Table) : Prop where
  predecessors : table.predecessors.size = table.blocks.size
  successors : table.successors.size = table.blocks.size
  sources : ∀ sources ∈ table.predecessors, ∀ source ∈ sources, source < table.blocks.size
  targets : ∀ targets ∈ table.successors, ∀ target ∈ targets, target < table.blocks.size
  rows : ∀ insts ∈ table.blocks, ∀ inst ∈ insts, inst < table.rows.size

instance (table : Table) : Decidable table.InRange := decidable_of_iff' _ table.inRange_iff

/-- Nothing has to be made up for the blocks and instructions of the graph: what it says of them
stands in the tables, and it names no others. -/
structure ReadsOff (table : Table) : Prop where
  blocks : ∀ block ∈ table.graph.blocks,
    table.blocks[block]? = some (table.graph.instructions block) ∧
    table.predecessors[block]? = some (table.graph.predecessors block) ∧
    table.successors[block]? = some (table.graph.successors block)
  rows : ∀ inst ∈ table.graph.program, ∃ row, table.rows[inst]? = some row
  forward : table.graph.ClosedForward
  backward : table.graph.ClosedBackward

theorem mem_blocks {table : Table} {block : Nat} :
    block ∈ table.graph.blocks ↔ block < table.blocks.size := List.mem_range

theorem lt_of_mem_row {rows : Array (List Nat)} {bound position item : Nat}
    (inside : ∀ row ∈ rows, ∀ item ∈ row, item < bound) (member : item ∈ rows[position]?.getD []) :
    item < bound := by
  cases found : rows[position]? with
  | none => simp [found] at member
  | some row =>
    rw [found, Option.getD_some] at member
    exact inside row (Array.mem_of_getElem? found) item member

theorem InRange.readsOff {table : Table} (inRange : table.InRange) : table.ReadsOff where
  blocks := by
    intro block listed
    have bound := mem_blocks.mp listed
    have boundSources := inRange.predecessors.symm ▸ bound
    have boundTargets := inRange.successors.symm ▸ bound
    simp [Table.graph, bound, boundSources, boundTargets]
  rows := by
    intro inst listed
    obtain ⟨block, _, member⟩ := FlowGraph.mem_program.mp listed
    exact ⟨_, Array.getElem?_eq_getElem (lt_of_mem_row inRange.rows member)⟩
  forward := fun _ _ _ member => mem_blocks.mpr (lt_of_mem_row inRange.targets member)
  backward := fun _ _ _ member => mem_blocks.mpr (lt_of_mem_row inRange.sources member)

end Table

/-- Edges of a table that lead out of it lead to blocks with nothing in them. -/
theorem Table.closed (table : Table) : ∀ block ∈ table.graph.blocks,
    ∀ target ∈ table.graph.successors block,
      target ∈ table.graph.blocks ∨ table.graph.instructions target = [] := by
  intro _ _ target _
  by_cases inside : target < table.blocks.size
  · exact Or.inl (Table.mem_blocks.mpr inside)
  · exact Or.inr (by simp [Table.graph, Array.getElem?_eq_none (Nat.not_lt.mp inside)])

/-- On every table that lists no instruction twice, unchecked as it is, the analyses cannot fail,
and the demand that live variables makes on its neighbours is met throughout. If the tables have an
entry at every position that they name, nothing in the graph of the run is made up. -/
theorem analyses_total_on_tables (table : Table) (distinct : table.graph.program.Nodup)
    (config : Config) (trusted : config.validateGraph = false)
    (unlimited : config.maxSweeps = none) :
    (reachingDefinitions.on table.graph config).Total ∧
    (liveVariables.on table.graph config).Total ∧
    (∀ solver session, Solver.Driven (liveVariables.on table.graph config) solver →
      solver.session? = some session →
        Liveness.Guarded (liveVariables.on table.graph config) session) ∧
    (table.InRange → table.ReadsOff) := by
  refine ⟨?_, ?_, ?_, Table.InRange.readsOff⟩
  · exact Reaching.total (Problem.defect?_of_trusted trusted) distinct unlimited
  · exact Liveness.total (Problem.defect?_of_trusted trusted) distinct table.closed unlimited
  · intro solver session driven here
    exact Liveness.guarded (Problem.defect?_of_trusted trusted) distinct table.closed driven here

/-- Edges that only one end knows, edges to a block that is not there, an empty block, and merges
that select from anywhere, one of them late in its block. -/
def Table.tangled : Table where
  blocks := #[[0, 1], [], [2, 3, 4], [5]]
  predecessors := #[[2, 7], [], [0], [3]]
  successors := #[[2, 1, 9], [0], [2, 0], []]
  rows := #[⟨0, some 0, none, none⟩, ⟨3, none, some [0, 4], none⟩,
    ⟨2, some 1, none, some [(0, 0), (5, 3)]⟩, ⟨2, some 3, some [1, 8], none⟩,
    ⟨2, some 4, none, some [(2, 3), (2, 4)]⟩, ⟨0, none, some [3], none⟩]
  arguments := [8]
  untracked := []
  entry := some 6

theorem analyses_total_on_tangled :
    (Table.tangled.graph.defect? ≠ none ∧ ¬ Table.tangled.InRange ∧
      (reachingDefinitions.on Table.tangled.graph ⟨none, true, false⟩).Total ∧
      (liveVariables.on Table.tangled.graph ⟨none, true, false⟩).Total ∧
      ∀ solver session,
        Solver.Driven (liveVariables.on Table.tangled.graph ⟨none, true, false⟩) solver →
        solver.session? = some session →
          Liveness.Guarded (liveVariables.on Table.tangled.graph ⟨none, true, false⟩) session) ∧
    Table.loops.InRange ∧ Table.loops.ReadsOff := by
  obtain ⟨reaching, live, guarded, _⟩ :=
    analyses_total_on_tables Table.tangled (by decide) ⟨none, true, false⟩ rfl rfl
  have inRange : Table.loops.InRange := by decide
  obtain ⟨_, _, _, readsOff⟩ :=
    analyses_total_on_tables Table.loops (by decide) ⟨none, true, false⟩ rfl rfl
  exact ⟨⟨by decide, by decide, reaching, live, guarded⟩, inRange, readsOff inRange⟩

end Dataflow
