import Dataflow.Proofs.Solver.Alike

/-! Edges listed anew. In which order a block lists its neighbours and how often it lists one of them
decides neither whether a graph is accepted nor anything in a run of the analyses: whether there are
neighbours at all does not depend on it, and the facts that come from them are joined. -/
namespace Dataflow

variable {σ β ι ν ε : Type}

theorem isEmpty_congr {α : Type} {left right : List α}
    (same : ∀ item, item ∈ left ↔ item ∈ right) : left.isEmpty = right.isEmpty := by
  rw [Bool.eq_iff_iff, List.isEmpty_iff, List.isEmpty_iff, List.eq_nil_iff_forall_not_mem,
    List.eq_nil_iff_forall_not_mem]
  exact forall_congr' fun item => not_congr (same item)

namespace FlowGraph

def relist (graph : FlowGraph β ι ν) (predecessors successors : β → List β) : FlowGraph β ι ν :=
  { graph with predecessors, successors }

structure Relists (graph : FlowGraph β ι ν) (predecessors successors : β → List β) : Prop where
  predecessors : ∀ block source, source ∈ predecessors block ↔ source ∈ graph.predecessors block
  successors : ∀ block target, target ∈ successors block ↔ target ∈ graph.successors block

variable {graph : FlowGraph β ι ν} {predecessors successors : β → List β}

theorem Relists.symm (relists : graph.Relists predecessors successors) :
    (graph.relist predecessors successors).Relists graph.predecessors graph.successors :=
  ⟨fun block source => (relists.predecessors block source).symm,
    fun block target => (relists.successors block target).symm⟩

theorem WellFormedAt.relist {block : β} (wellFormed : graph.WellFormedAt block)
    (relists : graph.Relists predecessors successors) :
    (graph.relist predecessors successors).WellFormedAt block where
  nonempty := wellFormed.nonempty
  forward := fun target edge => (relists.predecessors target block).mpr
    (wellFormed.forward target ((relists.successors block target).mp edge))
  backward := fun source edge => (relists.successors source block).mpr
    (wellFormed.backward source ((relists.predecessors block source).mp edge))
  owned := wellFormed.owned
  leading := wellFormed.leading
  agrees := by
    intro inst listed merge
    obtain ⟨known, selected⟩ := wellFormed.agrees inst listed merge
    exact ⟨fun pair member => (relists.predecessors block pair.1).mpr (known pair member),
      fun source edge => selected source ((relists.predecessors block source).mp edge)⟩

variable (relists : graph.Relists predecessors successors)

include relists

theorem defect?_relist [DecidableEq β] :
    (graph.relist predecessors successors).defect? = none ↔ graph.defect? = none := by
  rw [defect?_eq_none, defect?_eq_none]
  exact forall₂_congr fun block _ =>
    ⟨fun wellFormed => wellFormed.relist relists.symm, fun wellFormed => wellFormed.relist relists⟩

theorem mem_neighbors_relist (direction : Direction) (block neighbor : β) :
    neighbor ∈ direction.neighbors (graph.relist predecessors successors) block ↔
      neighbor ∈ direction.neighbors graph block := by
  cases direction with
  | forward => exact relists.predecessors block neighbor
  | backward => exact relists.successors block neighbor

theorem usesBoundary_relist [DecidableEq β] (direction : Direction) (block : β) :
    direction.usesBoundary (graph.relist predecessors successors) block =
      direction.usesBoundary graph block := by
  cases direction with
  | forward => exact congrArg (_ || ·) (isEmpty_congr (relists.predecessors block))
  | backward => exact isEmpty_congr (relists.successors block)

end FlowGraph

namespace Problem

def relist (problem : Problem σ β ι ν ε) (predecessors successors : β → List β) :
    Problem σ β ι ν ε :=
  { problem with graph := problem.graph.relist predecessors successors }

variable [DecidableEq β] [DecidableEq ι] {problem : Problem σ β ι ν ε}
  {predecessors successors : β → List β}
  (relists : problem.graph.Relists predecessors successors)

include relists

omit [DecidableEq β] in
theorem mem_arriving_relist (store : Store ι) (block : β) (neighbor : Neighbor β) :
    neighbor ∈ (problem.relist predecessors successors).arriving store block ↔
      neighbor ∈ problem.arriving store block := by
  have exit : ∀ other, problem.client.direction.exit?
      (problem.graph.relist predecessors successors) other =
        problem.client.direction.exit? problem.graph other := fun other => by
    cases problem.client.direction <;> rfl
  simp only [arriving, relist, List.mem_filterMap, exit]
  exact exists_congr fun other => and_congr_left fun _ =>
    FlowGraph.mem_neighbors_relist relists problem.client.direction block other

variable [Subsingleton σ] {domain : Domain ε} {boundary : Fact} {ops : Operators β ι}
  {valid others : Store ι → Prop} (follows : problem.Follows domain boundary ops valid)
  (followsToo : (problem.relist predecessors successors).Follows domain boundary ops others)
  (carries : ∀ store, valid store → others store)
  (unordered : ∀ block (left right : List (Neighbor β)),
    (∀ neighbor, neighbor ∈ left ↔ neighbor ∈ right) → ops.meet block left = ops.meet block right)

include follows followsToo carries unordered

/-- Where the operators make the same of the same facts, in whatever order, blocks are entered
alike. -/
theorem enter_relist {session : Session σ β ι ε} (here : session.domain = domain)
    (edge : session.boundary = boundary) {pass : Pass σ β ι} (good : valid pass.store) {block : β}
    (listed : block ∈ problem.graph.blocks) :
    (problem.relist predecessors successors).enter session pass block =
      problem.enter session pass block := by
  subst here edge
  have same := mem_arriving_relist relists pass.store block
  have empty := isEmpty_congr same
  have outer : (problem.relist predecessors successors).client.direction.usesBoundary
      (problem.relist predecessors successors).graph block =
        problem.client.direction.usesBoundary problem.graph block :=
    FlowGraph.usesBoundary_relist relists problem.client.direction block
  unfold Problem.enter
  dsimp only
  rw [outer, empty]
  split
  · rfl
  · next asks =>
    obtain ⟨inner, nonempty⟩ : problem.client.direction.usesBoundary problem.graph block = false ∧
        problem.arriving pass.store block ≠ [] := by
      simpa using asks
    have nonemptyToo : (problem.relist predecessors successors).arriving pass.store block ≠ [] := by
      rwa [← List.isEmpty_eq_false_iff, empty, List.isEmpty_eq_false_iff]
    have answered := follows.meet pass.store block pass.memory good listed inner nonempty
    have answeredToo := followsToo.meet pass.store block pass.memory (carries _ good) listed
      (outer.trans inner) nonemptyToo
    rw [unordered block _ _ same, ← answered] at answeredToo
    -- the operators speak of answers only; what the client remembers cannot differ
    have asked : ((problem.relist predecessors successors).client.meet
        ⟨(problem.relist predecessors successors).graph, session.domain, pass.store⟩ block
          ((problem.relist predecessors successors).arriving pass.store block)).run pass.memory =
        (problem.client.meet ⟨problem.graph, session.domain, pass.store⟩ block
          (problem.arriving pass.store block)).run pass.memory :=
      Prod.ext answeredToo (Subsingleton.elim _ _)
    simp only [Call.traced, asked]

theorem alike_relist
    (advance : ∀ session : Session σ β ι ε,
      (problem.relist predecessors successors).advance session = problem.advance session)
    (results : ∀ session,
      (problem.relist predecessors successors).resultsOf session = problem.resultsOf session) :
    problem.Alike (problem.relist predecessors successors) domain boundary valid where
  config := rfl
  name := rfl
  plan := by
    dsimp only [plan, relist]
    cases problem.client.direction <;> rfl
  enter := fun _ _ _ here edge good listed =>
    enter_relist relists follows followsToo carries unordered here edge good listed
  advance := advance
  results := results

end Problem

theorem Problem.defect?_of_accepted [DecidableEq β] {problem : Problem σ β ι ν ε}
    (accepted : problem.config.validateGraph = true → problem.graph.defect? = none) :
    problem.defect? = none := by
  unfold Problem.defect?
  split
  · next checked => exact accepted checked
  · rfl

theorem Results.dump_relist [DecidableEq β] [DecidableEq ι] (results : Results β ι ε)
    (graph : FlowGraph β ι ν) (predecessors successors : β → List β) :
    results.dump (graph.relist predecessors successors) = results.dump graph := by
  obtain ⟨_, _, _, _, direction, _⟩ := results
  cases direction <;> rfl

section Analyses

theorem Reaching.meet_unordered [DecidableEq ν] {graph : FlowGraph β ι ν} {domain : Domain ν}
    (block : β) (left right : List (Neighbor β))
    (same : ∀ neighbor, neighbor ∈ left ↔ neighbor ∈ right) :
    (operators graph domain).meet block left = (operators graph domain).meet block right := by
  simp only [operators, same]

theorem Liveness.meet_unordered [DecidableEq β] [DecidableEq ι] [DecidableEq ν]
    {graph : FlowGraph β ι ν} {domain : Domain ν} (block : β) (left right : List (Neighbor β))
    (same : ∀ neighbor, neighbor ∈ left ↔ neighbor ∈ right) :
    (operators graph domain).meet block left = (operators graph domain).meet block right := by
  simp only [operators, same]

variable [DecidableEq β] [DecidableEq ι] [DecidableEq ν] {graph : FlowGraph β ι ν} {config : Config}
  {predecessors successors : β → List β} (relists : graph.Relists predecessors successors)
  (distinct : graph.program.Nodup)

include relists distinct

theorem Reaching.sameRuns_relist (sound : (reachingDefinitions.on graph config).defect? = none)
    (soundToo : (reachingDefinitions.on (graph.relist predecessors successors) config).defect? =
      none) :
    (reachingDefinitions.on graph config).SameRuns
      (reachingDefinitions.on (graph.relist predecessors successors) config) := by
  obtain ⟨session, started⟩ := exists_session sound distinct
  have follows := follows started
  have followsToo : ((reachingDefinitions.on graph config).relist predecessors successors).Follows
      session.domain session.boundary (operators graph session.domain) _ :=
    .of_computes computes ⟨operators_sized, follows.sized.boundary⟩
  have alike := Problem.alike_relist relists follows followsToo
    (fun _ covers => ⟨covers.listed, covers.sized⟩) meet_unordered (fun _ => rfl) (fun _ => rfl)
  exact alike.sameRuns follows started.fills started.running.1 started soundToo rfl
    (fun unlimited => (total sound distinct unlimited).ends.imp fun _ => And.left)
    (fun results => results.dump_relist graph predecessors successors)

theorem Liveness.sameRuns_relist [Shown β] [Shown ν]
    (closed : ∀ block ∈ graph.blocks, ∀ target ∈ graph.successors block,
      target ∈ graph.blocks ∨ graph.instructions target = [])
    (sound : (liveVariables.on graph config).defect? = none)
    (soundToo : (liveVariables.on (graph.relist predecessors successors) config).defect? = none) :
    (liveVariables.on graph config).SameRuns
      (liveVariables.on (graph.relist predecessors successors) config) := by
  obtain ⟨session, started, follows, _, good⟩ := exists_follows sound distinct closed
  have closedToo : ∀ block ∈ graph.blocks, ∀ target ∈ successors block,
      target ∈ graph.blocks ∨ graph.instructions target = [] := fun block listed target edge =>
    closed block listed target ((relists.successors block target).mp edge)
  have begun : (liveVariables.on (graph.relist predecessors successors) config).Starts session :=
    Problem.starts_iff.mpr ⟨soundToo, (Problem.starts_iff.mp started).2⟩
  obtain ⟨other, startedToo, there, _⟩ := exists_follows soundToo distinct closedToo
  cases begun.unique startedToo
  -- transfer and meet read the edges nowhere, so both graphs have the same operators
  have followsToo : ((liveVariables.on graph config).relist predecessors successors).Follows
      session.domain session.boundary (operators graph session.domain) _ := there
  have alike := Problem.alike_relist relists follows followsToo
    (fun _ good => ⟨⟨good.1.listed, good.1.sized⟩, good.2⟩) meet_unordered (fun _ => rfl)
    (fun _ => rfl)
  exact alike.sameRuns follows good started.running.1 started soundToo rfl
    (fun unlimited => (total sound distinct closed unlimited).ends.imp fun _ => And.left)
    (fun results => results.dump_relist graph predecessors successors)

end Analyses

structure Table.SameEdges (first second : Table) : Prop where
  rest : second =
    { first with predecessors := second.predecessors, successors := second.successors }
  predecessors : ∀ block source,
    source ∈ second.graph.predecessors block ↔ source ∈ first.graph.predecessors block
  successors : ∀ block target,
    target ∈ second.graph.successors block ↔ target ∈ first.graph.successors block

namespace Table.SameEdges

variable {first second : Table} (same : first.SameEdges second)

include same

theorem relists : first.graph.Relists second.graph.predecessors second.graph.successors :=
  ⟨same.predecessors, same.successors⟩

theorem graph_eq :
    second.graph = first.graph.relist second.graph.predecessors second.graph.successors := by
  rw [same.rest]
  rfl

end Table.SameEdges

/-- To the check of a graph and to the analyses, lists of edges are sets. A table is accepted with
its edges listed anew exactly if it is accepted as it is. If it lists no instruction twice, and is
accepted or taken on trust, runs of the analyses do not show how its edges are listed. -/
theorem edge_lists_are_sets {first second : Table} (same : first.SameEdges second) :
    (first.graph.defect? = none ↔ second.graph.defect? = none) ∧
    (first.graph.program.Nodup → ∀ config : Config,
      (config.validateGraph = true → first.graph.defect? = none) →
      (liveVariables.on first.graph config).SameRuns (liveVariables.on second.graph config) ∧
      (reachingDefinitions.on first.graph config).SameRuns
        (reachingDefinitions.on second.graph config)) := by
  rw [same.graph_eq]
  have accepted := FlowGraph.defect?_relist same.relists
  refine ⟨accepted.symm, fun distinct config valid => ⟨?_, ?_⟩⟩
  · exact Liveness.sameRuns_relist same.relists distinct first.closed
      (Problem.defect?_of_accepted valid)
      (Problem.defect?_of_accepted fun checked => accepted.mpr (valid checked))
  · exact Reaching.sameRuns_relist same.relists distinct (Problem.defect?_of_accepted valid)
      (Problem.defect?_of_accepted fun checked => accepted.mpr (valid checked))

def Table.loopsRelisted : Table :=
  { Table.loops with
    predecessors := #[[1, 1], [1, 0, 1], [1]]
    successors := #[[1], [2, 0, 1, 0], []] }

theorem Table.sameEdges_loopsRelisted : Table.loops.SameEdges Table.loopsRelisted where
  rest := rfl
  predecessors := by
    intro block source
    rcases block with _ | _ | _ | block <;> grind [Table.graph, Table.loops, Table.loopsRelisted]
  successors := by
    intro block target
    rcases block with _ | _ | _ | block <;> grind [Table.graph, Table.loops, Table.loopsRelisted]

theorem edge_lists_are_sets_on_loops :
    Table.loops.SameEdges Table.loopsRelisted ∧ Table.loops.graph.program.Nodup ∧
    Table.loops.graph.defect? = none ∧ Table.loopsRelisted.graph.defect? = none ∧
    (liveVariables.on Table.loops.graph .standard).SameRuns
      (liveVariables.on Table.loopsRelisted.graph .standard) ∧
    (reachingDefinitions.on Table.loops.graph .standard).SameRuns
      (reachingDefinitions.on Table.loopsRelisted.graph .standard) := by
  have accepted : Table.loops.graph.defect? = none := by decide
  have distinct : Table.loops.graph.program.Nodup := by decide
  obtain ⟨acceptance, runs⟩ := edge_lists_are_sets Table.sameEdges_loopsRelisted
  exact ⟨Table.sameEdges_loopsRelisted, distinct, accepted, acceptance.mp accepted,
    runs distinct .standard fun _ => accepted⟩

end Dataflow
