import Dataflow.Proofs.Duality.Recipe
import Dataflow.Proofs.Exchange
import Dataflow.Proofs.System.Seed

/-! Runs from any seed. A run whose first fact is neither empty nor full moves facts both ways, but
if every position is decided by itself, no position of a fact ever moves back. Seen from its seed
such a run climbs, and it ends as soon as a run from nothing would have to. Clients that take fixed
positions away, put fixed positions in and join or intersect what they are given are of this kind. -/
namespace Dataflow

variable {σ β ι ν ε : Type} [DecidableEq β] [DecidableEq ι]

namespace Problem

variable [DecidableEq ε] {problem : Problem σ β ι ν ε} {session : Session σ β ι ε}
  {ops : Operators β ι} {valid : Store ι → Prop}

/-- Every instruction starts with the seed, whatever it is. -/
theorem Starts.exists_seed (started : problem.Starts session) (ops : Operators β ι) :
    ∃ seed : Fact, seed.width = session.domain.size ∧
      ((problem.system session.domain session.boundary ops).against seed).Fresh .ascending
        (session.store.against seed) := by
  obtain ⟨_, _, _, _, seed, _, _, width, store⟩ := begin_eq_ok (starts_iff.mp started).2
  refine ⟨seed, width, fun inst => ?_⟩
  rw [Store.get?_against, store]
  change Option.map _ _ = if inst ∈ problem.graph.program then
    some (Fact.empty session.domain.size) else none
  split
  · rw [Option.map_some, Fact.against_self, width]
  · rfl

theorem Follows.endsWith_of_positional (started : problem.Starts session)
    (follows : problem.Follows session.domain session.boundary ops
      (problem.system session.domain session.boundary ops).Covers)
    (positional : ops.Positional session.domain.size)
    (unlimited : ∀ limit ∈ problem.config.maxSweeps,
      session.domain.size * problem.graph.program.length + 1 ≤ limit) :
    ∃ results, (Solver.ofProblem problem).EndsWith results ∧ 1 ≤ results.stats.sweeps ∧
      results.stats.sweeps ≤ session.domain.size * problem.graph.program.length + 1 ∧
      results.stats.domainSize = session.domain.size ∧
      results.stats.instructions = problem.graph.program.length := by
  obtain ⟨seed, fits, fresh⟩ := started.exists_seed ops
  let system := problem.system session.domain session.boundary ops
  have sized : system.Sized := follows.sized
  have regular : (system.against seed).Regular :=
    ⟨System.sized_against fits, System.monotone_against fits positional, started.distinct⟩
  have climbs : problem.Follows session.domain session.boundary ops fun store =>
      system.Covers store ∧ (system.against seed).Rising .ascending (store.against seed) :=
    follows.strengthen fun store block covers rising listed => by
      change (system.against seed).Rising .ascending ((system.settle store block).against seed)
      rw [← System.settle_against fits sized covers]
      exact rising.settle regular (covers.against fits) listed
  have start : system.gapFrom seed session.store ≤
      session.domain.size * problem.graph.program.length := System.gapFrom_le session.store
  obtain ⟨results, ends, _, _, _, first, last, counts⟩ := climbs.endsWith started
    ⟨started.fills, fresh.rising regular.sized⟩ (system.gapFrom seed)
    (fun _ good => System.Rising.gapFrom_round_lt fits sized regular good.1 good.2)
    (fun limit member => (Nat.succ_le_succ start).trans (unlimited limit member))
  exact ⟨results, ends, first, last.trans (Nat.succ_le_succ start), counts⟩

end Problem

def Recipe.Meet.Has (facts : List Fact) (i : Nat) : Recipe.Meet → Prop
  | union => ∃ fact ∈ facts, i ∈ fact
  | inter => ∀ fact ∈ facts, i ∈ fact

instance (facts : List Fact) (i : Nat) : (meet : Recipe.Meet) → Decidable (meet.Has facts i)
  | .union => inferInstanceAs (Decidable (∃ _ ∈ _, _))
  | .inter => inferInstanceAs (Decidable (∀ _ ∈ _, _))

theorem Recipe.Meet.has_imp_has (meet : Recipe.Meet) {left right : List Fact} {i : Nat}
    (pairs : List.Forall₂ (fun l r => i ∈ l → i ∈ r) left right) :
    meet.Has left i → meet.Has right i := by
  induction pairs with
  | nil => exact id
  | cons onward _ ih =>
    cases meet with
    | union =>
      simp only [Has, List.exists_mem_cons_iff]
      exact Or.imp onward ih
    | inter =>
      simp only [Has, List.forall_mem_cons]
      exact And.imp onward ih

theorem Recipe.Meet.fact_eq_ok (meet : Recipe.Meet) {domain : Domain ε} {facts : List Fact}
    (sized : ∀ fact ∈ facts, fact.width = domain.size) :
    meet.fact domain facts = .ok (Fact.ofPred domain.size fun i => meet.Has facts i) := by
  cases meet with
  | union =>
    obtain ⟨result, joined, width, members⟩ := Fact.unionOf_of_width sized
    exact joined.trans (congrArg Except.ok (Fact.eq_ofPred width members))
  | inter =>
    obtain ⟨result, shared, width, members⟩ := Fact.interOf_of_width sized
    refine shared.trans (congrArg Except.ok (Fact.ext_mem (width.trans (Fact.width_ofPred _ _).symm)
      fun i => ?_))
    rw [members, Fact.mem_ofPred]
    rfl

/-- At every listed instruction the client takes fixed positions away and puts fixed positions in,
and where paths meet it joins the facts or intersects them, whatever it remembers and whatever the
facts so far are. -/
structure Client.Exchanges (client : Client σ β ι ν ε) (graph : FlowGraph β ι ν) (domain : Domain ε)
    (exchange : ι → Exchange) (meet : Recipe.Meet) : Prop where
  transfer : ∀ store, ∀ inst ∈ graph.program, ∀ input memory, input.width = domain.size →
    ∃ output, ((client.transfer ⟨graph, domain, store⟩ inst input).run memory).1 = .ok output ∧
      output.width = domain.size ∧ output.members = (exchange inst).apply input.members
  meet : ∀ store block neighbors memory,
    ((client.meet ⟨graph, domain, store⟩ block neighbors).run memory).1 =
      meet.fact domain (neighbors.map Neighbor.fact)

namespace Exchange

def operators (width : Nat) (exchange : ι → Exchange) (meet : Recipe.Meet) : Operators β ι where
  meet := fun _ neighbors => Fact.ofPred width fun i => meet.Has (neighbors.map Neighbor.fact) i
  transfer := fun inst input => Fact.ofPred width fun i => i ∈ (exchange inst).apply input.members

variable {width : Nat} {exchange : ι → Exchange} {meet : Recipe.Meet}

omit [DecidableEq β] [DecidableEq ι] in
theorem operators_sized : (operators width exchange meet : Operators β ι).Sized width :=
  ⟨fun _ _ _ _ => Fact.width_ofPred _ _, fun _ _ _ => Fact.width_ofPred _ _⟩

omit [DecidableEq β] [DecidableEq ι] in
theorem operators_positional : (operators width exchange meet : Operators β ι).Positional width where
  meet := by
    intro block left right i _ _ _ pairs
    simp only [operators, Fact.mem_ofPred]
    refine And.imp_right (meet.has_imp_has ?_)
    rw [List.forall₂_map_left_iff, List.forall₂_map_right_iff]
    exact pairs.imp fun _ _ => And.right
  transfer := by
    intro inst left right i _ _ onward
    simp only [operators, Fact.mem_ofPred, mem_apply, Fact.mem_members]
    exact And.imp_right (Or.imp_left (And.imp_left onward))

theorem follows {problem : Problem σ β ι ν ε} {domain : Domain ε} {boundary : Fact}
    (exchanges : problem.client.Exchanges problem.graph domain exchange meet)
    (edge : boundary.width = domain.size) :
    problem.Follows domain boundary (operators domain.size exchange meet)
      (problem.system domain boundary (operators domain.size exchange meet)).Covers where
  sized := ⟨operators_sized, edge⟩
  covers := fun _ covers => covers
  settle := fun _ _ covers listed => covers.settle ⟨operators_sized, edge⟩ listed
  meet := by
    intro store block memory covers _ _ _
    rw [exchanges.meet]
    exact meet.fact_eq_ok (List.forall_mem_map.mpr covers.arriving_sized)
  transfer := by
    intro store inst input memory _ listed width
    obtain ⟨output, answered, sized, members⟩ :=
      exchanges.transfer store inst listed input memory width
    rw [answered]
    refine congrArg Except.ok (Fact.eq_ofPred sized fun i => ?_)
    rw [← members, Fact.mem_members]

end Exchange

/-- A client that exchanges fixed positions and joins or intersects ends with an answer, from
whatever facts it starts, before it has made more sweeps than it has bits, and one more. -/
theorem seeded_exchanges_converge [DecidableEq ε] {problem : Problem σ β ι ν ε}
    {session : Session σ β ι ε} (started : problem.Starts session) {exchange : ι → Exchange}
    {meet : Recipe.Meet}
    (exchanges : problem.client.Exchanges problem.graph session.domain exchange meet)
    (unlimited : ∀ limit ∈ problem.config.maxSweeps,
      session.domain.size * problem.graph.instructionCount + 1 ≤ limit) :
    ∃ results, (Solver.ofProblem problem).EndsWith results ∧
      results.stats.domainSize = session.domain.size ∧
      results.stats.instructions = problem.graph.instructionCount ∧
      1 ≤ results.stats.sweeps ∧
      results.stats.sweeps ≤ results.stats.domainSize * results.stats.instructions + 1 := by
  rw [FlowGraph.instructionCount_eq] at unlimited ⊢
  have edge := (Problem.begin_eq_ok (Problem.starts_iff.mp started).2).2.1
  obtain ⟨results, ends, first, last, domainSize, instructions⟩ :=
    (Exchange.follows exchanges edge).endsWith_of_positional started
      Exchange.operators_positional unlimited
  exact ⟨results, ends, domainSize, instructions, first, by rwa [domainSize, instructions]⟩

/-- Which values are read on every path ahead. Before anything is known it takes the arguments to be
read and the other values not. -/
def Liveness.onEveryPath {β ι ν : Type} [DecidableEq β] [DecidableEq ι] [DecidableEq ν] [Shown β]
    [Shown ν] : Analysis β ι ν ν :=
  { liveVariables with
    initial := fun cx => .ok (cx.domain.factOf cx.graph.arguments)
    meet := fun cx _ neighbors => Fact.interOf cx.domain.size (neighbors.map Neighbor.fact) }

theorem Liveness.starts_onEveryPath {β ι ν : Type} [DecidableEq β] [DecidableEq ι] [DecidableEq ν]
    [Shown β] [Shown ν] (graph : FlowGraph β ι ν) (config : Config) (sound : graph.defect? = none)
    (distinct : graph.program.Nodup) :
    ∃ session, (onEveryPath.on graph config).Starts session ∧
      session.domain = liveVariables.domain graph ∧
      ∃ exchange, (onEveryPath.on graph config).client.Exchanges graph session.domain exchange
        .inter := by
  obtain ⟨session, started, domain, _⟩ := Analysis.starts
    (show (onEveryPath.on graph config).defect? = none from Problem.defect?_of_sound sound)
    distinct rfl rfl (Domain.width_factOf _ _) (Domain.width_emptyFact _)
  obtain ⟨exchange, answers⟩ := (exchanges graph session.domain).transfer
  exact ⟨session, started, domain, exchange,
    fun store inst _ input _ width => answers store inst input width, fun _ _ _ _ => rfl⟩

theorem seeded_exchanges_converge_on_loops :
    ∃ session exchange,
      (Liveness.onEveryPath.on Table.loops.graph ⟨some 26, true, true⟩).Starts session ∧
      session.domain.factOf Table.loops.graph.arguments ≠ session.domain.emptyFact ∧
      session.domain.factOf Table.loops.graph.arguments ≠ session.domain.fullFact ∧
      (Liveness.onEveryPath.on Table.loops.graph ⟨some 26, true, true⟩).client.Exchanges
        Table.loops.graph session.domain exchange .inter ∧
      ∃ results, (Solver.ofProblem (Liveness.onEveryPath.on Table.loops.graph
          ⟨some 26, true, true⟩)).EndsWith results ∧
        results.stats.domainSize = session.domain.size ∧
        results.stats.instructions = Table.loops.graph.instructionCount ∧
        1 ≤ results.stats.sweeps ∧
        results.stats.sweeps ≤ results.stats.domainSize * results.stats.instructions + 1 := by
  obtain ⟨session, started, domain, exchange, exchanges⟩ := Liveness.starts_onEveryPath
    Table.loops.graph ⟨some 26, true, true⟩ (by decide) (by decide)
  have enough : session.domain.size * Table.loops.graph.instructionCount + 1 ≤ 26 := by
    rw [domain]
    decide
  refine ⟨session, exchange, started, ?_, ?_, exchanges,
    seeded_exchanges_converge started exchanges (by simpa using enough)⟩
  · rw [domain]
    decide
  · rw [domain]
    decide

end Dataflow
