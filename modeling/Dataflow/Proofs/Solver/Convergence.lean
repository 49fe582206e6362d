import Dataflow.Proofs.Solver.Loop
import Dataflow.Proofs.System.Climb

/-! Convergence of monotone problems. Where meet and transfer are monotone functions of facts
and the first facts are the lowest ones, every sweep but the last moves some fact up. There are
only so many places to move up to, which bounds the number of sweeps; and the facts that stand
at the end are the extreme solution of the equations. -/
namespace Dataflow

variable {σ β ι ν ε : Type} [DecidableEq β] [DecidableEq ι]

/-- Wherever a run over the domain can ask them, meet and transfer answer as functions of facts do:
about listed blocks and instructions, with whatever facts the store holds for the program and
whatever the client remembers. -/
structure Problem.Computes (problem : Problem σ β ι ν ε) (domain : Domain ε)
    (ops : Operators β ι) : Prop where
  meet : ∀ (store : Store ι) block memory, store.Fills problem.graph.program domain.size →
    block ∈ problem.graph.blocks →
    problem.client.direction.usesBoundary problem.graph block = false →
    problem.arriving store block ≠ [] →
    ((problem.client.meet ⟨problem.graph, domain, store⟩ block
      (problem.arriving store block)).run memory).1 =
        .ok (ops.meet block (problem.arriving store block))
  transfer : ∀ (store : Store ι) inst input memory,
    store.Fills problem.graph.program domain.size → inst ∈ problem.graph.program →
    input.width = domain.size →
    ((problem.client.transfer ⟨problem.graph, domain, store⟩ inst input).run memory).1 =
      .ok (ops.transfer inst input)

def Client.Seeds (client : Client σ β ι ν ε) (graph : FlowGraph β ι ν) (domain : Domain ε)
    (polarity : Polarity) : Prop :=
  ∀ memory, ((client.initial ⟨graph, domain, Assignment.empty⟩).run memory).1 =
    .ok (polarity.seed domain.size)


namespace Problem

omit [DecidableEq β] in
theorem arriving_sized {problem : Problem σ β ι ν ε} {store : Store ι} {insts : List ι} {width : Nat}
    (fills : store.Fills insts width) {block : β} :
    ∀ neighbor ∈ problem.arriving store block, neighbor.fact.width = width := by
  intro neighbor member
  simp only [arriving, List.mem_filterMap, Option.bind_eq_some_iff, Option.map_eq_some_iff] at member
  obtain ⟨_, _, inst, _, fact, found, rfl⟩ := member
  exact fills.sized inst fact found

variable {problem : Problem σ β ι ν ε} {domain : Domain ε} {boundary : Fact} {ops : Operators β ι}

/-- Pure operators are followed on every store of the right shape. -/
theorem Follows.of_computes (computes : problem.Computes domain ops)
    (sized : (problem.system domain boundary ops).Sized) :
    problem.Follows domain boundary ops (problem.system domain boundary ops).Covers where
  sized := sized
  covers := fun _ covers => covers
  settle := fun _ _ covers listed => covers.settle sized listed
  meet := computes.meet
  transfer := computes.transfer

/-- A run keeps to any further property that working through one block keeps. -/
theorem Follows.strengthen {valid extra : Store ι → Prop}
    (follows : problem.Follows domain boundary ops valid)
    (kept : ∀ store block, valid store → extra store → block ∈ problem.graph.blocks →
      extra ((problem.system domain boundary ops).settle store block)) :
    problem.Follows domain boundary ops (fun store => valid store ∧ extra store) where
  sized := follows.sized
  covers := fun store good => follows.covers store good.1
  settle := fun store block good listed =>
    ⟨follows.settle store block good.1 listed, kept store block good.1 good.2 listed⟩
  meet := fun store block memory good => follows.meet store block memory good.1
  transfer := follows.transfer

theorem Follows.round {valid : Store ι → Prop} (follows : problem.Follows domain boundary ops valid)
    {store : Store ι} (good : valid store) :
    valid ((problem.system domain boundary ops).round store) := by
  refine List.foldlRecOn _ _ good ?_
  intro store good block member
  exact follows.settle store block good ((System.mem_blockOrder _).mp member)

variable [DecidableEq ε] {session : Session σ β ι ε} {polarity : Polarity}

theorem Starts.distinct (started : problem.Starts session) : problem.graph.program.Nodup :=
  (begin_eq_ok (starts_iff.mp started).2).1

theorem Starts.sized (started : problem.Starts session) (sized : ops.Sized session.domain.size) :
    (problem.system session.domain session.boundary ops).Sized :=
  ⟨sized, (begin_eq_ok (starts_iff.mp started).2).2.1⟩

theorem Starts.fresh (started : problem.Starts session)
    (seeds : problem.client.Seeds problem.graph session.domain polarity) :
    (problem.system session.domain session.boundary ops).Fresh polarity session.store := by
  obtain ⟨_, _, _, _, initial, memory, answered, _, store⟩ :=
    begin_eq_ok (starts_iff.mp started).2
  have same : Except.ok initial = .ok (polarity.seed session.domain.size) :=
    answered.symm.trans (seeds memory)
  cases same
  exact store

/-- A monotone run moves facts one way only. It ends on a solution, and before that every sweep
uses up some of the height that all facts have together. -/
theorem Follows.endsWith_of_monotone {valid : Store ι → Prop} (started : problem.Starts session)
    (follows : problem.Follows session.domain session.boundary ops valid)
    (good : valid session.store) (monotone : ops.Monotone session.domain.size)
    (seeds : problem.client.Seeds problem.graph session.domain polarity)
    (unlimited : ∀ limit ∈ problem.config.maxSweeps,
      session.domain.size * problem.graph.program.length + 1 ≤ limit) :
    ∃ results, (Solver.ofProblem problem).EndsWith results ∧ results.domain = session.domain ∧
      valid results.store ∧
      (problem.system session.domain session.boundary ops).Solves results.store ∧
      1 ≤ results.stats.sweeps ∧
      results.stats.sweeps ≤ session.domain.size * problem.graph.program.length + 1 ∧
      results.stats.domainSize = session.domain.size ∧
      results.stats.instructions = problem.graph.program.length := by
  let system := problem.system session.domain session.boundary ops
  have regular : system.Regular := ⟨follows.sized, monotone, started.distinct⟩
  have climbs : problem.Follows session.domain session.boundary ops
      (fun store => valid store ∧ system.Rising polarity store) :=
    follows.strengthen fun store _ good rising listed =>
      rising.settle regular (follows.covers store good) listed
  have start : system.gap polarity session.store ≤
      session.domain.size * problem.graph.program.length := System.gap_le session.store
  obtain ⟨results, ends, domain, ⟨goodFinal, _⟩, solves, first, last, counts⟩ :=
    climbs.endsWith started ⟨good, (started.fresh seeds).rising follows.sized⟩
      (system.gap polarity)
      (fun store rises => rises.2.gap_round_lt regular (follows.covers store rises.1))
      (fun limit member => (Nat.succ_le_succ start).trans (unlimited limit member))
  exact ⟨results, ends, domain, goodFinal, solves, first, last.trans (Nat.succ_le_succ start), counts⟩

end Problem

variable [DecidableEq ε]

omit [DecidableEq β] in
/-- Asking results about an element of the domain reads the element's place in the fact. -/
theorem Results.exists_answer {results : Results β ι ε} {inst : ι} {fact : Fact} {element : ε}
    {property : Prop} (found : results.store.get? inst = some fact)
    (width : fact.width = results.domain.size) (known : element ∈ results.domain.elements)
    (exact : ∀ i, results.domain.indexOf? element = some i → (i ∈ fact ↔ property)) :
    ∃ answer, results.holds inst element = .ok answer ∧ (answer = true ↔ property) := by
  obtain ⟨i, place⟩ :=
    Option.isSome_iff_exists.mp ((results.domain.indexOf?_isSome_iff element).mpr known)
  have inside : i < fact.width := width ▸ Domain.lt_size_of_indexOf? place
  refine ⟨decide (i ∈ fact), ?_, decide_eq_true_iff.trans (exact i place)⟩
  simp [Results.holds, Results.factOf?, found, place, Fact.contains, inside]

namespace Analysis

variable {analysis : Analysis β ι ν ε} {graph : FlowGraph β ι ν} {config : Config}
  {boundary : Fact} {ops : Operators β ι} {valid : Store ι → Prop}
  (sound : (analysis.on graph config).defect? = none) (distinct : graph.program.Nodup)
  (begins : ∀ domain store, analysis.initial ⟨graph, domain, store⟩ = .ok domain.emptyFact)
  (bounded : analysis.boundary ⟨graph, analysis.domain graph, Assignment.empty⟩ = .ok boundary)
  (follows : (analysis.on graph config).Follows (analysis.domain graph) boundary ops valid)
  (monotone : ops.Monotone (analysis.domain graph).size)
  (fresh : ∀ store, ((analysis.on graph config).system (analysis.domain graph) boundary ops).Fresh
    .ascending store → valid store) (unlimited : config.maxSweeps = none)

include sound distinct begins bounded follows monotone fresh unlimited

/-- An analysis that grows facts from nothing by monotone operators gives an answer, and
what its runs keep to holds of the answer. -/
theorem endsWith :
    ∃ results, (Solver.ofProblem (analysis.on graph config)).EndsWith results ∧
      results.domain = analysis.domain graph ∧ valid results.store ∧
      ((analysis.on graph config).system (analysis.domain graph) boundary ops).Solves
        results.store := by
  obtain ⟨session, started, domain, edge⟩ := Analysis.starts sound distinct (begins _ _) bounded
    (Domain.width_emptyFact _) follows.sized.boundary
  subst edge
  rw [← domain] at follows monotone fresh ⊢
  have seeds : (analysis.on graph config).client.Seeds graph session.domain .ascending := by
    intro memory
    exact begins session.domain Assignment.empty
  obtain ⟨results, ends, same, good, solves, _⟩ := follows.endsWith_of_monotone started
    (fresh _ (started.fresh seeds)) monotone seeds (by simp [unlimited])
  exact ⟨results, ends, same, good, solves⟩

/-- It reports a property of instructions and elements, if the solutions that its runs keep to
have exactly the elements with the property in their facts. -/
theorem reports {property : ι → ε → Prop}
    (exact : ∀ store, valid store →
      ((analysis.on graph config).system (analysis.domain graph) boundary ops).Solves store →
      ∀ inst fact, store.get? inst = some fact →
      ∀ element i, (analysis.domain graph).indexOf? element = some i →
        (i ∈ fact ↔ property inst element)) :
    ∃ results, (Solver.ofProblem (analysis.on graph config)).EndsWith results ∧
      results.domain = analysis.domain graph ∧
      ∀ inst ∈ graph.program, ∀ element ∈ results.domain.elements,
        ∃ answer, results.holds inst element = .ok answer ∧
          (answer = true ↔ property inst element) := by
  obtain ⟨results, ends, domain, good, solves⟩ :=
    endsWith sound distinct begins bounded follows monotone fresh unlimited
  refine ⟨results, ends, domain, fun inst listed element known => ?_⟩
  obtain ⟨fact, found, width⟩ := (follows.covers _ good).exists_fact listed
  refine Results.exists_answer found (by rw [domain]; exact width) known fun i place => ?_
  rw [domain] at place
  exact exact results.store good solves inst fact found element i place

end Analysis

end Dataflow
