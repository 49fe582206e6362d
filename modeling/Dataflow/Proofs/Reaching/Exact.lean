import Dataflow.Proofs.FlowGraph.Control
import Dataflow.Proofs.Solver.Convergence
import Dataflow.Proofs.Ssa.Function
import Dataflow.Reaching

/-! Reaching definitions find exactly what control flow can carry. A value is reported at an
instruction if and only if control leads there from a definition of the value or, for an
argument, from the boundary. Control that comes back into the entry block is lost, since the
entry always starts from the boundary. -/
namespace Dataflow

/-- The value may have been defined on the way to the instruction. -/
def FlowGraph.Reaches {β ι ν : Type} (graph : FlowGraph β ι ν) (inst : ι) (value : ν) : Prop :=
  ∃ first, Relation.ReflTransGen (graph.Step fun target => graph.entry ≠ some target) first inst ∧
    (graph.definition first = some value ∨
      value ∈ graph.arguments ∧ ∃ block ∈ graph.blocks,
        (graph.entry = some block ∨ graph.predecessors block = []) ∧
        (graph.instructions block).head? = some first)

namespace Reaching

variable {β ι ν : Type} [DecidableEq ν]

def operators (graph : FlowGraph β ι ν) (domain : Domain ν) : Operators β ι where
  meet := fun _ neighbors => Fact.ofPred domain.size fun i =>
    ∃ neighbor ∈ neighbors, i ∈ neighbor.fact
  transfer := fun inst input => Fact.ofPred domain.size fun i =>
    i ∈ input ∨ (graph.definition inst).bind domain.indexOf? = some i

section Operators

variable {graph : FlowGraph β ι ν} {domain : Domain ν}

theorem mem_meet {block : β} {neighbors : List (Neighbor β)} {i : Nat} :
    i ∈ (operators graph domain).meet block neighbors ↔
      i < domain.size ∧ ∃ neighbor ∈ neighbors, i ∈ neighbor.fact := by
  rw [operators, Fact.mem_ofPred]

theorem mem_transfer {inst : ι} {input : Fact} {i : Nat} :
    i ∈ (operators graph domain).transfer inst input ↔ i < domain.size ∧
      (i ∈ input ∨ ∃ value, graph.definition inst = some value ∧ domain.indexOf? value = some i) := by
  rw [operators, Fact.mem_ofPred, Option.bind_eq_some_iff]

theorem operators_sized : (operators graph domain).Sized domain.size :=
  ⟨fun _ _ _ _ => Fact.width_ofPred _ _, fun _ _ _ => Fact.width_ofPred _ _⟩

theorem operators_monotone : (operators graph domain).Monotone domain.size where
  meet := by
    intro block left right _ _ _ pairs i member
    obtain ⟨bound, neighbor, found, inside⟩ := mem_meet.mp member
    obtain ⟨larger, foundLarger, _, above⟩ := Operators.exists_larger pairs found
    exact mem_meet.mpr ⟨bound, larger, foundLarger, above i inside⟩
  transfer := by
    intro inst left right _ _ inside i member
    obtain ⟨bound, source⟩ := mem_transfer.mp member
    exact mem_transfer.mpr ⟨bound, source.imp_left (inside i)⟩

theorem meet_eq_ok (cx : Context β ι ν ν) {block : β} {neighbors : List (Neighbor β)}
    (sized : ∀ neighbor ∈ neighbors, neighbor.fact.width = cx.domain.size) :
    reachingDefinitions.meet cx block neighbors =
      .ok ((operators cx.graph cx.domain).meet block neighbors) := by
  have widths : ∀ fact ∈ neighbors.map Neighbor.fact, fact.width = cx.domain.size := by
    simpa using sized
  obtain ⟨result, joined, width, members⟩ := Fact.unionOf_of_width widths
  have same : result = (operators cx.graph cx.domain).meet block neighbors :=
    Fact.eq_ofPred width (by simpa using members)
  exact same ▸ joined

theorem transfer_eq_ok (cx : Context β ι ν ν) {inst : ι} {input : Fact}
    (sized : input.width = cx.domain.size) :
    reachingDefinitions.transfer cx inst input =
      .ok ((operators cx.graph cx.domain).transfer inst input) := by
  have inside : ∀ i ∈ cx.definitionIndex inst, i < input.width := by
    intro i member
    obtain ⟨value, _, place⟩ := Option.bind_eq_some_iff.mp (Option.mem_toList.mp member)
    exact sized ▸ Domain.lt_size_of_indexOf? place
  obtain ⟨result, grown, width, members⟩ := Fact.insertAll_of_lt inside
  have same : result = (operators cx.graph cx.domain).transfer inst input :=
    Fact.eq_ofPred (width.trans sized)
      (by simpa [Context.definitionIndex, Option.mem_toList] using members)
  exact same ▸ grown

theorem computes [DecidableEq β] [DecidableEq ι] {config : Config} :
    (reachingDefinitions.on graph config).Computes domain (operators graph domain) where
  meet := fun store _ _ fills _ _ _ => meet_eq_ok ⟨graph, domain, store⟩ (Problem.arriving_sized fills)
  transfer := fun store _ _ _ _ _ sized => transfer_eq_ok ⟨graph, domain, store⟩ sized

/-- The operators answer in every state of a run. -/
theorem follows [DecidableEq β] [DecidableEq ι] {config : Config} {session : Session Unit β ι ν}
    (started : (reachingDefinitions.on graph config).Starts session) :
    (reachingDefinitions.on graph config).Follows session.domain session.boundary
      (operators graph session.domain) ((reachingDefinitions.on graph config).system session.domain
        session.boundary (operators graph session.domain)).Covers :=
  .of_computes computes (started.sized operators_sized)

theorem exists_session [DecidableEq β] [DecidableEq ι] {config : Config}
    (sound : (reachingDefinitions.on graph config).defect? = none)
    (distinct : graph.program.Nodup) :
    ∃ session, (reachingDefinitions.on graph config).Starts session := by
  obtain ⟨session, started, _⟩ :=
    Analysis.starts sound distinct rfl rfl (Domain.width_emptyFact _) (Domain.width_factOf _ _)
  exact ⟨session, started⟩

end Operators

abbrev system (graph : FlowGraph β ι ν) : System β ι ν where
  toOperators := operators graph (reachingDefinitions.domain graph)
  direction := .forward
  graph := graph
  width := (reachingDefinitions.domain graph).size
  boundary := (reachingDefinitions.domain graph).factOf graph.arguments

def Sound (graph : FlowGraph β ι ν) (inst : ι) (fact : Fact) : Prop :=
  ∀ i ∈ fact, ∀ value, (reachingDefinitions.domain graph).indexOf? value = some i →
    graph.Reaches inst value

variable {graph : FlowGraph β ι ν}

theorem Sound.step {previous inst : ι} {fact : Fact} (sound : Sound graph previous fact)
    (step : graph.Step (fun target => graph.entry ≠ some target) previous inst) :
    Sound graph inst fact := by
  intro i member value place
  obtain ⟨first, path, origin⟩ := sound i member value place
  exact ⟨first, path.tail step, origin⟩

theorem Sound.transfer {inst : ι} {input : Fact} (sound : Sound graph inst input) :
    Sound graph inst ((system graph).transfer inst input) := by
  intro i member value place
  rcases (mem_transfer.mp member).2 with inside | ⟨defined, definition, samePlace⟩
  · exact sound i inside value place
  · exact ⟨inst, .refl, Or.inl (Domain.eq_of_indexOf? samePlace place ▸ definition)⟩

variable [DecidableEq β] [DecidableEq ι] (wellFormed : ∀ block ∈ graph.blocks, graph.WellFormedAt block)
  (closed : graph.ClosedBackward)

include wellFormed closed

/-- A block starts from the arguments or, away from the boundary, from what leaves any of its
predecessors. None of these is missing, so the boundary never stands in for them. -/
theorem mem_inflow {store : Store ι} (covers : (system graph).Covers store) {block : β}
    (listed : block ∈ graph.blocks) {i : Nat} :
    i ∈ ((system graph).inflow store block).fact ↔
      if graph.entry = some block ∨ graph.predecessors block = [] then
        ∃ value ∈ graph.arguments, (reachingDefinitions.domain graph).indexOf? value = some i
      else ∃ source ∈ graph.predecessors block, ∃ inst fact,
        (graph.instructions source).getLast? = some inst ∧ store.get? inst = some fact ∧ i ∈ fact := by
  split
  · next outer =>
    rw [System.inflow_of_usesBoundary (by simpa [Direction.usesBoundary] using outer)]
    exact Domain.mem_factOf _ _ i
  · next inner =>
    obtain ⟨source, predecessor⟩ := List.exists_mem_of_ne_nil _ fun none => inner (Or.inr none)
    have listedSource := closed block listed source predecessor
    have last := List.getLast?_eq_some_getLast (wellFormed source listedSource).nonempty
    obtain ⟨_, _, arrives⟩ := covers.arrives predecessor last
      (FlowGraph.mem_program.mpr ⟨source, listedSource, List.mem_of_getLast? last⟩)
    rw [System.inflow_of_arriving (by simpa [Direction.usesBoundary] using inner) arrives]
    constructor
    · intro member
      obtain ⟨_, neighbor, found, member⟩ := mem_meet.mp member
      obtain ⟨predecessor, inst, last, stored⟩ := (system graph).mem_arriving.mp found
      exact ⟨neighbor.block, predecessor, inst, neighbor.fact, last, stored, member⟩
    · rintro ⟨source, predecessor, inst, fact, last, stored, member⟩
      have bound : i < (system graph).width := covers.sized inst fact stored ▸ Fact.lt_width member
      exact mem_meet.mpr ⟨bound, ⟨source, fact⟩,
        (system graph).mem_arriving.mpr ⟨predecessor, inst, last, stored⟩, member⟩

/-- Working through a block keeps every fact sound. -/
theorem sound_settle (distinct : graph.program.Nodup) {store : Store ι}
    (covers : (system graph).Covers store)
    (sound : ∀ inst fact, store.get? inst = some fact → Sound graph inst fact) {block : β}
    (listed : block ∈ graph.blocks) :
    ∀ inst fact, ((system graph).settle store block).get? inst = some fact →
      Sound graph inst fact := by
  apply System.settle_forall (Sound graph) distinct listed sound
  · intro inst rest place
    have first : (graph.instructions block).head? = some inst := by
      rw [show graph.instructions block = inst :: rest from place]
      rfl
    apply Sound.transfer
    intro i member value samePlace
    rw [mem_inflow wellFormed closed covers listed] at member
    split at member
    · next outer =>
      obtain ⟨argument, given, itsPlace⟩ := member
      have same : argument = value := Domain.eq_of_indexOf? itsPlace samePlace
      exact ⟨inst, .refl, Or.inr ⟨same ▸ given, block, listed, outer, first⟩⟩
    · next inner =>
      obtain ⟨source, predecessor, exit, fact, last, stored, inside⟩ := member
      have step : graph.Step (fun target => graph.entry ≠ some target) exit inst :=
        .across (closed block listed source predecessor) listed
          ((wellFormed block listed).backward source predecessor) (fun entry => inner (Or.inl entry))
          last first
      exact (sound exit fact stored).step step i inside value samePlace
  · intro before previous inst after fact place sound
    exact (sound.step (.within listed place)).transfer

/-- In a solution control carries along whatever a fact holds. -/
theorem carries {store : Store ι} (covers : (system graph).Covers store)
    (solves : (system graph).Solves store) {previous inst : ι}
    (step : graph.Step (fun target => graph.entry ≠ some target) previous inst) {fact : Fact}
    {i : Nat} (found : store.get? previous = some fact) (member : i ∈ fact) :
    ∃ next, store.get? inst = some next ∧ i ∈ next := by
  have bound : i < (system graph).width := covers.sized previous fact found ▸ Fact.lt_width member
  cases step with
  | within listed place =>
    obtain ⟨input, stored, turned⟩ := solves.next listed place
    cases stored.symm.trans found
    exact ⟨_, turned, mem_transfer.mpr ⟨bound, Or.inl member⟩⟩
  | @across source target _ _ listed listedTarget edge allowed last first =>
    have predecessor := (wellFormed source listed).forward target edge
    have inner : ¬ (graph.entry = some target ∨ graph.predecessors target = []) := by
      rintro (entry | none)
      · exact allowed entry
      · exact List.ne_nil_of_mem predecessor none
    obtain ⟨rest, place⟩ := List.head?_eq_some_iff.mp first
    refine ⟨_, solves.first listedTarget place, mem_transfer.mpr ⟨bound, Or.inl ?_⟩⟩
    rw [mem_inflow wellFormed closed covers listedTarget, if_neg inner]
    exact ⟨source, predecessor, previous, fact, last, found, member⟩

theorem complete {store : Store ι} (covers : (system graph).Covers store)
    (solves : (system graph).Solves store) {inst : ι} (listed : inst ∈ graph.program) {value : ν}
    {i : Nat} (place : (reachingDefinitions.domain graph).indexOf? value = some i)
    (reaches : graph.Reaches inst value) : ∃ fact, store.get? inst = some fact ∧ i ∈ fact := by
  have bound : i < (system graph).width := Domain.lt_size_of_indexOf? place
  obtain ⟨first, path, origin⟩ := reaches
  induction path with
  | refl =>
    rcases origin with defined | ⟨argument, block, listedBlock, outer, head⟩
    · obtain ⟨input, stored⟩ := solves.exists_input listed
      exact ⟨_, stored, mem_transfer.mpr ⟨bound, Or.inr ⟨value, defined, place⟩⟩⟩
    · obtain ⟨rest, order⟩ := List.head?_eq_some_iff.mp head
      refine ⟨_, solves.first listedBlock order, mem_transfer.mpr ⟨bound, Or.inl ?_⟩⟩
      rw [mem_inflow wellFormed closed covers listedBlock, if_pos outer]
      exact ⟨value, argument, place⟩
  | tail _ step ih =>
    obtain ⟨fact, found, member⟩ := ih step.source_listed
    exact carries wellFormed closed covers solves step found member

omit wellFormed in
/-- The run ends, and its results report exactly the values that reach an instruction. -/
theorem endsWith (sound : graph.defect? = none) (distinct : graph.program.Nodup) {config : Config}
    (unlimited : config.maxSweeps = none) :
    ∃ results, (Solver.ofProblem (reachingDefinitions.on graph config)).EndsWith results ∧
      results.domain = reachingDefinitions.domain graph ∧
      ∀ inst ∈ graph.program, ∀ value ∈ results.domain.elements,
        ∃ answer, results.holds inst value = .ok answer ∧
          (answer = true ↔ graph.Reaches inst value) := by
  have wellFormed := FlowGraph.defect?_eq_none.mp sound
  have follows : (reachingDefinitions.on graph config).Follows (reachingDefinitions.domain graph)
      (system graph).boundary (system graph).toOperators fun store => (system graph).Covers store ∧
        ∀ inst fact, store.get? inst = some fact → Sound graph inst fact :=
    (Problem.Follows.of_computes computes ⟨operators_sized, Domain.width_factOf _ _⟩).strengthen
      fun store _ covers sound listed => sound_settle wellFormed closed distinct covers sound listed
  refine Analysis.reports (by simp [Problem.defect?, sound]) distinct (fun _ _ => rfl) rfl follows
    operators_monotone (fun store fresh => ⟨fresh.covers, fun _ _ found i member =>
      absurd member (fresh.not_mem found i)⟩) unlimited ?_
  rintro store ⟨covers, sound⟩ solves inst fact found value i place
  constructor
  · exact fun member => sound inst fact found i member value place
  · intro reaches
    have listed := (covers.listed inst).mp (by rw [found]; rfl)
    obtain ⟨other, stored, member⟩ := complete wellFormed closed covers solves listed place reaches
    cases found.symm.trans stored
    exact member

end Reaching

/-- Reaching definitions are exact on every well-formed graph whose blocks have their
predecessors in it, and every function that can be built is such a graph. -/
theorem reachingDefinitions_exact :
    (∀ (β ι ν : Type) [DecidableEq β] [DecidableEq ι] [DecidableEq ν] (graph : FlowGraph β ι ν)
      (config : Config), graph.defect? = none → graph.program.Nodup → graph.ClosedBackward →
      config.maxSweeps = none →
      ∃ results, (Solver.ofProblem (reachingDefinitions.on graph config)).EndsWith results ∧
        results.domain = reachingDefinitions.domain graph ∧
        ∀ inst ∈ graph.program, ∀ value ∈ results.domain.elements,
          ∃ answer, results.holds inst value = .ok answer ∧
            (answer = true ↔ graph.Reaches inst value)) ∧
    ∀ (name : String) (steps : List Ssa.Step) (function : Ssa.Function),
      ((Ssa.Draft.empty name).steps steps).2.toFunction = .ok function →
      function.graph.defect? = none ∧ function.graph.program.Nodup ∧
        function.graph.ClosedBackward := by
  constructor
  · intro β ι ν _ _ _ graph config sound distinct closed unlimited
    exact Reaching.endsWith closed sound distinct unlimited
  · intro name steps function built
    obtain ⟨edges, finished⟩ := (Ssa.Draft.Coherent.steps name steps).finished built
    exact ⟨finished.defect?_eq_none, finished.program_nodup, finished.closedBackward⟩

theorem reachingDefinitions_exact_on_loops :
    (∃ results, (Solver.ofProblem (reachingDefinitions.on Table.loops.graph .standard)).EndsWith
        results ∧
      results.domain = reachingDefinitions.domain Table.loops.graph ∧
      ∀ inst ∈ Table.loops.graph.program, ∀ value ∈ results.domain.elements,
        ∃ answer, results.holds inst value = .ok answer ∧
          (answer = true ↔ Table.loops.graph.Reaches inst value)) ∧
    ∃ function,
      ((Ssa.Draft.empty "countdown").steps Ssa.Step.countdown).2.toFunction = .ok function ∧
      function.graph.defect? = none ∧ function.graph.program.Nodup ∧
        function.graph.ClosedBackward := by
  obtain ⟨exact, qualifies⟩ := reachingDefinitions_exact
  constructor
  · exact exact Nat Nat Nat Table.loops.graph .standard (by decide) (by decide)
      (by decide) rfl
  · exact ⟨_, rfl, qualifies "countdown" Ssa.Step.countdown _ rfl⟩

end Dataflow
