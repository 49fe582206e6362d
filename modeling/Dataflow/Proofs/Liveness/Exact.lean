import Dataflow.Proofs.FlowGraph.Control
import Dataflow.Proofs.Liveness.Operators
import Dataflow.Proofs.Ssa.Function

/-! Live variables find exactly the values that may still be read. A value is reported at an
instruction if and only if control leads from there, past no definition of the value, to an
instruction that reads it or over an edge on which a merge selects it. -/
namespace Dataflow

namespace FlowGraph

variable {β ι ν : Type}

/-- The instruction ends a block, and on an edge out of the block a merge selects the value. -/
def SelectedAfter (graph : FlowGraph β ι ν) (inst : ι) (value : ν) : Prop :=
  ∃ source ∈ graph.blocks, (graph.instructions source).getLast? = some inst ∧
    ∃ target ∈ graph.successors source, ∃ merge ∈ graph.instructions target,
      graph.isMerge merge = true ∧ (source, value) ∈ graph.incoming merge

/-- The value may still be read. Of the instructions on the way only the last one may define it,
and that one only if it reads the value itself. -/
def Live (graph : FlowGraph β ι ν) (inst : ι) (value : ν) : Prop :=
  ∃ last, Relation.ReflTransGen (fun inst next =>
      graph.Step (fun _ => True) inst next ∧ graph.definition inst ≠ some value) inst last ∧
    (graph.isMerge last = false ∧ value ∈ graph.operands last ∨
      graph.definition last ≠ some value ∧ graph.SelectedAfter last value)

def LiveAfter (graph : FlowGraph β ι ν) (inst : ι) (value : ν) : Prop :=
  (∃ next, graph.Step (fun _ => True) inst next ∧ graph.Live next value) ∨
    graph.SelectedAfter inst value

theorem LiveAfter.live {graph : FlowGraph β ι ν} {inst : ι} {value : ν}
    (after : graph.LiveAfter inst value) (kept : graph.definition inst ≠ some value) :
    graph.Live inst value := by
  rcases after with ⟨next, step, last, path, ends⟩ | selected
  · exact ⟨last, path.head ⟨step, kept⟩, ends⟩
  · exact ⟨inst, .refl, Or.inr ⟨kept, selected⟩⟩

end FlowGraph

namespace Liveness

variable {β ι ν : Type} [DecidableEq β] [DecidableEq ι] [DecidableEq ν] {graph : FlowGraph β ι ν}

section Soundness

variable {domain : Domain ν}

def Sound (graph : FlowGraph β ι ν) (domain : Domain ν) (inst : ι) (fact : Fact) : Prop :=
  ∀ i ∈ fact, ∀ value, domain.indexOf? value = some i → graph.Live inst value

theorem sound_transfer {inst : ι} {input : Fact}
    (after : ∀ i ∈ input, ∀ value, domain.indexOf? value = some i → graph.LiveAfter inst value) :
    Sound graph domain inst ((operators graph domain).transfer inst input) := by
  intro i member value place
  rcases (mem_transfer.mp member).2 with ⟨ordinary, other, read, samePlace⟩ | ⟨inside, kept⟩
  · exact ⟨inst, .refl, Or.inl ⟨ordinary, Domain.eq_of_indexOf? samePlace place ▸ read⟩⟩
  · exact (after i inside value place).live fun defined => kept ⟨value, defined, place⟩

/-- A block's last instruction is left with what its successors contribute, and with nothing at
the boundary. -/
theorem mem_inflow {store : Store ι} {block : β} {i : Nat} :
    i ∈ ((system graph domain).inflow store block).fact ↔ i < domain.size ∧
      ∃ neighbor ∈ (system graph domain).arriving store block,
        Contributes graph domain block neighbor i := by
  by_cases none : (system graph domain).arriving store block = []
  · have outer : (system graph domain).inflow store block = .boundary domain.emptyFact := by
      simp [System.inflow, none]
    rw [outer, none]
    simp [EntryFact.fact, Domain.emptyFact]
  · obtain ⟨neighbor, arrives⟩ := List.exists_mem_of_ne_nil _ none
    have inner : Direction.usesBoundary .backward graph block = false := by
      simpa [Direction.usesBoundary, Direction.neighbors] using
        List.ne_nil_of_mem ((system graph domain).mem_arriving.mp arrives).1
    rw [System.inflow_of_arriving inner arrives]
    exact mem_meet

/-- Working through a block keeps every fact sound. -/
theorem sound_settle (distinct : graph.program.Nodup) (closed : graph.ClosedForward)
    {store : Store ι}
    (sound : ∀ inst fact, store.get? inst = some fact → Sound graph domain inst fact) {block : β}
    (listed : block ∈ graph.blocks) :
    ∀ inst fact, ((system graph domain).settle store block).get? inst = some fact →
      Sound graph domain inst fact := by
  apply System.settle_forall (Sound graph domain) distinct listed sound
  · intro inst rest place
    have last : (graph.instructions block).getLast? = some inst := by
      rw [← List.head?_reverse, show (graph.instructions block).reverse = inst :: rest from place]
      rfl
    apply sound_transfer
    intro i member value samePlace
    obtain ⟨_, neighbor, arrives, adds⟩ := mem_inflow.mp member
    obtain ⟨successor, first, exit, stored⟩ := (system graph domain).mem_arriving.mp arrives
    rcases adds with ⟨⟨source, other⟩, selects, rfl, itsPlace⟩ | ⟨inside, _⟩
    · obtain ⟨merge, among, pair⟩ := List.mem_flatMap.mp selects
      have same : other = value := Domain.eq_of_indexOf? itsPlace samePlace
      subst same
      exact Or.inr ⟨source, listed, last, neighbor.block, successor, merge,
        (List.takeWhile_sublist _).subset among, List.mem_takeWhile_imp among, pair⟩
    · have head := (Direction.exit?_backward graph neighbor.block).symm.trans exit
      exact Or.inl ⟨first, .across listed (closed block listed _ successor) successor trivial last head,
        sound first neighbor.fact stored i inside value samePlace⟩
  · intro before previous inst after fact place sound
    have order : graph.instructions block = after.reverse ++ inst :: previous :: before.reverse := by
      rw [← List.reverse_reverse (graph.instructions block),
        show (graph.instructions block).reverse = _ from place]
      simp
    apply sound_transfer
    intro i inside value samePlace
    exact Or.inl ⟨previous, .within listed order, sound i inside value samePlace⟩

end Soundness

section Completeness

omit [DecidableEq β] [DecidableEq ι] [DecidableEq ν] in
/-- Where merges lead, the merges a block starts with are all it has. -/
theorem mem_merges {block : β} (wellFormed : graph.WellFormedAt block) {inst : ι}
    (member : inst ∈ graph.instructions block) (merge : graph.isMerge inst = true) :
    inst ∈ merges graph block := by
  have leading := wellFormed.leading
  unfold merges
  generalize graph.instructions block = insts at member leading ⊢
  induction insts with
  | nil => cases member
  | cons first rest ih =>
    obtain ⟨before, leading⟩ := List.pairwise_cons.mp leading
    rcases List.mem_cons.mp member with rfl | later
    · simp [merge]
    · rw [List.takeWhile_cons, if_pos (before inst later merge)]
      exact List.mem_cons_of_mem _ (ih later leading)

omit [DecidableEq β] [DecidableEq ι] [DecidableEq ν] in
theorem passed {block : β} (listed : block ∈ graph.blocks)
    (ordinary : ∃ inst ∈ graph.instructions block, graph.isMerge inst = false) :
    Passed graph block := by
  obtain ⟨inst, member, notMerge⟩ := ordinary
  have nonempty : (graph.instructions block).dropWhile graph.isMerge ≠ [] := by
    intro none
    rw [List.dropWhile_eq_nil_iff] at none
    simp [none inst member] at notMerge
  have head := List.head?_eq_some_head nonempty
  exact ⟨_, head, FlowGraph.mem_program.mpr
    ⟨block, listed, (List.dropWhile_sublist _).subset (List.mem_of_head? head)⟩⟩

variable {domain : Domain ν} {store : Store ι} (solves : (system graph domain).Solves store)

include solves

/-- The last instruction of a block has in its fact what the successors contribute, unless it
defines it. -/
theorem mem_of_contributes {source : β} (listed : source ∈ graph.blocks) {inst : ι}
    (last : (graph.instructions source).getLast? = some inst) {neighbor : Neighbor β}
    (arrives : neighbor ∈ (system graph domain).arriving store source) {i : Nat}
    (bound : i < domain.size) (adds : Contributes graph domain source neighbor i)
    (kept : ¬ Defines graph domain inst i) : ∃ fact, store.get? inst = some fact ∧ i ∈ fact := by
  obtain ⟨rest, place⟩ : ∃ rest, (system graph domain).order source = inst :: rest :=
    List.head?_eq_some_iff.mp (List.head?_reverse.trans last)
  refine ⟨_, solves.first listed place, mem_transfer.mpr ⟨bound, Or.inr ⟨?_, kept⟩⟩⟩
  exact mem_inflow.mpr ⟨bound, neighbor, arrives, adds⟩

variable (covers : (system graph domain).Covers store)
  (wellFormed : ∀ block ∈ graph.blocks, graph.WellFormedAt block)
  (closed : graph.ClosedForward) (ordinary : graph.HasOrdinary)

include ordinary in
/-- In a solution what is live stays live backwards past any instruction that does not define
it. -/
theorem carries {inst next : ι} (step : graph.Step (fun _ => True) inst next) {fact : Fact} {i : Nat}
    (kept : ¬ Defines graph domain inst i) (bound : i < domain.size)
    (found : store.get? next = some fact) (member : i ∈ fact) :
    ∃ before, store.get? inst = some before ∧ i ∈ before := by
  cases step with
  | @within block _ _ before after listed place =>
    have order : (system graph domain).order block = after.reverse ++ next :: inst :: before.reverse := by
      simp [System.order, Direction.instructionOrder, place]
    obtain ⟨input, stored, turned⟩ := solves.next listed order
    cases stored.symm.trans found
    exact ⟨_, turned, mem_transfer.mpr ⟨bound, Or.inr ⟨member, kept⟩⟩⟩
  | @across source target _ _ listed listedTarget edge _ last first =>
    have exit := (Direction.exit?_backward graph target).trans first
    have arrives : ⟨target, fact⟩ ∈ (system graph domain).arriving store source :=
      (system graph domain).mem_arriving.mpr ⟨edge, next, exit, found⟩
    exact mem_of_contributes solves listed last arrives bound
      (Or.inr ⟨member, Or.inl (passed listedTarget (ordinary target listedTarget))⟩) kept

include covers wellFormed closed

/-- A value that a merge selects on an edge is live at the end of the block that the edge
leaves, unless the block's last instruction defines it. -/
theorem mem_of_selected {inst : ι} {value : ν} {i : Nat}
    (place : domain.indexOf? value = some i) (kept : ¬ Defines graph domain inst i)
    (selected : graph.SelectedAfter inst value) :
    ∃ fact, store.get? inst = some fact ∧ i ∈ fact := by
  obtain ⟨source, listed, last, target, edge, merge, among, isMerge, pair⟩ := selected
  have listedTarget := closed source listed target edge
  have nonempty := (wellFormed target listedTarget).nonempty
  have exit := (Direction.exit?_backward graph target).trans (List.head?_eq_some_head nonempty)
  obtain ⟨fact, _, arrives⟩ := covers.arrives edge exit
    (FlowGraph.mem_program.mpr ⟨target, listedTarget, List.head_mem nonempty⟩)
  have here : Here graph domain source target i :=
    ⟨(source, value), List.mem_flatMap.mpr
      ⟨merge, mem_merges (wellFormed target listedTarget) among isMerge, pair⟩, rfl, place⟩
  exact mem_of_contributes solves listed last arrives (Domain.lt_size_of_indexOf? place)
    (Or.inl here) kept

include ordinary

theorem complete {inst : ι} (listed : inst ∈ graph.program) {value : ν} {i : Nat}
    (place : domain.indexOf? value = some i) (live : graph.Live inst value) :
    ∃ fact, store.get? inst = some fact ∧ i ∈ fact := by
  have bound : i < domain.size := Domain.lt_size_of_indexOf? place
  have keeps : ∀ inst, graph.definition inst ≠ some value → ¬ Defines graph domain inst i := by
    rintro inst kept ⟨other, defined, samePlace⟩
    exact kept (Domain.eq_of_indexOf? samePlace place ▸ defined)
  obtain ⟨last, path, ends⟩ := live
  induction path using Relation.ReflTransGen.head_induction_on with
  | refl =>
    rcases ends with ⟨notMerge, read⟩ | ⟨kept, selected⟩
    · obtain ⟨input, stored⟩ := solves.exists_input listed
      exact ⟨_, stored, mem_transfer.mpr ⟨bound, Or.inl ⟨notMerge, value, read, place⟩⟩⟩
    · exact mem_of_selected solves covers wellFormed closed place (keeps last kept) selected
  | head step _ ih =>
    obtain ⟨fact, found, member⟩ := ih step.1.target_listed
    exact carries solves ordinary step.1 (keeps _ step.2) bound found member

end Completeness

/-- The run ends, and its results report exactly the live values. -/
theorem endsWith [Shown β] [Shown ν] (sound : graph.defect? = none)
    (distinct : graph.program.Nodup) (closed : graph.ClosedForward) (ordinary : graph.HasOrdinary)
    {config : Config} (unlimited : config.maxSweeps = none) :
    ∃ results, (Solver.ofProblem (liveVariables.on graph config)).EndsWith results ∧
      results.domain = liveVariables.domain graph ∧
      ∀ inst ∈ graph.program, ∀ value ∈ results.domain.elements,
        ∃ answer, results.holds inst value = .ok answer ∧ (answer = true ↔ graph.Live inst value) := by
  have wellFormed := FlowGraph.defect?_eq_none.mp sound
  let domain := liveVariables.domain graph
  have answers : (liveVariables.on graph config).Follows domain domain.emptyFact
      (operators graph domain) fun store =>
        ((system graph domain).Covers store ∧ Passing graph store) ∧
          ∀ inst fact, store.get? inst = some fact → Sound graph domain inst fact :=
    (follows domain distinct (fun block listed target edge =>
      Or.inl (closed block listed target edge)) config).strengthen
        fun _ _ _ sound listed => sound_settle distinct closed sound listed
  have begins : ∀ store, (system graph domain).Fresh .ascending store →
      ((system graph domain).Covers store ∧ Passing graph store) ∧
        ∀ inst fact, store.get? inst = some fact → Sound graph domain inst fact := by
    intro store fresh
    refine ⟨⟨fresh.covers, passing_of_fresh fresh⟩, ?_⟩
    intro inst fact found i member
    exact absurd member (fresh.not_mem found i)
  refine Analysis.reports (by simp [Problem.defect?, sound]) distinct (fun _ _ => rfl) rfl answers
    operators_monotone begins unlimited ?_
  rintro store ⟨⟨covers, _⟩, sound⟩ solves inst fact found value i place
  constructor
  · exact fun member => sound inst fact found i member value place
  · intro live
    have listed := (covers.listed inst).mp (by rw [found]; rfl)
    obtain ⟨other, stored, member⟩ :=
      complete solves covers wellFormed closed ordinary listed place live
    cases found.symm.trans stored
    exact member

end Liveness

/-- Live variables are exact on every well-formed graph whose blocks have their successors in it
and hold more than merges, and every function that can be built is such a graph. -/
theorem liveVariables_exact :
    (∀ (β ι ν : Type) [DecidableEq β] [DecidableEq ι] [DecidableEq ν] [Shown β] [Shown ν]
      (graph : FlowGraph β ι ν) (config : Config), graph.defect? = none → graph.program.Nodup →
      graph.ClosedForward → graph.HasOrdinary → config.maxSweeps = none →
      ∃ results, (Solver.ofProblem (liveVariables.on graph config)).EndsWith results ∧
        results.domain = liveVariables.domain graph ∧
        ∀ inst ∈ graph.program, ∀ value ∈ results.domain.elements,
          ∃ answer, results.holds inst value = .ok answer ∧
            (answer = true ↔ graph.Live inst value)) ∧
    ∀ (name : String) (steps : List Ssa.Step) (function : Ssa.Function),
      ((Ssa.Draft.empty name).steps steps).2.toFunction = .ok function →
      function.graph.defect? = none ∧ function.graph.program.Nodup ∧
        function.graph.ClosedForward ∧ function.graph.HasOrdinary := by
  constructor
  · intro β ι ν _ _ _ _ _ graph config sound distinct closed ordinary unlimited
    exact Liveness.endsWith sound distinct closed ordinary unlimited
  · intro name steps function built
    obtain ⟨edges, finished⟩ := (Ssa.Draft.Coherent.steps name steps).finished built
    exact ⟨finished.defect?_eq_none, finished.program_nodup, finished.closedForward,
      fun _ listed => finished.exists_terminator listed⟩

theorem liveVariables_exact_on_loops :
    (∃ results, (Solver.ofProblem (liveVariables.on Table.loops.graph .standard)).EndsWith
        results ∧
      results.domain = liveVariables.domain Table.loops.graph ∧
      ∀ inst ∈ Table.loops.graph.program, ∀ value ∈ results.domain.elements,
        ∃ answer, results.holds inst value = .ok answer ∧
          (answer = true ↔ Table.loops.graph.Live inst value)) ∧
    ∃ function,
      ((Ssa.Draft.empty "countdown").steps Ssa.Step.countdown).2.toFunction = .ok function ∧
      function.graph.defect? = none ∧ function.graph.program.Nodup ∧
        function.graph.ClosedForward ∧ function.graph.HasOrdinary := by
  obtain ⟨exact, qualifies⟩ := liveVariables_exact
  constructor
  · exact exact Nat Nat Nat Table.loops.graph .standard (by decide) (by decide)
      (by decide) (by decide) rfl
  · exact ⟨_, rfl, qualifies "countdown" Ssa.Step.countdown _ rfl⟩

end Dataflow
