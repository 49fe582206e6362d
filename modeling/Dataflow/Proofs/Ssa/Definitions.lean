import Dataflow.Proofs.Liveness.Exact
import Dataflow.Proofs.Reaching.Exact
import Dataflow.Proofs.Ssa.Invariant
import Mathlib.Data.List.Chain

/-! Definitions and where they reach. In a finished function a value has one definition, and it is
reported wherever control can go from there without coming back into the entry block; what flows
back into the entry is lost. A value whose uses are all dominated by its definition loses nothing:
wherever control can come to and the value is live, it is reported. -/
namespace Dataflow

namespace FlowGraph

variable {β ι ν : Type}

def start? (graph : FlowGraph β ι ν) : Option ι :=
  graph.entry.bind fun block => (graph.instructions block).head?

def Reachable (graph : FlowGraph β ι ν) (inst : ι) : Prop :=
  ∃ first, graph.start? = some first ∧
    Relation.ReflTransGen (graph.Step fun _ => True) first inst

def PathFromStart (graph : FlowGraph β ι ν) (path : List ι) : Prop :=
  path.head? = graph.start? ∧ path.IsChain (graph.Step fun _ => True)

/-- Every path from the start to the instruction passes a definition of the value before it. -/
def DefinedBefore (graph : FlowGraph β ι ν) (inst : ι) (value : ν) : Prop :=
  ∀ earlier, graph.PathFromStart (earlier ++ [inst]) →
    ∃ passed ∈ earlier, graph.definition passed = some value

def DefinedUpTo (graph : FlowGraph β ι ν) (inst : ι) (value : ν) : Prop :=
  ∀ earlier, graph.PathFromStart (earlier ++ [inst]) →
    ∃ passed ∈ earlier ++ [inst], graph.definition passed = some value

/-- Every use of the value is dominated by its definition. What a merge selects is used at the end
of the block that the edge comes from. -/
structure Dominated (graph : FlowGraph β ι ν) (value : ν) : Prop where
  read : ∀ inst ∈ graph.program, graph.isMerge inst = false → value ∈ graph.operands inst →
    graph.DefinedBefore inst value
  selected : ∀ merge ∈ graph.program, graph.isMerge merge = true →
    ∀ source, (source, value) ∈ graph.incoming merge →
    ∀ last, (graph.instructions source).getLast? = some last → graph.DefinedUpTo last value

variable {graph : FlowGraph β ι ν} {inst : ι} {value : ν}

/-- Wherever control can come to, it can come to without returning into the entry block: what was
done before the last return is left out. -/
theorem onward_of_start {first : ι} (start : graph.start? = some first)
    (path : Relation.ReflTransGen (graph.Step fun _ => True) first inst) :
    Relation.ReflTransGen (graph.Step fun target => graph.entry ≠ some target) first inst := by
  induction path with
  | refl => exact .refl
  | tail _ step ih =>
    cases step with
    | within listed place => exact ih.tail (.within listed place)
    | @across source target _ _ listed listedTarget edge _ last head =>
      by_cases returns : graph.entry = some target
      · have same : graph.start? = (graph.instructions target).head? := by
          rw [start?, returns, Option.bind_some]
        cases start.symm.trans (same.trans head)
        exact .refl
      · exact ih.tail (.across listed listedTarget edge returns last head)

theorem Step.of_onward {next : ι}
    (step : graph.Step (fun target => graph.entry ≠ some target) inst next) :
    graph.Step (fun _ => True) inst next := by
  cases step with
  | within listed place => exact .within listed place
  | across listed listedTarget edge _ last first =>
    exact .across listed listedTarget edge trivial last first

/-- Going onward, control passes a definition of the value or does without one throughout. -/
theorem passes_or_avoids (value : ν) {first : ι}
    (path : Relation.ReflTransGen (graph.Step fun target => graph.entry ≠ some target) first inst) :
    (∃ passed, graph.definition passed = some value ∧
      Relation.ReflTransGen (graph.Step fun target => graph.entry ≠ some target) passed inst) ∨
    Relation.ReflTransGen (fun inst next =>
      graph.Step (fun _ => True) inst next ∧ graph.definition inst ≠ some value) first inst := by
  induction path using Relation.ReflTransGen.head_induction_on with
  | refl => exact Or.inr .refl
  | @head first second step rest ih =>
    rcases ih with passes | avoids
    · exact Or.inl passes
    · by_cases defines : graph.definition first = some value
      · exact Or.inl ⟨first, defines, rest.head step⟩
      · exact Or.inr (avoids.head ⟨step.of_onward, defines⟩)

/-- A way without a definition, written out. -/
theorem exists_path_of_avoids {first : ι} (start : graph.start? = some first)
    (avoids : Relation.ReflTransGen (fun inst next =>
      graph.Step (fun _ => True) inst next ∧ graph.definition inst ≠ some value) first inst) :
    ∃ earlier, graph.PathFromStart (earlier ++ [inst]) ∧
      ∀ passed ∈ earlier, graph.definition passed ≠ some value := by
  induction avoids with
  | refl => exact ⟨[], ⟨by simp [start], List.isChain_singleton _⟩, by simp⟩
  | @tail previous inst _ step ih =>
    obtain ⟨earlier, ⟨head, chain⟩, clean⟩ := ih
    refine ⟨earlier ++ [previous], ⟨?_, ?_⟩, ?_⟩
    · rw [List.head?_append, head, start, Option.some_or]
    · refine chain.append (List.isChain_singleton _) ?_
      simpa using step.1
    · simpa [or_imp, forall_and] using ⟨clean, step.2⟩

theorem start_listed (inside : ∀ block, graph.entry = some block → block ∈ graph.blocks) {first : ι}
    (start : graph.start? = some first) : first ∈ graph.program := by
  obtain ⟨block, entry, head⟩ := Option.bind_eq_some_iff.mp start
  exact mem_program.mpr ⟨block, inside block entry, List.mem_of_head? head⟩

theorem Reachable.listed (inside : ∀ block, graph.entry = some block → block ∈ graph.blocks)
    (reachable : graph.Reachable inst) : inst ∈ graph.program := by
  obtain ⟨first, start, path⟩ := reachable
  rcases path.cases_tail with rfl | ⟨_, _, step⟩
  · exact start_listed inside start
  · exact step.target_listed

/-- A live value that is an argument, or whose uses are dominated, reaches every instruction that
control can come to. -/
theorem Live.reaches (closed : graph.ClosedForward)
    (inside : ∀ block, graph.entry = some block → block ∈ graph.blocks)
    (live : graph.Live inst value) (reachable : graph.Reachable inst)
    (known : value ∈ graph.arguments ∨ graph.Dominated value) : graph.Reaches inst value := by
  obtain ⟨first, start, path⟩ := reachable
  have onward := onward_of_start start path
  rcases known with argument | dominated
  · obtain ⟨block, entry, head⟩ := Option.bind_eq_some_iff.mp start
    exact ⟨first, onward, Or.inr ⟨argument, block, inside block entry, Or.inl entry, head⟩⟩
  · rcases passes_or_avoids value onward with ⟨passed, defines, rest⟩ | avoids
    · exact ⟨passed, rest, Or.inl defines⟩
    · -- otherwise control comes to a use of the value past no definition
      obtain ⟨last, rest, ends⟩ := live
      obtain ⟨earlier, fromStart, clean⟩ := exists_path_of_avoids start (avoids.trans rest)
      rcases ends with ⟨ordinary, read⟩ | ⟨kept, source, listed, final, target, edge, merge, among,
        isMerge, pair⟩
      · have reached : graph.Reachable last :=
          ⟨first, start,
            Relation.ReflTransGen.mono (fun _ _ step => step.1) _ _ (avoids.trans rest)⟩
        have used := reached.listed inside
        obtain ⟨passed, member, defines⟩ := dominated.read last used ordinary read earlier fromStart
        exact absurd defines (clean passed member)
      · have used := mem_program.mpr ⟨target, closed source listed target edge, among⟩
        obtain ⟨passed, member, defines⟩ :=
          dominated.selected merge used isMerge source pair last final earlier fromStart
        rcases List.mem_append.mp member with before | here
        · exact absurd defines (clean passed before)
        · rw [List.mem_singleton.mp here] at defines
          exact absurd defines kept

section Distinct

variable (distinct : graph.program.Nodup)

include distinct

/-- What follows another instruction of its block does not come first in a block. -/
theorem head?_ne_of_within {block other : β} {previous : ι} {before after : List ι}
    (listed : block ∈ graph.blocks)
    (place : graph.instructions block = before ++ previous :: inst :: after)
    (listedOther : other ∈ graph.blocks) : (graph.instructions other).head? ≠ some inst := by
  intro head
  have member : inst ∈ graph.instructions block := by simp [place]
  cases eq_of_mem_instructions distinct listedOther listed (List.mem_of_head? head) member
  have once := instructions_nodup distinct listed
  rw [place] at head once
  cases before with
  | nil =>
    cases head
    simp at once
  | cons first before =>
    cases head
    simp at once

/-- What follows another instruction of its block is only come to from there. -/
theorem Step.eq_previous {block : β} {previous source : ι} {before after : List ι}
    (listed : block ∈ graph.blocks)
    (place : graph.instructions block = before ++ previous :: inst :: after) {enters : β → Prop}
    (step : graph.Step enters source inst) : source = previous := by
  cases step with
  | @within other _ _ earlier later listedOther order =>
    have member : inst ∈ graph.instructions block := by simp [place]
    cases eq_of_mem_instructions distinct listedOther listed (by simp [order]) member
    have once := instructions_nodup distinct listed
    have split : (before ++ [previous]) ++ inst :: after =
        (earlier ++ [source]) ++ inst :: later := by
      simpa using place.symm.trans order
    rw [place, List.append_cons, List.nodup_middle, List.nodup_cons, List.mem_append,
      not_or] at once
    have same := ((List.append_cons_inj_of_notMem once.1.1 once.1.2).mp split).1
    exact (List.append_inj' same rfl).2 |> List.singleton_inj.mp |>.symm
  | across _ listedTarget _ _ _ first =>
    exact absurd first (head?_ne_of_within distinct listed place listedTarget)

/-- No way onward leads back to the start. -/
theorem eq_start_of_onward {first start : ι} (begins : graph.start? = some start)
    (inside : ∀ block, graph.entry = some block → block ∈ graph.blocks)
    (path : Relation.ReflTransGen (graph.Step fun target => graph.entry ≠ some target)
      first start) : first = start := by
  obtain ⟨entry, isEntry, head⟩ := Option.bind_eq_some_iff.mp begins
  rcases path.cases_tail with rfl | ⟨previous, _, step⟩
  · rfl
  · cases step with
    | within listed place =>
      exact absurd head (head?_ne_of_within distinct listed place (inside entry isEntry))
    | @across _ target _ _ _ listedTarget _ allowed _ first =>
      have same := eq_of_mem_instructions distinct listedTarget (inside entry isEntry)
        (List.mem_of_head? first) (List.mem_of_head? head)
      exact absurd (same ▸ isEntry) allowed

/-- A definition dominates the instruction that follows it. -/
theorem definedBefore_of_within {block : β} {previous : ι} {before after : List ι}
    (listed : block ∈ graph.blocks)
    (place : graph.instructions block = before ++ previous :: inst :: after)
    (inside : ∀ block, graph.entry = some block → block ∈ graph.blocks)
    (defines : graph.definition previous = some value) : graph.DefinedBefore inst value := by
  rintro earlier ⟨head, chain⟩
  rcases List.eq_nil_or_concat earlier with rfl | ⟨rest, source, rfl⟩
  · obtain ⟨entry, isEntry, first⟩ := Option.bind_eq_some_iff.mp head.symm
    exact absurd first (head?_ne_of_within distinct listed place (inside entry isEntry))
  · have step : graph.Step (fun _ => True) source inst := by
      simpa using (List.isChain_append.mp chain).2.2 source (by simp) inst (by simp)
    exact ⟨source, by simp, step.eq_previous distinct listed place ▸ defines⟩

end Distinct

end FlowGraph

/-- Results say yes only about elements of their domain. -/
theorem Results.mem_of_holds {β ι ε : Type} [DecidableEq β] [DecidableEq ι] [DecidableEq ε]
    {results : Results β ι ε} {inst : ι} {element : ε}
    (holds : results.holds inst element = .ok true) : element ∈ results.domain.elements := by
  rw [← results.domain.indexOf?_isSome_iff]
  cases place : results.domain.indexOf? element with
  | some i => rfl
  | none => simp [Results.holds, place] at holds

namespace Ssa

theorem Draft.linked_steps (name : String) (steps : List Step) :
    ((Draft.empty name).steps steps).2.Linked :=
  steps_induction (fun _ _ linked grows => linked.grow grows) (Invariant.empty name).toLinked steps

namespace Function

theorem entry_listed (function : Function) (block : Block)
    (entry : function.graph.entry = some block) : block ∈ function.graph.blocks :=
  List.mem_of_head? entry

/-- A value that an instruction defines comes from nowhere else. -/
theorem reaches_iff_onward {function : Function} (linked : function.toDraft.Linked)
    {source inst : Inst} {value : Value} (defines : function.graph.definition source = some value) :
    function.graph.Reaches inst value ↔ Relation.ReflTransGen
      (function.graph.Step fun target => function.graph.entry ≠ some target) source inst := by
  have origin := (linked.results source value).mp defines
  constructor
  · rintro ⟨first, path, defined | ⟨argument, _⟩⟩
    · cases origin.symm.trans ((linked.results first value).mp defined)
      exact path
    · obtain ⟨position, place⟩ := List.mem_iff_getElem?.mp argument
      cases origin.symm.trans ((linked.arguments position value).mp place)
  · exact fun path => ⟨source, path, Or.inl defines⟩

/-- If nothing leads into the entry block, every way is a way onward. -/
theorem Finished.onward_iff {function : Function} {edges : List (Block × Block)}
    (finished : function.Finished edges)
    (free : ∀ block, function.graph.entry = some block → function.graph.predecessors block = [])
    {source inst : Inst} :
    Relation.ReflTransGen
        (function.graph.Step fun target => function.graph.entry ≠ some target) source inst ↔
      Relation.ReflTransGen (function.graph.Step fun _ => True) source inst := by
  refine ⟨Relation.ReflTransGen.mono (fun _ _ => FlowGraph.Step.of_onward) _ _,
    Relation.ReflTransGen.mono (fun _ _ step => ?_) _ _⟩
  cases step with
  | within listed place => exact .within listed place
  | @across source target _ _ listed listedTarget edge _ last first =>
    refine .across listed listedTarget edge (fun entry => ?_) last first
    have wellFormed := FlowGraph.defect?_eq_none.mp finished.defect?_eq_none source listed
    exact List.ne_nil_of_mem (wellFormed.forward target edge) (free target entry)

end Function

section Built

variable {name : String} {steps : List Step} {function : Function}
  (built : ((Draft.empty name).steps steps).2.toFunction = .ok function) {config : Config}
  (unlimited : config.maxSweeps = none)

include built unlimited

/-- A definition is reported exactly where control can go from it without coming back into the
entry block. -/
theorem Function.reports_onward :
    ∃ results, (Solver.ofProblem (reachingDefinitions.on function.graph config)).EndsWith results ∧
      ∀ source ∈ function.graph.program, ∀ value,
        function.graph.definition source = some value →
        ∀ inst ∈ function.graph.program, ∃ answer, results.holds inst value = .ok answer ∧
          (answer = true ↔ Relation.ReflTransGen
            (function.graph.Step fun target => function.graph.entry ≠ some target) source inst) := by
  obtain ⟨edges, finished⟩ := (Draft.Coherent.steps name steps).finished built
  obtain ⟨_, _, _, same, _⟩ := Draft.toFunction_eq_ok built
  have linked : function.toDraft.Linked := same ▸ Draft.linked_steps name steps
  obtain ⟨results, ends, domain, reports⟩ := Reaching.endsWith finished.closedBackward
    finished.defect?_eq_none finished.program_nodup unlimited
  refine ⟨results, ends, fun source placed value defines inst listed => ?_⟩
  have tracked : value ∈ results.domain.elements := by
    rw [domain, Analysis.mem_domain]
    exact ⟨source, placed, List.mem_append_right _ (by simp [defines])⟩
  obtain ⟨answer, answered, exact⟩ := reports inst listed value tracked
  exact ⟨answer, answered, exact.trans (Function.reaches_iff_onward linked defines)⟩

/-- Where control starts, no definition from elsewhere is reported. -/
theorem Function.lost_at_start {start source : Inst} {value : Value}
    (begins : function.graph.start? = some start) (placed : source ∈ function.graph.program)
    (defines : function.graph.definition source = some value) (other : source ≠ start) :
    ∃ results, (Solver.ofProblem (reachingDefinitions.on function.graph config)).EndsWith results ∧
      results.holds start value = .ok false := by
  obtain ⟨edges, finished⟩ := (Draft.Coherent.steps name steps).finished built
  obtain ⟨results, ends, reports⟩ := Function.reports_onward built unlimited
  obtain ⟨answer, answered, onward⟩ := reports source placed value defines start
    (FlowGraph.start_listed function.entry_listed begins)
  refine ⟨results, ends, ?_⟩
  cases answer with
  | false => exact answered
  | true =>
    have path := onward.mp rfl
    exact absurd (FlowGraph.eq_start_of_onward finished.program_nodup begins
      function.entry_listed path) other

end Built

/-- Some work that is repeated as long as it asks for it, from the entry block on. -/
def Step.retry : List Step :=
  [.block none, .block none, .append ⟨0⟩ (.call "work" [] false), .append ⟨0⟩ (.call "again" [] true),
    .append ⟨0⟩ (.branchIf ⟨0⟩ ⟨0⟩ ⟨1⟩), .append ⟨1⟩ (.ret none)]

/-- Live values are reached by their definitions: where control can come to, every live value that
is an argument or whose uses are all dominated by its definition is reported as reaching. -/
theorem live_values_reached (name : String) (steps : List Step) (function : Function)
    (built : ((Draft.empty name).steps steps).2.toFunction = .ok function)
    (first second : Config) (patient : first.maxSweeps = none)
    (unlimited : second.maxSweeps = none) :
    ∃ live reaching,
      (Solver.ofProblem (liveVariables.on function.graph first)).EndsWith live ∧
      (Solver.ofProblem (reachingDefinitions.on function.graph second)).EndsWith reaching ∧
      ∀ inst value, function.graph.Reachable inst →
        value ∈ function.graph.arguments ∨ function.graph.Dominated value →
        live.holds inst value = .ok true → reaching.holds inst value = .ok true := by
  obtain ⟨edges, finished⟩ := (Draft.Coherent.steps name steps).finished built
  have sound := finished.defect?_eq_none
  have distinct := finished.program_nodup
  obtain ⟨live, liveEnds, liveDomain, reportsLive⟩ := Liveness.endsWith sound distinct
    finished.closedForward (fun _ listed => finished.exists_terminator listed) patient
  obtain ⟨reaching, reachingEnds, reachingDomain, reportsReaching⟩ :=
    Reaching.endsWith finished.closedBackward sound distinct unlimited
  refine ⟨live, reaching, liveEnds, reachingEnds, fun inst value reachable known holds => ?_⟩
  have listed := reachable.listed function.entry_listed
  have tracked := Results.mem_of_holds holds
  obtain ⟨answer, answered, exactLive⟩ := reportsLive inst listed value tracked
  cases holds.symm.trans answered
  have reaches := (exactLive.mp rfl).reaches finished.closedForward function.entry_listed
    reachable known
  -- what liveness tracks, reaching definitions track as well
  have alsoTracked : value ∈ reaching.domain.elements := by
    rw [liveDomain, Analysis.mem_domain] at tracked
    obtain ⟨user, member, read⟩ := tracked
    rw [reachingDomain, Analysis.mem_domain]
    exact ⟨user, member, List.mem_append_left _ read⟩
  obtain ⟨answer, answered, exactReaching⟩ := reportsReaching inst listed value alsoTracked
  rw [answered, exactReaching.mpr reaches]

theorem live_values_reached_in_retry :
    ∃ function, ((Draft.empty "retry").steps Step.retry).2.toFunction = .ok function ∧
      ∃ live reaching,
        (Solver.ofProblem (liveVariables.on function.graph .standard)).EndsWith live ∧
        (Solver.ofProblem (reachingDefinitions.on function.graph .standard)).EndsWith reaching ∧
        live.holds ⟨2⟩ ⟨0⟩ = .ok true ∧ reaching.holds ⟨2⟩ ⟨0⟩ = .ok true := by
  have built : ((Draft.empty "retry").steps Step.retry).2.toFunction = .ok _ := rfl
  refine ⟨_, built, ?_⟩
  obtain ⟨live, reaching, liveEnds, reachingEnds, reached⟩ :=
    live_values_reached "retry" Step.retry _ built .standard .standard rfl rfl
  obtain ⟨edges, finished⟩ := (Draft.Coherent.steps "retry" Step.retry).finished built
  have distinct := finished.program_nodup
  have holds : live.holds ⟨2⟩ ⟨0⟩ = .ok true := by
    obtain ⟨results, ends, domain, reports⟩ := Liveness.endsWith finished.defect?_eq_none distinct
      finished.closedForward (fun _ listed => finished.exists_terminator listed)
      (rfl : Config.standard.maxSweeps = none)
    cases ends.unique liveEnds
    obtain ⟨answer, answered, exact⟩ := reports ⟨2⟩ (by decide) ⟨0⟩ (by rw [domain]; decide)
    rw [answered, exact.mpr ⟨⟨2⟩, .refl, Or.inl ⟨rfl, by decide⟩⟩]
  refine ⟨live, reaching, liveEnds, reachingEnds, holds, reached ⟨2⟩ ⟨0⟩ ?_ (Or.inr ?_) holds⟩
  · refine ⟨⟨0⟩, rfl, ?_⟩
    refine (Relation.ReflTransGen.single (?_ : FlowGraph.Step _ _ _ (⟨1⟩ : Inst))).tail ?_
    · exact @FlowGraph.Step.within _ _ _ _ _ ⟨0⟩ _ _ [] [⟨2⟩] (by decide) rfl
    · exact @FlowGraph.Step.within _ _ _ _ _ ⟨0⟩ _ _ [⟨0⟩] [] (by decide) rfl
  · constructor
    · intro inst listed _ read
      have only : inst = ⟨2⟩ := by
        revert inst
        decide
      subst only
      exact @FlowGraph.definedBefore_of_within _ _ _ _ _ _ distinct ⟨0⟩ ⟨1⟩ [⟨0⟩] [] (by decide) rfl
        (Function.entry_listed _) rfl
    · intro merge listed isMerge
      exfalso
      revert merge
      decide

/-- A definition is reported exactly where control can go from it without coming back into the
entry block. If no block leads into the entry block, that is wherever control can go. -/
theorem definitions_reach_onward (name : String) (steps : List Step) (function : Function)
    (built : ((Draft.empty name).steps steps).2.toFunction = .ok function) (config : Config)
    (unlimited : config.maxSweeps = none) :
    ∃ results, (Solver.ofProblem (reachingDefinitions.on function.graph config)).EndsWith results ∧
      ∀ source ∈ function.graph.program, ∀ value,
        function.graph.definition source = some value →
        ∀ inst ∈ function.graph.program, ∃ answer, results.holds inst value = .ok answer ∧
          (answer = true ↔ Relation.ReflTransGen
            (function.graph.Step fun target => function.graph.entry ≠ some target) source inst) ∧
          ((∀ block, function.graph.entry = some block →
              function.graph.predecessors block = []) →
            (answer = true ↔
              Relation.ReflTransGen (function.graph.Step fun _ => True) source inst)) := by
  obtain ⟨edges, finished⟩ := (Draft.Coherent.steps name steps).finished built
  obtain ⟨results, ends, reports⟩ := Function.reports_onward built unlimited
  refine ⟨results, ends, fun source placed value defines inst listed => ?_⟩
  obtain ⟨answer, answered, onward⟩ := reports source placed value defines inst listed
  exact ⟨answer, answered, onward, fun free => onward.trans (finished.onward_iff free)⟩

/-- In the first of the loops the entry block is entered again, and the answer is about the ways that
avoid that. In the second one it never is, and the decrement is reported to the phi before it. -/
theorem definitions_reach_onward_in_loops :
    (∃ function, ((Draft.empty "retry").steps Step.retry).2.toFunction = .ok function ∧
      ∃ results, (Solver.ofProblem (reachingDefinitions.on function.graph .standard)).EndsWith
          results ∧
        ∃ answer, results.holds ⟨3⟩ ⟨0⟩ = .ok answer ∧
          (answer = true ↔ Relation.ReflTransGen
            (function.graph.Step fun target => function.graph.entry ≠ some target) ⟨1⟩ ⟨3⟩)) ∧
    ∃ function, ((Draft.empty "countdown").steps Step.countdown).2.toFunction = .ok function ∧
      (∀ block, function.graph.entry = some block → function.graph.predecessors block = []) ∧
      Relation.ReflTransGen (function.graph.Step fun _ => True) ⟨2⟩ ⟨1⟩ ∧
      ∃ results, (Solver.ofProblem (reachingDefinitions.on function.graph .standard)).EndsWith
        results ∧ results.holds ⟨1⟩ ⟨3⟩ = .ok true := by
  constructor
  · refine ⟨_, rfl, ?_⟩
    obtain ⟨results, ends, reports⟩ :=
      definitions_reach_onward "retry" Step.retry _ rfl .standard rfl
    obtain ⟨answer, answered, onward, _⟩ :=
      reports ⟨1⟩ (by decide) ⟨0⟩ (by decide) ⟨3⟩ (by decide)
    exact ⟨results, ends, answer, answered, onward⟩
  · obtain ⟨function, built, placed, defines, listed, free, round⟩ : ∃ function,
        ((Draft.empty "countdown").steps Step.countdown).2.toFunction = .ok function ∧
        ⟨2⟩ ∈ function.graph.program ∧ function.graph.definition ⟨2⟩ = some ⟨3⟩ ∧
        ⟨1⟩ ∈ function.graph.program ∧
        (∀ block, function.graph.entry = some block → function.graph.predecessors block = []) ∧
        Relation.ReflTransGen (function.graph.Step fun _ => True) ⟨2⟩ ⟨1⟩ := by
      refine ⟨_, rfl, by decide, rfl, by decide, ?_, ?_⟩
      · rintro _ ⟨⟩
        rfl
      · refine (Relation.ReflTransGen.single (?_ : FlowGraph.Step _ _ _ (⟨3⟩ : Inst))).tail ?_
        · exact @FlowGraph.Step.within _ _ _ _ _ ⟨1⟩ _ _ [⟨1⟩] [] (by decide) rfl
        · exact @FlowGraph.Step.across _ _ _ _ _ ⟨1⟩ ⟨1⟩ _ _ (by decide) (by decide) (by decide) trivial
            rfl rfl
    obtain ⟨results, ends, reports⟩ :=
      definitions_reach_onward "countdown" Step.countdown function built .standard rfl
    obtain ⟨answer, answered, _, anywhere⟩ := reports ⟨2⟩ placed ⟨3⟩ defines ⟨1⟩ listed
    exact ⟨function, built, free, round, results, ends, by rw [answered, (anywhere free).mpr round]⟩

/-- Control leads from the call round the loop to the work, but the work is not told: what flows
back into the entry block is lost. -/
theorem definition_lost_in_retry :
    ∃ function, ((Draft.empty "retry").steps Step.retry).2.toFunction = .ok function ∧
      function.graph.definition ⟨1⟩ = some ⟨0⟩ ∧
      Relation.ReflTransGen (function.graph.Step fun _ => True) ⟨1⟩ ⟨0⟩ ∧
      ∃ results, (Solver.ofProblem (reachingDefinitions.on function.graph .standard)).EndsWith
          results ∧ results.holds ⟨0⟩ ⟨0⟩ = .ok false := by
  have built : ((Draft.empty "retry").steps Step.retry).2.toFunction = .ok _ := rfl
  refine ⟨_, built, rfl, ?_, ?_⟩
  · refine (Relation.ReflTransGen.single (?_ : FlowGraph.Step _ _ _ (⟨2⟩ : Inst))).tail ?_
    · exact @FlowGraph.Step.within _ _ _ _ _ ⟨0⟩ _ _ [⟨0⟩] [] (by decide) rfl
    · exact @FlowGraph.Step.across _ _ _ _ _ ⟨0⟩ ⟨0⟩ _ _ (by decide) (by decide) (by decide) trivial
        rfl rfl
  · exact Function.lost_at_start built rfl rfl (by decide) rfl (by decide : (⟨1⟩ : Inst) ≠ ⟨0⟩)

end Ssa
end Dataflow
