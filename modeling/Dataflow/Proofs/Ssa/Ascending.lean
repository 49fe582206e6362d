import Dataflow.Proofs.Solver.Equations
import Dataflow.Proofs.Solver.Totality
import Dataflow.Proofs.Ssa.Finishing
import Dataflow.Proofs.System.Topological

/-! Functions whose edges all lead onward in the list of blocks. Forward or backward, a sweep then
comes to every block after the blocks that flow into it, so the first sweep finds the facts that
stay, and the second one at the latest finds that they do. No operator has to be monotone for this
and no fact has to start anywhere in particular. -/
namespace Dataflow

variable {σ β ι ν ε : Type} [DecidableEq β] [DecidableEq ι]

/-- What a run asks is answered by functions, with facts that fit the domain that the client
collects, whatever the client remembers and whatever the facts so far are. -/
structure Problem.IsPlain [DecidableEq ε] (problem : Problem σ β ι ν ε) (domain : Domain ε) :
    Prop where
  collects : ∃ memory, problem.collect.run problem.memory = (.ok domain, memory)
  initial : ∃ fact, (problem.client.initial ⟨problem.graph, domain, Assignment.empty⟩).Answers fact ∧
    fact.width = domain.size
  boundary : ∃ fact, (problem.client.boundary ⟨problem.graph, domain, Assignment.empty⟩).Answers fact ∧
    fact.width = domain.size
  operators : ∃ ops : Operators β ι, problem.Computes domain ops ∧ ops.Sized domain.size

namespace Problem

variable [DecidableEq ε] {problem : Problem σ β ι ν ε} {session : Session σ β ι ε}
  {ops : Operators β ι} {valid : Store ι → Prop}

/-- The run ends with the facts that its first sweep has found, after one more sweep at most. -/
def SettlesAtOnce (problem : Problem σ β ι ν ε) : Prop :=
  ∃ begun changed swept results,
    (Solver.ofProblem problem).start.outcome = .ok (.ok (), begun) ∧
    begun.sweep.outcome = .ok (changed, swept) ∧
    (Solver.ofProblem problem).EndsWith results ∧
    (∀ inst, swept.factOf? inst = results.factOf? inst) ∧ results.stats.sweeps ≤ 2

theorem Follows.settlesAtOnce (started : problem.Starts session)
    (follows : problem.Follows session.domain session.boundary ops valid)
    (good : valid session.store) {before : β → β → Prop}
    (topological : (problem.system session.domain session.boundary ops).Topological before)
    (allowed : ∀ limit ∈ problem.config.maxSweeps, 2 ≤ limit) : problem.SettlesAtOnce := by
  let system := problem.system session.domain session.boundary ops
  obtain ⟨_, _, _, stage, _⟩ := begin_eq_ok (starts_iff.mp started).2
  obtain ⟨changed, next, swept, _, goodNext, store, _⟩ :=
    follows.outcome_sweep good (by simp [stage])
  have start : system.shortfall session.store + 1 ≤ 2 :=
    Nat.succ_le_succ (System.shortfall_le_one session.store)
  obtain ⟨results, ends, _, goodFinal, solves, _, last, _⟩ :=
    follows.endsWith started good system.shortfall (fun _ _ => topological.shortfall_round_lt)
      (fun limit member => start.trans (allowed limit member))
  refine ⟨⟨problem, some session⟩, changed, ⟨problem, some next⟩, results, started, ?_, ends, ?_,
    last.trans start⟩
  · exact Traced.outcome_bind_eq_ok.mpr ⟨(changed, next), swept, rfl⟩
  · intro inst
    change next.store.get? inst = results.store.get? inst
    have found : system.Solves next.store := store ▸ topological.solves_round session.store
    by_cases listed : inst ∈ problem.graph.program
    · exact topological.solution_unique found solves listed
    · have here := mt ((follows.covers _ goodNext).listed inst).mp listed
      have there := mt ((follows.covers _ goodFinal).listed inst).mp listed
      rw [Option.not_isSome_iff_eq_none.mp here, Option.not_isSome_iff_eq_none.mp there]

/-- A run that functions answer can be started, and it follows them. -/
theorem IsPlain.exists_follows {domain : Domain ε} (plain : problem.IsPlain domain)
    (sound : problem.defect? = none) (distinct : problem.graph.program.Nodup) :
    ∃ session ops, problem.Starts session ∧
      problem.Follows session.domain session.boundary ops
        (problem.system session.domain session.boundary ops).Covers := by
  obtain ⟨first, collected⟩ := plain.collects
  obtain ⟨initial, begins, sizedInitial⟩ := plain.initial
  obtain ⟨boundary, bounded, sizedBoundary⟩ := plain.boundary
  obtain ⟨ops, computes, sized⟩ := plain.operators
  obtain ⟨session, started, rfl, _⟩ := starts_of_answers sound distinct collected
    (Prod.ext (begins _) rfl) (Prod.ext (bounded _) rfl) sizedInitial sizedBoundary
  exact ⟨session, ops, started, .of_computes computes (started.sized sized)⟩

end Problem

namespace Ssa

def Function.Ascending (function : Function) : Prop :=
  ∀ source ∈ function.graph.blocks, ∀ target ∈ function.graph.successors source,
    source.index < target.index

instance (function : Function) : Decidable function.Ascending :=
  inferInstanceAs (Decidable (∀ _ ∈ _, ∀ _ ∈ _, _))

/-- On an ascending function the order of a sweep is topological, in either direction. -/
theorem Function.Finished.topological {function : Function} {edges : List (Block × Block)}
    (finished : function.Finished edges) (ascending : function.Ascending)
    (system : System Block Inst Value) (same : system.graph = function.graph) :
    ∃ before, system.Topological before := by
  obtain ⟨ops, direction, graph, width, boundary⟩ := system
  subst same
  have distinct := finished.program_nodup
  cases direction with
  | forward =>
    refine ⟨fun first second => first.index < second.index, distinct,
      function.toDraft.handles_pairwise, fun _ _ => Nat.lt_asymm, finished.closedBackward, ?_⟩
    intro block _ neighbor member
    have edge := ((finished.predecessors neighbor block).mp member).2
    have known := (finished.edge_known edge).1
    exact ascending neighbor known block ((finished.successors neighbor block).mpr ⟨known, edge⟩)
  | backward =>
    refine ⟨fun first second => second.index < first.index, distinct,
      List.pairwise_reverse.mpr function.toDraft.handles_pairwise, fun _ _ => Nat.lt_asymm,
      finished.closedForward, ascending⟩

theorem Function.Finished.settlesAtOnce {function : Function} {edges : List (Block × Block)}
    (finished : function.Finished edges) (ascending : function.Ascending)
    {problem : Problem σ Block Inst Value ε} [DecidableEq ε] (same : problem.graph = function.graph)
    {session : Session σ Block Inst ε} {ops : Operators Block Inst} {valid : Store Inst → Prop}
    (started : problem.Starts session)
    (follows : problem.Follows session.domain session.boundary ops valid)
    (good : valid session.store) (allowed : ∀ limit ∈ problem.config.maxSweeps, 2 ≤ limit) :
    problem.SettlesAtOnce := by
  obtain ⟨before, topological⟩ := finished.topological ascending
    (problem.system session.domain session.boundary ops) same
  exact follows.settlesAtOnce started good topological allowed

/-- On a function whose edges all lead onward, two sweeps are enough for every client whose answers
are functions, and for live variables. -/
theorem ascending_functions_settle_at_once (name : String) (steps : List Step) (function : Function)
    (built : ((Draft.empty name).steps steps).2.toFunction = .ok function)
    (ascending : function.Ascending) (config : Config)
    (allowed : ∀ limit ∈ config.maxSweeps, 2 ≤ limit) :
    (∀ (σ ε : Type) (_ : DecidableEq ε) (client : Client σ Block Inst Value ε) (memory : σ)
      (domain : Domain ε), Problem.IsPlain ⟨client, memory, function.graph, config⟩ domain →
        Problem.SettlesAtOnce ⟨client, memory, function.graph, config⟩) ∧
    (liveVariables.on function.graph config).SettlesAtOnce := by
  obtain ⟨edges, finished⟩ := (Draft.Coherent.steps name steps).finished built
  have distinct := finished.program_nodup
  refine ⟨fun σ ε _ client memory domain plain => ?_, ?_⟩
  · obtain ⟨session, ops, started, follows⟩ :=
      plain.exists_follows (Problem.defect?_of_sound finished.defect?_eq_none) distinct
    exact finished.settlesAtOnce ascending rfl started follows started.fills allowed
  · have sound : (liveVariables.on function.graph config).defect? = none :=
      Problem.defect?_of_sound finished.defect?_eq_none
    obtain ⟨session, started, follows, _, good⟩ := Liveness.exists_follows sound distinct
      fun block listed target edge => Or.inl (finished.closedForward block listed target edge)
    exact finished.settlesAtOnce ascending rfl started follows good allowed

end Ssa

/-- An analysis that is far from monotone: every instruction turns what it is given into the
opposite. It starts from the first element, so it fails on programs that define nothing. -/
def opposites (direction : Direction) : Analysis β ι ν ν where
  name := "opposites"
  direction := direction
  collect := fun graph inst => (graph.definition inst).toList
  initial := fun cx => Fact.ofIndices cx.domain.size [0]
  boundary := fun cx => .ok cx.domain.fullFact
  meet := fun cx _ neighbors => Fact.interOf cx.domain.size (neighbors.map Neighbor.fact)
  transfer := fun cx _ input => (cx.domain.fullFact.diff input).map Prod.fst
  elementName := fun graph value => graph.valueName value

def oppositeOperators (width : Nat) : Operators β ι where
  meet := fun _ neighbors => Fact.ofPred width fun i => ∀ neighbor ∈ neighbors, i ∈ neighbor.fact
  transfer := fun _ input => Fact.ofPred width fun i => i ∉ input

theorem opposites_computes (direction : Direction) (graph : FlowGraph β ι ν) (config : Config)
    (domain : Domain ν) :
    ((opposites direction).on graph config).Computes domain (oppositeOperators domain.size) where
  meet := by
    intro store block memory fills _ _ _
    obtain ⟨result, shared, width, members⟩ :=
      Fact.interOf_of_width (List.forall_mem_map.mpr (Problem.arriving_sized fills))
    refine shared.trans (congrArg Except.ok ?_)
    refine Fact.ext_mem (width.trans (Fact.width_ofPred _ _).symm) fun i => ?_
    rw [members, oppositeOperators, Fact.mem_ofPred, List.forall_mem_map]
  transfer := by
    intro store inst input memory _ _ sized
    have same : domain.fullFact.width = input.width := sized.symm
    refine (Fact.diff_of_width same).trans (congrArg Except.ok ?_)
    refine Fact.ext_mem (Fact.width_ofPred _ _).symm fun i => ?_
    rw [Fact.mem_without, oppositeOperators, Fact.mem_ofPred]
    exact and_congr_left' (Fact.mem_full _ _)

theorem opposites_isPlain [DecidableEq ν] (direction : Direction) (graph : FlowGraph β ι ν)
    (config : Config) (defines : 0 < ((opposites direction).domain graph).size) :
    ((opposites direction).on graph config).IsPlain ((opposites direction).domain graph) where
  collects := ⟨(), Analysis.run_collect _ _ _⟩
  initial := by
    obtain ⟨fact, marked, width, _⟩ := Fact.insertAll_of_lt
      (show ∀ i ∈ [0], i < (Fact.empty ((opposites direction).domain graph).size).width by
        simpa using defines)
    exact ⟨fact, fun _ => marked, width⟩
  boundary := ⟨_, fun _ => rfl, rfl⟩
  operators := ⟨oppositeOperators _, opposites_computes direction graph config _,
    fun _ _ _ _ => Fact.width_ofPred _ _, fun _ _ _ => Fact.width_ofPred _ _⟩

namespace Ssa

def Step.diamond : List Step :=
  [.argument, .block none, .block none, .block none, .block none,
    .append ⟨0⟩ (.branchIf ⟨0⟩ ⟨1⟩ ⟨2⟩),
    .append ⟨1⟩ (.copy ⟨0⟩), .append ⟨1⟩ (.branch ⟨3⟩),
    .append ⟨2⟩ (.binary .add ⟨0⟩ ⟨0⟩), .append ⟨2⟩ (.branch ⟨3⟩),
    .append ⟨3⟩ (.phi [(⟨1⟩, ⟨1⟩), (⟨2⟩, ⟨2⟩)]), .append ⟨3⟩ (.ret (some ⟨3⟩))]

theorem diamond_settles_at_once :
    ∃ function, ((Draft.empty "diamond").steps Step.diamond).2.toFunction = .ok function ∧
      function.Ascending ∧
      (∀ direction, ∃ domain,
        ((opposites direction).on function.graph ⟨some 2, true, true⟩).IsPlain domain ∧
        ((opposites direction).on function.graph ⟨some 2, true, true⟩).SettlesAtOnce) ∧
      (liveVariables.on function.graph ⟨some 2, true, true⟩).SettlesAtOnce := by
  obtain ⟨function, built, ascending, defines⟩ : ∃ function,
      ((Draft.empty "diamond").steps Step.diamond).2.toFunction = .ok function ∧
        function.Ascending ∧
        ∀ direction, 0 < ((opposites direction).domain function.graph).size :=
    ⟨_, rfl, by decide, fun direction => by cases direction <;> decide⟩
  obtain ⟨settles, live⟩ := ascending_functions_settle_at_once "diamond" Step.diamond function built
    ascending ⟨some 2, true, true⟩ (by simp)
  refine ⟨function, built, ascending, fun direction => ?_, live⟩
  have plain := opposites_isPlain direction function.graph ⟨some 2, true, true⟩ (defines direction)
  exact ⟨_, plain, settles Unit Value inferInstance (opposites direction).client () _ plain⟩

end Ssa

end Dataflow
