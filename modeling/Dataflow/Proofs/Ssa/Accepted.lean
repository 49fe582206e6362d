import Dataflow.Proofs.Liveness.Operators
import Dataflow.Proofs.Reaching.Exact
import Dataflow.Proofs.Ssa.Function

/-! What a draft turns into is what the solver asks for. A draft is checked piece by piece, in
whatever order and with whatever refusals it came about; the solver looks at the finished graph as
a whole. Whatever the first lets pass has no defect for the second, forwards or backwards, and the
analyses start on it. -/
namespace Dataflow.Ssa

/-- No question about a block or an instruction of the function is a fault. The function answers as
its graph does, with blocks of its own. -/
structure Function.SelfContained (function : Function) : Prop where
  predecessors : ∀ block ∈ function.graph.blocks,
    function.predecessorsOf block = .ok (function.graph.predecessors block) ∧
      ∀ source ∈ function.graph.predecessors block, source ∈ function.graph.blocks
  successors : ∀ block ∈ function.graph.blocks,
    function.successorsOf block = .ok (function.graph.successors block) ∧
      ∀ target ∈ function.graph.successors block, target ∈ function.graph.blocks
  blockOf : ∀ block ∈ function.graph.blocks, ∀ inst ∈ function.graph.instructions block,
    function.blockOf inst = .ok block

theorem Function.Finished.selfContained {function : Function} {edges : List (Block × Block)}
    (finished : function.Finished edges) : function.SelfContained where
  predecessors := fun block known => ⟨(finished.rows block known).1, finished.closedBackward block known⟩
  successors := fun block known => ⟨(finished.rows block known).2, finished.closedForward block known⟩
  blockOf := fun _ _ _ member => finished.blockOf_eq_ok member

def Startable (graph : FlowGraph Block Inst Value) (config : Config) : Prop :=
  (∃ session, (liveVariables.on graph config).Starts session) ∧
    ∃ session, (reachingDefinitions.on graph config).Starts session

theorem startable {graph : FlowGraph Block Inst Value} (sound : graph.defect? = none)
    (distinct : graph.program.Nodup) (config : Config) : Startable graph config := by
  have soundLive : (liveVariables.on graph config).defect? = none := Problem.defect?_of_sound sound
  obtain ⟨session, started, _⟩ := Liveness.exists_session soundLive distinct
  exact ⟨⟨session, started⟩, Reaching.exists_session (Problem.defect?_of_sound sound) distinct⟩

/-- A function that can be built knows all handles that its graph names. It is accepted by the
solver, checked or not, and so is the function run backwards. -/
theorem built_functions_accepted (name : String) (steps : List Step) (function : Function)
    (built : ((Draft.empty name).steps steps).2.toFunction = .ok function) :
    function.SelfContained ∧ function.graph.defect? = none ∧ function.graph.program.Nodup ∧
      function.graph.reverse.defect? = none ∧
      ∀ config, Startable function.graph config ∧ Startable function.graph.reverse config := by
  obtain ⟨edges, finished⟩ := (Draft.Coherent.steps name steps).finished built
  have sound := finished.defect?_eq_none
  have distinct := finished.program_nodup
  have soundReverse := FlowGraph.defect?_reverse sound
  have distinctReverse : function.graph.reverse.program.Nodup := by
    rw [FlowGraph.program_reverse]
    exact List.nodup_reverse.mpr distinct
  refine ⟨finished.selfContained, sound, distinct, soundReverse, fun config => ?_⟩
  exact ⟨startable sound distinct config, startable soundReverse distinctReverse config⟩

/-- The countdown again, with its blocks filled in another order, its last edge selected late, and
refusals on the way: a block and a value that are not there, a phi after an ordinary instruction,
an instruction after the end of its block and an incoming pair for what is no phi. -/
def Step.stumbling : List Step :=
  [.argument, .constant 1, .block none, .block none, .block none,
    .append ⟨9⟩ (.ret none),
    .append ⟨1⟩ (.phi [(⟨0⟩, ⟨0⟩)]), .append ⟨1⟩ (.binary .sub ⟨2⟩ ⟨7⟩),
    .append ⟨1⟩ (.binary .sub ⟨2⟩ ⟨1⟩), .append ⟨1⟩ (.phi []),
    .append ⟨1⟩ (.branchIf ⟨3⟩ ⟨1⟩ ⟨2⟩), .append ⟨1⟩ (.ret none),
    .append ⟨2⟩ (.ret (some ⟨3⟩)),
    .addIncoming ⟨3⟩ ⟨1⟩ ⟨3⟩, .addIncoming ⟨2⟩ ⟨1⟩ ⟨3⟩,
    .append ⟨0⟩ (.branch ⟨1⟩)]

theorem stumbling_function_accepted :
    ∃ function, ((Draft.empty "countdown").steps Step.stumbling).2.toFunction = .ok function ∧
      function.SelfContained ∧ function.graph.defect? = none ∧ function.graph.program.Nodup ∧
      function.graph.reverse.defect? = none ∧
      ∀ config, Startable function.graph config ∧ Startable function.graph.reverse config :=
  ⟨_, rfl, built_functions_accepted "countdown" Step.stumbling _ rfl⟩

end Dataflow.Ssa
