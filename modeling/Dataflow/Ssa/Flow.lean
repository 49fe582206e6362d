import Dataflow.FlowGraph.Basic
import Dataflow.Ssa.Printer

/-! The control-flow graph of a function. -/
namespace Dataflow.Ssa.Function

/-- The function as analyses see it. A handle outside the tables names nothing. -/
def graph (function : Function) : FlowGraph Block Inst Value where
  entry := function.entry?
  blocks := function.handles
  instructions := fun block => ((function.block? block).map BlockInfo.instructions).getD []
  predecessors := fun block => function.predecessors[block.index]?.getD []
  successors := fun block => function.successors[block.index]?.getD []
  blockOf := fun inst => ((function.instruction? inst).map Instruction.block).getD ⟨0⟩
  operands := fun inst => ((function.opcode? inst).map Opcode.operands).getD []
  definition := function.resultOf?
  arguments := function.arguments
  isTrackable := function.isTrackable
  isMerge := function.isPhi
  incoming := fun inst => ((function.opcode? inst).map Opcode.incoming).getD []
  valueName := function.valueName
  render := function.instructionText

end Dataflow.Ssa.Function
