import Dataflow.FlowGraph.Basic

/-! The two directions of an analysis. A direction fixes the order of blocks and
instructions, the neighbours whose facts flow into a block, and where the boundary is. -/
namespace Dataflow

inductive Direction where
  | forward
  | backward
  deriving DecidableEq, Repr

namespace Direction

variable {β ι ν : Type}

def text : Direction → String
  | forward => "Forward"
  | backward => "Backward"

def blockOrder : Direction → FlowGraph β ι ν → List β
  | forward, graph => graph.blocks
  | backward, graph => graph.blocks.reverse

def instructionOrder : Direction → FlowGraph β ι ν → β → List ι
  | forward, graph, block => graph.instructions block
  | backward, graph, block => (graph.instructions block).reverse

/-- The blocks that are left just before this one is entered. -/
def neighbors : Direction → FlowGraph β ι ν → β → List β
  | forward, graph, block => graph.predecessors block
  | backward, graph, block => graph.successors block

/-- The entry block starts from the boundary even when edges lead back to it. -/
def usesBoundary [DecidableEq β] : Direction → FlowGraph β ι ν → β → Bool
  | forward, graph, block => decide (graph.entry = some block) || (graph.predecessors block).isEmpty
  | backward, graph, block => (graph.successors block).isEmpty

/-- The instruction a block is left through: the last one in the direction's order. -/
def exit? (direction : Direction) (graph : FlowGraph β ι ν) (block : β) : Option ι :=
  (direction.instructionOrder graph block).getLast?

end Direction

end Dataflow
