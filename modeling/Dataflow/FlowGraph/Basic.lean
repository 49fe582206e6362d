import Dataflow.Handle

/-! Control-flow graphs as analyses see them: blocks of instructions with edges on both
sides, and for each instruction the values it reads and the value it defines. A merge is an
instruction that selects one value per incoming edge. Nothing is assumed of the answers; that
they fit together is a separate check. -/
namespace Dataflow

/-- `β`, `ι` and `ν` are the handles of blocks, instructions and values. -/
structure FlowGraph (β ι ν : Type) where
  entry : Option β
  blocks : List β
  instructions : β → List ι
  predecessors : β → List β
  successors : β → List β
  blockOf : ι → β
  operands : ι → List ν
  definition : ι → Option ν
  arguments : List ν
  isTrackable : ν → Bool
  isMerge : ι → Bool
  /-- What a merge selects, by the block the edge comes from. -/
  incoming : ι → List (β × ν)
  valueName : ν → String
  render : ι → String

namespace FlowGraph

variable {β ι ν : Type}

/-- All instructions in program order. -/
def program (graph : FlowGraph β ι ν) : List ι := graph.blocks.flatMap graph.instructions

def instructionCount (graph : FlowGraph β ι ν) : Nat :=
  graph.blocks.foldr (fun block total => (graph.instructions block).length + total) 0

def trackableOperands (graph : FlowGraph β ι ν) (inst : ι) : List ν :=
  (graph.operands inst).filter graph.isTrackable

/-- The graph run backwards: every order and every edge is turned round, the last block is
the entry, and merges are ordinary instructions, since edges into them now leave. -/
def reverse (graph : FlowGraph β ι ν) : FlowGraph β ι ν :=
  { graph with
    entry := graph.blocks.getLast?
    blocks := graph.blocks.reverse
    instructions := fun block => (graph.instructions block).reverse
    predecessors := graph.successors
    successors := graph.predecessors
    isMerge := fun _ => false
    incoming := fun _ => [] }

end FlowGraph

end Dataflow
