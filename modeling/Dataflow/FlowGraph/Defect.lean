import Dataflow.FlowGraph.Basic

/-! What can be wrong with a graph. Blocks are examined in order; within a block first its
edges, then its instructions, and the first defect is reported. -/
namespace Dataflow

inductive Defect (β ι : Type) where
  | emptyBlock (block : β)
  /-- An edge that its target does not list. -/
  | missingPredecessor (source target : β)
  /-- An edge that its source does not list. -/
  | missingSuccessor (source target : β)
  | foreignInstruction (inst : ι) (block owner : β)
  | lateMerge (inst : ι) (block : β) (ordinary : ι)
  | mergeMismatch (inst : ι) (block : β) (incoming predecessors : List β)
  deriving DecidableEq, Repr

namespace Defect

variable {β ι : Type}

def description [DecidableEq β] [Handle β] [Shown ι] : Defect β ι → String
  | emptyBlock block => "Block " ++ Shown.text block ++ " has no instructions"
  | missingPredecessor source target =>
    "Edge " ++ Shown.text source ++ " -> " ++ Shown.text target ++
      " is missing from the predecessors of " ++ Shown.text target
  | missingSuccessor source target =>
    "Edge " ++ Shown.text source ++ " -> " ++ Shown.text target ++
      " is missing from the successors of " ++ Shown.text source
  | foreignInstruction inst block owner =>
    "Instruction " ++ Shown.text inst ++ " is listed in " ++ Shown.text block ++
      " but belongs to " ++ Shown.text owner
  | lateMerge inst block ordinary =>
    "Merge " ++ Shown.text inst ++ " in " ++ Shown.text block ++
      " follows the non-merge instruction " ++ Shown.text ordinary
  | mergeMismatch inst block incoming predecessors =>
    "Merge " ++ Shown.text inst ++ " in " ++ Shown.text block ++ " selects from " ++
      Handle.setText incoming ++ " but the block has predecessors " ++ Handle.setText predecessors

end Defect

namespace FlowGraph

variable {β ι ν : Type} [DecidableEq β]

def edgeDefect? (graph : FlowGraph β ι ν) (block : β) : Option (Defect β ι) :=
  ((graph.successors block).findSome? fun target =>
    if block ∈ graph.predecessors target then none
    else some (.missingPredecessor block target)) <|>
  ((graph.predecessors block).findSome? fun source =>
    if block ∈ graph.successors source then none
    else some (.missingSuccessor source block))

/-- The blocks a merge selects from are the predecessors, as sets. -/
def Agrees (graph : FlowGraph β ι ν) (block : β) (merge : ι) : Prop :=
  (∀ pair ∈ graph.incoming merge, pair.1 ∈ graph.predecessors block) ∧
    ∀ source ∈ graph.predecessors block, source ∈ (graph.incoming merge).map Prod.fst

instance (graph : FlowGraph β ι ν) (block : β) (merge : ι) : Decidable (graph.Agrees block merge) :=
  inferInstanceAs (Decidable (_ ∧ _))

/-- Examines the instructions of a block; `ordinary` is the first one that is no merge, once
there is one. -/
def instructionDefect? (graph : FlowGraph β ι ν) (block : β) :
    Option ι → List ι → Option (Defect β ι)
  | _, [] => none
  | ordinary, inst :: rest =>
    if graph.blockOf inst ≠ block then
      some (.foreignInstruction inst block (graph.blockOf inst))
    else if graph.isMerge inst then
      match ordinary with
      | some first => some (.lateMerge inst block first)
      | none =>
        if graph.Agrees block inst then instructionDefect? graph block none rest
        else some (.mergeMismatch inst block ((graph.incoming inst).map Prod.fst)
          (graph.predecessors block))
    else instructionDefect? graph block (ordinary <|> some inst) rest

def blockDefect? (graph : FlowGraph β ι ν) (block : β) : Option (Defect β ι) :=
  if (graph.instructions block).isEmpty then some (.emptyBlock block)
  else graph.edgeDefect? block <|> graph.instructionDefect? block none (graph.instructions block)

def defect? (graph : FlowGraph β ι ν) : Option (Defect β ι) :=
  graph.blocks.findSome? graph.blockDefect?

end FlowGraph

end Dataflow
