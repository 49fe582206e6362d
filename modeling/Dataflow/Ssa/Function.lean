import Dataflow.Fault
import Dataflow.Ssa.Draft

/-! Finished functions. A draft becomes a function when every block ends with a terminator
and every phi selects from exactly the predecessors of its block; that fixes the edges. -/
namespace Dataflow.Ssa

namespace DraftError

/-- The place where a flaw was found is left open. -/
def message : DraftError → String
  | unknownBlock block => s!"Unknown block - {block.text}"
  | unknownValue value => s!"Unknown value - {value.text}"
  | malformed flaw => s!"Malformed - <loc>: {flaw.description}"

end DraftError

/-- A draft with its control-flow edges, listed per block on both sides. -/
structure Function extends Draft where
  predecessors : Array (List Block)
  successors : Array (List Block)
  deriving DecidableEq, Repr

namespace Draft

def handles (draft : Draft) : List Block := (List.range draft.blocks.size).map Block.mk

def instHandles (draft : Draft) : List Inst := (List.range draft.instructions.size).map Inst.mk

/-- The targets of the terminator that a block ends with. -/
def targets (draft : Draft) (block : Block) : Except Flaw (List Block) :=
  match (draft.block? block).bind fun info => info.instructions.getLast? with
  | none => .error (.emptyBlock block)
  | some last =>
    match draft.opcode? last with
    | none => .error (.unterminated block)
    | some opcode =>
      if opcode.isTerminator then .ok opcode.successors else .error (.unterminated block)

/-- Every edge, by the block it leaves and then by the order of its targets. -/
def edges (draft : Draft) : Except Flaw (List (Block × Block)) := do
  let perBlock ← draft.handles.mapM fun block => do
    return (← draft.targets block).map fun target => (block, target)
  return perBlock.flatten

/-- A phi lists each predecessor of its block once, and no other block. -/
def checkPhi (edges : List (Block × Block)) (inst : Inst) (instruction : Instruction) :
    Except Flaw Unit :=
  let sources := instruction.opcode.incoming.map Prod.fst
  let predecessors := (edges.filter fun edge => edge.2 = instruction.block).map Prod.fst
  if ¬ sources.Nodup then .error (.repeatedIncoming inst instruction.block)
  else if (∀ source ∈ sources, source ∈ predecessors) ∧ ∀ source ∈ predecessors, source ∈ sources then
    .ok ()
  else .error (.incomingMismatch inst instruction.block sources predecessors)

def checkPhis (draft : Draft) (edges : List (Block × Block)) : Except Flaw Unit :=
  draft.instHandles.forM fun inst =>
    match draft.instruction? inst with
    | some instruction => if instruction.opcode.isPhi then checkPhi edges inst instruction else .ok ()
    | none => .ok ()

/-- The function that a draft describes, if it has no flaw. -/
def toFunction (draft : Draft) : Except Flaw Function := do
  let edges ← draft.edges
  draft.checkPhis edges
  return {
    draft with
    predecessors := (draft.handles.map fun block =>
      (edges.filter fun edge => edge.2 = block).map Prod.fst).toArray
    successors := (draft.handles.map fun block =>
      (edges.filter fun edge => edge.1 = block).map Prod.snd).toArray }

end Draft

namespace Function

def entry? (function : Function) : Option Block := function.handles.head?

def resultOf? (function : Function) (inst : Inst) : Option Value :=
  (function.instruction? inst).bind Instruction.result

def isTrackable (function : Function) (value : Value) : Bool :=
  (function.value? value).any fun info => info.origin.isTrackable

private def row (table : Array (List Block)) (block : Block) : Except Fault (List Block) :=
  match table[block.index]? with
  | some blocks => .ok blocks
  | none => .error (.outsideTable table.size block.index)

private theorem row_eq_ok {table : Array (List Block)} {block : Block} {blocks : List Block} :
    row table block = .ok blocks ↔ table[block.index]? = some blocks := by
  unfold row
  cases table[block.index]? <;> simp

/-- Asking for the edges of a block that the function does not have is a fault. -/
def predecessorsOf (function : Function) (block : Block) : Except Fault (List Block) :=
  row function.predecessors block

def successorsOf (function : Function) (block : Block) : Except Fault (List Block) :=
  row function.successors block

theorem predecessorsOf_eq_ok {function : Function} {block : Block} {blocks : List Block} :
    function.predecessorsOf block = .ok blocks ↔
      function.predecessors[block.index]? = some blocks := row_eq_ok

theorem successorsOf_eq_ok {function : Function} {block : Block} {blocks : List Block} :
    function.successorsOf block = .ok blocks ↔ function.successors[block.index]? = some blocks :=
  row_eq_ok

def blockOf (function : Function) (inst : Inst) : Except Fault Block :=
  match function.instruction? inst with
  | some instruction => .ok instruction.block
  | none => .error (.foreignInstruction inst.text function.name)

end Function

end Dataflow.Ssa
