import Dataflow.FlowGraph.Basic

/-! Graphs written out as tables. Blocks and instructions are positions in the tables and
values are any numbers; a position outside the tables names a block or an instruction with
nothing in it. -/
namespace Dataflow

namespace Table

/-- One instruction. It is a merge when it has incoming pairs, even if the list is empty. -/
structure Row where
  block : Nat
  defines : Option Nat
  uses : Option (List Nat)
  incoming : Option (List (Nat × Nat))
  deriving DecidableEq, Repr

/-- A row that lists no uses reads the values it selects from. -/
def Row.operands (row : Row) : List Nat :=
  row.uses.getD ((row.incoming.getD []).map Prod.snd)

end Table

structure Table where
  blocks : Array (List Nat)
  predecessors : Array (List Nat)
  successors : Array (List Nat)
  rows : Array Table.Row
  arguments : List Nat
  untracked : List Nat
  entry : Option Nat
  deriving DecidableEq, Repr

namespace Table

def firstBlock? (blocks : Array (List Nat)) : Option Nat := if blocks.isEmpty then none else some 0

def graph (table : Table) : FlowGraph Nat Nat Nat where
  entry := table.entry
  blocks := List.range table.blocks.size
  instructions := fun block => table.blocks[block]?.getD []
  predecessors := fun block => table.predecessors[block]?.getD []
  successors := fun block => table.successors[block]?.getD []
  blockOf := fun inst => (table.rows[inst]?.map Row.block).getD 0
  operands := fun inst => (table.rows[inst]?.map Row.operands).getD []
  definition := fun inst => table.rows[inst]?.bind Row.defines
  arguments := table.arguments
  isTrackable := fun value => !table.untracked.contains value
  isMerge := fun inst => (table.rows[inst]?.bind Row.incoming).isSome
  incoming := fun inst => (table.rows[inst]?.bind Row.incoming).getD []
  valueName := fun value => s!"t{value}"
  render := fun inst => s!"i{inst}"

end Table

end Dataflow
