import Dataflow.Solver.Sweep

/-! Results of a converged run: the fact of every instruction and the fact each block was
entered with, by number and by element, and a listing of both beside the program. -/
namespace Dataflow

structure Results (β ι ε : Type) where
  domain : Domain ε
  /-- How the elements are shown, by number. -/
  names : Array String
  store : Store ι
  entries : Assignment β EntryFact
  direction : Direction
  stats : Stats

namespace Results

variable {β ι ν ε : Type} [DecidableEq β] [DecidableEq ι] [DecidableEq ε]

def factOf? (results : Results β ι ε) (inst : ι) : Option Fact := results.store.get? inst

/-- An instruction without a fact has no elements. -/
def elementsOf (results : Results β ι ε) (inst : ι) : Except Fault (List ε) :=
  match results.factOf? inst with
  | some fact => results.domain.decode fact
  | none => .ok []

def holds (results : Results β ι ε) (inst : ι) (e : ε) : Except Fault Bool :=
  match results.factOf? inst, results.domain.indexOf? e with
  | some fact, some i => fact.contains i
  | _, _ => .ok false

def entryFact? (results : Results β ι ε) (block : β) : Option EntryFact :=
  results.entries.get? block

def banner : String :=
  "***********************************\n" ++
  "* Instruction-BitVector Mapping    \n" ++
  "***********************************\n"

def nameOf (results : Results β ι ε) (i : Nat) : Except Fault String :=
  match results.names[i]? with
  | some name => .ok name
  | none => .error (.outsideTable results.names.size i)

/-- The names of a fact's members, each followed by a comma. -/
def factText (results : Results β ι ε) (fact : Fact) : Except Fault String := do
  let names ← fact.toList.mapM results.nameOf
  return "\x7b" ++ String.join (names.map (· ++ ",")) ++ "\x7d"

def entryText (results : Results β ι ε) : EntryFact → Except Fault String
  | .boundary fact => return "BC:\t" ++ (← results.factText fact) ++ "\n"
  | .meet fact => return "MeetOp:\t" ++ (← results.factText fact) ++ "\n"

/-- The instruction of a block that a sweep comes to first. -/
def firstVisited? (results : Results β ι ε) (graph : FlowGraph β ι ν) (block : β) : Option ι :=
  (results.direction.instructionOrder graph block).head?

def instructionText (results : Results β ι ε) (graph : FlowGraph β ι ν) (block : β) (inst : ι) :
    Except Fault String := do
  let entry ←
    if results.firstVisited? graph block = some inst then
      match results.entryFact? block with
      | some entry => results.entryText entry
      | none => pure ""
    else pure ""
  let fact ← match results.factOf? inst with
    | some fact => results.factText fact
    | none => pure "\x7b\x7d"
  return entry ++ "Instruction: " ++ graph.render inst ++ "\n\t" ++ fact ++ "\n"

def blockText (results : Results β ι ε) (graph : FlowGraph β ι ν) (block : β) :
    Except Fault String := do
  return String.join (← (graph.instructions block).mapM (results.instructionText graph block))

/-- Every instruction of the graph with its fact; the fact a block was entered with stands
before the instruction that is visited first. -/
def dump (results : Results β ι ε) (graph : FlowGraph β ι ν) : Except Fault String := do
  return banner ++ String.join (← graph.blocks.mapM (results.blockText graph))

end Results

end Dataflow
