import Dataflow.Client

/-! Live variables: which values may still be read on some path from a point. Facts flow
backward and join by union. A merge reads its values on the edges they come over, not in its
block, so what a successor contributes depends on the edge. -/
namespace Dataflow

namespace Liveness

variable {β ι ν : Type} [DecidableEq β] [DecidableEq ι] [DecidableEq ν]

/-- The merges a block starts with. -/
def merges (graph : FlowGraph β ι ν) (block : β) : List ι :=
  (graph.instructions block).takeWhile graph.isMerge

def firstOrdinary? (graph : FlowGraph β ι ν) (block : β) : Option ι :=
  ((graph.instructions block).dropWhile graph.isMerge).head?

/-- The values that the merges of `target` select, with the block each one comes from. -/
def selected (graph : FlowGraph β ι ν) (target : β) : List (β × ν) :=
  (merges graph target).flatMap graph.incoming

def selectedHere (cx : Context β ι ν ν) (source target : β) : Fact :=
  cx.domain.factOf
    (((selected cx.graph target).filter fun pair => pair.1 = source).map Prod.snd)

/-- The values that the merges of `target` select on other edges and not on this one. -/
def selectedElsewhere (cx : Context β ι ν ν) (source target : β) : Fact :=
  (cx.domain.factOf
    (((selected cx.graph target).filter fun pair => pair.1 ≠ source).map Prod.snd)).without
      (selectedHere cx source target) (by simp [selectedHere])

variable [Shown β] [Shown ν]

/-- Once the first ordinary instruction has a fact, a value selected elsewhere can be live
into the block only if it is live past the merges as well. -/
def checkElsewhere (cx : Context β ι ν ν) (target : β) (entry past elsewhere : Fact) :
    Except Fault Unit :=
  elsewhere.toList.forM fun i => do
    if ← entry.contains i then
      unless ← past.contains i do
        throw (.liveOnlyElsewhere (((cx.domain.element? i).map Shown.text).getD "")
          (Shown.text target))

/-- What is live at the end of `source` because control may go on to `target`. -/
def edgeContribution (cx : Context β ι ν ν) (source target : β) (entry : Fact) :
    Except Fault Fact := do
  let here := selectedHere cx source target
  let elsewhere := selectedElsewhere cx source target
  let through ← match (firstOrdinary? cx.graph target).bind cx.store.get? with
    | some past => do
      checkElsewhere cx target entry past elsewhere
      pure entry
    | none => (entry.diff elsewhere).map Prod.fst
  (through.union here).map Prod.fst

def meet (cx : Context β ι ν ν) (block : β) (neighbors : List (Neighbor β)) : Except Fault Fact :=
  neighbors.foldlM (fun live neighbor => do
    let contribution ← edgeContribution cx block neighbor.block neighbor.fact
    (live.union contribution).map Prod.fst) cx.domain.emptyFact

def transfer (cx : Context β ι ν ν) (inst : ι) (after : Fact) : Except Fault Fact := do
  let undefined ← after.eraseAll (cx.definitionIndex inst)
  if cx.graph.isMerge inst then pure undefined
  else undefined.insertAll (cx.operandIndices inst)

end Liveness

variable {β ι ν : Type} [DecidableEq β] [DecidableEq ι] [DecidableEq ν] [Shown β] [Shown ν]

def liveVariables : Analysis β ι ν ν where
  name := "liveness"
  direction := .backward
  collect := fun graph inst => graph.trackableOperands inst
  initial := fun cx => .ok cx.domain.emptyFact
  boundary := fun cx => .ok cx.domain.emptyFact
  meet := Liveness.meet
  transfer := Liveness.transfer
  elementName := fun graph value => graph.valueName value

end Dataflow
