import Dataflow.Client

/-! Clients written out as data. A script names what to collect, the facts to start from,
how paths meet, and a list of actions that turn the fact before an instruction into the fact
after it. The state of such a client is one counter of delayed fills. -/
namespace Dataflow

namespace Script

inductive Source where
  | definitions
  | operands
  | trackableOperands
  deriving DecidableEq, Repr

inductive Start where
  | empty
  | full
  | arguments
  | indices (positions : List Nat)
  /-- An empty fact of the given width, whatever the size of the domain. -/
  | blank (width : Nat)
  deriving DecidableEq, Repr

inductive Meet where
  | union
  | inter
  | first
  | last
  | blank (width : Nat)
  deriving DecidableEq, Repr

inductive Action where
  | insertDefinition
  | eraseDefinition
  | insertOperands
  | eraseOperands
  | clear
  | fill
  /-- Takes the stored fact of the instruction and turns position zero round. -/
  | flipFirst
  /-- Counts the calls, and fills from the call after `calls` on. -/
  | fillAfter (calls : Nat)
  | blank (width : Nat)
  deriving DecidableEq, Repr

end Script

structure Script where
  direction : Direction
  collect : List Script.Source
  initial : Script.Start
  boundary : Script.Start
  meet : Script.Meet
  transfer : List Script.Action
  deriving DecidableEq, Repr

namespace Script

variable {β ι ν : Type} [DecidableEq ι] [DecidableEq ν]

def Source.elements (graph : FlowGraph β ι ν) (inst : ι) : Source → List ν
  | definitions => (graph.definition inst).toList
  | operands => graph.operands inst
  | trackableOperands => graph.trackableOperands inst

def Start.fact (cx : Context β ι ν ν) : Start → Except Fault Fact
  | empty => .ok cx.domain.emptyFact
  | full => .ok cx.domain.fullFact
  | arguments => .ok (cx.domain.factOf cx.graph.arguments)
  | indices positions => Fact.ofIndices cx.domain.size positions
  | blank width => .ok (Fact.empty width)

def pick (fact? : Option Fact) : Except Fault Fact :=
  match fact? with
  | some fact => .ok fact
  | none => .error (.outsideTable 0 0)

def Meet.fact (cx : Context β ι ν ν) (facts : List Fact) : Meet → Except Fault Fact
  | union => Fact.unionOf cx.domain.size facts
  | inter => Fact.interOf cx.domain.size facts
  | first => pick facts.head?
  | last => pick facts.getLast?
  | blank width => .ok (Fact.empty width)

def flip (fact : Fact) : Except Fault Fact := do
  let (inserted, changed) ← fact.insert 0
  if changed then pure inserted else (inserted.erase 0).map Prod.fst

def Action.apply (cx : Context β ι ν ν) (inst : ι) (fact : Fact) : Action → Call Nat Fact
  | insertDefinition => .ofExcept (fact.insertAll (cx.definitionIndex inst))
  | eraseDefinition => .ofExcept (fact.eraseAll (cx.definitionIndex inst))
  | insertOperands => .ofExcept (fact.insertAll (cx.operandIndices inst))
  | eraseOperands => .ofExcept (fact.eraseAll (cx.operandIndices inst))
  | clear => pure fact.clear
  | fill => pure fact.fill
  | flipFirst => .ofExcept (flip ((cx.store.get? inst).getD cx.domain.emptyFact))
  | fillAfter calls => do
    modify (· + 1)
    if calls < (← get) then pure fact.fill else pure fact
  | blank width => pure (Fact.empty width)

def client [Shown ν] (script : Script) : Client Nat β ι ν ν where
  name := "dataflow"
  direction := script.direction
  collect := fun graph inst => pure (script.collect.flatMap (Source.elements graph inst))
  initial := fun cx => .ofExcept (script.initial.fact cx)
  boundary := fun cx => .ofExcept (script.boundary.fact cx)
  meet := fun cx _ neighbors => .ofExcept (script.meet.fact cx (neighbors.map Neighbor.fact))
  transfer := fun cx inst input =>
    script.transfer.foldlM (fun fact action => action.apply cx inst fact) input
  elementName := fun _ value => Shown.text value

end Script

end Dataflow
