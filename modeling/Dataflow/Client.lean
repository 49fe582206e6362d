import Dataflow.Direction
import Dataflow.Domain
import Dataflow.Store

/-! What a data-flow problem supplies. A client reports the elements of its domain and gives
the facts at the start, at the boundary, where paths meet and after an instruction. An
operator may keep state between calls, which a fault does not undo. An analysis is a client
whose operators depend on their arguments alone. -/
namespace Dataflow

/-- What operators may look at: the graph, the numbering and the facts so far. -/
structure Context (β ι ν ε : Type) where
  graph : FlowGraph β ι ν
  domain : Domain ε
  store : Store ι

/-- The fact with which a neighbouring block is left. -/
structure Neighbor (β : Type) where
  block : β
  fact : Fact

/-- A call of an operator with state `σ`. -/
abbrev Call (σ : Type) := ExceptT Fault (StateM σ)

structure Client (σ β ι ν ε : Type) where
  name : String
  direction : Direction
  collect : FlowGraph β ι ν → ι → Call σ (List ε)
  initial : Context β ι ν ε → Call σ Fact
  boundary : Context β ι ν ε → Call σ Fact
  meet : Context β ι ν ε → β → List (Neighbor β) → Call σ Fact
  transfer : Context β ι ν ε → ι → Fact → Call σ Fact
  elementName : FlowGraph β ι ν → ε → String

structure Analysis (β ι ν ε : Type) where
  name : String
  direction : Direction
  collect : FlowGraph β ι ν → ι → List ε
  initial : Context β ι ν ε → Except Fault Fact
  boundary : Context β ι ν ε → Except Fault Fact
  meet : Context β ι ν ε → β → List (Neighbor β) → Except Fault Fact
  transfer : Context β ι ν ε → ι → Fact → Except Fault Fact
  elementName : FlowGraph β ι ν → ε → String

namespace Call

def run {σ α : Type} (call : Call σ α) (memory : σ) : Except Fault α × σ := ExceptT.run call memory

def ofExcept {σ α : Type} (outcome : Except Fault α) : Call σ α := ExceptT.mk (pure outcome)

@[simp] theorem run_ofExcept {σ α : Type} (outcome : Except Fault α) (memory : σ) :
    (ofExcept outcome).run memory = (outcome, memory) := rfl

end Call

namespace Analysis

variable {β ι ν ε : Type}

def client (analysis : Analysis β ι ν ε) : Client Unit β ι ν ε where
  name := analysis.name
  direction := analysis.direction
  collect := fun graph inst => .ofExcept (.ok (analysis.collect graph inst))
  initial := fun cx => .ofExcept (analysis.initial cx)
  boundary := fun cx => .ofExcept (analysis.boundary cx)
  meet := fun cx block neighbors => .ofExcept (analysis.meet cx block neighbors)
  transfer := fun cx inst input => .ofExcept (analysis.transfer cx inst input)
  elementName := analysis.elementName

end Analysis

namespace Context

variable {β ι ν ε : Type} [DecidableEq ι] [DecidableEq ε]

def indexOf? (cx : Context β ι ν ε) (e : ε) : Option Nat := cx.domain.indexOf? e

def factOf? (cx : Context β ι ν ε) (inst : ι) : Option Fact := cx.store.get? inst

/-- The number of the defined value, as a list of at most one. -/
def definitionIndex (cx : Context β ι ν ν) [DecidableEq ν] (inst : ι) : List Nat :=
  ((cx.graph.definition inst).bind cx.domain.indexOf?).toList

def operandIndices (cx : Context β ι ν ν) [DecidableEq ν] (inst : ι) : List Nat :=
  (cx.graph.operands inst).filterMap cx.domain.indexOf?

end Context

end Dataflow
