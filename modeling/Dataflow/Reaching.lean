import Dataflow.Client

/-! Reaching definitions: which values may have been defined on some path to a point.
Facts flow forward from the arguments, join by union, and grow by each definition; a value
has one definition, so nothing is ever taken away. -/
namespace Dataflow

variable {β ι ν : Type} [DecidableEq ι] [DecidableEq ν]

def reachingDefinitions : Analysis β ι ν ν where
  name := "reaching-definitions"
  direction := .forward
  collect := fun graph inst => graph.trackableOperands inst ++ (graph.definition inst).toList
  initial := fun cx => .ok cx.domain.emptyFact
  boundary := fun cx => .ok (cx.domain.factOf cx.graph.arguments)
  meet := fun cx _ neighbors => Fact.unionOf cx.domain.size (neighbors.map Neighbor.fact)
  transfer := fun cx inst input => input.insertAll (cx.definitionIndex inst)
  elementName := fun graph value => graph.valueName value

end Dataflow
