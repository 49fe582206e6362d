import Dataflow.Client
import Dataflow.FlowGraph.Defect
import Dataflow.Solver.Traced

/-! Data-flow problems and the start of a run. Starting a run numbers the elements in
program order, asks the client for the facts to begin with, and gives every instruction its
first fact. -/
namespace Dataflow

structure Config where
  maxSweeps : Option Nat
  verifyFixpoint : Bool
  validateGraph : Bool
  deriving DecidableEq, Repr

def Config.standard : Config := ⟨none, true, true⟩

/-- A client with the state it begins with, and what it is to be run on. -/
structure Problem (σ β ι ν ε : Type) where
  client : Client σ β ι ν ε
  memory : σ
  graph : FlowGraph β ι ν
  config : Config

/-- The fact a block is entered with, and where it comes from. -/
inductive EntryFact where
  | boundary (fact : Fact)
  | meet (fact : Fact)
  deriving DecidableEq

def EntryFact.fact : EntryFact → Fact
  | boundary fact => fact
  | meet fact => fact

/-- A run that has been started. -/
structure Session (σ β ι ε : Type) where
  domain : Domain ε
  boundary : Fact
  store : Store ι
  entries : Assignment β EntryFact
  memory : σ
  stats : Stats
  stage : Stage

/-- A call of an operator within a run: it reports nothing and hands its state on. -/
def Call.traced {σ β ι α : Type} (call : Call σ α) (memory : σ) : Traced β ι (α × σ) :=
  let (outcome, memory) := call.run memory
  .ofExcept (outcome.map fun value => (value, memory))

namespace Problem

variable {σ β ι ν ε : Type} [DecidableEq β] [DecidableEq ι] [DecidableEq ε]

/-- Elements are collected in program order, whatever the direction. -/
def collect (problem : Problem σ β ι ν ε) : Call σ (Domain ε) :=
  problem.graph.program.foldlM
    (fun domain inst => do return domain.insertAll (← problem.client.collect problem.graph inst))
    Domain.empty

/-- Blocks with their instructions, in the order of a sweep. -/
def plan (problem : Problem σ β ι ν ε) : List (β × List ι) :=
  (problem.client.direction.blockOrder problem.graph).map fun block =>
    (block, problem.client.direction.instructionOrder problem.graph block)

/-- A run of a graph that was found to be in order, or that is taken on trust. -/
def begin (problem : Problem σ β ι ν ε) : Traced β ι (Session σ β ι ε) := do
  let (domain, memory) ← problem.collect.traced problem.memory
  let cx : Context β ι ν ε := ⟨problem.graph, domain, Assignment.empty⟩
  let (initial, memory) ← (problem.client.initial cx).traced memory
  let (boundary, memory) ← (problem.client.boundary cx).traced memory
  .check (initial.width = domain.size) (.initialWidth initial.width domain.size)
  .check (boundary.width = domain.size) (.boundaryWidth boundary.width domain.size)
  let instructions := problem.plan.flatMap Prod.snd
  let store ← .ofExcept (Store.seedAll Assignment.empty initial instructions)
  .emit (.started problem.client.name problem.client.direction problem.plan.length
    instructions.length domain.size)
  return {
    domain, boundary, store, memory
    entries := Assignment.empty
    stats := ⟨0, 0, 0, 0, domain.size, instructions.length⟩
    stage := .initialized }

end Problem

end Dataflow
