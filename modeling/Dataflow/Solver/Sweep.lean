import Dataflow.Solver.Session

/-! Sweeps. A sweep visits all blocks in the direction's order and updates the facts in
place, so a block sees what was stored earlier in the same sweep. A sweep after convergence
only verifies: it counts nothing, and a fact that still moves is a fault. -/
namespace Dataflow

/-- What one sweep carries along: the state of the run and what the sweep has done. -/
structure Pass (σ β ι : Type) where
  store : Store ι
  entries : Assignment β EntryFact
  memory : σ
  meets : Nat
  transfers : Nat
  changes : Nat

def Session.after {σ β ι ε : Type} (session : Session σ β ι ε) (pass : Pass σ β ι) :
    Session σ β ι ε :=
  { session with store := pass.store, entries := pass.entries, memory := pass.memory }

namespace Problem

variable {σ β ι ν ε : Type} [DecidableEq β] [DecidableEq ι] [DecidableEq ε]

/-- The facts that flow into a block: those of the neighbours that are left through an
instruction with a fact. -/
def arriving (problem : Problem σ β ι ν ε) (store : Store ι) (block : β) : List (Neighbor β) :=
  (problem.client.direction.neighbors problem.graph block).filterMap fun neighbor =>
    (problem.client.direction.exit? problem.graph neighbor).bind fun inst =>
      (store.get? inst).map fun fact => ⟨neighbor, fact⟩

/-- The fact a block is entered with. The boundary stands in where nothing flows in. -/
def enter (problem : Problem σ β ι ν ε) (session : Session σ β ι ε) (pass : Pass σ β ι)
    (block : β) : Traced β ι (EntryFact × Pass σ β ι) :=
  let neighbors := problem.arriving pass.store block
  if problem.client.direction.usesBoundary problem.graph block || neighbors.isEmpty then
    pure (.boundary session.boundary, pass)
  else do
    let cx : Context β ι ν ε := ⟨problem.graph, session.domain, pass.store⟩
    let (fact, memory) ← (problem.client.meet cx block neighbors).traced pass.memory
    return (.meet fact, { pass with memory, meets := pass.meets + 1 })

/-- Passes a fact through one instruction and stores what comes out. -/
def advance (problem : Problem σ β ι ν ε) (session : Session σ β ι ε) (block : β)
    (state : Fact × Pass σ β ι) (inst : ι) : Traced β ι (Fact × Pass σ β ι) := do
  let (input, pass) := state
  let cx : Context β ι ν ε := ⟨problem.graph, session.domain, pass.store⟩
  let (output, memory) ← (problem.client.transfer cx inst input).traced pass.memory
  let (changed, store) ← .ofExcept (pass.store.update inst output)
  if changed then .emit (.factChanged inst block output)
  return (output, {
    pass with
    store, memory
    transfers := pass.transfers + 1
    changes := if changed then pass.changes + 1 else pass.changes })

/-- Enters a block, passes through it, and records how it was entered. -/
def visit (problem : Problem σ β ι ν ε) (session : Session σ β ι ε) (pass : Pass σ β ι)
    (item : β × List ι) : Traced β ι (Pass σ β ι) := do
  let (block, instructions) := item
  let (entry, pass) ← problem.enter session pass block
  .check (entry.fact.width = session.domain.size)
    (.meetWidth entry.fact.width session.domain.size)
  let (_, pass) ← instructions.foldlM (problem.advance session block) (entry.fact, pass)
  return { pass with entries := pass.entries.set block entry }

/-- One visit to every block. -/
def traverse (problem : Problem σ β ι ν ε) (session : Session σ β ι ε) :
    Traced β ι (Pass σ β ι) :=
  problem.plan.foldlM (problem.visit session)
    ⟨session.store, session.entries, session.memory, 0, 0, 0⟩

/-- Sweeps once and says whether a fact changed. -/
def sweep (problem : Problem σ β ι ν ε) (session : Session σ β ι ε) :
    Traced β ι (Bool × Session σ β ι ε) := do
  let pass ← problem.traverse session
  let changed := decide (0 < pass.changes)
  if session.stage = .converged then
    .check (!changed) (.unstable problem.client.name)
    return (false, session.after pass)
  else
    let stats := { session.stats with
      sweeps := session.stats.sweeps + 1
      meets := session.stats.meets + pass.meets
      transfers := session.stats.transfers + pass.transfers
      changedInstructions := session.stats.changedInstructions + pass.changes }
    .emit (.swept problem.client.name stats.sweeps changed)
    return (changed, {
      session.after pass with
      stats
      stage := if changed then .iterating else .converged })

end Problem

end Dataflow
