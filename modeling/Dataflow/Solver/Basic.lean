import Dataflow.Solver.Results

/-! The solver: a problem together with its run, once there is one. It can be driven step by
step or to the end. The loop of sweeps has no bound of its own, so the driver of the loop
says how many sweeps it is patient for; running out of patience is not an answer. -/
namespace Dataflow

inductive SolveError (β ι : Type) where
  | malformed (defect : Defect β ι)
  | noFixpoint (sweeps : Nat)
  deriving DecidableEq, Repr

/-- The place where a defect was found is left open. -/
def SolveError.message {β ι : Type} [DecidableEq β] [Handle β] [Shown ι] :
    SolveError β ι → String
  | malformed defect => "Malformed - <loc>: " ++ defect.description
  | noFixpoint sweeps => s!"No fixpoint reached after {sweeps} sweeps"

structure Solver (σ β ι ν ε : Type) where
  problem : Problem σ β ι ν ε
  session? : Option (Session σ β ι ε)

namespace Problem

variable {σ β ι ν ε : Type} [DecidableEq β] [DecidableEq ι] [DecidableEq ε]

def defect? (problem : Problem σ β ι ν ε) : Option (Defect β ι) :=
  if problem.config.validateGraph then problem.graph.defect? else none

def atLimit (problem : Problem σ β ι ν ε) (sweeps : Nat) : Bool :=
  problem.config.maxSweeps.any (· ≤ sweeps)

/-- Sweeps until the facts are stable or the limit is reached, with patience for so many
sweeps. The limit is looked at before each sweep. -/
def iterate (problem : Problem σ β ι ν ε) : (patience : Nat) → Session σ β ι ε →
    Traced β ι (Option (Except (SolveError β ι) (Session σ β ι ε)))
  | patience, session =>
    if session.stage = .converged then pure (some (.ok session))
    else if problem.atLimit session.stats.sweeps then do
      .emit (.gaveUp problem.client.name session.stats.sweeps)
      return some (.error (.noFixpoint session.stats.sweeps))
    else
      match patience with
      | 0 => pure none
      | patience + 1 => do
        let (_, session) ← problem.sweep session
        problem.iterate patience session

/-- The results of a converged run, after a verifying sweep if one is asked for. -/
def conclude (problem : Problem σ β ι ν ε) (session : Session σ β ι ε) :
    Traced β ι (Results β ι ε) := do
  .check (session.stage = .converged) (.notConverged (some session.stage))
  let session ←
    if problem.config.verifyFixpoint then Prod.snd <$> problem.sweep session else pure session
  .emit (.converged problem.client.name problem.client.direction session.stats)
  return {
    domain := session.domain
    names := (session.domain.elements.map (problem.client.elementName problem.graph)).toArray
    store := session.store
    entries := session.entries
    direction := problem.client.direction
    stats := session.stats }

end Problem

namespace Solver

variable {σ β ι ν ε : Type} [DecidableEq β] [DecidableEq ι] [DecidableEq ε]

def ofProblem (problem : Problem σ β ι ν ε) : Solver σ β ι ν ε := ⟨problem, none⟩

def stage? (solver : Solver σ β ι ν ε) : Option Stage := solver.session?.map Session.stage

/-- Before the start nothing has been counted. -/
def stats (solver : Solver σ β ι ν ε) : Stats :=
  (solver.session?.map Session.stats).getD ⟨0, 0, 0, 0, 0, 0⟩

def domain? (solver : Solver σ β ι ν ε) : Option (Domain ε) := solver.session?.map Session.domain

def factOf? (solver : Solver σ β ι ν ε) (inst : ι) : Option Fact :=
  solver.session?.bind fun session => session.store.get? inst

/-- The run under way, or a new one if the graph has no defect. -/
def running (solver : Solver σ β ι ν ε) :
    Traced β ι (Except (SolveError β ι) (Session σ β ι ε)) :=
  match solver.session? with
  | some session => pure (.ok session)
  | none =>
    match solver.problem.defect? with
    | some defect => pure (.error (.malformed defect))
    | none => .ok <$> solver.problem.begin

/-- A graph with a defect is refused, and the solver stays as it was. -/
def start (solver : Solver σ β ι ν ε) :
    Traced β ι (Except (SolveError β ι) Unit × Solver σ β ι ν ε) :=
  match solver.session? with
  | some session => .fail (.startedTwice session.stage)
  | none => do
    match ← solver.running with
    | .error error => return (.error error, solver)
    | .ok session => return (.ok (), { solver with session? := some session })

def sweep (solver : Solver σ β ι ν ε) : Traced β ι (Bool × Solver σ β ι ν ε) :=
  match solver.session? with
  | none => .fail .sweptBeforeStart
  | some session => do
    let (changed, session) ← solver.problem.sweep session
    return (changed, { solver with session? := some session })

def finish (solver : Solver σ β ι ν ε) : Traced β ι (Results β ι ε) :=
  match solver.session? with
  | none => .fail (.notConverged none)
  | some session => solver.problem.conclude session

/-- Starts the run if need be, sweeps until the facts are stable, and gives the results. -/
def trySolve (solver : Solver σ β ι ν ε) (patience : Nat) :
    Traced β ι (Option (Except (SolveError β ι) (Results β ι ε))) := do
  match ← solver.running with
  | .error error => return some (.error error)
  | .ok session =>
    match ← solver.problem.iterate patience session with
    | none => return none
    | some (.error error) => return some (.error error)
    | some (.ok session) => return some (.ok (← solver.problem.conclude session))

/-- As `trySolve`, for callers to whom an error is a fault. -/
def solve [Handle β] [Shown ι] (solver : Solver σ β ι ν ε) (patience : Nat) :
    Traced β ι (Option (Results β ι ε)) := do
  match ← solver.trySolve patience with
  | none => return none
  | some (.error error) => .fail (.unsolved error.message)
  | some (.ok results) => return some results

end Solver

/-- Runs one client on many graphs, each time from the client's first state. The runs are
independent; a fault in one is a fault of the whole. -/
def analyzeAll {σ β ι ν ε : Type} [DecidableEq β] [DecidableEq ι] [DecidableEq ε]
    (client : Client σ β ι ν ε) (memory : σ) (config : Config) (patience : Nat)
    (graphs : List (FlowGraph β ι ν)) :
    Except Fault (List (Option (Except (SolveError β ι) (Results β ι ε)))) :=
  graphs.mapM fun graph =>
    ((Solver.ofProblem ⟨client, memory, graph, config⟩).trySolve patience).outcome

end Dataflow
