import Dataflow.Direction
import Dataflow.Fact.Cursor

/-! What a run reports about itself, and how each report reads. -/
namespace Dataflow

inductive Level where
  | debug
  | trace
  deriving DecidableEq, Repr

def Level.text : Level → String
  | debug => "DEBUG"
  | trace => "TRACE"

structure Stats where
  sweeps : Nat
  meets : Nat
  transfers : Nat
  changedInstructions : Nat
  domainSize : Nat
  instructions : Nat
  deriving DecidableEq, Repr

inductive Event (β ι : Type) where
  | started (analysis : String) (direction : Direction) (blocks instructions elements : Nat)
  | factChanged (inst : ι) (block : β) (fact : Fact)
  | swept (analysis : String) (sweep : Nat) (changed : Bool)
  | gaveUp (analysis : String) (sweeps : Nat)
  | converged (analysis : String) (direction : Direction) (stats : Stats)

namespace Event

variable {β ι : Type}

def level : Event β ι → Level
  | started _ _ _ _ _ => .debug
  | factChanged _ _ _ => .trace
  | swept _ _ _ => .trace
  | gaveUp _ _ => .debug
  | converged _ _ _ => .debug

def text [Shown β] [Shown ι] : Event β ι → String
  | started analysis direction blocks instructions elements =>
    s!"{analysis} ({direction.text}): initialized, {blocks} blocks, " ++
      s!"{instructions} instructions, {elements} domain elements"
  | factChanged inst block fact =>
    "  " ++ Shown.text inst ++ " in " ++ Shown.text block ++ " -> " ++ fact.text
  | swept analysis sweep true => s!"{analysis}: sweep {sweep} changed facts"
  | swept analysis sweep false => s!"{analysis}: sweep {sweep} reached a fixpoint"
  | gaveUp analysis sweeps => s!"{analysis}: no fixpoint after {sweeps} sweeps"
  | converged analysis direction stats =>
    s!"{analysis} ({direction.text}): converged after {stats.sweeps} sweeps, " ++
      s!"{stats.meets} meets, {stats.transfers} transfers, " ++
      s!"{stats.changedInstructions} fact changes"

end Event

end Dataflow
