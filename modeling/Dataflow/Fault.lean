/-! Broken contracts. An operation that is handed something outside its domain does not
answer; it stops with a `Fault`. A fault is the cause, and its wording is in `message`.
Handles appear as text, because a fault is reported after the graph it came from is gone. -/
namespace Dataflow

/-- How far a started run has come. A run that was never started has no stage. -/
inductive Stage where
  | initialized
  | iterating
  | converged
  deriving DecidableEq, Repr

def Stage.text : Option Stage → String
  | none => "Uninitialized"
  | some .initialized => "Initialized"
  | some .iterating => "Iterating"
  | some .converged => "Converged"

inductive Fault where
  /-- A position at or beyond the width of a fact. -/
  | outsideFact (index width : Nat)
  /-- Two facts of different widths were combined or compared. -/
  | widthsDiffer (left right : Nat)
  /-- A position beyond the end of a table. -/
  | outsideTable (size index : Nat)
  | seededTwice
  | notSeeded
  | transferWidth (stored produced : Nat)
  | decodeWidth (width size : Nat)
  | initialWidth (produced size : Nat)
  | boundaryWidth (produced size : Nat)
  | meetWidth (produced size : Nat)
  | startedTwice (stage : Stage)
  | sweptBeforeStart
  | unstable (analysis : String)
  | notConverged (stage : Option Stage)
  /-- A value that merges select for other edges only is live into the block, and not live
  past the merges. -/
  | liveOnlyElsewhere (value block : String)
  | foreignInstruction (inst function : String)
  /-- A run that had to succeed ended with an error. -/
  | unsolved (message : String)
  deriving DecidableEq, Repr

namespace Fault

/-- The wording of a failed comparison: what it was for, then both sides. -/
def comparison (purpose left right : String) : String :=
  s!"assertion `left == right` failed: {purpose}\n  left: {left}\n right: {right}"

def message : Fault → String
  | outsideFact index width => s!"domain index {index} out of range for a fact of width {width}"
  | widthsDiffer left right =>
    comparison "facts over different domains can not be combined" left.repr right.repr
  | outsideTable size index => s!"index out of bounds: the len is {size} but the index is {index}"
  | seededTwice => "instruction seeded twice"
  | notSeeded => "fact store has no entry for the instruction; it was not seeded"
  | transferWidth stored produced =>
    comparison "transfer function produced a fact over a different domain" stored.repr produced.repr
  | decodeWidth width size =>
    s!"fact of width {width} does not belong to a domain of {size} elements"
  | initialWidth produced size =>
    comparison "initial condition is not sized to the domain" produced.repr size.repr
  | boundaryWidth produced size =>
    comparison "boundary condition is not sized to the domain" produced.repr size.repr
  | meetWidth produced size =>
    comparison "meet operator produced a fact over a different domain" produced.repr size.repr
  | startedTwice stage =>
    comparison "solver initialized twice" (Stage.text (some stage)) (Stage.text none)
  | sweptBeforeStart => "sweep called on an uninitialized solver"
  | unstable analysis =>
    s!"{analysis}: facts changed after convergence; the analysis is not monotone"
  | notConverged stage =>
    comparison "results requested before convergence" (Stage.text stage)
      (Stage.text (some .converged))
  | liveOnlyElsewhere value block =>
    s!"value Some({value}) selected only for other edges of {block} is live into it " ++
      "without being live past its merges"
  | foreignInstruction inst function => s!"instruction {inst} does not belong to {function}"
  | unsolved message => message

end Fault

end Dataflow
