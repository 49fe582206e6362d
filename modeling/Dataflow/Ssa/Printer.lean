import Dataflow.Ssa.Function

/-! Functions as text. A value shows its own name if it was given one, and otherwise where
it comes from; handles that name nothing are shown as invalid. -/
namespace Dataflow.Ssa.Function

def valueName (function : Function) (value : Value) : String :=
  match function.value? value with
  | none => s!"%<invalid {value.text}>"
  | some ⟨_, some name⟩ => s!"%{name}"
  | some ⟨.argument position, none⟩ => s!"%arg{position}"
  | some ⟨.result _, none⟩ => s!"%{value.text}"
  | some ⟨.constant literal, none⟩ => s!"{literal}"

def blockLabel (function : Function) (block : Block) : String :=
  match (function.block? block).bind BlockInfo.name with
  | some name => s!"%{name}"
  | none => s!"%{block.text}"

def operandText (function : Function) (values : List Value) : String :=
  String.intercalate ", " (values.map function.valueName)

def incomingText (function : Function) (pair : Block × Value) : String :=
  "[ " ++ function.valueName pair.2 ++ ", " ++ function.blockLabel pair.1 ++ " ]"

def opcodeText (function : Function) : Opcode → String
  | .binary op left right => op.text ++ " " ++ function.operandText [left, right]
  | .compare comparison left right =>
    "icmp " ++ comparison.text ++ " " ++ function.operandText [left, right]
  | .copy source => "copy " ++ function.valueName source
  | .load address => "load " ++ function.valueName address
  | .store value address => "store " ++ function.operandText [value, address]
  | .call callee arguments _ => "call @" ++ callee ++ "(" ++ function.operandText arguments ++ ")"
  | .phi incoming => "phi " ++ String.intercalate ", " (incoming.map function.incomingText)
  | .branch target => "br " ++ function.blockLabel target
  | .branchIf condition onTrue onFalse =>
    "br " ++ function.valueName condition ++ ", " ++ function.blockLabel onTrue ++ ", " ++
      function.blockLabel onFalse
  | .ret (some value) => "ret " ++ function.valueName value
  | .ret none => "ret void"

def instructionText (function : Function) (inst : Inst) : String :=
  match function.instruction? inst with
  | none => s!"<invalid {inst.text}>"
  | some instruction =>
    match instruction.result with
    | some result => function.valueName result ++ " = " ++ function.opcodeText instruction.opcode
    | none => function.opcodeText instruction.opcode

end Dataflow.Ssa.Function
