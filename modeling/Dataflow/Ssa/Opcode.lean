import Dataflow.Handle

/-! Instructions in static single assignment form. The values an operation reads and the
blocks it leads to are computed from the operation, so they cannot disagree with it. -/
namespace Dataflow.Ssa

structure Value where
  index : Nat
  deriving DecidableEq, Repr

structure Inst where
  index : Nat
  deriving DecidableEq, Repr

structure Block where
  index : Nat
  deriving DecidableEq, Repr

def Value.text (value : Value) : String := s!"v{value.index}"

def Inst.text (inst : Inst) : String := s!"i{inst.index}"

def Block.text (block : Block) : String := s!"bb{block.index}"

instance : Shown Value := ⟨Value.text⟩

instance : Handle Value := ⟨Value.index, Value.mk, fun _ => rfl, fun _ => rfl⟩

instance : Shown Inst := ⟨Inst.text⟩

instance : Handle Inst := ⟨Inst.index, Inst.mk, fun _ => rfl, fun _ => rfl⟩

instance : Shown Block := ⟨Block.text⟩

instance : Handle Block := ⟨Block.index, Block.mk, fun _ => rfl, fun _ => rfl⟩

inductive BinaryOp where
  | add
  | sub
  | mul
  | div
  | rem
  | and
  | or
  | xor
  | shl
  | shr
  deriving DecidableEq, Repr

def BinaryOp.text : BinaryOp → String
  | add => "add"
  | sub => "sub"
  | mul => "mul"
  | div => "div"
  | rem => "rem"
  | and => "and"
  | or => "or"
  | xor => "xor"
  | shl => "shl"
  | shr => "shr"

inductive Comparison where
  | eq
  | ne
  | lt
  | le
  | gt
  | ge
  deriving DecidableEq, Repr

def Comparison.text : Comparison → String
  | eq => "eq"
  | ne => "ne"
  | lt => "lt"
  | le => "le"
  | gt => "gt"
  | ge => "ge"

inductive Opcode where
  | binary (op : BinaryOp) (left right : Value)
  | compare (comparison : Comparison) (left right : Value)
  | copy (source : Value)
  | load (address : Value)
  | store (value address : Value)
  | call (callee : String) (arguments : List Value) (returns : Bool)
  /-- Selects a value by the block that control came from. -/
  | phi (incoming : List (Block × Value))
  | branch (target : Block)
  | branchIf (condition : Value) (onTrue onFalse : Block)
  | ret (value : Option Value)
  deriving DecidableEq, Repr

namespace Opcode

def operands : Opcode → List Value
  | binary _ left right => [left, right]
  | compare _ left right => [left, right]
  | copy source => [source]
  | load address => [address]
  | store value address => [value, address]
  | call _ arguments _ => arguments
  | phi incoming => incoming.map Prod.snd
  | branch _ => []
  | branchIf condition _ _ => [condition]
  | ret value => value.toList

/-- A conditional branch with one target has one edge. -/
def successors : Opcode → List Block
  | branch target => [target]
  | branchIf _ onTrue onFalse => if onTrue = onFalse then [onTrue] else [onTrue, onFalse]
  | _ => []

def incoming : Opcode → List (Block × Value)
  | phi incoming => incoming
  | _ => []

/-- Every block the operation mentions, in the order it mentions them. -/
def mentions : Opcode → List Block
  | phi incoming => incoming.map Prod.fst
  | branch target => [target]
  | branchIf _ onTrue onFalse => [onTrue, onFalse]
  | _ => []

def isTerminator : Opcode → Bool
  | branch _ => true
  | branchIf _ _ _ => true
  | ret _ => true
  | _ => false

def isPhi : Opcode → Bool
  | phi _ => true
  | _ => false

def definesValue : Opcode → Bool
  | binary _ _ _ => true
  | compare _ _ _ => true
  | copy _ => true
  | load _ => true
  | phi _ => true
  | call _ _ returns => returns
  | _ => false

def mnemonic : Opcode → String
  | binary op _ _ => op.text
  | compare comparison _ _ => "icmp " ++ comparison.text
  | copy _ => "copy"
  | load _ => "load"
  | store _ _ => "store"
  | call _ _ _ => "call"
  | phi _ => "phi"
  | branch _ => "br"
  | branchIf _ _ _ => "br"
  | ret _ => "ret"

end Opcode

end Dataflow.Ssa
