import Dataflow.Ssa.Draft

/-! Construction in place. An addition changes the tables of a draft one after the other, and a
refusal does not take back what has been changed before it. -/
namespace Dataflow.Ssa

/-- A change of the draft under construction, which may be refused on the way. -/
abbrev Building := ExceptT DraftError (StateM Draft)

namespace Building

def run {α : Type} (building : Building α) (draft : Draft) : Except DraftError α × Draft :=
  ExceptT.run building draft

/-- Looks at the draft as it stands. -/
def ask {α : Type} (question : Draft → Except DraftError α) : Building α := do
  ExceptT.mk (pure (question (← get)))

def newValue (origin : Origin) : Building Value := modifyGet fun draft => draft.newValue origin

def addArgument : Building Value := do
  let value ← newValue (.argument (← get).arguments.length)
  modify fun draft => { draft with arguments := draft.arguments ++ [value] }
  return value

def createBlock (name : Option String) : Building Block :=
  modifyGet fun draft => draft.createBlock name

def setValueName (value : Value) (name : String) : Building Unit := do
  ask (·.checkValue value)
  modify fun draft => { draft with
    values := draft.values.modify value.index fun info => { info with name := some name } }

/-- The table of values grows first, then that of instructions, then the block. -/
def push (block : Block) (opcode : Opcode) : Building (Inst × Option Value) := do
  ask (·.checkBlock block)
  opcode.operands.forM fun value => ask (·.checkValue value)
  ask (·.checkPlace block opcode)
  let inst : Inst := ⟨(← get).instructions.size⟩
  let result ← if opcode.definesValue then some <$> newValue (.result inst) else pure none
  modify fun draft => { draft with
    instructions := draft.instructions.push ⟨block, opcode, result⟩ }
  modify fun draft => { draft with
    blocks := draft.blocks.modify block.index fun info =>
      { info with instructions := info.instructions ++ [inst] } }
  return (inst, result)

/-- An operation without a result is refused when it has been pushed. -/
def pushValue (block : Block) (opcode : Opcode) : Building Value := do
  match (← push block opcode).2 with
  | some value => return value
  | none => throw (.malformed .noResult)

/-- Says whether the instruction is a phi, which takes one more pair. -/
def pushIncoming (inst : Inst) (source : Block) (value : Value) : Building Bool := do
  match (← get).opcode? inst with
  | some (.phi incoming) =>
    modify fun draft => { draft with
      instructions := draft.instructions.modify inst.index fun instruction =>
        { instruction with opcode := .phi (incoming ++ [(source, value)]) } }
    return true
  | _ => return false

def addIncoming (phi : Value) (source : Block) (value : Value) : Building Unit := do
  ask (·.checkBlock source)
  ask (·.checkValue value)
  ask (·.checkValue phi)
  match ((← get).value? phi).bind fun info => info.origin.definedBy? with
  | none => throw (.malformed (.notPhi phi))
  | some inst => unless ← pushIncoming inst source value do throw (.malformed (.notPhi phi))

end Building

/-- What a step does in place. Whoever appends an operation that defines a value is handed the
value. -/
def Step.perform : Step → Building Reply
  | .argument => .value <$> Building.addArgument
  | .constant literal => .value <$> Building.newValue (.constant literal)
  | .block name => .block <$> Building.createBlock name
  | .nameValue value name => do
    Building.setValueName value name
    return .done
  | .append target opcode => do
    opcode.mentions.forM fun other => Building.ask (·.checkBlock other)
    match opcode with
    | .store _ _ | .call _ _ false | .branch _ | .branchIf _ _ _ | .ret _ =>
      return .inst (← Building.push target opcode).1
    | _ => return .value (← Building.pushValue target opcode)
  | .addIncoming phi source value => do
    Building.addIncoming phi source value
    return .done

/-- Performs every step, also those after a refused one. -/
def Building.attempts : List Step → Draft → List (Except DraftError Reply) × Draft
  | [], draft => ([], draft)
  | first :: rest, draft =>
    let (answer, draft) := first.perform.run draft
    let (answers, draft) := attempts rest draft
    (answer :: answers, draft)

end Dataflow.Ssa
