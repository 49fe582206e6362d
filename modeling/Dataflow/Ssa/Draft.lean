import Dataflow.Ssa.Opcode

/-! Functions under construction. A draft holds dense tables of values, instructions and
blocks; a handle is a position in its table. Instructions are appended to named blocks, so
blocks can be filled in any order, and an addition that does not fit is refused. -/
namespace Dataflow.Ssa

/-- Where a value comes from. -/
inductive Origin where
  | argument (position : Nat)
  | result (inst : Inst)
  | constant (literal : Int)
  deriving DecidableEq, Repr

namespace Origin

/-- Constants are written in place and have no point of definition. -/
def isTrackable : Origin → Bool
  | constant _ => false
  | _ => true

def definedBy? : Origin → Option Inst
  | result inst => some inst
  | _ => none

end Origin

structure ValueInfo where
  origin : Origin
  name : Option String
  deriving DecidableEq, Repr

structure Instruction where
  block : Block
  opcode : Opcode
  result : Option Value
  deriving DecidableEq, Repr

structure BlockInfo where
  name : Option String
  instructions : List Inst
  deriving DecidableEq, Repr

structure Draft where
  name : String
  arguments : List Value
  values : Array ValueInfo
  instructions : Array Instruction
  blocks : Array BlockInfo
  deriving DecidableEq, Repr

/-- What is wrong with an addition or with a whole draft. -/
inductive Flaw where
  | terminated (block : Block)
  | latePhi (block : Block)
  | notPhi (value : Value)
  | noResult
  | emptyBlock (block : Block)
  | unterminated (block : Block)
  | repeatedIncoming (phi : Inst) (block : Block)
  | incomingMismatch (phi : Inst) (block : Block) (incoming predecessors : List Block)
  deriving DecidableEq, Repr

namespace Flaw

def description : Flaw → String
  | terminated block => s!"Block {block.text} is already terminated"
  | latePhi block => s!"Phi must precede all ordinary instructions of {block.text}"
  | notPhi value => s!"Value {value.text} is not a phi"
  | noResult => "Operation does not define a value"
  | emptyBlock block => s!"Block {block.text} has no instructions"
  | unterminated block => s!"Block {block.text} does not end with a terminator"
  | repeatedIncoming phi block =>
    s!"Phi {phi.text} in {block.text} lists an incoming block twice"
  | incomingMismatch phi block incoming predecessors =>
    s!"Phi {phi.text} in {block.text} has incoming blocks " ++ Shown.listText incoming ++
      " but the block has predecessors " ++ Shown.listText predecessors

end Flaw

inductive DraftError where
  | unknownBlock (block : Block)
  | unknownValue (value : Value)
  | malformed (flaw : Flaw)
  deriving DecidableEq, Repr

namespace Draft

def empty (name : String) : Draft := ⟨name, [], #[], #[], #[]⟩

def block? (draft : Draft) (block : Block) : Option BlockInfo := draft.blocks[block.index]?

def instruction? (draft : Draft) (inst : Inst) : Option Instruction :=
  draft.instructions[inst.index]?

def value? (draft : Draft) (value : Value) : Option ValueInfo := draft.values[value.index]?

def opcode? (draft : Draft) (inst : Inst) : Option Opcode :=
  (draft.instruction? inst).map Instruction.opcode

/-- The instructions placed in a block so far. -/
def placed (draft : Draft) (block : Block) : List Inst :=
  ((draft.block? block).map BlockInfo.instructions).getD []

def isTerminator (draft : Draft) (inst : Inst) : Bool :=
  (draft.opcode? inst).any Opcode.isTerminator

def isPhi (draft : Draft) (inst : Inst) : Bool := (draft.opcode? inst).any Opcode.isPhi

/-- The phi that defines a value, with what it selects so far. -/
def phiOf? (draft : Draft) (value : Value) : Option (Inst × List (Block × Value)) :=
  ((draft.value? value).bind fun info => info.origin.definedBy?).bind fun inst =>
    match draft.opcode? inst with
    | some (.phi incoming) => some (inst, incoming)
    | _ => none

/-! What has to hold before an addition. -/

def checkBlock (draft : Draft) (block : Block) : Except DraftError Unit :=
  if block.index < draft.blocks.size then .ok () else .error (.unknownBlock block)

def checkValue (draft : Draft) (value : Value) : Except DraftError Unit :=
  if value.index < draft.values.size then .ok () else .error (.unknownValue value)

/-- A block takes nothing after a terminator, and no phi after an ordinary instruction. -/
def checkPlace (draft : Draft) (block : Block) (opcode : Opcode) : Except DraftError Unit :=
  if (draft.placed block).getLast?.any draft.isTerminator then
    .error (.malformed (.terminated block))
  else if opcode.isPhi && !(draft.placed block).all draft.isPhi then
    .error (.malformed (.latePhi block))
  else .ok ()

/-- Blocks that the operation mentions come first, then the block it goes to, its operands
and its place in the block. -/
def checkAppend (draft : Draft) (block : Block) (opcode : Opcode) : Except DraftError Unit := do
  opcode.mentions.forM draft.checkBlock
  draft.checkBlock block
  opcode.operands.forM draft.checkValue
  draft.checkPlace block opcode

/-! The additions. Each gives the handle it made and the draft after it. -/

def newValue (draft : Draft) (origin : Origin) : Value × Draft :=
  (⟨draft.values.size⟩, { draft with values := draft.values.push ⟨origin, none⟩ })

def addArgument (draft : Draft) : Value × Draft :=
  let (value, grown) := draft.newValue (.argument draft.arguments.length)
  (value, { grown with arguments := draft.arguments ++ [value] })

def constant (draft : Draft) (literal : Int) : Value × Draft := draft.newValue (.constant literal)

def createBlock (draft : Draft) (name : Option String) : Block × Draft :=
  (⟨draft.blocks.size⟩, { draft with blocks := draft.blocks.push ⟨name, []⟩ })

def setValueName (draft : Draft) (value : Value) (name : String) : Except DraftError Draft := do
  draft.checkValue value
  return { draft with
    values := draft.values.modify value.index fun info => { info with name := some name } }

/-- Puts an instruction at the end of a block, with a new value for its result if it has one. -/
def place (draft : Draft) (block : Block) (opcode : Opcode) : (Inst × Option Value) × Draft :=
  let inst : Inst := ⟨draft.instructions.size⟩
  let (result, grown) :=
    if opcode.definesValue then
      let (value, grown) := draft.newValue (.result inst)
      (some value, grown)
    else (none, draft)
  ((inst, result),
    { grown with
      instructions := draft.instructions.push ⟨block, opcode, result⟩
      blocks := draft.blocks.modify block.index fun info =>
        { info with instructions := info.instructions ++ [inst] } })

def append (draft : Draft) (block : Block) (opcode : Opcode) :
    Except DraftError ((Inst × Option Value) × Draft) := do
  draft.checkAppend block opcode
  return draft.place block opcode

/-- Adds one more pair to a phi, named by the value it defines. -/
def addIncoming (draft : Draft) (phi : Value) (source : Block) (value : Value) :
    Except DraftError Draft := do
  draft.checkBlock source
  draft.checkValue value
  draft.checkValue phi
  match draft.phiOf? phi with
  | none => throw (.malformed (.notPhi phi))
  | some (inst, incoming) =>
    return { draft with
      instructions := draft.instructions.modify inst.index fun instruction =>
        { instruction with opcode := .phi (incoming ++ [(source, value)]) } }

end Draft

/-- The additions as data. -/
inductive Step where
  | argument
  | constant (literal : Int)
  | block (name : Option String)
  | nameValue (value : Value) (name : String)
  | append (block : Block) (opcode : Opcode)
  | addIncoming (phi : Value) (source : Block) (value : Value)
  deriving DecidableEq, Repr

/-- What an addition answers: the handle it made, if it made one. -/
inductive Reply where
  | value (value : Value)
  | inst (inst : Inst)
  | block (block : Block)
  | done
  deriving DecidableEq, Repr

namespace Draft

def tryStep (draft : Draft) : Step → Except DraftError (Reply × Draft)
  | .argument => .ok (draft.addArgument.map .value id)
  | .constant literal => .ok ((draft.constant literal).map .value id)
  | .block name => .ok ((draft.createBlock name).map .block id)
  | .nameValue value name => return (.done, ← draft.setValueName value name)
  | .append target opcode => do
    let ((inst, result), grown) ← draft.append target opcode
    return (result.elim (.inst inst) .value, grown)
  | .addIncoming phi source value => return (.done, ← draft.addIncoming phi source value)

/-- A refused step leaves the draft alone. -/
def step (draft : Draft) (step : Step) : Except DraftError Reply × Draft :=
  match draft.tryStep step with
  | .ok (reply, grown) => (.ok reply, grown)
  | .error error => (.error error, draft)

/-- Takes every step, also those after a refused one. -/
def steps (draft : Draft) : List Step → List (Except DraftError Reply) × Draft
  | [] => ([], draft)
  | first :: rest =>
    let (answer, draft) := draft.step first
    let (answers, draft) := draft.steps rest
    (answer :: answers, draft)

end Draft

end Dataflow.Ssa
