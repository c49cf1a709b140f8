import FaultIsolation.Code.Func

/-!
The written form of values, instructions and functions. Writing an instruction looks its operands
up, so it faults where they do not exist; a jump to a block that does not exist is written all the
same.
-/
namespace FaultIsolation

namespace Func

/-- A value as it stands in an instruction: an instruction by its name or else its number, a
parameter by its position, a symbol by its name. -/
def valueText (f : Func) : Value → Except Fault String
  | .inst id => return "%" ++ (← f.inst id).name.getD (toString id)
  | .arg index => .ok s!"%arg{index}"
  | .const constant => .ok constant.text
  | .global symbol => .ok s!"@{symbol.name}"

/-- A value with its type in front; operands may be missing. -/
def typedText (f : Func) : Option Value → Except Fault String
  | some value => return (← f.typeOf value).text ++ " " ++ (← f.valueText value)
  | none => .ok "<missing>"

/-- The second operand of a pair is written without its type, and not at all if it is missing. -/
def bareText (f : Func) : Option Value → Except Fault String
  | some value => f.valueText value
  | none => .ok ""

/-- A jump target: the label of the block, or its number if there is no such block. -/
def labelText (f : Func) (id : BlockId) : String :=
  match f.blocks[id]? with
  | some block => s!"%{block.name}"
  | none => s!"%bb{id}"

def bodyText (f : Func) (inst : Instruction) : Except Fault String := do
  let word := inst.opcode.mnemonic
  match inst.opcode with
  | .alloca ty =>
    let count ← f.typedText inst.operands[0]?
    return s!"{word} {ty.text}, {count}"
  | .load =>
    let address ← f.typedText inst.operands[0]?
    return s!"{word} {inst.ty.text}, {address}"
  | .store =>
    let value ← f.typedText inst.operands[0]?
    let address ← f.typedText inst.operands[1]?
    return s!"{word} {value}, {address}"
  | .binary _ =>
    let left ← f.typedText inst.operands[0]?
    let right ← f.bareText inst.operands[1]?
    return s!"{word} {left}, {right}"
  | .icmp comparison =>
    let left ← f.typedText inst.operands[0]?
    let right ← f.bareText inst.operands[1]?
    return s!"{word} {comparison.mnemonic} {left}, {right}"
  | .cast _ =>
    let value ← f.typedText inst.operands[0]?
    return s!"{word} {value} to {inst.ty.text}"
  | .select =>
    let condition ← f.typedText inst.operands[0]?
    let onTrue ← f.typedText inst.operands[1]?
    let onFalse ← f.typedText inst.operands[2]?
    return s!"{word} {condition}, {onTrue}, {onFalse}"
  | .phi sources =>
    let incoming ← (inst.operands.zip sources).mapM fun (value, source) => do
      let value ← f.valueText value
      return s!"[ {value}, {f.labelText source} ]"
    return s!"{word} {inst.ty.text} " ++ ", ".intercalate incoming
  | .call =>
    let args ← inst.args.mapM fun arg => f.typedText (some arg)
    let callee ← f.bareText inst.callee?
    return s!"{word} {inst.ty.text} {callee}(" ++ ", ".intercalate args ++ ")"
  | .br target => return s!"{word} label {f.labelText target}"
  | .condBr onTrue onFalse =>
    let condition ← f.typedText inst.operands[0]?
    return s!"{word} {condition}, label {f.labelText onTrue}, label {f.labelText onFalse}"
  | .ret =>
    match inst.operands[0]? with
    | some value =>
      let value ← f.typedText (some value)
      return s!"{word} {value}"
    | none => return s!"{word} void"
  | .unreachable => return word

def instText (f : Func) (id : InstId) : Except Fault String := do
  let inst ← f.inst id
  let body ← f.bodyText inst
  if inst.ty.isVoid then return body
  return (← f.valueText (.inst id)) ++ " = " ++ body

def blockText (f : Func) (block : Block) : Except Fault String := do
  let lines ← block.insts.mapM fun id => do
    let line ← f.instText id
    return s!"  {line}\n"
  return s!"{block.name}:\n" ++ String.join lines

/-- A whole function. One without blocks is written as a declaration. -/
def text (f : Func) : Except Fault String := do
  if f.isDeclaration then
    let params := ", ".intercalate (f.params.map Ty.text)
    return s!"declare {f.result.text} @{f.name}({params})\n"
  let params := ", ".intercalate (f.params.mapIdx fun index ty => s!"{ty.text} %arg{index}")
  let blocks ← f.blocks.mapM f.blockText
  return s!"define {f.result.text} @{f.name}({params}) \x7b\n" ++ String.join blocks ++ "\x7d\n"

end Func

end FaultIsolation
