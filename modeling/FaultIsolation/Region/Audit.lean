import FaultIsolation.Code.Text
import FaultIsolation.Memory.Access

/-!
Whether a function is in confined form, judged from the code alone. The region base is loaded at
most once, at the head of the function. Every address is the base plus a 32-bit offset, or that plus
a constant that is not negative. Every length is at most 32 bits wide or comes from 32 bits. Nothing
else takes a pointer.
-/
namespace FaultIsolation

/-- A way in which a function is not in confined form. -/
inductive Finding where
  | manyBaseLoads (count : Nat)
  | misplacedBaseLoad (instruction : String)
  | unconfinedAddress (operand : Nat) (instruction : String)
  | unclippedLength (operand : Nat) (instruction : String)
  | strayPointer (operand : Nat) (instruction : String)
  deriving Repr, DecidableEq, Inhabited

def Finding.message : Finding → String
  | .manyBaseLoads count => s!"Region base loaded {count} times (expected at most 1)"
  | .misplacedBaseLoad instruction => s!"Region base load is not at the entry head: {instruction}"
  | .unconfinedAddress operand instruction =>
      s!"Address operand #{operand} is not confined: {instruction}"
  | .unclippedLength operand instruction =>
      s!"Length operand #{operand} is not clipped: {instruction}"
  | .strayPointer operand instruction => s!"Unhandled pointer operand #{operand}: {instruction}"

/-- Whether the instruction loads the region base, which is the variable of the given name. -/
def Instruction.isBaseLoad (i : Instruction) (base : String) : Bool :=
  match i.opcode, i.operands with
  | .load, .global symbol :: _ => symbol.name = base
  | _, _ => false

def Instruction.sum? (i : Instruction) : Option (Value × Value) :=
  if i.opcode = .binary .add ∧ i.ty = .i64 then
    match i.operands with
    | left :: right :: _ => some (left, right)
    | _ => none
  else none

namespace Func

/-- Whether the value is the region base, loaded by an instruction that still stands in a block. -/
def isBase (f : Func) (base : String) : Value → Except Fault Bool
  | .inst id => do
    let node ← f.node id
    return node.live && node.inst.isBaseLoad base
  | _ => return false

def isWidenedOffset (f : Func) : Value → Except Fault Bool
  | .inst id => do
    let inst ← f.inst id
    if inst.isCast .zext then
      match inst.operands[0]? with
      | some value => return (← f.typeOf value) = .i32
      | none => return false
    else return false
  | _ => return false

def sum? (f : Func) : Value → Except Fault (Option (Value × Value))
  | .inst id => return (← f.inst id).sum?
  | _ => return none

def isRebased (f : Func) (base : String) (value : Value) : Except Fault Bool := do
  match ← f.sum? value with
  | some (left, right) =>
    if ← f.isBase base left then f.isWidenedOffset right else return false
  | none => return false

def isRebasedBeyond (f : Func) (base : String) (value : Value) : Except Fault Bool := do
  match ← f.sum? value with
  | some (inner, .const constant) =>
    match constant.signed? with
    | some offset => if 0 ≤ offset then f.isRebased base inner else return false
    | none => return false
  | _ => return false

/-- Whether a pointer is made from an address inside the region, or from one with a constant
added. -/
def isConfined (f : Func) (base : String) : Value → Except Fault Bool
  | .inst id => do
    let inst ← f.inst id
    if inst.isCast .intToPtr then
      match inst.operands[0]? with
      | some address =>
        if ← f.isRebased base address then return true else f.isRebasedBeyond base address
      | none => return false
    else return false
  | _ => return false

/-- Whether a length fits in 32 bits by its type or by where it comes from. -/
def isClipped (f : Func) (value : Value) : Except Fault Bool := do
  match (← f.typeOf value).width? with
  | some bits => if bits ≤ addressWidth then return true else f.isWidenedOffset value
  | none => return false

end Func

structure AuditCounts where
  instructions : Nat := 0
  baseLoads : Nat := 0
  addresses : Nat := 0
  lengths : Nat := 0
  deriving Repr, DecidableEq, Inhabited

/-- What an audit found: faults of form, things that are only odd, and counts. -/
structure AuditReport where
  findings : List Finding
  warnings : List String
  counts : AuditCounts
  deriving Repr, DecidableEq, Inhabited

/-- How to judge a function: by the name of the variable that holds the region base, and with or
without regard to warnings. -/
structure Auditor where
  baseSymbol : String
  strict : Bool := false
  deriving Repr, DecidableEq, Inhabited

namespace Auditor

/-- What is said of one instruction that is no base load, and how many of its addresses are confined
and how many lengths it has. -/
structure Opinion where
  findings : List Finding
  addresses : Nat
  lengths : Nat
  deriving Repr, DecidableEq, Inhabited

/-- The finding about one address, if it is not confined. A missing address is not confined. -/
def judgeAddress (auditor : Auditor) (f : Func) (id : InstId) (inst : Instruction)
    (position : Nat) : Except Fault (Option Finding) := do
  let confined ← match inst.operands[position]? with
    | some value => f.isConfined auditor.baseSymbol value
    | none => pure false
  if confined then return none
  return some (.unconfinedAddress position (← f.instText id))

/-- The finding about a length, if it is not clipped. A missing length is not clipped. -/
def judgeLength (f : Func) (id : InstId) (inst : Instruction) (position : Nat) :
    Except Fault (Option Finding) := do
  let clipped ← match inst.operands[position]? with
    | some value => f.isClipped value
    | none => pure false
  if clipped then return none
  return some (.unclippedLength position (← f.instText id))

/-- The finding about the values of an instruction that nothing confines. -/
def judgePointers (f : Func) (id : InstId) (values : List Value) :
    Except Fault (Option Finding) := do
  match ← f.pointerPosition? values with
  | none => return none
  | some position => return some (.strayPointer position (← f.instText id))

def judge (auditor : Auditor) (f : Func) (id : InstId) : Except Fault Opinion := do
  let inst ← f.inst id
  let access := Access.ofInstruction inst
  let addresses ← access.addresses.mapM (auditor.judgeAddress f id inst)
  let lengths ← access.length?.toList.mapM (judgeLength f id inst)
  let pointer ← judgePointers f id (access.unconfined inst)
  return {
    findings := (addresses ++ lengths ++ [pointer]).flatMap Option.toList
    addresses := (addresses.filter Option.isNone).length
    lengths := lengths.length }

def isBaseLoad (auditor : Auditor) (f : Func) (id : InstId) : Except Fault Bool :=
  return (← f.inst id).isBaseLoad auditor.baseSymbol

def judgePlace (f : Func) (id : InstId) : Except Fault (Option Finding) := do
  if f.entryHead? = some id then return none
  return some (.misplacedBaseLoad (← f.instText id))

def judgeUse (f : Func) (id : InstId) : Except Fault (Option String) := do
  if (← f.useCount id) = 0 then return some s!"Unused region base load: {← f.instText id}"
  return none

def audit (auditor : Auditor) (f : Func) : Except Fault AuditReport := do
  let loads ← f.layout.filterM (auditor.isBaseLoad f)
  let others := f.layout.filter (· ∉ loads)
  let many := if 1 < loads.length then [Finding.manyBaseLoads loads.length] else []
  let misplaced ← loads.mapM (judgePlace f)
  let unused ← loads.mapM (judgeUse f)
  let opinions ← others.mapM (auditor.judge f)
  return {
    findings := many ++ misplaced.flatMap Option.toList ++ opinions.flatMap Opinion.findings
    warnings := unused.flatMap Option.toList
    counts := {
      instructions := f.layout.length
      baseLoads := loads.length
      addresses := total Opinion.addresses opinions
      lengths := total Opinion.lengths opinions } }

def accepts (auditor : Auditor) (report : AuditReport) : Bool :=
  report.findings.isEmpty && (!auditor.strict || report.warnings.isEmpty)

end Auditor

end FaultIsolation
