import FaultIsolation.Code.Cursor

/-!
Addresses and how they are brought into the region. An address is cut to its low 32 bits and added
to the region base. If it was made by adding a positive constant to a 32-bit offset, the offset can
be rebased instead and the constant added afterwards; the access may then go past the region by less
than that constant.
-/
namespace FaultIsolation

/-- An address made by adding a positive constant to an offset and converting the sum: the offset,
the constant, and the two instructions that did it. -/
structure Foldable where
  index : Value
  constant : UInt64
  conversion : InstId
  addition : InstId
  deriving Repr, DecidableEq, Inhabited

namespace Instruction

/-- The instruction whose result this one turns into a pointer. -/
def pointerSource? (i : Instruction) : Option InstId :=
  match i.opcode, i.operands with
  | .cast .intToPtr, .inst source :: _ => some source
  | _, _ => none

/-- The offset and the constant of a 32-bit addition whose second operand is a constant above
zero. -/
def positiveStep? (i : Instruction) : Option (Value × UInt64) :=
  if i.opcode = .binary .add ∧ i.ty = .i32 then
    match i.operands with
    | index :: .const constant :: _ =>
      match constant.signed?, constant.unsigned? with
      | some value, some word => if 0 < value then some (index, word) else none
      | _, _ => none
    | _ => none
  else none

end Instruction

namespace Func

/-- Finds out whether a pointer is an offset plus a positive constant. -/
def foldable? (f : Func) : Value → Except Fault (Option Foldable)
  | .inst conversion => do
    match (← f.inst conversion).pointerSource? with
    | none => return none
    | some addition =>
      let step := (← f.inst addition).positiveStep?
      return step.map fun (index, constant) => { index, constant, conversion, addition }
  | _ => return none

def emitRebased (f : Func) (anchor : InstId) (base pointer : Value) (ty : Ty) :
    Except Fault (Func × Value) := do
  let (f, low) ← f.emitBefore anchor (.cast .ptrToInt pointer .i32)
  let (f, wide) ← f.emitBefore anchor (.cast .zext low .i64)
  let (f, sum) ← f.emitBefore anchor (.binary .add base wide)
  f.emitBefore anchor (.cast .intToPtr sum ty)

/-- Emits right before an instruction the address that an offset has inside the region, plus the
constant. -/
def emitFolded (f : Func) (anchor : InstId) (base : Value) (address : Foldable) (ty : Ty) :
    Except Fault (Func × Value) := do
  let (f, wide) ← f.emitBefore anchor (.cast .zext address.index .i64)
  let (f, sum) ← f.emitBefore anchor (.binary .add base wide)
  let (f, sum) ← f.emitBefore anchor (.binary .add sum (.ofWord machineWidth address.constant))
  f.emitBefore anchor (.cast .intToPtr sum ty)

def emitClipped (f : Func) (anchor : InstId) (length : Value) : Except Fault (Func × Value) := do
  let (f, low) ← f.emitBefore anchor (.cast .trunc length .i32)
  f.emitBefore anchor (.cast .zext low .i64)

end Func

end FaultIsolation
