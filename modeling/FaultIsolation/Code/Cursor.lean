import FaultIsolation.Code.Edit

/-!
Insertion of instructions at a cursor. A draft says what to compute from which values; the type of
the result follows from the types of the operands wherever it can.
-/
namespace FaultIsolation

/-- Where the next instruction goes. -/
inductive Cursor where
  /-- At the end of a block. -/
  | atEnd (block : BlockId)
  /-- Right before an instruction. -/
  | before (anchor : InstId)
  deriving Repr, DecidableEq, Inhabited

/-- An instruction whose result type is still to be found. -/
inductive Draft where
  | alloca (ty : Ty) (count : Value)
  | load (address : Value)
  | store (value address : Value)
  | binary (op : BinaryOp) (left right : Value)
  | icmp (comparison : Comparison) (left right : Value)
  | cast (op : CastOp) (value : Value) (ty : Ty)
  | select (condition onTrue onFalse : Value)
  | phi (ty : Ty) (incoming : List (Value × BlockId))
  | call (callee : Value) (args : List Value)
  | br (target : BlockId)
  | condBr (condition : Value) (onTrue onFalse : BlockId)
  | ret (value : Option Value)
  | unreachable
  deriving Repr, DecidableEq, Inhabited

namespace Func

/-- The finished instruction. Reading through something that is no pointer, and calling something
that is no pointer to a function, yields nothing. -/
def finish (f : Func) : Draft → Except Fault Instruction
  | .alloca ty count => return { opcode := .alloca ty, operands := [count], ty := .ptr ty }
  | .load address => do
    return { opcode := .load, operands := [address]
             ty := (← f.typeOf address).pointee?.getD .void }
  | .store value address => return { opcode := .store, operands := [value, address], ty := .void }
  | .binary op left right => do
    return { opcode := .binary op, operands := [left, right], ty := ← f.typeOf left }
  | .icmp comparison left right =>
    return { opcode := .icmp comparison, operands := [left, right], ty := .i1 }
  | .cast op value ty => return { opcode := .cast op, operands := [value], ty }
  | .select condition onTrue onFalse => do
    return { opcode := .select, operands := [condition, onTrue, onFalse], ty := ← f.typeOf onTrue }
  | .phi ty incoming =>
      return { opcode := .phi (incoming.map (·.2)), operands := incoming.map (·.1), ty }
  | .call callee args => do
    return { opcode := .call, operands := args ++ [callee], ty := (← f.typeOf callee).callResult }
  | .br target => return { opcode := .br target, operands := [], ty := .void }
  | .condBr condition onTrue onFalse =>
    return { opcode := .condBr onTrue onFalse, operands := [condition], ty := .void }
  | .ret value => return { opcode := .ret, operands := value.toList, ty := .void }
  | .unreachable => return { opcode := .unreachable, operands := [], ty := .void }

def insert (f : Func) (cursor : Cursor) (inst : Instruction) : Except Fault (Func × InstId) :=
  match cursor with
  | .atEnd block => f.append block inst
  | .before anchor => f.insertBefore anchor inst

def build (f : Func) (cursor : Cursor) (draft : Draft) : Except Fault (Func × InstId) := do
  f.insert cursor (← f.finish draft)

/-- Finishes a draft, puts it right before an instruction and yields its result. -/
def emitBefore (f : Func) (anchor : InstId) (draft : Draft) : Except Fault (Func × Value) := do
  let (f, id) ← f.build (.before anchor) draft
  return (f, .inst id)

end Func

end FaultIsolation
