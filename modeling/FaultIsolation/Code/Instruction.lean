import FaultIsolation.Code.Value

/-!
Single instructions: what they do, what they take and what they yield. Nothing here ties the number
of operands to the opcode, so every reading of an operand may find it missing.
-/
namespace FaultIsolation

inductive BinaryOp where
  | add | sub | mul | udiv | sdiv | urem | srem | and | or | xor | shl | lshr | ashr
  deriving Repr, DecidableEq, Inhabited

inductive CastOp where
  | trunc | zext | sext | ptrToInt | intToPtr | bitcast
  deriving Repr, DecidableEq, Inhabited

inductive Comparison where
  | eq | ne | ult | ule | ugt | uge | slt | sle | sgt | sge
  deriving Repr, DecidableEq, Inhabited

/-- What an instruction does. A join lists the blocks its operands come from, and jumps name their
targets. -/
inductive Opcode where
  | alloca (ty : Ty)
  | load
  | store
  | binary (op : BinaryOp)
  | icmp (comparison : Comparison)
  | cast (op : CastOp)
  | select
  | phi (sources : List BlockId)
  | call
  | br (target : BlockId)
  | condBr (onTrue onFalse : BlockId)
  | ret
  | unreachable
  deriving Repr, DecidableEq, Inhabited

def BinaryOp.mnemonic : BinaryOp → String
  | .add => "add"
  | .sub => "sub"
  | .mul => "mul"
  | .udiv => "udiv"
  | .sdiv => "sdiv"
  | .urem => "urem"
  | .srem => "srem"
  | .and => "and"
  | .or => "or"
  | .xor => "xor"
  | .shl => "shl"
  | .lshr => "lshr"
  | .ashr => "ashr"

def CastOp.mnemonic : CastOp → String
  | .trunc => "trunc"
  | .zext => "zext"
  | .sext => "sext"
  | .ptrToInt => "ptrtoint"
  | .intToPtr => "inttoptr"
  | .bitcast => "bitcast"

def Comparison.mnemonic : Comparison → String
  | .eq => "eq"
  | .ne => "ne"
  | .ult => "ult"
  | .ule => "ule"
  | .ugt => "ugt"
  | .uge => "uge"
  | .slt => "slt"
  | .sle => "sle"
  | .sgt => "sgt"
  | .sge => "sge"

/-- The word an instruction is written with. Both kinds of jump are written `br`. -/
def Opcode.mnemonic : Opcode → String
  | .alloca _ => "alloca"
  | .load => "load"
  | .store => "store"
  | .binary op => op.mnemonic
  | .icmp _ => "icmp"
  | .cast op => op.mnemonic
  | .select => "select"
  | .phi _ => "phi"
  | .call => "call"
  | .br _ | .condBr _ _ => "br"
  | .ret => "ret"
  | .unreachable => "unreachable"

/-- An instruction with its operands, the type of its result and, if it has one, its name. A call
takes its arguments first and what it calls last. -/
structure Instruction where
  opcode : Opcode
  operands : List Value
  ty : Ty
  name : Option String := none
  deriving Repr, DecidableEq, Inhabited

namespace Instruction

def callee? (i : Instruction) : Option Value :=
  match i.opcode with
  | .call => i.operands.getLast?
  | _ => none

/-- What a call passes: all its operands but the last. Other instructions pass nothing. -/
def args (i : Instruction) : List Value :=
  match i.opcode with
  | .call => i.operands.dropLast
  | _ => []

def isCast (i : Instruction) (op : CastOp) : Bool := i.opcode = .cast op

/-- The operand a memory access reads at a position: among the arguments for a call, so that the
callee is never taken for one, and among all operands for anything else. -/
def accessOperand? (i : Instruction) (position : Nat) : Option Value :=
  match i.opcode with
  | .call => i.args[position]?
  | _ => i.operands[position]?

end Instruction

end FaultIsolation
