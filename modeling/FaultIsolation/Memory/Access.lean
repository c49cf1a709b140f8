import FaultIsolation.Memory.Intrinsic

/-!
What an instruction does with memory. Every opcode falls in exactly one class, and the class says
which operands are addresses and which one is a length in bytes.
-/
namespace FaultIsolation

/-- How an instruction deals with memory and pointers. -/
inductive Access where
  /-- Reads through its first operand. -/
  | load
  /-- Writes its first operand through its second. -/
  | store
  /-- Copies a block: to, from, length. -/
  | transfer
  /-- Fills a block: to, byte, length. -/
  | fill
  /-- Touches shared memory at one argument. -/
  | atomic (address : Nat)
  /-- Orders accesses to shared memory and touches none. -/
  | fence
  /-- Handles pointers without touching memory. -/
  | exempt
  /-- Calls code that is not known here. -/
  | call
  /-- Anything else. -/
  | other
  deriving Repr, DecidableEq, Inhabited

namespace Access

def ofInstruction (inst : Instruction) : Access :=
  match inst.opcode with
  | .load => .load
  | .store => .store
  | .cast .intToPtr | .cast .ptrToInt | .ret => .exempt
  | .call =>
    match Intrinsic.ofCall? inst with
    | some .memCpy | some .memMove => .transfer
    | some .memSet => .fill
    | some (.atomic op) =>
      match op.address? with
      | some address => .atomic address
      | none => .fence
    | none => .call
  | .alloca _ | .binary _ | .icmp _ | .cast _ | .select | .phi _ | .br _ | .condBr _ _
  | .unreachable => .other

def addresses : Access → List Nat
  | .load | .fill => [0]
  | .store => [1]
  | .transfer => [0, 1]
  | .atomic address => [address]
  | .fence | .exempt | .call | .other => []

def length? : Access → Option Nat
  | .transfer | .fill => some 2
  | _ => none

/-- The values of an instruction of this class that nothing confines, so none of them may be a
pointer: what a call passes, and all operands of an instruction that is no access. -/
def unconfined (access : Access) (inst : Instruction) : List Value :=
  match access with
  | .fence | .call => inst.args
  | .other => inst.operands
  | .load | .store | .transfer | .fill | .atomic _ | .exempt => []

end Access

end FaultIsolation
