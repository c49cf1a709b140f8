import FaultIsolation.Code.Text
import FaultIsolation.Memory.Access
import FaultIsolation.Region.Refusal

/-!
Which instructions may be confined. An access must have its addresses and its length, and its
addresses must be pointers. Anything else must not take a pointer at all, unless it is known to be
harmless: what this check lets pass without a confined address is all that code can do with a
pointer.
-/
namespace FaultIsolation

namespace Func

def accessOperand (f : Func) (id : InstId) (position : Nat) : Except Stop Value := do
  let inst ← f.inst id
  match inst.accessOperand? position with
  | some value => return value
  | none => throw (.refused (.missingOperand ⟨f.name, inst.opcode, position⟩))

/-- The operand of a memory access at a position, which must be a pointer. -/
def addressOperand (f : Func) (id : InstId) (position : Nat) : Except Stop Value := do
  let value ← f.accessOperand id position
  let ty ← f.typeOf value
  if ty.isPointer then return value
  let inst ← f.inst id
  throw (.refused (.notAPointer ⟨f.name, inst.opcode, position⟩ ty))

def refusePointers (f : Func) (id : InstId) (values : List Value) : Except Stop Unit := do
  match ← f.pointerPosition? values with
  | none => return ()
  | some position =>
    let inst ← f.inst id
    let text ← f.instText id
    throw (.refused (.strayPointer ⟨f.name, inst.opcode, position⟩ text))

/-- Lets an instruction pass or refuses it. First come the addresses in order, then the length, then
the values that nothing confines. -/
def vet (f : Func) (id : InstId) : Except Stop Unit := do
  let inst ← f.inst id
  let access := Access.ofInstruction inst
  access.addresses.forM fun position => discard (f.addressOperand id position)
  access.length?.toList.forM fun position => discard (f.accessOperand id position)
  f.refusePointers id (access.unconfined inst)

end Func

end FaultIsolation
