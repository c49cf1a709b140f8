import FaultIsolation.Code.Func

/-!
Edits of a function. Each either goes through or names the fault that stops it, and every edit keeps
the use counts equal to the number of operands that refer to an instruction. New instructions get
the next number.
-/
namespace FaultIsolation

namespace Func

/-- Adds an empty block after the others. Its number is the former number of blocks. -/
def addBlock (f : Func) (name : String) : Func := { f with blocks := f.blocks ++ [{ name }] }

def modifyNode (f : Func) (id : InstId) (change : Node → Node) : Except Fault Func :=
  match f.nodes[id]? with
  | some node => .ok { f with nodes := f.nodes.set id (change node) }
  | none => .error (.noInstruction id)

def modifyBlock (f : Func) (id : BlockId) (change : List InstId → List InstId) :
    Except Fault Func :=
  match f.blocks[id]? with
  | some block =>
      .ok { f with blocks := f.blocks.set id { block with insts := change block.insts } }
  | none => .error (.noBlock id)

def addUse (f : Func) : Value → Except Fault Func
  | .inst id => f.modifyNode id fun node => { node with uses := node.uses + 1 }
  | _ => .ok f

def dropUse (f : Func) : Value → Except Fault Func
  | .inst id => f.modifyNode id fun node => { node with uses := node.uses - 1 }
  | _ => .ok f

/-- Gives an instruction the next number. It refers to its operands from now on, and stands in no
block yet. -/
def allocate (f : Func) (block : BlockId) (inst : Instruction) : Except Fault (Func × InstId) := do
  let f ← inst.operands.foldlM addUse f
  return ({ f with nodes := f.nodes ++ [{ inst, block }] }, f.nodes.length)

def append (f : Func) (block : BlockId) (inst : Instruction) : Except Fault (Func × InstId) := do
  let (f, id) ← f.allocate block inst
  return (← f.modifyBlock block (· ++ [id]), id)

def prepend (f : Func) (block : BlockId) (inst : Instruction) : Except Fault (Func × InstId) := do
  let (f, id) ← f.allocate block inst
  return (← f.modifyBlock block (id :: ·), id)

/-- The list with `new` right before the first `anchor`, or at the end if there is none. -/
def spliceBefore (anchor new : InstId) : List InstId → List InstId
  | [] => [new]
  | id :: rest => if id = anchor then new :: id :: rest else id :: spliceBefore anchor new rest

theorem spliceBefore_append {anchor new : InstId} {front back : List InstId}
    (hFront : anchor ∉ front) :
    spliceBefore anchor new (front ++ anchor :: back) = front ++ new :: anchor :: back := by
  induction front with
  | nil => simp [spliceBefore]
  | cons head rest ih =>
    simp only [List.mem_cons, not_or] at hFront
    simp [spliceBefore, Ne.symm hFront.1, ih hFront.2]

theorem spliceBefore_of_not_mem {anchor new : InstId} {order : List InstId}
    (hOrder : anchor ∉ order) : spliceBefore anchor new order = order ++ [new] := by
  induction order with
  | nil => rfl
  | cons head rest ih =>
    simp only [List.mem_cons, not_or] at hOrder
    simp [spliceBefore, Ne.symm hOrder.1, ih hOrder.2]

/-- Puts a new instruction right before another, in the same block. A removed instruction stands
nowhere, so the new one goes to the end of the block it was in. -/
def insertBefore (f : Func) (anchor : InstId) (inst : Instruction) :
    Except Fault (Func × InstId) := do
  let block := (← f.node anchor).block
  let (f, id) ← f.allocate block inst
  return (← f.modifyBlock block (spliceBefore anchor id), id)

def setOperand (f : Func) (id : InstId) (position : Nat) (value : Value) : Except Fault Func := do
  let f ← f.addUse value
  let node ← f.node id
  match node.inst.operands[position]? with
  | none => throw (.noOperand id position)
  | some old =>
    let operands := node.inst.operands.set position value
    let f ← f.modifyNode id fun node => { node with inst := { node.inst with operands } }
    f.dropUse old

/-- Takes an instruction that nothing refers to out of its block, and its operands away from it. -/
def remove (f : Func) (id : InstId) : Except Fault Func := do
  let node ← f.node id
  unless node.uses = 0 do throw (.stillUsed id)
  unless node.live do throw (.alreadyRemoved id)
  let f ← f.modifyBlock node.block (·.filter (· ≠ id))
  let f ← f.modifyNode id fun node =>
    { node with live := false, inst := { node.inst with operands := [] } }
  node.inst.operands.foldlM dropUse f

/-- Removes the instruction if it still stands in a block and nothing refers to it any more, and
says whether it did. -/
def removeIfUnused (f : Func) (id : InstId) : Except Fault (Func × Bool) := do
  let node ← f.node id
  if node.live ∧ node.uses = 0 then return (← f.remove id, true)
  return (f, false)

end Func

end FaultIsolation
