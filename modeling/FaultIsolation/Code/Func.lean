import FaultIsolation.Code.Instruction

/-!
A function: a store of instructions addressed by number, and blocks that hold the order in which
they run. Numbers stay valid for ever. A removed instruction keeps its place in the store, with its
opcode, type, name and block, and has lost its operands; it stands in no block any more.
-/
namespace FaultIsolation

def total {α : Type} (count : α → Nat) (xs : List α) : Nat :=
  xs.foldr (fun x sum => count x + sum) 0

@[simp] theorem total_nil {α : Type} (count : α → Nat) : total count [] = 0 := rfl

@[simp] theorem total_cons {α : Type} (count : α → Nat) (x : α) (xs : List α) :
    total count (x :: xs) = count x + total count xs := rfl

/-- Misuse of a function: asking for what is not there, removing what must stay, or counting what
was put in where something was taken out. -/
inductive Fault where
  /-- No instruction has ever had this number. -/
  | noInstruction (id : InstId)
  /-- There is no block of this number. -/
  | noBlock (id : BlockId)
  /-- The instruction has no operand at this position. -/
  | noOperand (id : InstId) (position : Nat)
  /-- The instruction is still an operand of another. -/
  | stillUsed (id : InstId)
  /-- The instruction has been removed before. -/
  | alreadyRemoved (id : InstId)
  /-- Fewer instructions stand in blocks than before, so the difference is no count. -/
  | shrunk (before after : Nat)
  deriving Repr, DecidableEq, Inhabited

/-- A place in the store: an instruction, the block it was put in, how many operands refer to it,
and whether it still stands in that block. -/
structure Node where
  inst : Instruction
  block : BlockId
  /-- Counted without a bound, like a count in 32 bits while fewer than 2³² operands refer to the
  instruction. -/
  uses : Nat := 0
  live : Bool := true
  deriving Repr, DecidableEq, Inhabited

/-- A block: its label and the instructions that stand in it, in order. -/
structure Block where
  name : String
  insts : List InstId := []
  deriving Repr, DecidableEq, Inhabited

/-- A function. Instruction `n` is `nodes[n]` and block `n` is `blocks[n]`. -/
structure Func where
  name : String
  params : List Ty
  result : Ty
  nodes : List Node := []
  blocks : List Block := []
  deriving Repr, DecidableEq, Inhabited

namespace Func

def isDeclaration (f : Func) : Bool := f.blocks.isEmpty

def entry? (f : Func) : Option BlockId := if f.isDeclaration then none else some 0

/-- The instructions that stand in blocks, block after block. -/
def layout (f : Func) : List InstId := f.blocks.flatMap Block.insts

def instCount (f : Func) : Nat := total (fun b => b.insts.length) f.blocks

theorem instCount_eq_length_layout (f : Func) : f.instCount = f.layout.length := by
  rw [instCount, layout]
  induction f.blocks with
  | nil => rfl
  | cons b rest ih => simp [ih]

def entryHead? (f : Func) : Option InstId := f.blocks.head?.bind fun b => b.insts.head?

def node (f : Func) (id : InstId) : Except Fault Node :=
  match f.nodes[id]? with
  | some node => .ok node
  | none => .error (.noInstruction id)

def block (f : Func) (id : BlockId) : Except Fault Block :=
  match f.blocks[id]? with
  | some block => .ok block
  | none => .error (.noBlock id)

def inst (f : Func) (id : InstId) : Except Fault Instruction := (f.node id).map Node.inst

def isLive (f : Func) (id : InstId) : Except Fault Bool := (f.node id).map Node.live

def useCount (f : Func) (id : InstId) : Except Fault Nat := (f.node id).map Node.uses

/-- The type of a value as seen inside the function. A parameter that the function does not have is
void. -/
def typeOf (f : Func) : Value → Except Fault Ty
  | .inst id => (f.inst id).map Instruction.ty
  | .arg index => .ok (f.params.getD index .void)
  | .const constant => .ok constant.ty
  | .global symbol => .ok symbol.ty

def pointerPosition? (f : Func) : List Value → Except Fault (Option Nat)
  | [] => return none
  | value :: rest => do
    if (← f.typeOf value).isPointer then return some 0
    return (← f.pointerPosition? rest).map (· + 1)

end Func

end FaultIsolation
