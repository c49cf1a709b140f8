import FaultIsolation.Code.Edit
import FaultIsolation.Region.Refusal

/-!
Where the base of the region comes from. It is known only when the code runs, so a function has to
compute or load it; how is left open here.
-/
namespace FaultIsolation

/-- Brings the region base into a function: the function with whatever computes the base, and the
value that holds it. -/
abbrev BaseSource := Func → Except Stop (Func × Value)

namespace BaseSource

/-- Loads the base from a variable at the head of the function. -/
def ofSymbol (symbol : Symbol) : BaseSource := fun f =>
  match f.entry? with
  | none => .error (.refused (.noEntryBlock f.name))
  | some entry => do
    let load : Instruction :=
      { opcode := .load, operands := [.global symbol], ty := .i64, name := some "mem_base" }
    let (f, id) ← f.prepend entry load
    return (f, .inst id)

def ofValue (value : Value) : BaseSource := fun f => .ok (f, value)

/-- Puts instructions at the head of the function, each before the one given before it, and takes
the result of the last. Without instructions it takes the first parameter. -/
def ofInstructions (insts : List Instruction) : BaseSource := fun f =>
  insts.foldlM (fun (f, _) inst =>
    match f.entry? with
    | none => .error (.refused (.noEntryBlock f.name))
    | some entry => do
      let (f, id) ← f.prepend entry inst
      return (f, .inst id))
    (f, .arg 0)

end BaseSource

end FaultIsolation
