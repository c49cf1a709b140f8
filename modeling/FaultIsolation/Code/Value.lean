import FaultIsolation.Code.Constant

/-!
What an instruction can take as operand: the result of another instruction, a parameter of the
function, a constant or a symbol. Instructions and blocks are named by their number in the function
that holds them.
-/
namespace FaultIsolation

/-- The number of an instruction in its function, given when it is created and never given again.
Numbers have no bound here. A machine that keeps them in 32 bits does the same as long as a
function has had fewer than 2³² instructions, the removed ones among them. -/
abbrev InstId := Nat

/-- The number of a block in its function, with no bound either. -/
abbrev BlockId := Nat

/-- A name that stands for an address outside the function. -/
structure Symbol where
  name : String
  ty : Ty
  deriving Repr, DecidableEq, Inhabited

namespace Symbol

/-- The symbol of a variable: a pointer to its contents. -/
def global (name : String) (contents : Ty) : Symbol := ⟨name, .ptr contents⟩

/-- The symbol of a function: a pointer to code of that signature. -/
def function (name : String) (result : Ty) (params : List Ty) : Symbol :=
  ⟨name, .ptr (.fn result params)⟩

end Symbol

/-- An operand. -/
inductive Value where
  | inst (id : InstId)
  | arg (index : Nat)
  | const (constant : Constant)
  | global (symbol : Symbol)
  deriving Repr, DecidableEq, Inhabited

namespace Value

def ofWord (bits : Nat) (word : UInt64) : Value := .const (.ofWord bits word)

end Value

end FaultIsolation
