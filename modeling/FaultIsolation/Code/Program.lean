import FaultIsolation.Code.Text

/-!
Programs: named variables and functions. Names need not be unique; looking one up finds the first.
-/
namespace FaultIsolation

/-- A variable that is defined elsewhere, with the type of its contents. -/
structure Global where
  name : String
  contents : Ty
  deriving Repr, DecidableEq, Inhabited

def Global.symbol (g : Global) : Symbol := .global g.name g.contents

structure Program where
  name : String
  globals : List Global := []
  functions : List Func := []
  deriving Repr, DecidableEq, Inhabited

namespace Program

def global? (p : Program) (name : String) : Option Global := p.globals.find? (·.name = name)

def function? (p : Program) (name : String) : Option Func := p.functions.find? (·.name = name)

/-- Adds a variable after the others, whatever they are called. -/
def addGlobal (p : Program) (g : Global) : Program := { p with globals := p.globals ++ [g] }

def addFunction (p : Program) (f : Func) : Program := { p with functions := p.functions ++ [f] }

/-- The written form: the variables, then each function after an empty line. -/
def text (p : Program) : Except Fault String := do
  let globals := p.globals.map fun g => s!"@{g.name} = external global {g.contents.text}\n"
  let functions ← p.functions.mapM Func.text
  return String.join globals ++ String.join (functions.map ("\n" ++ ·))

end Program

end FaultIsolation
