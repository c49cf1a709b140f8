import FaultIsolation.Region.Address
import FaultIsolation.Region.Vetting
import FaultIsolation.Region.Audit
import FaultIsolation.Region.Base
import FaultIsolation.Region.Options
import FaultIsolation.Region.Stats

/-!
Confinement of one function. The instructions that stand in the function at the start are taken in
order. Each is vetted first, which changes nothing, and then its addresses and its length are
replaced by confined ones. A refusal ends the work and leaves the function as the instructions
before had it.
-/
namespace FaultIsolation

/-- Work in progress: the function, the region base once it is known, and the counts so far. -/
structure Pass where
  func : Func
  base : Option Value := none
  stats : Stats := {}
  deriving Repr, DecidableEq, Inhabited

/-- How to confine: where the base comes from, and the options. -/
structure Sandbox where
  source : BaseSource
  options : Options := {}

/-- How an address is folded, if the options allow it and the address is of that kind. -/
def Sandbox.foldable? (s : Sandbox) (f : Func) (pointer : Value) : Except Fault (Option Foldable) :=
  if s.options.fold then f.foldable? pointer else .ok none

/-- What became of a function: the function as it is left, and the counts or the refusal. -/
structure Outcome where
  func : Func
  result : Except Refusal Stats

namespace Pass

def tally (p : Pass) (counts : Stats) : Pass := { p with stats := p.stats.merge counts }

/-- Takes over a function that has grown, and counts what was inserted. One that has shrunk is a
fault. -/
def grow (p : Pass) (func : Func) : Except Fault Pass :=
  if func.instCount < p.func.instCount then .error (.shrunk p.func.instCount func.instCount)
  else .ok ({ p with func }.tally { inserted := func.instCount - p.func.instCount })

/-- The region base, brought into the function when it is first asked for. Bringing it in counts as
a base load only if it takes instructions. -/
def requireBase (p : Pass) (source : BaseSource) : Except Stop (Pass × Value) := do
  match p.base with
  | some base => return (p, base)
  | none =>
    let (func, base) ← source p.func
    let grown ← p.grow func
    let loads := if p.func.instCount < func.instCount then 1 else 0
    return ({ grown with base := some base }.tally { baseLoads := loads }, base)

def replace (p : Pass) (id : InstId) (position : Nat) (value : Value) : Except Stop Pass := do
  let func ← p.func.setOperand id position value
  return { p with func }

def sweep (p : Pass) (id : InstId) : Except Stop Pass := do
  let (func, removed) ← p.func.removeIfUnused id
  return { p with func }.tally { removed := if removed then 1 else 0 }

/-- Confines one address of an instruction. After folding, the conversion goes before the addition,
since it may hold the last use of it. -/
def confineAddress (p : Pass) (s : Sandbox) (id : InstId) (position : Nat) : Except Stop Pass := do
  let pointer ← p.func.addressOperand id position
  let ty ← p.func.typeOf pointer
  let (p, base) ← p.requireBase s.source
  match ← s.foldable? p.func pointer with
  | none =>
    let (func, confined) ← p.func.emitRebased id base pointer ty
    let p ← (← p.grow func).replace id position confined
    return p.tally { addresses := 1 }
  | some address =>
    let (func, confined) ← p.func.emitFolded id base address ty
    let p ← (← p.grow func).replace id position confined
    let p ← (p.tally { addresses := 1, folded := 1 }).sweep address.conversion
    p.sweep address.addition

/-- Clips the length of an instruction if it is a machine word. Lengths of other types stay. -/
def clipLength (p : Pass) (id : InstId) (position : Nat) : Except Stop Pass := do
  let length ← p.func.accessOperand id position
  if (← p.func.typeOf length) = .i64 then
    let (func, clipped) ← p.func.emitClipped id length
    let p ← (← p.grow func).replace id position clipped
    return p.tally { lengths := 1 }
  return p

/-- Confines one instruction that was vetted: its addresses in order, then its length. -/
def confine (p : Pass) (s : Sandbox) (id : InstId) : Except Stop Pass := do
  let access := Access.ofInstruction (← p.func.inst id)
  let p ← access.addresses.foldlM (fun p position => p.confineAddress s id position) p
  access.length?.toList.foldlM (fun p position => p.clipLength id position) p

/-- Deals with one instruction of the layout at the start. One that was removed meanwhile is passed
over. -/
def step (p : Pass) (s : Sandbox) (id : InstId) : Except Stop Pass := do
  if ← p.func.isLive id then
    p.func.vet id
    p.confine s id
  else return p

/-- Deals with instructions in order up to the first that is refused. -/
def walk (s : Sandbox) : List InstId → Pass → Except Fault (Pass × Option Refusal)
  | [], p => .ok (p, none)
  | id :: rest, p =>
    match p.step s id with
    | .ok p => walk s rest p
    | .error (.refused refusal) => .ok (p, some refusal)
    | .error (.fault fault) => .error fault

end Pass

namespace Sandbox

/-- The refusal of a confined function that does not pass the audit, if the options ask for one. -/
def failedAudit? (s : Sandbox) (f : Func) : Except Fault (Option Refusal) := do
  if s.options.audit then
    let auditor : Auditor := { baseSymbol := s.options.baseSymbol }
    let report ← auditor.audit f
    if auditor.accepts report then return none
    return some (.auditFailed f.name report.findings)
  return none

/-- Confines a function. A declaration is left alone and counts for nothing. -/
def run (s : Sandbox) (f : Func) : Except Fault Outcome := do
  if f.isDeclaration then return { func := f, result := .ok {} }
  let (p, refusal) ← Pass.walk s f.layout { func := f }
  match refusal with
  | some refusal => return { func := p.func, result := .error refusal }
  | none =>
    match ← s.failedAudit? p.func with
    | some refusal => return { func := p.func, result := .error refusal }
    | none => return { func := p.func, result := .ok { p.stats with functions := 1 } }

end Sandbox

end FaultIsolation
