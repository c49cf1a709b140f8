import FaultIsolation.Region.Pass

/-!
The pass in place. A step of the pass gives a new state or none, so what a refused step had done
before is not seen. Here the same work is done on a state that every single edit changes for good,
and that stays as it is when the work stops.
-/
namespace FaultIsolation

/-- Work on a function in place. What was done before a stop stays done. -/
abbrev Editing := EStateM Stop Pass

namespace Editing

variable {α : Type}

def ask (question : Func → Except Stop α) : Editing α := fun p =>
  match question p.func with
  | .ok a => .ok a p
  | .error stop => .error stop p

def edit (change : Func → Except Stop (Func × α)) : Editing α := fun p =>
  match change p.func with
  | .ok (func, a) => .ok a { p with func }
  | .error stop => .error stop p

def tally (counts : Stats) : Editing Unit := modify (·.tally counts)

/-- Counts what some work puts in. -/
def counting (work : Editing α) : Editing α := do
  let before := (← get).func.instCount
  let a ← work
  let after := (← get).func.instCount
  if after < before then throw (.fault (.shrunk before after))
  tally { inserted := after - before }
  return a

/-- Puts one instruction before another, for good. -/
def emit (anchor : InstId) (draft : Draft) : Editing Value :=
  edit fun f => Stop.ofEdit (f.emitBefore anchor draft)

/-- Puts in what rebases a pointer, instruction by instruction. -/
def emitRebased (anchor : InstId) (base pointer : Value) (ty : Ty) : Editing Value := do
  let low ← emit anchor (.cast .ptrToInt pointer .i32)
  let wide ← emit anchor (.cast .zext low .i64)
  let sum ← emit anchor (.binary .add base wide)
  emit anchor (.cast .intToPtr sum ty)

/-- Puts in what rebases an offset and adds the constant afterwards. -/
def emitFolded (anchor : InstId) (base : Value) (address : Foldable) (ty : Ty) : Editing Value := do
  let wide ← emit anchor (.cast .zext address.index .i64)
  let sum ← emit anchor (.binary .add base wide)
  let sum ← emit anchor (.binary .add sum (.ofWord machineWidth address.constant))
  emit anchor (.cast .intToPtr sum ty)

def emitClipped (anchor : InstId) (length : Value) : Editing Value := do
  let low ← emit anchor (.cast .trunc length .i32)
  emit anchor (.cast .zext low .i64)

/-- The region base. If the source of it stops, what it had put in by then is not kept: a source
is asked as a whole. -/
def requireBase (source : BaseSource) : Editing Value := do
  let p ← get
  match p.base with
  | some base => return base
  | none =>
    let base ← counting (edit source)
    let loads := if p.func.instCount < (← get).func.instCount then 1 else 0
    modify fun p => { p with base := some base }
    tally { baseLoads := loads }
    return base

def replace (id : InstId) (position : Nat) (value : Value) : Editing Unit :=
  edit fun f => Stop.ofEdit ((f.setOperand id position value).map (·, ()))

def sweep (id : InstId) : Editing Unit := do
  let removed ← edit fun f => Stop.ofEdit (f.removeIfUnused id)
  tally { removed := if removed then 1 else 0 }

/-- Confines one address. The pointer is read and typed before anything is put in. -/
def confineAddress (s : Sandbox) (id : InstId) (position : Nat) : Editing Unit := do
  let pointer ← ask (·.addressOperand id position)
  let ty ← ask fun f => Stop.ofEdit (f.typeOf pointer)
  let base ← requireBase s.source
  match ← ask fun f => Stop.ofEdit (s.foldable? f pointer) with
  | none =>
    let confined ← counting (emitRebased id base pointer ty)
    replace id position confined
    tally { addresses := 1 }
  | some address =>
    let confined ← counting (emitFolded id base address ty)
    replace id position confined
    tally { addresses := 1, folded := 1 }
    sweep address.conversion
    sweep address.addition

/-- Clips one length, if it is a machine word. -/
def clipLength (id : InstId) (position : Nat) : Editing Unit := do
  let length ← ask (·.accessOperand id position)
  if (← ask fun f => Stop.ofEdit (f.typeOf length)) = .i64 then
    let clipped ← counting (emitClipped id length)
    replace id position clipped
    tally { lengths := 1 }

def confine (s : Sandbox) (id : InstId) : Editing Unit := do
  let access := Access.ofInstruction (← ask fun f => Stop.ofEdit (f.inst id))
  access.addresses.forM (confineAddress s id)
  access.length?.toList.forM (clipLength id)

/-- Deals with one instruction. One that was removed meanwhile is passed over. -/
def step (s : Sandbox) (id : InstId) : Editing Unit := do
  if ← ask fun f => Stop.ofEdit (f.isLive id) then
    ask (·.vet id)
    confine s id

/-- Deals with instructions in order until one of them stops the work. -/
def walk (s : Sandbox) (ids : List InstId) : Editing Unit := ids.forM (step s)

end Editing

end FaultIsolation
