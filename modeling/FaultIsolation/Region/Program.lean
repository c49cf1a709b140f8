import FaultIsolation.Code.Program
import FaultIsolation.Region.Pool

/-!
Confinement of whole programs. All functions take the region base from one variable, which is
declared if it is not there. The functions do not depend on each other, so they can be taken one
after the other or by a pool of workers; a program is confined as a whole or not at all.
-/
namespace FaultIsolation

namespace Program

/-- The symbol of the variable of a name, which is declared if there is none. An existing one must
have the same contents. -/
def requireGlobal (p : Program) (name : String) (contents : Ty) :
    Except Refusal (Program × Symbol) :=
  match p.global? name with
  | some found =>
    if found.contents = contents then .ok (p, found.symbol)
    else .error (.globalMismatch name contents found.contents)
  | none =>
    let g : Global := { name, contents }
    .ok (p.addGlobal g, g.symbol)

/-- The program with its region variable, and how its functions are to be confined. -/
def prepare (p : Program) (options : Options) : Except Stop (Program × Sandbox) :=
  match p.requireGlobal options.baseSymbol .i64 with
  | .ok (p, symbol) => .ok (p, { source := .ofSymbol symbol, options })
  | .error refusal => .error (.refused refusal)

end Program

namespace Sandbox

def runOrStop (s : Sandbox) (f : Func) : Except Stop (Func × Stats) := do
  let outcome ← s.run f
  match outcome.result with
  | .ok stats => return (outcome.func, stats)
  | .error refusal => throw (.refused refusal)

/-- Confines functions one after the other up to the first that is refused, and adds to the counts
on the way. -/
def runAll (s : Sandbox) : List Func → Stats → Except Stop (List Func × Stats)
  | [], counts => return ([], counts)
  | f :: rest, counts => do
    let (f, stats) ← s.runOrStop f
    let (rest, counts) ← s.runAll rest (counts.merge stats)
    return (f :: rest, counts)

end Sandbox

def Program.sandbox (p : Program) (options : Options) : Except Stop (Program × Stats) := do
  let (p, s) ← p.prepare options
  let (functions, stats) ← s.runAll p.functions {}
  return ({ p with functions }, stats)

namespace Program

/-- The program with its functions as they were left and the counts added up, unless one was
refused. -/
def conclude (p : Program) (functions : List Func) :
    Except Refusal (List Stats) → Except Stop (Program × Stats)
  | .ok counts => .ok ({ p with functions }, counts.foldl Stats.merge {})
  | .error refusal => .error (.refused refusal)

/-- Confines the functions of a program by a pool of workers. A single function needs no pool. -/
def sandboxShared (p : Program) (options : Options) (sharing : Sharing) (pools : PoolSource) :
    Except Stop (Program × Stats) := do
  let (p, s) ← p.prepare options
  if p.functions.length ≤ 1 then
    let (functions, stats) ← s.runAll p.functions {}
    return ({ p with functions }, stats)
  match pools (min sharing.maxWorkers p.functions.length) with
  | .error cause => .error (.refused (.noPool cause))
  | .ok pool =>
    let (functions, counts) ← pool.share sharing.failFast s.run p.functions
    p.conclude functions counts

end Program

end FaultIsolation
