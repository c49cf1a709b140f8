import FaultIsolation.Region.Pass

/-!
Pools of workers. A pool has functions worked on, each in place and apart from the others. How
many workers there are, which of them takes which function and when, and what happens if work on
a function faults, is the pool's own affair.
-/
namespace FaultIsolation

structure Sharing where
  /-- How many workers there may be. -/
  maxWorkers : Nat
  /-- Whether a refusal ends the work at once, so that functions whose turn has not come are not
  looked at. -/
  failFast : Bool := false
  deriving Repr, DecidableEq, Inhabited

/-- What holds unless it is said otherwise, on a machine of so many processors. -/
def Sharing.onMachine (processors : Nat) : Sharing := { maxWorkers := processors }

/-- Work on one function, which leaves it changed. -/
abbrev Work := Func → Except Fault Outcome

structure Pool where
  /-- Has all functions worked on. Yields the functions as they are left, and all results. -/
  gather : Work → List Func → Except Fault (List Func × List (Except Refusal Stats))
  /-- Has functions worked on up to a refusal. Yields the functions as they are left, and all
  counts or the refusal. -/
  gatherUntilRefused : Work → List Func → Except Fault (List Func × Except Refusal (List Stats))

/-- Makes a pool of so many workers, or says why there is none. -/
abbrev PoolSource := Nat → Except String Pool

namespace Pool

/-- Shares the work out. Where all functions are worked on, the first refusal in their order is
the refusal of all. -/
def share (pool : Pool) (failFast : Bool) (work : Work) (fs : List Func) :
    Except Fault (List Func × Except Refusal (List Stats)) :=
  if failFast then pool.gatherUntilRefused work fs
  else do
    let (functions, results) ← pool.gather work fs
    return (functions, results.mapM id)

/-- Works on functions in order up to the first that is refused. -/
def workUntilRefused (work : Work) :
    List Func → Except Fault (List Func × Except Refusal (List Stats))
  | [] => return ([], .ok [])
  | f :: rest => do
    let outcome ← work f
    match outcome.result with
    | .error refusal => return (outcome.func :: rest, .error refusal)
    | .ok stats =>
      let (functions, counts) ← workUntilRefused work rest
      return (outcome.func :: functions, counts.map (stats :: ·))

/-- A single worker that takes the functions from the last to the first. -/
def backwards : Pool where
  gather work fs := do
    let outcomes ← fs.reverse.mapM work
    return (outcomes.reverse.map (·.func), outcomes.reverse.map (·.result))
  gatherUntilRefused work fs := do
    let (functions, counts) ← workUntilRefused work fs.reverse
    return (functions.reverse, counts.map List.reverse)

end Pool

end FaultIsolation
