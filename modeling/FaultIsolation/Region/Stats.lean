import FaultIsolation.Code.Ty
import FaultIsolation.Json.Record

/-!
What confinement did, in numbers.
-/
namespace FaultIsolation

structure Stats where
  /-- Functions that were confined. -/
  functions : Nat := 0
  /-- Functions that got instructions to bring in the region base. -/
  baseLoads : Nat := 0
  /-- Addresses that were confined, the folded ones among them. -/
  addresses : Nat := 0
  /-- Addresses whose constant part was added after rebasing. -/
  folded : Nat := 0
  /-- Lengths that were clipped. -/
  lengths : Nat := 0
  /-- Instructions that were put in. -/
  inserted : Nat := 0
  /-- Instructions that were taken out. -/
  removed : Nat := 0
  deriving Repr, DecidableEq, Inhabited

namespace Stats

def merge (a b : Stats) : Stats where
  functions := a.functions + b.functions
  baseLoads := a.baseLoads + b.baseLoads
  addresses := a.addresses + b.addresses
  folded := a.folded + b.folded
  lengths := a.lengths + b.lengths
  inserted := a.inserted + b.inserted
  removed := a.removed + b.removed

@[simp] theorem merge_empty (a : Stats) : a.merge {} = a := rfl

@[simp] theorem empty_merge (a : Stats) : merge {} a = a := by simp [merge]

theorem merge_assoc (a b c : Stats) : (a.merge b).merge c = a.merge (b.merge c) := by
  simp [merge, Nat.add_assoc]

def toList (s : Stats) : List Nat :=
  [s.functions, s.baseLoads, s.addresses, s.folded, s.lengths, s.inserted, s.removed]

def fits (s : Stats) : Bool := s.toList.all (· < UInt64.size)

/-- The counts of several reports together, as long as they fit. -/
def total? (reports : List Stats) : Option Stats :=
  let sum := reports.foldl merge {}
  if sum.fits then some sum else none

/-- The names of the counts, in the order of `toList`. -/
def fieldNames : List String :=
  ["functions", "base_loads", "pointers_sandboxed", "addresses_folded", "lengths_clipped",
    "instructions_inserted", "instructions_removed"]

def ofList? : List Nat → Option Stats
  | [functions, baseLoads, addresses, folded, lengths, inserted, removed] =>
    some { functions, baseLoads, addresses, folded, lengths, inserted, removed }
  | _ => none

/-- Reads counts from JSON. All of them must be there, as whole numbers that fit in a machine
word. -/
def ofJson? (source : String) : Option Stats := do
  let fields ← Json.Record.ofText? fieldNames source
  let stats ← ofList? (← fields.mapM (·.bind Json.natural?))
  if stats.fits then some stats else none

end Stats

end FaultIsolation
