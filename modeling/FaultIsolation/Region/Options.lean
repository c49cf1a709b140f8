import FaultIsolation.Json.Record

/-!
The choices of a user, and how they are read.
-/
namespace FaultIsolation

/-- The variable that holds the region base unless another is named. -/
def defaultBaseSymbol : String := "__sfi_memory_base"

/-- The choices a user has. Folding the constant part of an address into the rebased address saves
work and needs unmapped memory after the region; the audit checks each function once it is
confined. -/
structure Options where
  baseSymbol : String := defaultBaseSymbol
  fold : Bool := true
  audit : Bool := false
  deriving Repr, DecidableEq, Inhabited

namespace Options

def fieldNames : List String := ["base_symbol", "fold_address_arithmetic", "verify"]

/-- A choice that was not made keeps its default; one that was made must have the right kind. -/
def choose {α : Type} (fallback : α) (read : Json → Option α) : Option Json → Option α
  | none => some fallback
  | some field => read field

def ofJson? (source : String) : Option Options := do
  match ← Json.Record.ofText? fieldNames source with
  | [baseSymbol, fold, audit] =>
    let default : Options := {}
    return {
      baseSymbol := ← choose default.baseSymbol Json.string? baseSymbol
      fold := ← choose default.fold Json.bool? fold
      audit := ← choose default.audit Json.bool? audit }
  | _ => none

end Options

end FaultIsolation
