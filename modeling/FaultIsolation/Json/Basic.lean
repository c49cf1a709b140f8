import FaultIsolation.Json.Token

/-!
JSON values and how they are read. A value keeps the members of an object in order and with
repetitions.
-/
namespace FaultIsolation

inductive Json where
  | null
  | bool (value : Bool)
  | number (literal : List Char)
  | string (text : Json.Text)
  | array (items : List Json)
  | object (members : List (Json.Text × Json))
  deriving Repr, Inhabited

namespace Json

/-- A container part way through: what has been read of it, the latest first, and for an object the
name of the member that is being read. -/
inductive Frame where
  | items (done : List Json)
  | members (done : List (Text × Json)) (name : Text)
  deriving Repr, Inhabited

mutual

/-- Reads a value inside the given containers, the innermost first, and then the rest of them. -/
def readValue : List Token → List Frame → Option Json
  | .openArray :: .closeArray :: rest, frames => readRest rest (.array []) frames
  | .openArray :: rest, frames => readValue rest (.items [] :: frames)
  | .openObject :: .closeObject :: rest, frames => readRest rest (.object []) frames
  | .openObject :: .string name :: .colon :: rest, frames =>
      readValue rest (.members [] name :: frames)
  | .null :: rest, frames => readRest rest .null frames
  | .bool value :: rest, frames => readRest rest (.bool value) frames
  | .number literal :: rest, frames => readRest rest (.number literal) frames
  | .string text :: rest, frames => readRest rest (.string text) frames
  | _, _ => none

/-- Reads on after a value that belongs to the innermost container. Outside of all containers
nothing may follow it. -/
def readRest : List Token → Json → List Frame → Option Json
  | [], value, [] => some value
  | .comma :: rest, value, .items done :: frames =>
      readValue rest (.items (value :: done) :: frames)
  | .closeArray :: rest, value, .items done :: frames =>
      readRest rest (.array (value :: done).reverse) frames
  | .comma :: .string next :: .colon :: rest, value, .members done name :: frames =>
    readValue rest (.members ((name, value) :: done) next :: frames)
  | .closeObject :: rest, value, .members done name :: frames =>
    readRest rest (.object ((name, value) :: done).reverse) frames
  | _, _, _ => none

end

def parse? (source : String) : Option Json := do readValue (← tokens? source) []

def bool? : Json → Option Bool
  | .bool value => some value
  | _ => none

def string? : Json → Option String
  | .string text => text
  | _ => none

def natural? : Json → Option Nat
  | .number literal =>
    if literal.all Char.isDigit then
      some (literal.foldl (fun n c => n * 10 + (c.toNat - '0'.toNat)) 0)
    else none
  | _ => none

end Json

end FaultIsolation
