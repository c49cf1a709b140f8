import FaultIsolation.Json.Basic

/-!
Records in JSON. A record with named fields is an object or, with its fields in their fixed order,
an array. In an object, members with other names are passed over and no field may occur twice; every
name has to stand for characters. An array may stop early and must not go on after the last field.
-/
namespace FaultIsolation.Json.Record

/-- The value of the only member of a name; `some none` without one, `none` with several. -/
def only? (name : String) (members : List (Text × Json)) : Option (Option Json) :=
  match members.filter (·.1 = some name) with
  | [] => some none
  | [member] => some (some member.2)
  | _ => none

/-- The fields of a record in the order of their names, each missing or present. -/
def fields? (names : List String) : Json → Option (List (Option Json))
  | .object members => if members.all (·.1.isSome) then names.mapM (only? · members) else none
  | .array items =>
    if items.length ≤ names.length then
      some (items.map some ++ List.replicate (names.length - items.length) none)
    else none
  | _ => none

def ofText? (names : List String) (source : String) : Option (List (Option Json)) := do
  fields? names (← parse? source)

end FaultIsolation.Json.Record
