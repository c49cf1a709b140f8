import FaultIsolation.Code.Instruction

/-!
Functions that the machine itself provides to touch memory. Their names come in families: a family
name may be followed by further parts, each after a dot, that say for which types it is meant. The
longest family that a name belongs to decides.
-/
namespace FaultIsolation

/-- An operation on memory shared between threads. -/
inductive AtomicOp where
  | load | store | rmw | cmpXchg | isLockFree | fence | fenceAll
  deriving Repr, DecidableEq, Inhabited

/-- Which argument is the address. Fences have none. -/
def AtomicOp.address? : AtomicOp → Option Nat
  | .load | .cmpXchg => some 0
  | .store | .rmw | .isLockFree => some 1
  | .fence | .fenceAll => none

/-- A function that touches memory: copying a block, filling one, or an operation on shared
memory. -/
inductive Intrinsic where
  | memCpy
  | memMove
  | memSet
  | atomic (op : AtomicOp)
  deriving Repr, DecidableEq, Inhabited

namespace Intrinsic

def families : List (String × Intrinsic) :=
  [ ("llvm.memcpy", .memCpy),
    ("llvm.memmove", .memMove),
    ("llvm.memset", .memSet),
    ("llvm.nacl.atomic.load", .atomic .load),
    ("llvm.nacl.atomic.store", .atomic .store),
    ("llvm.nacl.atomic.rmw", .atomic .rmw),
    ("llvm.nacl.atomic.cmpxchg", .atomic .cmpXchg),
    ("llvm.nacl.atomic.is.lock.free", .atomic .isLockFree),
    ("llvm.nacl.atomic.fence", .atomic .fence),
    ("llvm.nacl.atomic.fence.all", .atomic .fenceAll) ]

def ofFamily? (name : List Char) : Option Intrinsic :=
  (families.find? fun family => family.1.toList = name).map (·.2)

/-- The family that stands before a dot of a name, the last such dot if there are several. The name
is given backwards. -/
def search : List Char → Option Intrinsic
  | [] => none
  | c :: before =>
    match if c = '.' then ofFamily? before.reverse else none with
    | some found => some found
    | none => search before

def longestFamily? (name : String) : Option Intrinsic :=
  match ofFamily? name.toList with
  | some found => some found
  | none => search name.toList.reverse

/-- What the names of all families begin with. -/
def marker : String := "llvm."

/-- The intrinsic that a function of this name is, if any. Families are looked for only in names
that begin as all of them do. -/
def ofName? (name : String) : Option Intrinsic :=
  if marker.toList.isPrefixOf name.toList then longestFamily? name else none

/-- The intrinsic that an instruction calls, if it calls one by its symbol. -/
def ofCall? (inst : Instruction) : Option Intrinsic :=
  match inst.callee? with
  | some (.global symbol) => ofName? symbol.name
  | _ => none

end Intrinsic

end FaultIsolation
