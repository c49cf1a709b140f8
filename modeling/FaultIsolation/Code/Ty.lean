/-!
Types of the values that code computes with: nothing, integers of a fixed width, pointers and
functions. Every type has one written form, kept as a list of characters so that it can be taken
apart again.
-/
namespace FaultIsolation

/-- Bits in a machine word; pointers are this wide. -/
def machineWidth : Nat := 64

/-- Bits in an offset into the region. -/
def addressWidth : Nat := 32

/-- A type. An integer type is known by its width alone, and a pointer knows what it points to. -/
inductive Ty where
  | void
  | int (bits : Nat)
  | ptr (target : Ty)
  | fn (result : Ty) (params : List Ty)
  deriving Repr, Inhabited

namespace Ty

mutual

def same : Ty → Ty → Bool
  | .void, .void => true
  | .int m, .int n => m == n
  | .ptr s, .ptr t => s.same t
  | .fn r ps, .fn q qs => r.same q && sameList ps qs
  | _, _ => false

def sameList : List Ty → List Ty → Bool
  | [], [] => true
  | s :: ss, t :: ts => s.same t && sameList ss ts
  | _, _ => false

end

mutual

theorem same_iff : ∀ s t : Ty, s.same t = true ↔ s = t
  | .void, .void | .void, .int _ | .void, .ptr _ | .void, .fn _ _
  | .int _, .void | .int _, .ptr _ | .int _, .fn _ _
  | .ptr _, .void | .ptr _, .int _ | .ptr _, .fn _ _
  | .fn _ _, .void | .fn _ _, .int _ | .fn _ _, .ptr _ => by simp [same]
  | .int m, .int n => by simp [same]
  | .ptr s, .ptr t => by simp [same, same_iff s t]
  | .fn r ps, .fn q qs => by simp [same, same_iff r q, sameList_iff ps qs]

theorem sameList_iff : ∀ ss ts : List Ty, sameList ss ts = true ↔ ss = ts
  | [], [] | [], _ :: _ | _ :: _, [] => by simp [sameList]
  | s :: ss, t :: ts => by simp [sameList, same_iff s t, sameList_iff ss ts]

end

instance : DecidableEq Ty := fun s t => decidable_of_iff _ (same_iff s t)

def i1 : Ty := .int 1

def i32 : Ty := .int addressWidth

def i64 : Ty := .int machineWidth

def isPointer : Ty → Bool
  | .ptr _ => true
  | _ => false

def isVoid : Ty → Bool
  | .void => true
  | _ => false

def width? : Ty → Option Nat
  | .int bits => some bits
  | _ => none

def pointee? : Ty → Option Ty
  | .ptr target => some target
  | _ => none

/-- What calling through a pointer to a function yields; void for anything that is not such a
pointer. -/
def callResult : Ty → Ty
  | .ptr (.fn result _) => result
  | _ => .void

mutual

/-- The written form: `void`, `i32`, `i32*`, `i32 (i8*, i64)`. -/
def chars : Ty → List Char
  | .void => ['v', 'o', 'i', 'd']
  | .int bits => 'i' :: Nat.toDigits 10 bits
  | .ptr target => target.chars ++ ['*']
  | .fn result params => result.chars ++ ' ' :: '(' :: paramChars params ++ [')']

def paramChars : List Ty → List Char
  | [] => []
  | t :: ts => t.chars ++ restChars ts

/-- The parameter types after the first, each with its divider in front. -/
def restChars : List Ty → List Char
  | [] => []
  | t :: ts => ',' :: ' ' :: t.chars ++ restChars ts

end

def text (t : Ty) : String := String.ofList t.chars

end Ty

end FaultIsolation
