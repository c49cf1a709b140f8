import FaultIsolation.Code.Ty

/-!
Constants. An integer constant is a machine word read at a width: unsigned as it is stored, signed
by the bit that the width puts on top. A constant made by `Constant.ofWord` holds only the bits of
its width; one written down directly may hold more.
-/
namespace FaultIsolation

/-- The low `bits` bits of a word; the whole word from 64 bits on. -/
def mask (bits : Nat) (word : UInt64) : UInt64 :=
  if machineWidth ≤ bits then word else word &&& ((1 <<< UInt64.ofNat bits) - 1)

/-- A constant: an integer of a width, or the null or undefined value of a type. -/
inductive Constant where
  | int (bits : Nat) (word : UInt64)
  | null (ty : Ty)
  | undef (ty : Ty)
  deriving Repr, DecidableEq, Inhabited

namespace Constant

/-- The integer constant of a width whose bits are the low bits of `word`. -/
def ofWord (bits : Nat) (word : UInt64) : Constant := .int bits (mask bits word)

def ty : Constant → Ty
  | .int bits _ => .int bits
  | .null ty | .undef ty => ty

/-- How far the top bit of an integer of `bits` bits is from the top of a word. A width of no bits
counts as one bit, and one beyond a word as a word. -/
def signShift (bits : Nat) : Nat := machineWidth - max 1 (min bits machineWidth)

/-- The shift stays inside a word. -/
theorem signShift_lt (bits : Nat) : signShift bits < machineWidth := by
  simp only [signShift, machineWidth]
  omega

/-- A word read as an integer of a width, with the top bit of that width as sign. -/
def signedWord (bits : Nat) (word : UInt64) : Int :=
  let shift := signShift bits
  ((word <<< UInt64.ofNat shift).toInt64 >>> Int64.ofNat shift).toInt

def signed? : Constant → Option Int
  | .int bits word => some (signedWord bits word)
  | _ => none

def unsigned? : Constant → Option UInt64
  | .int _ word => some word
  | _ => none

/-- Truth values have names, other integers are written signed. -/
def text : Constant → String
  | .int bits word =>
    if bits = 1 then (if word = 0 then "false" else "true") else (signedWord bits word).repr
  | .null _ => "null"
  | .undef _ => "undef"

end Constant

end FaultIsolation
