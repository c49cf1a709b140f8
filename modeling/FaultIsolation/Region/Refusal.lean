import FaultIsolation.Region.Audit

/-!
Why a function or program cannot be confined. Each cause carries what its message shows.
-/
namespace FaultIsolation

/-- The operand a refusal is about: the function, what the instruction does, and the position. -/
structure Culprit where
  function : String
  opcode : Opcode
  operand : Nat
  deriving Repr, DecidableEq, Inhabited

inductive Refusal where
  /-- A pointer goes where nothing confines it. -/
  | strayPointer (culprit : Culprit) (instruction : String)
  /-- An address is no pointer. -/
  | notAPointer (culprit : Culprit) (ty : Ty)
  /-- An access lacks an operand. -/
  | missingOperand (culprit : Culprit)
  /-- There is no place for the load of the region base. -/
  | noEntryBlock (function : String)
  /-- A variable exists with other contents. -/
  | globalMismatch (name : String) (expected found : Ty)
  /-- The confined function does not pass the audit. -/
  | auditFailed (function : String) (findings : List Finding)
  /-- There are no workers to share the work out to. -/
  | noPool (cause : String)
  deriving Repr, DecidableEq, Inhabited

namespace Refusal

def message : Refusal → String
  | .strayPointer c instruction =>
    s!"unsandboxed pointer operand #{c.operand} in `{c.opcode.mnemonic}` instruction of function `{c.function}`: {instruction}"
  | .notAPointer c ty =>
    s!"operand #{c.operand} of `{c.opcode.mnemonic}` in function `{c.function}` must be a pointer, found {ty.text}"
  | .missingOperand c =>
      s!"`{c.opcode.mnemonic}` in function `{c.function}` has no operand #{c.operand}"
  | .noEntryBlock function => s!"function `{function}` has no entry block"
  | .globalMismatch name expected found =>
    s!"global `{name}` is declared as {found.text}, expected {expected.text}"
  | .auditFailed function findings =>
    s!"sandboxed function `{function}` failed verification: " ++
      "; ".intercalate (findings.map Finding.message)
  | .noPool cause => s!"failed to build thread pool: {cause}"

/-- Whether the refusal means that code would have escaped the region, and not only that it is
malformed. -/
def isEscape : Refusal → Bool
  | .strayPointer _ _ | .auditFailed _ _ => true
  | _ => false

end Refusal

/-- What stops work on a function: misuse of it, or a reason not to confine it. -/
inductive Stop where
  | fault (fault : Fault)
  | refused (refusal : Refusal)
  deriving Repr, DecidableEq, Inhabited

/-- An edit as part of work that may also be refused. -/
def Stop.ofEdit {α : Type} : Except Fault α → Except Stop α
  | .ok a => .ok a
  | .error cause => .error (.fault cause)

@[simp] theorem Stop.ofEdit_ok {α : Type} (a : α) : Stop.ofEdit (.ok a) = .ok a := rfl

@[simp] theorem Stop.ofEdit_error {α : Type} (cause : Fault) :
    Stop.ofEdit (.error cause : Except Fault α) = .error (.fault cause) := rfl

instance : MonadLift (Except Fault) (Except Stop) := ⟨Stop.ofEdit⟩

end FaultIsolation
