import FaultIsolation.Version
import FaultIsolation.Code.Ty
import FaultIsolation.Code.Constant
import FaultIsolation.Code.Value
import FaultIsolation.Code.Instruction
import FaultIsolation.Code.Func
import FaultIsolation.Code.Edit
import FaultIsolation.Code.Cursor
import FaultIsolation.Code.Text
import FaultIsolation.Code.Program
import FaultIsolation.Memory.Intrinsic
import FaultIsolation.Memory.Access
import FaultIsolation.Json.Token
import FaultIsolation.Json.Basic
import FaultIsolation.Json.Record
import FaultIsolation.Region.Options
import FaultIsolation.Region.Stats
import FaultIsolation.Region.Refusal
import FaultIsolation.Region.Base
import FaultIsolation.Region.Address
import FaultIsolation.Region.Vetting
import FaultIsolation.Region.Audit
import FaultIsolation.Region.Pass
import FaultIsolation.Region.Editing
import FaultIsolation.Region.Pool
import FaultIsolation.Region.Program
import FaultIsolation.Proofs.Store
import FaultIsolation.Proofs.Consistency
import FaultIsolation.Proofs.Reading
import FaultIsolation.Proofs.Emission
import FaultIsolation.Proofs.Step
import FaultIsolation.Proofs.Layout
import FaultIsolation.Proofs.Progress
import FaultIsolation.Proofs.Walk
import FaultIsolation.Proofs.ConfinedForm
import FaultIsolation.Proofs.Run
import FaultIsolation.Proofs.Words
import FaultIsolation.Proofs.Agreement
import FaultIsolation.Proofs.Valuation
import FaultIsolation.Proofs.Guard
import FaultIsolation.Proofs.GuardArea
import FaultIsolation.Proofs.Rewriting
import FaultIsolation.Proofs.Clipping
import FaultIsolation.Proofs.Verdict
import FaultIsolation.Proofs.History
import FaultIsolation.Proofs.AuditSoundness
import FaultIsolation.Proofs.Reconfinement
import FaultIsolation.Proofs.Sharing
import FaultIsolation.Proofs.Folding
import FaultIsolation.Proofs.BaseUse
import FaultIsolation.Proofs.Safety
import FaultIsolation.Proofs.Order
import FaultIsolation.Proofs.Typing
import FaultIsolation.Proofs.Frame
import FaultIsolation.Proofs.InPlace
import FaultIsolation.Proofs.Removal
import FaultIsolation.Proofs.Counts
import FaultIsolation.Proofs.Recognition
import FaultIsolation.Proofs.TypeText
import FaultIsolation.Proofs.Stability
import FaultIsolation.Proofs.Integers
