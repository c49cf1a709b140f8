import FaultIsolation.Proofs.History

/-!
Nothing faults. Whatever edits have made of a function, also one with operands that were removed,
too few operands, or jumps to blocks that do not exist, it can be written and audited, and a run on
it comes to an end: it succeeds or it is refused, and it does so by edits that all go through and
keep the counts exact.
-/
namespace FaultIsolation

namespace Func

/-- Nothing goes wrong with the function. Every instruction, a removed one too, and the function as
a whole can be written, and every audit gives a report. An edit that goes through moves the uses of
each instruction by the operands that it brings and takes away, so nothing is taken off a count of
zero. -/
structure Safe (f : Func) : Prop where
  instText : ∀ id, id < f.nodes.length → ∃ text, f.instText id = .ok text
  text : ∃ text, f.text = .ok text
  audit : ∀ auditor : Auditor, ∃ report, auditor.audit f = .ok report
  counts : ∀ e g, f.apply e = .ok g →
    ∀ j, g.usesOf j + (f.losses e).count (.inst j) = f.usesOf j + e.gains.count (.inst j)

theorem Consistent.safe {f : Func} (hf : f.Consistent) : f.Safe where
  instText id hId := by
    obtain ⟨c, hc⟩ := exists_cell (f.length_cells ▸ hId)
    exact hf.exists_instText hc
  text := hf.exists_text
  audit auditor := by
    obtain ⟨report, hAudit, _⟩ := auditor.audit_spec hf
    exact ⟨report, hAudit⟩
  counts _ _ hApply := (applied_of_apply hf hApply).uses hf

structure SafeStep (f g : Func) : Prop where
  before : f.Safe
  edit : ∃ e, f.apply e = .ok g
  after : g.Safe

theorem Step.safe {P : Policy} {f g : Func} (h : Step P f g) (hf : f.Sound P) : SafeStep f g := by
  have hg := h.sound hf
  obtain ⟨e, _, hApply⟩ := h
  exact ⟨hf.consistent.safe, ⟨e, hApply⟩, hg.consistent.safe⟩

theorem Evolves.safe {P : Policy} {f g : Func} (h : f.Evolves P g) (hf : f.Sound P) :
    Relation.ReflTransGen SafeStep f g := by
  induction h with
  | refl => exact .refl
  | tail prior last ih => exact ih.tail (last.safe (Evolves.sound prior hf))

end Func

/-- Nothing goes wrong with a function after any history. A run on it that loads the region base
from a variable has an outcome under all options. It gets there by edits that go through, and
nothing goes wrong with any function on the way or with the one that it leaves, even if the run is
refused. -/
theorem runs_without_fault {f : Func} (h : f.Reached .any) :
    f.Safe ∧ ∀ (s : Sandbox) (symbol : Symbol), s.source = .ofSymbol symbol →
      ∃ outcome, s.run f = .ok outcome ∧ Relation.ReflTransGen Func.SafeStep f outcome.func ∧
        outcome.func.Safe := by
  have hSound := h.sound
  refine ⟨hSound.consistent.safe, fun s symbol hSource => ?_⟩
  obtain ⟨outcome, hRun⟩ := Sandbox.exists_run hSource hSound.consistent
  have hEvolves := Sandbox.run_evolves (hSource ▸ BaseSource.ofSymbol_follows symbol .any) hSound
    hRun
  exact ⟨outcome, hRun, hEvolves.safe hSound, (Func.Evolves.sound hEvolves hSound).consistent.safe⟩

/-- Reads through a conversion that has no operand and was removed, merges more sources than values,
jumps to a block that does not exist, and writes without an address. -/
def readThroughRemoved : List Func.Edit :=
  [ .addBlock "entry",
    .append 0 { opcode := .cast .intToPtr, operands := [], ty := .ptr .i64 },
    .remove 0,
    .append 0 { opcode := .load, operands := [.inst 0, .arg 9], ty := .i64 },
    .append 0 { opcode := .phi [7, 8], operands := [.inst 1], ty := .i64 },
    .append 0 { opcode := .br 5, operands := [.inst 2], ty := .void },
    .append 0 { opcode := .store, operands := [.inst 1], ty := .void } ]

theorem runs_without_fault_readThroughRemoved :
    ∃ f outcome refusal, Func.ofEdits "f" [] .void readThroughRemoved = .ok f ∧ f.Safe ∧
      defaultSandbox.run f = .ok outcome ∧ outcome.result = .error refusal ∧
      outcome.func.instCount = 9 ∧ outcome.func.Safe := by
  obtain ⟨f, hf, hEval⟩ : ∃ f, Func.ofEdits "f" [] .void readThroughRemoved = .ok f ∧
      (defaultSandbox.run f).map (fun outcome =>
        (outcome.result.toOption.isSome, outcome.func.instCount)) = .ok (false, 9) := ⟨_, rfl, rfl⟩
  obtain ⟨hSafe, hRuns⟩ := runs_without_fault (Func.built_ofEdits hf).reached
  obtain ⟨outcome, hRun, _, hLeft⟩ := hRuns defaultSandbox _ rfl
  rw [hRun] at hEval
  obtain ⟨hRefused, hCount⟩ := Prod.mk.inj (Except.ok.inj hEval)
  cases hResult : outcome.result with
  | ok stats => simp [hResult, Except.toOption] at hRefused
  | error refusal => exact ⟨f, outcome, refusal, hf, hSafe, hRun, hResult, hCount, hLeft⟩

end FaultIsolation
