import FaultIsolation.Region.Audit
import FaultIsolation.Proofs.Reading

/-!
Confined form, said without the audit, and what the audit answers. On a consistent function the
audit never faults, and it has nothing to say exactly if the function is in confined form.
-/
namespace FaultIsolation

/-- The test goes through and answers whether the condition holds. -/
def Answers (test : Except Fault Bool) (P : Prop) : Prop :=
  ∃ answer, test = .ok answer ∧ (answer = true ↔ P)

/-- A test answers whatever is equivalent. -/
theorem Answers.congr {test : Except Fault Bool} {P Q : Prop} (h : Answers test P) (hIff : P ↔ Q) :
    Answers test Q := by
  obtain ⟨answer, hTest, hP⟩ := h
  exact ⟨answer, hTest, hP.trans hIff⟩

theorem Answers.of_true {test : Except Fault Bool} {P : Prop} (h : Answers test P) (hP : P) :
    test = .ok true := by
  obtain ⟨answer, hTest, hIff⟩ := h
  rw [hTest, hIff.mpr hP]

theorem Answers.of_false {test : Except Fault Bool} {P : Prop} (h : Answers test P) (hP : ¬P) :
    test = .ok false := by
  obtain ⟨answer, hTest, hIff⟩ := h
  rw [hTest, Bool.eq_false_iff.mpr fun hTrue => hP (hIff.mp hTrue)]

/-- A 64-bit addition, with its two operands. -/
theorem Instruction.sum?_eq_some {inst : Instruction} {left right : Value}
    (h : inst.sum? = some (left, right)) :
    inst.opcode = .binary .add ∧ inst.ty = .i64 ∧
      ∃ rest, inst.operands = left :: right :: rest := by
  unfold sum? at h
  split at h
  · next hAdd =>
      split at h
      · next first second rest hOperands =>
          obtain ⟨rfl, rfl⟩ : first = left ∧ second = right := by simpa using h
          exact ⟨hAdd.1, hAdd.2, rest, hOperands⟩
      · cases h
  · cases h

namespace Func

/-- The value is loaded from the variable of the region base by an instruction that still stands in
a block. -/
def IsBase (f : Func) (base : String) (v : Value) : Prop :=
  ∃ id c, v = .inst id ∧ f.cells[id]? = some c ∧ c.live = true ∧ c.inst.isBaseLoad base = true

def IsWidened (f : Func) (v : Value) : Prop :=
  ∃ id c w, v = .inst id ∧ f.cells[id]? = some c ∧ c.inst.opcode = .cast .zext ∧
    c.inst.operands[0]? = some w ∧ f.typeOf w = .ok .i32

def IsRebased (f : Func) (base : String) (v : Value) : Prop :=
  ∃ id c left right, v = .inst id ∧ f.cells[id]? = some c ∧ c.inst.sum? = some (left, right) ∧
    f.IsBase base left ∧ f.IsWidened right

def IsRebasedBeyond (f : Func) (base : String) (v : Value) : Prop :=
  ∃ id c inner bits word, v = .inst id ∧ f.cells[id]? = some c ∧
    c.inst.sum? = some (inner, .const (.int bits word)) ∧ 0 ≤ Constant.signedWord bits word ∧
    f.IsRebased base inner

/-- The value is a pointer made from an address inside the region, or from one with a constant
added. -/
def IsConfined (f : Func) (base : String) (v : Value) : Prop :=
  ∃ id c address, v = .inst id ∧ f.cells[id]? = some c ∧ c.inst.opcode = .cast .intToPtr ∧
    c.inst.operands[0]? = some address ∧ (f.IsRebased base address ∨ f.IsRebasedBeyond base address)

def IsClipped (f : Func) (v : Value) : Prop :=
  ∃ bits, f.typeOf v = .ok (.int bits) ∧ (bits ≤ addressWidth ∨ f.IsWidened v)

section Values

variable {f : Func} (hf : f.Consistent) (base : String)

/-- The test for the region base answers. -/
theorem isBase_answers {v : Value} (hIn : v.Within f.cells.length) :
    Answers (f.isBase base v) (f.IsBase base v) := by
  cases v with
  | inst id =>
      obtain ⟨c, hc⟩ := exists_cell hIn
      refine ⟨c.live && c.inst.isBaseLoad base, ?_, ?_⟩
      · simp only [isBase, node_of_cell hc, bind, Except.bind]
        rfl
      · simp [IsBase, hc]
  | arg index => exact ⟨false, rfl, by simp [IsBase]⟩
  | const constant => exact ⟨false, rfl, by simp [IsBase]⟩
  | global symbol => exact ⟨false, rfl, by simp [IsBase]⟩

include hf

theorem operand_within {id : InstId} {c : Cell} {position : Nat} {v : Value}
    (hc : f.cells[id]? = some c) (hv : c.inst.operands[position]? = some v) :
    v.Within f.cells.length :=
  hf.within c (List.mem_of_getElem? hc) v (List.mem_of_getElem? hv)

/-- So does the test for an offset that was widened from 32 bits. -/
theorem isWidenedOffset_answers {v : Value} (hIn : v.Within f.cells.length) :
    Answers (f.isWidenedOffset v) (f.IsWidened v) := by
  cases v with
  | inst id =>
      obtain ⟨c, hc⟩ := exists_cell hIn
      by_cases hCast : c.inst.opcode = .cast .zext
      · cases hOperand : c.inst.operands[0]? with
        | none =>
            refine ⟨false, ?_, by simp [IsWidened, hc, hOperand]⟩
            simp only [isWidenedOffset, inst_of_cell hc, bind, Except.bind, Instruction.isCast,
              hCast, hOperand]
            rfl
        | some w =>
            obtain ⟨ty, hTy⟩ := exists_typeOf (operand_within hf hc hOperand)
            refine ⟨ty = .i32, ?_, by simp [IsWidened, hc, hCast, hOperand, hTy]⟩
            simp only [isWidenedOffset, inst_of_cell hc, bind, Except.bind, Instruction.isCast,
              hCast, hOperand, hTy]
            rfl
      · refine ⟨false, ?_, by simp [IsWidened, hc, hCast]⟩
        simp only [isWidenedOffset, inst_of_cell hc, bind, Except.bind, Instruction.isCast, hCast]
        rfl
  | arg index => exact ⟨false, rfl, by simp [IsWidened]⟩
  | const constant => exact ⟨false, rfl, by simp [IsWidened]⟩
  | global symbol => exact ⟨false, rfl, by simp [IsWidened]⟩

/-- Both terms of a sum are values of the function. -/
theorem sum?_within {id : InstId} {c : Cell} {left right : Value} (hc : f.cells[id]? = some c)
    (hSum : c.inst.sum? = some (left, right)) :
    left.Within f.cells.length ∧ right.Within f.cells.length := by
  obtain ⟨_, _, rest, hOperands⟩ := Instruction.sum?_eq_some hSum
  have hMem := List.mem_of_getElem? hc
  exact ⟨hf.within c hMem _ (by simp [hOperands]), hf.within c hMem _ (by simp [hOperands])⟩

/-- The test for the region base plus an offset answers. -/
theorem isRebased_answers {v : Value} (hIn : v.Within f.cells.length) :
    Answers (f.isRebased base v) (f.IsRebased base v) := by
  cases v with
  | inst id =>
      obtain ⟨c, hc⟩ := exists_cell hIn
      cases hSum : c.inst.sum? with
      | none =>
          refine ⟨false, ?_, by simp [IsRebased, hc, hSum]⟩
          simp only [isRebased, Func.sum?, inst_of_cell hc, bind, Except.bind, hSum]
          rfl
      | some pair =>
          obtain ⟨left, right⟩ := pair
          obtain ⟨hLeft, hRight⟩ := sum?_within hf hc hSum
          have hIff : f.IsRebased base (.inst id) ↔ f.IsBase base left ∧ f.IsWidened right := by
            simp [IsRebased, hc, hSum]
          by_cases hBase : f.IsBase base left
          · refine Answers.congr ?_ (by rw [hIff, and_iff_right hBase])
            simp only [isRebased, Func.sum?, inst_of_cell hc, bind, Except.bind, pure,
              Except.pure, hSum, (isBase_answers base hLeft).of_true hBase, if_true]
            exact isWidenedOffset_answers hf hRight
          · refine ⟨false, ?_, by simp [hIff, hBase]⟩
            simp only [isRebased, Func.sum?, inst_of_cell hc, bind, Except.bind, pure,
              Except.pure, hSum, (isBase_answers base hLeft).of_false hBase]
            rfl
  | arg index => exact ⟨false, rfl, by simp [IsRebased]⟩
  | const constant => exact ⟨false, rfl, by simp [IsRebased]⟩
  | global symbol => exact ⟨false, rfl, by simp [IsRebased]⟩

/-- The test for an address beyond the region base plus an offset answers. -/
theorem isRebasedBeyond_answers {v : Value} (hIn : v.Within f.cells.length) :
    Answers (f.isRebasedBeyond base v) (f.IsRebasedBeyond base v) := by
  cases v with
  | inst id =>
      obtain ⟨c, hc⟩ := exists_cell hIn
      have hNone : (∀ inner bits word, c.inst.sum? ≠ some (inner, .const (.int bits word))) →
          ¬f.IsRebasedBeyond base (.inst id) := by
        rintro hNot ⟨_, d, inner, bits, word, hEq, hd, hSum, _⟩
        obtain rfl := Value.inst.inj hEq
        obtain rfl : c = d := by simpa [hc] using hd
        exact hNot inner bits word hSum
      cases hSum : c.inst.sum? with
      | none =>
          refine ⟨false, ?_, by simpa using hNone (by simp [hSum])⟩
          simp only [isRebasedBeyond, Func.sum?, inst_of_cell hc, bind, Except.bind, hSum]
          rfl
      | some pair =>
          obtain ⟨inner, right⟩ := pair
          obtain ⟨hInner, _⟩ := sum?_within hf hc hSum
          rcases right with _ | _ | ⟨bits, word⟩ | _ | _ | _
          case const.int =>
            have hIff : f.IsRebasedBeyond base (.inst id) ↔
                0 ≤ Constant.signedWord bits word ∧ f.IsRebased base inner := by
              simp [IsRebasedBeyond, hc, hSum]
            by_cases hSign : 0 ≤ Constant.signedWord bits word
            · refine Answers.congr ?_ (by rw [hIff, and_iff_right hSign])
              simp only [isRebasedBeyond, Func.sum?, inst_of_cell hc, bind, Except.bind, pure,
                Except.pure, hSum, Constant.signed?, hSign, if_true]
              exact isRebased_answers hf base hInner
            · refine ⟨false, ?_, by simp [hIff, hSign]⟩
              simp only [isRebasedBeyond, Func.sum?, inst_of_cell hc, bind, Except.bind, pure,
                Except.pure, hSum, Constant.signed?, hSign]
              rfl
          all_goals
            refine ⟨false, ?_, by simpa using hNone (by simp [hSum])⟩
            simp only [isRebasedBeyond, Func.sum?, inst_of_cell hc, bind, Except.bind, hSum]
            rfl
  | arg index => exact ⟨false, rfl, by simp [IsRebasedBeyond]⟩
  | const constant => exact ⟨false, rfl, by simp [IsRebasedBeyond]⟩
  | global symbol => exact ⟨false, rfl, by simp [IsRebasedBeyond]⟩

/-- The test for a confined address answers. -/
theorem isConfined_answers {v : Value} (hIn : v.Within f.cells.length) :
    Answers (f.isConfined base v) (f.IsConfined base v) := by
  cases v with
  | inst id =>
      obtain ⟨c, hc⟩ := exists_cell hIn
      by_cases hCast : c.inst.opcode = .cast .intToPtr
      · cases hOperand : c.inst.operands[0]? with
        | none =>
            refine ⟨false, ?_, by simp [IsConfined, hc, hOperand]⟩
            simp only [isConfined, inst_of_cell hc, bind, Except.bind, Instruction.isCast,
              hCast, hOperand]
            rfl
        | some address =>
            have hAddress := operand_within hf hc hOperand
            have hIff : f.IsConfined base (.inst id) ↔ f.IsRebased base address ∨
                f.IsRebasedBeyond base address := by
              simp [IsConfined, hc, hCast, hOperand]
            by_cases hRebased : f.IsRebased base address
            · refine ⟨true, ?_, by simp [hIff, hRebased]⟩
              simp only [isConfined, inst_of_cell hc, bind, Except.bind, Instruction.isCast,
                hCast, hOperand, (isRebased_answers hf base hAddress).of_true hRebased]
              rfl
            · refine Answers.congr ?_ (by rw [hIff, or_iff_right hRebased])
              simp only [isConfined, inst_of_cell hc, bind, Except.bind, Instruction.isCast,
                hCast, hOperand, (isRebased_answers hf base hAddress).of_false hRebased]
              exact isRebasedBeyond_answers hf base hAddress
      · refine ⟨false, ?_, by simp [IsConfined, hc, hCast]⟩
        simp only [isConfined, inst_of_cell hc, bind, Except.bind, Instruction.isCast, hCast]
        rfl
  | arg index => exact ⟨false, rfl, by simp [IsConfined]⟩
  | const constant => exact ⟨false, rfl, by simp [IsConfined]⟩
  | global symbol => exact ⟨false, rfl, by simp [IsConfined]⟩

/-- The test for a short length answers. -/
theorem isClipped_answers {v : Value} (hIn : v.Within f.cells.length) :
    Answers (f.isClipped v) (f.IsClipped v) := by
  obtain ⟨ty, hTy⟩ := exists_typeOf hIn
  cases ty with
  | int bits =>
      have hIff : f.IsClipped v ↔ bits ≤ addressWidth ∨ f.IsWidened v := by simp [IsClipped, hTy]
      by_cases hNarrow : bits ≤ addressWidth
      · refine ⟨true, ?_, by simp [hIff, hNarrow]⟩
        simp only [isClipped, hTy, bind, Except.bind, Ty.width?, hNarrow, if_true]
        rfl
      · refine Answers.congr ?_ (by rw [hIff, or_iff_right hNarrow])
        simp only [isClipped, hTy, bind, Except.bind, Ty.width?, hNarrow, if_false]
        exact isWidenedOffset_answers hf hIn
  | _ =>
      refine ⟨false, ?_, by simp [IsClipped, hTy]⟩
      simp only [isClipped, hTy, bind, Except.bind, Ty.width?]
      rfl

end Values

end Func

namespace Func

/-- The instruction is in confined form: its addresses and its length are there and confined, and
nothing else that it takes is a pointer. -/
structure Approved (f : Func) (base : String) (inst : Instruction) : Prop where
  addresses : ∀ position ∈ (Access.ofInstruction inst).addresses,
    ∃ v, inst.operands[position]? = some v ∧ f.IsConfined base v
  length : ∀ position ∈ (Access.ofInstruction inst).length?.toList,
    ∃ v, inst.operands[position]? = some v ∧ f.IsClipped v
  unconfined : ∀ v ∈ (Access.ofInstruction inst).unconfined inst, ¬f.IsPointer v

def loadsBase (f : Func) (base : String) (id : InstId) : Bool :=
  (f.cells[id]?).any fun c => c.inst.isBaseLoad base

def baseLoads (f : Func) (base : String) : List InstId := f.layout.filter (f.loadsBase base)

structure InConfinedForm (f : Func) (base : String) : Prop where
  single : (f.baseLoads base).length ≤ 1
  placed : ∀ id ∈ f.baseLoads base, f.entryHead? = some id
  approved : ∀ (id : InstId) (c : Cell), f.cells[id]? = some c → c.live = true →
    c.inst.isBaseLoad base = false → f.Approved base c.inst

def addressCount (f : Func) (id : InstId) : Nat :=
  (f.cells[id]?).elim 0 fun c => (Access.ofInstruction c.inst).addresses.length

end Func

/-- The search goes through and finds nothing exactly if the condition holds. -/
def Clears {α : Type} (search : Except Fault (Option α)) (P : Prop) : Prop :=
  ∃ found, search = .ok found ∧ (found = none ↔ P)

/-- A search through a list finds nothing exactly if all elements are in order. -/
theorem mapM_clears {α β : Type} {xs : List α} {search : α → Except Fault (Option β)} {P : α → Prop}
    (h : ∀ x ∈ xs, Clears (search x) (P x)) :
    ∃ found, xs.mapM search = .ok found ∧ (found.flatMap Option.toList = [] ↔ ∀ x ∈ xs, P x) ∧
      found.length = xs.length ∧ ((∀ x ∈ xs, P x) → found.filter Option.isNone = found) := by
  induction xs with
  | nil => exact ⟨[], rfl, by simp, rfl, fun _ => rfl⟩
  | cons x rest ih =>
      obtain ⟨found, hFound, hIff⟩ := h x (by simp)
      obtain ⟨others, hOthers, hRest, hLength, hAll⟩ :=
        ih fun y hy => h y (List.mem_cons_of_mem _ hy)
      refine ⟨found :: others, ?_, ?_, by simp [hLength], fun hClear => ?_⟩
      · rw [List.mapM_cons, hFound, hOthers]
        rfl
      · rw [List.flatMap_cons, List.append_eq_nil_iff, hRest, List.forall_mem_cons, ← hIff]
        cases found <;> simp
      · rw [List.forall_mem_cons] at hClear
        simp [hIff.mpr hClear.1, hAll hClear.2]

namespace Auditor

open Func

section Instructions

variable {f : Func} {id : InstId} {c : Cell} (auditor : Auditor) (hf : f.Consistent)
  (hc : f.cells[id]? = some c)

include hf hc

/-- Nothing is said of an address exactly if it is there and confined. -/
theorem judgeAddress_clears (position : Nat) :
    Clears (auditor.judgeAddress f id c.inst position)
      (∃ v, c.inst.operands[position]? = some v ∧ f.IsConfined auditor.baseSymbol v) := by
  obtain ⟨text, hText⟩ := hf.exists_instText hc
  cases hv : c.inst.operands[position]? with
  | none =>
      refine ⟨some (.unconfinedAddress position text), ?_, by simp⟩
      simp only [judgeAddress, hv, hText, bind, Except.bind, pure, Except.pure]
      rfl
  | some v =>
      obtain ⟨answer, hAnswer, hIff⟩ :=
        isConfined_answers hf auditor.baseSymbol (operand_within hf hc hv)
      cases answer with
      | true =>
          refine ⟨none, ?_, by simpa using hIff⟩
          simp only [judgeAddress, hv, hAnswer, bind, Except.bind, if_true]
          rfl
      | false =>
          refine ⟨some (.unconfinedAddress position text), ?_, by simpa using hIff⟩
          simp only [judgeAddress, hv, hAnswer, hText, bind, Except.bind]
          rfl

/-- Nothing is said of a length exactly if it is there and short. -/
theorem judgeLength_clears (position : Nat) :
    Clears (judgeLength f id c.inst position) (∃ v, c.inst.operands[position]? = some v ∧
      f.IsClipped v) := by
  obtain ⟨text, hText⟩ := hf.exists_instText hc
  cases hv : c.inst.operands[position]? with
  | none =>
      refine ⟨some (.unclippedLength position text), ?_, by simp⟩
      simp only [judgeLength, hv, hText, bind, Except.bind, pure, Except.pure]
      rfl
  | some v =>
      obtain ⟨answer, hAnswer, hIff⟩ := isClipped_answers hf (operand_within hf hc hv)
      cases answer with
      | true =>
          refine ⟨none, ?_, by simpa using hIff⟩
          simp only [judgeLength, hv, hAnswer, bind, Except.bind, if_true]
          rfl
      | false =>
          refine ⟨some (.unclippedLength position text), ?_, by simpa using hIff⟩
          simp only [judgeLength, hv, hAnswer, hText, bind, Except.bind]
          rfl

/-- Nothing is said of the other values exactly if none is a pointer. -/
theorem judgePointers_clears {values : List Value} (hIn : ∀ v ∈ values, v.Within f.cells.length) :
    Clears (judgePointers f id values) (∀ v ∈ values, ¬f.IsPointer v) := by
  rcases pointerPosition?_spec hIn with ⟨hNone, hAll⟩ | ⟨position, v, hSome, hv, hPointer⟩
  · refine ⟨none, ?_, by simpa using hAll⟩
    simp only [judgePointers, hNone, bind, Except.bind]
    rfl
  · obtain ⟨text, hText⟩ := hf.exists_instText hc
    refine ⟨some (.strayPointer position text), ?_, ?_⟩
    · simp only [judgePointers, hSome, hText, bind, Except.bind]
      rfl
    · simpa using ⟨v, List.mem_of_getElem? hv, hPointer⟩

/-- Nothing is said of an instruction exactly if it is approved, and then all its addresses
count. -/
theorem judge_spec :
    ∃ opinion, auditor.judge f id = .ok opinion ∧
      (opinion.findings = [] ↔ f.Approved auditor.baseSymbol c.inst) ∧
      (opinion.findings = [] → opinion.addresses = f.addressCount id) := by
  obtain ⟨addresses, hAddresses, hConfined, hCount, hAll⟩ :=
    mapM_clears fun position (_ : position ∈ (Access.ofInstruction c.inst).addresses) =>
      judgeAddress_clears auditor hf hc position
  obtain ⟨lengths, hLengths, hClipped, _⟩ :=
    mapM_clears fun position (_ : position ∈ (Access.ofInstruction c.inst).length?.toList) =>
      judgeLength_clears hf hc position
  obtain ⟨pointer, hPointer, hNone⟩ := judgePointers_clears hf hc fun v hv =>
    hf.within c (List.mem_of_getElem? hc) v (mem_operands_of_unconfined hv)
  have hFindings : (addresses ++ lengths ++ [pointer]).flatMap Option.toList = [] ↔
      f.Approved auditor.baseSymbol c.inst := by
    rw [List.flatMap_append, List.flatMap_append, List.append_eq_nil_iff, List.append_eq_nil_iff,
      hConfined, hClipped, List.flatMap_singleton, Option.toList_eq_nil_iff, hNone]
    exact ⟨fun ⟨⟨h₁, h₂⟩, h₃⟩ => ⟨h₁, h₂, h₃⟩, fun h => ⟨⟨h.addresses, h.length⟩, h.unconfined⟩⟩
  refine ⟨⟨_, (addresses.filter Option.isNone).length, lengths.length⟩, ?_, hFindings,
    fun hClear => ?_⟩
  · simp only [judge, inst_of_cell hc, bind, Except.bind, hAddresses, hLengths, hPointer]
    rfl
  · simp only [hAll (hFindings.mp hClear).addresses, hCount, addressCount, hc, Option.elim_some]

end Instructions

variable {f : Func} (auditor : Auditor) (hf : f.Consistent)

include hf

/-- Nothing is said of the place of a base load exactly if it is the first instruction. -/
theorem judgePlace_clears {id : InstId} {c : Cell} (hc : f.cells[id]? = some c) :
    Clears (judgePlace f id) (f.entryHead? = some id) := by
  by_cases hHead : f.entryHead? = some id
  · exact ⟨none, by simp only [judgePlace, hHead, if_true]; rfl, by simp [hHead]⟩
  · obtain ⟨text, hText⟩ := hf.exists_instText hc
    refine ⟨some (.misplacedBaseLoad text), ?_, by simp [hHead]⟩
    simp only [judgePlace, hHead, if_false, hText, bind, Except.bind]
    rfl

theorem judgeUse_clears {id : InstId} {c : Cell} (hc : f.cells[id]? = some c) :
    Clears (judgeUse f id) (0 < references f.cells id) := by
  by_cases hUnused : f.usesOf id = 0
  · obtain ⟨text, hText⟩ := hf.exists_instText hc
    refine ⟨some s!"Unused region base load: {text}", ?_, by simp [← hf.counted, hUnused]⟩
    simp only [judgeUse, useCount_of_cell hc, bind, Except.bind, hUnused, if_true, hText]
    rfl
  · refine ⟨none, ?_, by simpa [← hf.counted] using Nat.pos_of_ne_zero hUnused⟩
    simp only [judgeUse, useCount_of_cell hc, bind, Except.bind, hUnused, if_false]
    rfl

/-- The instructions that are judged: all that load no region base. -/
theorem judge_others (ids : List InstId) (hIds : ∀ id ∈ ids, ∃ c, f.cells[id]? = some c) :
    ∃ opinions, ids.mapM (auditor.judge f) = .ok opinions ∧
      (opinions.flatMap Opinion.findings = [] ↔
        ∀ id ∈ ids, ∀ c : Cell, f.cells[id]? = some c → f.Approved auditor.baseSymbol c.inst) ∧
      (opinions.flatMap Opinion.findings = [] →
        total Opinion.addresses opinions = total f.addressCount ids) := by
  induction ids with
  | nil => exact ⟨[], rfl, by simp, fun _ => rfl⟩
  | cons id rest ih =>
      obtain ⟨c, hc⟩ := hIds id (by simp)
      obtain ⟨opinion, hOpinion, hApproved, hCount⟩ := judge_spec auditor hf hc
      obtain ⟨opinions, hOpinions, hRest, hTotal⟩ :=
        ih fun other hOther => hIds other (List.mem_cons_of_mem _ hOther)
      refine ⟨opinion :: opinions, ?_, ?_, fun hClear => ?_⟩
      · rw [List.mapM_cons, hOpinion, hOpinions]
        rfl
      · rw [List.flatMap_cons, List.append_eq_nil_iff, hApproved, hRest, List.forall_mem_cons]
        simp [hc]
      · rw [List.flatMap_cons, List.append_eq_nil_iff] at hClear
        rw [total_cons, total_cons, hCount hClear.1, hTotal hClear.2]

/-- The audit of a consistent function never faults. It finds nothing exactly if the function is in
confined form, it warns of nothing exactly if every load of the region base is used, and its counts
are exact. -/
theorem audit_spec :
    ∃ report, auditor.audit f = .ok report ∧
      (report.findings = [] ↔ f.InConfinedForm auditor.baseSymbol) ∧
      (report.warnings = [] ↔ ∀ id ∈ f.baseLoads auditor.baseSymbol, 0 < references f.cells id) ∧
      report.counts.instructions = f.instCount ∧
      report.counts.baseLoads = (f.baseLoads auditor.baseSymbol).length ∧
      (report.findings = [] → report.counts.addresses =
        total f.addressCount (f.layout.filter fun id => !f.loadsBase auditor.baseSymbol id)) := by
  have hCell : ∀ id ∈ f.layout, ∃ c, f.cells[id]? = some c ∧ c.live = true :=
    fun id => hf.mem_layout_iff.mp
  have hLoads : f.layout.filterM (auditor.isBaseLoad f) = .ok (f.baseLoads auditor.baseSymbol) := by
    refine filterM_eq fun id hId => ?_
    obtain ⟨c, hc, _⟩ := hCell id hId
    simp only [isBaseLoad, inst_of_cell hc, bind, Except.bind, loadsBase, hc, Option.any_some]
    rfl
  have hOthers : f.layout.filter (· ∉ f.baseLoads auditor.baseSymbol) =
      f.layout.filter fun id => !f.loadsBase auditor.baseSymbol id := by
    refine List.filter_congr fun id hId => ?_
    simp [baseLoads, hId]
  have hLoadCell : ∀ id ∈ f.baseLoads auditor.baseSymbol, ∃ c, f.cells[id]? = some c :=
    fun id hId => by
    obtain ⟨c, hc, _⟩ := hCell id (List.mem_of_mem_filter hId)
    exact ⟨c, hc⟩
  obtain ⟨misplaced, hMisplaced, hPlaced, _⟩ := mapM_clears fun id hId => by
    obtain ⟨c, hc⟩ := hLoadCell id hId
    exact judgePlace_clears hf hc
  obtain ⟨unused, hUnused, hUsed, _⟩ := mapM_clears fun id hId => by
    obtain ⟨c, hc⟩ := hLoadCell id hId
    exact judgeUse_clears hf hc
  obtain ⟨opinions, hOpinions, hApproved, hTotal⟩ := judge_others auditor hf
    (f.layout.filter fun id => !f.loadsBase auditor.baseSymbol id) fun id hId => by
      obtain ⟨c, hc, _⟩ := hCell id (List.mem_of_mem_filter hId)
      exact ⟨c, hc⟩
  have hForm : (if 1 < (f.baseLoads auditor.baseSymbol).length
        then [Finding.manyBaseLoads (f.baseLoads auditor.baseSymbol).length] else []) ++
        misplaced.flatMap Option.toList ++ opinions.flatMap Opinion.findings = [] ↔
      f.InConfinedForm auditor.baseSymbol := by
    rw [List.append_eq_nil_iff, List.append_eq_nil_iff, hPlaced, hApproved]
    constructor
    · rintro ⟨⟨hSingle, hHead⟩, hAll⟩
      refine ⟨by simpa using hSingle, hHead, fun id c hc hLive hOther => hAll id ?_ c hc⟩
      simp [loadsBase, hc, hOther, hf.mem_layout_iff, hLive]
    · intro h
      refine ⟨⟨by simpa using h.single, h.placed⟩, fun id hId c hc => ?_⟩
      obtain ⟨hLayout, hOther⟩ := List.mem_filter.mp hId
      obtain ⟨d, hd, hLive⟩ := hCell id hLayout
      obtain rfl : c = d := by simpa [hc] using hd
      exact h.approved id c hc hLive (by simpa [loadsBase, hc] using hOther)
  let counts : AuditCounts := {
    instructions := f.layout.length
    baseLoads := (f.baseLoads auditor.baseSymbol).length
    addresses := total Opinion.addresses opinions
    lengths := total Opinion.lengths opinions }
  refine ⟨⟨_, unused.flatMap Option.toList, counts⟩, ?_, hForm, hUsed,
    f.instCount_eq_length_layout.symm, rfl, fun hClear => ?_⟩
  · simp only [audit, hLoads, hOthers, bind, Except.bind, hMisplaced, hUnused, hOpinions]
    rfl
  · exact hTotal (List.append_eq_nil_iff.mp hClear).2

/-- A function that is accepted is in confined form, and the counts are those of its base loads and
addresses. -/
theorem accepted_spec {report : AuditReport} (hAudit : auditor.audit f = .ok report)
    (hAccepts : auditor.accepts report = true) :
    f.InConfinedForm auditor.baseSymbol ∧
      report.counts.baseLoads = (f.baseLoads auditor.baseSymbol).length ∧
      report.counts.addresses =
        total f.addressCount (f.layout.filter fun id => !f.loadsBase auditor.baseSymbol id) := by
  obtain ⟨report', hAudit', hForm, _, _, hLoads, hAddresses⟩ := auditor.audit_spec hf
  obtain rfl := Except.ok.inj (hAudit.symm.trans hAudit')
  rw [accepts, Bool.and_eq_true, List.isEmpty_iff] at hAccepts
  exact ⟨hForm.mp hAccepts.1, hLoads, hAddresses hAccepts.1⟩

/-- A function in confined form that uses its base loads is accepted. -/
theorem accepts_of_form (hForm : f.InConfinedForm auditor.baseSymbol)
    (hUsed : ∀ id ∈ f.baseLoads auditor.baseSymbol, 0 < references f.cells id) :
    ∃ report, auditor.audit f = .ok report ∧ auditor.accepts report = true := by
  obtain ⟨report, hAudit, hFindings, hWarnings, _⟩ := auditor.audit_spec hf
  exact ⟨report, hAudit, by simp [accepts, hFindings.mpr hForm, hWarnings.mpr hUsed]⟩

end Auditor

end FaultIsolation
