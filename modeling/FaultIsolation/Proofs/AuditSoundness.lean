import FaultIsolation.Proofs.Clipping

/-!
What the audit promises of the values that code computes, whoever wrote the code. The audit looks at
where an address comes from, and follows it through instructions that need not stand where they are
used, or stand at all. One that does not stand has no operands, so it is no part of such a chain:
whatever satisfies the additions and conversions that do stand puts every accepted address above the
region base.
-/
namespace FaultIsolation

/-- A constant made at a width that is not negative there stays below the top bit of a word. -/
theorem Constant.lt_of_signedWord_nonneg {bits : Nat} {word : UInt64}
    (hMade : ∃ w, Constant.int bits word = .ofWord bits w) (hSign : 0 ≤ signedWord bits word) :
    word.toNat < 2 ^ 63 := by
  obtain ⟨w, hw⟩ := hMade
  obtain rfl : word = mask bits w := by simpa [ofWord] using hw
  cases bits with
  | zero =>
      rw [mask_toNat, Nat.zero_min, pow_zero, Nat.mod_one]
      exact Nat.two_pow_pos 63
  | succ n =>
      rw [signedWord_nonneg_iff (Nat.le_add_left 1 n), mask_toNat, Nat.mod_mod] at hSign
      rw [mask_toNat]
      exact hSign.trans_le (Nat.pow_le_pow_right (by decide)
        (Nat.sub_le_sub_right (Nat.min_le_right _ _) 1))

/-- What an instruction is given: the arguments of a call, and all operands of any other
instruction. -/
def Instruction.given (inst : Instruction) : List Value :=
  if inst.opcode = .call then inst.args else inst.operands

/-- An instruction that is neither an access nor exempt leaves all that it is given unconfined. -/
theorem Access.unconfined_eq_given {inst : Instruction}
    (hNone : (ofInstruction inst).addresses = []) (hOther : ofInstruction inst ≠ .exempt) :
    (ofInstruction inst).unconfined inst = inst.given := by
  by_cases hCall : inst.opcode = .call
  · have hArgs : inst.given = inst.args := if_pos hCall
    rw [hArgs]
    revert hNone
    simp only [ofInstruction, hCall]
    split
    · simp [addresses]
    · simp [addresses]
    · simp [addresses]
    · split <;> simp [addresses, unconfined]
    · simp [unconfined]
  · have hAll : inst.given = inst.operands := if_neg hCall
    rw [hAll]
    revert hNone hOther
    simp only [ofInstruction]
    split <;> simp_all [addresses, unconfined]

namespace Func

def ConversionsTyped (f : Func) : Prop :=
  ∀ id inst, id ∈ f.layout → f.inst id = .ok inst → inst.opcode = .cast .intToPtr →
    inst.ty.isPointer = true

def WideningsTyped (f : Func) : Prop :=
  ∀ id inst, id ∈ f.layout → f.inst id = .ok inst → inst.opcode = .cast .zext →
    ∃ bits, inst.ty = .int bits

structure HeadLoad (f : Func) (base : String) (b : InstId) : Prop where
  head : f.entryHead? = some b
  live : f.isLive b = .ok true
  loads : ∃ inst, f.inst b = .ok inst ∧ inst.isBaseLoad base = true

def AddsConstant (f : Func) (v : Value) : Prop :=
  ∃ id inst address left constant, v = .inst id ∧ f.inst id = .ok inst ∧
    inst.operands[0]? = some address ∧ f.sum? address = .ok (some (left, .const constant))

theorem isBaseLoad_eq_false {inst : Instruction} (base : String)
    (h : Access.ofInstruction inst ≠ .load) : inst.isBaseLoad base = false := by
  refine Bool.eq_false_iff.mpr fun hLoad => h ?_
  simp only [Access.ofInstruction, (load_of_isBaseLoad hLoad).1]

/-- In confined form there is one load of the region base, and it stands at the head of the
function. -/
theorem InConfinedForm.headLoad {f : Func} {base : String} (h : f.InConfinedForm base)
    (hf : f.Consistent) {b : InstId} (hBase : f.IsBase base (.inst b)) : f.HeadLoad base b := by
  obtain ⟨_, c, hEq, hc, hLive, hLoad⟩ := hBase
  obtain rfl := Value.inst.inj hEq
  have hMem : b ∈ f.baseLoads base :=
    List.mem_filter.mpr ⟨hf.mem_layout_iff.mpr ⟨c, hc, hLive⟩, by simp [loadsBase, hc, hLoad]⟩
  exact ⟨h.placed b hMem, by simp [isLive_of_cell hc, hLive], c.inst, inst_of_cell hc, hLoad⟩

end Func

namespace Valuation

/-- The kinds of instructions that the audit follows an address through. -/
def followed : List Opcode := [.binary .add, .cast .zext, .cast .intToPtr]

/-- The value lies this far above the region base, counted round the end of a word. -/
def Above (ρ : Valuation) (b : InstId) (v : Value) (distance : Nat) : Prop :=
  (ρ.value v).toNat = ((ρ.inst b).toNat + distance) % 2 ^ 64

/-- The values respect the types of a function whose constants and conversions are typed as they
should be, and satisfy what the audit follows. -/
structure Admissible (ρ : Valuation) (f : Func) : Prop where
  consistent : f.Consistent
  constants : f.ConstantsOfWord
  conversions : f.ConversionsTyped
  widenings : f.WideningsTyped
  respects : ρ.Respects f
  solves : ρ.SolvesFor f followed

namespace Admissible

variable {f : Func} {ρ : Valuation} {base : String} {v : Value} (h : ρ.Admissible f)

include h

theorem operand_lt {id : InstId} {c : Cell} {bits : Nat} (hc : f.cells[id]? = some c)
    (hv : v ∈ c.inst.operands) (hTy : f.typeOf v = .ok (.int bits)) :
    (ρ.value v).toNat < 2 ^ bits :=
  h.respects.operand_lt (.refl f) h.constants hc hv hTy

theorem widened_lt (hWidened : f.IsWidened v) : (ρ.value v).toNat < 2 ^ 32 := by
  obtain ⟨id, c, w, rfl, hc, hZext, hw, hTy⟩ := hWidened
  have hMem := List.mem_of_getElem? hw
  have hLayout := h.consistent.mem_layout_of_operand hc hMem
  obtain ⟨bits, hInt⟩ := h.widenings id c.inst hLayout (Func.inst_of_cell hc) hZext
  calc (ρ.inst id).toNat
      ≤ (ρ.value w).toNat := h.solves.widened_le (by simp [followed]) h.consistent hc hZext hw hInt
    _ < 2 ^ 32 := h.operand_lt hc hMem hTy

theorem sum_value {id : InstId} {c : Cell} {left right : Value} (hc : f.cells[id]? = some c)
    (hSum : c.inst.sum? = some (left, right)) :
    (ρ.inst id).toNat = ((ρ.value left).toNat + (ρ.value right).toNat) % 2 ^ 64 := by
  obtain ⟨hOpcode, hTy, rest, hOperands⟩ := Instruction.sum?_eq_some hSum
  have hResult : ρ.result? c.inst = some (mask machineWidth (ρ.value left + ρ.value right)) := by
    simp only [result?, hOpcode, hOperands, hTy]
    rfl
  rw [h.solves.eq_of_cell h.consistent hc (by simp [hOpcode, followed]) hResult, mask_machineWidth,
    UInt64.toNat_add]

theorem rebased_above (hRebased : f.IsRebased base v) :
    ∃ b distance, f.IsBase base (.inst b) ∧ ρ.Above b v distance ∧ distance < 2 ^ 32 := by
  obtain ⟨id, c, left, right, rfl, hc, hSum, hBase, hWidened⟩ := hRebased
  have ⟨b, _, hLeft, _⟩ := hBase
  subst hLeft
  exact ⟨b, (ρ.value right).toNat, hBase, h.sum_value hc hSum, h.widened_lt hWidened⟩

theorem rebasedBeyond_above (hBeyond : f.IsRebasedBeyond base v) :
    ∃ b distance, f.IsBase base (.inst b) ∧ ρ.Above b v distance ∧ distance < 2 ^ 63 + 2 ^ 32 := by
  obtain ⟨id, c, inner, bits, word, rfl, hc, hSum, hSign, hRebased⟩ := hBeyond
  obtain ⟨b, distance, hBase, hAbove, hNear⟩ := h.rebased_above hRebased
  have hMem : Value.const (.int bits word) ∈ c.inst.operands := by
    obtain ⟨_, _, rest, hOperands⟩ := Instruction.sum?_eq_some hSum
    simp [hOperands]
  have hWord := Constant.lt_of_signedWord_nonneg
    (h.constants id c.inst bits word (Func.inst_of_cell hc) hMem) hSign
  refine ⟨b, distance + word.toNat, hBase, ?_, by omega⟩
  have hSumValue := h.sum_value hc hSum
  rw [hAbove] at hSumValue
  simpa only [Above, value, Nat.mod_add_mod, Nat.add_assoc] using hSumValue

/-- Turning an address into a pointer does not change its value. -/
theorem conversion_value {id : InstId} {c : Cell} {address : Value} (hc : f.cells[id]? = some c)
    (hCast : c.inst.opcode = .cast .intToPtr) (hAddress : c.inst.operands[0]? = some address) :
    ρ.inst id = ρ.value address := by
  have hLayout := h.consistent.mem_layout_of_operand hc (List.mem_of_getElem? hAddress)
  have hPointer := h.conversions id c.inst hLayout (Func.inst_of_cell hc) hCast
  have hResult : ρ.result? c.inst = some (mask machineWidth (ρ.value address)) := by
    cases hTy : c.inst.ty <;> simp [hTy, Ty.isPointer] at hPointer
    cases hOperands : c.inst.operands <;> simp [hOperands] at hAddress
    simp only [result?, hCast, hOperands, hTy, Ty.valueWidth?, hAddress]
  rw [h.solves.eq_of_cell h.consistent hc (by simp [hCast, followed]) hResult, mask_machineWidth]

/-- A confined address lies above the region base, at most 32 bits away if no constant is added to
it. -/
theorem confined_above (hConfined : f.IsConfined base v) :
    ∃ b distance, f.IsBase base (.inst b) ∧ ρ.Above b v distance ∧ distance < 2 ^ 63 + 2 ^ 32 ∧
      (¬f.AddsConstant v → distance < 2 ^ 32) := by
  obtain ⟨id, c, address, rfl, hc, hCast, hAddress, hForm⟩ := hConfined
  have hAbove : ∀ b distance, ρ.Above b address distance → ρ.Above b (.inst id) distance :=
    fun b distance hAt => by
    simpa only [Above, value, h.conversion_value hc hCast hAddress] using hAt
  rcases hForm with hRebased | hBeyond
  · obtain ⟨b, distance, hBase, hAt, hNear⟩ := h.rebased_above hRebased
    exact ⟨b, distance, hBase, hAbove b distance hAt, by omega, fun _ => hNear⟩
  · obtain ⟨b, distance, hBase, hAt, hFar⟩ := h.rebasedBeyond_above hBeyond
    refine ⟨b, distance, hBase, hAbove b distance hAt, hFar, fun hNone => absurd ?_ hNone⟩
    obtain ⟨sum, d, inner, bits, word, rfl, hd, hSum, _⟩ := hBeyond
    refine ⟨id, c.inst, .inst sum, inner, .int bits word, rfl, Func.inst_of_cell hc, hAddress, ?_⟩
    simp only [Func.sum?, Func.inst_of_cell hd, bind, Except.bind, hSum]
    rfl

theorem clipped_lt {id : InstId} {c : Cell} (hc : f.cells[id]? = some c) (hv : v ∈ c.inst.operands)
    (hClipped : f.IsClipped v) : (ρ.value v).toNat < 2 ^ 32 := by
  obtain ⟨bits, hTy, hNarrow | hWidened⟩ := hClipped
  · exact (h.operand_lt hc hv hTy).trans_le (Nat.pow_le_pow_right (by decide) hNarrow)
  · exact h.widened_lt hWidened

end Admissible

end Valuation

/-- Whoever wrote the code, and whatever it is given: if the audit accepts it, the region base is
loaded only at the head of the function, every address of any other instruction lies above what is
loaded there, and at most 32 bits above it if no constant is added. Every length has 32 bits, and
nothing else takes a pointer. -/
theorem accepted_values_confined {f : Func} {base : String} {report : AuditReport}
    (hBuilt : f.Built) (hConstants : f.ConstantsOfWord) (hConversions : f.ConversionsTyped)
    (hWidenings : f.WideningsTyped) (hAudit : (Auditor.mk base false).audit f = .ok report)
    (hAccepts : (Auditor.mk base false).accepts report = true) (ρ : Valuation)
    (hRespects : ρ.Respects f) (hSolves : ρ.SolvesFor f Valuation.followed) :
    (∃ b, ∀ id inst, id ∈ f.layout → f.inst id = .ok inst →
      (inst.isBaseLoad base = true → id = b ∧ f.HeadLoad base b) ∧
      (inst.isBaseLoad base = false → ∀ position ∈ (Access.ofInstruction inst).addresses,
        f.HeadLoad base b ∧ ∃ v distance, inst.operands[position]? = some v ∧ ρ.Above b v distance ∧
          distance < 2 ^ 63 + 2 ^ 32 ∧ (¬f.AddsConstant v → distance < 2 ^ 32))) ∧
    (∀ id inst position, id ∈ f.layout → f.inst id = .ok inst →
      (Access.ofInstruction inst).length? = some position → ∃ v, inst.operands[position]? = some v ∧
      (ρ.value v).toNat < 2 ^ 32) ∧
    (∀ id inst, id ∈ f.layout → f.inst id = .ok inst → (Access.ofInstruction inst).addresses = [] →
      Access.ofInstruction inst ≠ .exempt → ∀ v ∈ inst.given, ¬f.IsPointer v) := by
  have hf := hBuilt.consistent
  have hValues : ρ.Admissible f := ⟨hf, hConstants, hConversions, hWidenings, hRespects, hSolves⟩
  obtain ⟨hForm, _⟩ := Auditor.accepted_spec (.mk base false) hf hAudit hAccepts
  refine ⟨⟨f.entryHead?.getD 0, fun id inst hLayout hInst => ?_⟩, ?_, ?_⟩
  · obtain ⟨c, hc, hLive, rfl⟩ := hf.cell_of_mem_layout hLayout hInst
    refine ⟨fun hLoad => ?_, fun hOther position hPosition => ?_⟩
    · have hHead := hForm.headLoad hf ⟨id, c, rfl, hc, hLive, hLoad⟩
      rw [hHead.head]
      exact ⟨rfl, hHead⟩
    · obtain ⟨v, hv, hConfined⟩ :=
        (hForm.approved id c hc hLive hOther).addresses position hPosition
      obtain ⟨b, distance, hBase, hAbove⟩ := hValues.confined_above hConfined
      have hHead := hForm.headLoad hf hBase
      rw [hHead.head]
      exact ⟨hHead, v, distance, hv, hAbove⟩
  · intro id inst position hLayout hInst hPosition
    obtain ⟨c, hc, hLive, rfl⟩ := hf.cell_of_mem_layout hLayout hInst
    have hOther : c.inst.isBaseLoad base = false := Func.isBaseLoad_eq_false base fun hLoad => by
      rw [hLoad] at hPosition
      cases hPosition
    obtain ⟨v, hv, hClipped⟩ := (hForm.approved id c hc hLive hOther).length position
      (by simp [hPosition])
    exact ⟨v, hv, hValues.clipped_lt hc (List.mem_of_getElem? hv) hClipped⟩
  · intro id inst hLayout hInst hNone hExempt v hv
    obtain ⟨c, hc, hLive, rfl⟩ := hf.cell_of_mem_layout hLayout hInst
    have hOther : c.inst.isBaseLoad base = false := Func.isBaseLoad_eq_false base fun hLoad => by
      rw [hLoad] at hNone
      cases hNone
    rw [← Access.unconfined_eq_given hNone hExempt] at hv
    exact (hForm.approved id c hc hLive hOther).unconfined v hv

/-- Written in confined form by hand: adds a constant beyond 32 bits to an address, and fills a
block through it. -/
def writtenConfined : List Func.Edit :=
  [ .addBlock "entry",
    .append 0
    { opcode := .load, operands := [.global (.global defaultBaseSymbol .i64)], ty := .i64 },
    .append 0 { opcode := .cast .zext, operands := [.arg 0], ty := .i64 }, .append 0
    { opcode := .binary .add, operands := [.inst 0, .inst 1], ty := .i64 }, .append 0
    { opcode := .binary .add, operands := [.inst 2, .ofWord 64 0x200000000], ty := .i64 }, .append 0
    { opcode := .cast .intToPtr, operands := [.inst 3], ty := .ptr (.int 8) }, .append 0 {
      opcode := .call
      operands := [.inst 4, .ofWord 8 0, .arg 0,
        .global (.function "llvm.memset.p0i8.i32" .void [.ptr (.int 8), .int 8, .i32])]
      ty := .void } ]

/-- The region lies at the end of memory, so that its addresses go round. -/
def writtenConfinedValues : Valuation where
  inst id := [0xffffffff00000000, 7, 0xffffffff00000007, 0x100000007, 0x100000007].getD id 0
  arg _ := 7
  symbol _ := 0
  constant _ := 0

theorem typed_writtenConfined {f : Func}
    (h : Func.ofEdits "f" [.i32] .void writtenConfined = .ok f) :
    f.ConstantsOfWord ∧ f.ConversionsTyped ∧ f.WideningsTyped := by
  obtain rfl := Except.ok.inj h
  refine ⟨fun id inst bits word hInst hMem => ?_, fun id inst _ hInst hCast => ?_,
    fun id inst _ hInst hCast => ?_⟩
  · rcases id with _ | _ | _ | _ | _ | _ | id <;> cases hInst <;>
      simp [Value.ofWord, Constant.ofWord] at hMem
    · obtain ⟨rfl, rfl⟩ := hMem
      exact ⟨0x200000000, rfl⟩
    · obtain ⟨rfl, rfl⟩ := hMem
      exact ⟨0, rfl⟩
  · rcases id with _ | _ | _ | _ | _ | _ | id <;> cases hInst <;> cases hCast
    rfl
  · rcases id with _ | _ | _ | _ | _ | _ | id <;> cases hInst <;> cases hCast
    exact ⟨64, rfl⟩

theorem respects_writtenConfined {f : Func} (hParams : f.params = [.i32])
    (hTypes : f.cells.map (·.inst.ty) = [.i64, .i64, .i64, .i64, .ptr (.int 8), .void]) :
    writtenConfinedValues.Respects f := by
  refine Valuation.respects_of_zero ?_ ?_ (fun _ => rfl) fun _ => rfl
  · intro id bits hAt
    rw [hTypes] at hAt
    rcases id with _ | _ | _ | _ | _ | _ | id <;> cases hAt
    all_goals exact UInt64.toNat_lt _
  · intro position bits hAt
    rw [hParams] at hAt
    rcases position with _ | position <;> cases hAt
    decide

theorem accepted_values_confined_writtenConfined :
    ∃ f report, Func.ofEdits "f" [.i32] .void writtenConfined = .ok f ∧
      (Auditor.mk defaultBaseSymbol false).audit f = .ok report ∧
      (Auditor.mk defaultBaseSymbol false).accepts report = true ∧ f.ConstantsOfWord ∧
      f.ConversionsTyped ∧ f.WideningsTyped ∧ writtenConfinedValues.Respects f ∧
      writtenConfinedValues.SolvesFor f Valuation.followed ∧
      ∃ b distance, f.HeadLoad defaultBaseSymbol b ∧
        writtenConfinedValues.Above b (.inst 4) distance ∧ distance < 2 ^ 63 + 2 ^ 32 := by
  obtain ⟨f, report, inst, hf, hAudit, hAccepts, hSolves, hParams, hTypes, hLayout, hInst, hLoad,
    hPosition, hv⟩ :
      ∃ f report inst, Func.ofEdits "f" [.i32] .void writtenConfined = .ok f ∧
      (Auditor.mk defaultBaseSymbol false).audit f = .ok report ∧
      (Auditor.mk defaultBaseSymbol false).accepts report = true ∧
      writtenConfinedValues.solves f = true ∧ f.params = [.i32] ∧
      f.cells.map (·.inst.ty) = [.i64, .i64, .i64, .i64, .ptr (.int 8), .void] ∧ 5 ∈ f.layout ∧
      f.inst 5 = .ok inst ∧ inst.isBaseLoad defaultBaseSymbol = false ∧
      0 ∈ (Access.ofInstruction inst).addresses ∧ inst.operands[0]? = some (.inst 4) :=
    ⟨_, _, _, rfl, rfl, rfl, rfl, rfl, rfl, by decide, rfl, rfl, by decide, rfl⟩
  have hSolvesFor := (Valuation.solves_iff.mp hSolves).solvesFor Valuation.followed
  have hRespects := respects_writtenConfined hParams hTypes
  obtain ⟨hConstants, hConversions, hWidenings⟩ := typed_writtenConfined hf
  obtain ⟨⟨b, hAll⟩, _⟩ := accepted_values_confined (Func.built_ofEdits hf) hConstants hConversions
    hWidenings hAudit hAccepts writtenConfinedValues hRespects hSolvesFor
  obtain ⟨hHead, v, distance, hAt, hAbove, hFar, _⟩ :=
    (hAll 5 inst hLayout hInst).2 hLoad 0 hPosition
  obtain rfl : v = .inst 4 := Option.some.inj (hAt.symm.trans hv)
  exact ⟨f, report, hf, hAudit, hAccepts, hConstants, hConversions, hWidenings, hRespects,
    hSolvesFor, b, distance, hHead, hAbove, hFar⟩

end FaultIsolation
