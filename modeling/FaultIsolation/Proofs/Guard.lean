import FaultIsolation.Proofs.Agreement

/-!
What the check for stray pointers is worth for a whole function. An instruction that takes a pointer
which nothing confines makes the run fail, with one exception: the walk does not look at what is
gone when its turn comes, and folding an address removes additions that may stand later in the
layout.
-/
namespace FaultIsolation

/-- The instruction takes a pointer that nothing confines. -/
def Func.TakesStray (f : Func) (id : InstId) : Prop :=
  ∃ inst, f.inst id = .ok inst ∧ ∃ v ∈ (Access.ofInstruction inst).unconfined inst, f.IsPointer v

/-- Folding is on, and an access that stands before the instruction takes an address that the
instruction is folded out of: it is the addition that the address was converted from. -/
def Sandbox.FoldsEarlier (s : Sandbox) (f : Func) (id : InstId) : Prop :=
  s.options.fold = true ∧ ∃ front back other position v address, f.layout = front ++ id :: back ∧
    other ∈ front ∧ f.AddressAt other position v ∧ f.foldable? v = .ok (some address) ∧
    address.addition = id

namespace Func

variable {f : Func} {id : InstId}

namespace TakesStray

theorem vet_ne_ok (h : f.TakesStray id) (hf : f.Consistent) : f.vet id ≠ .ok () := by
  obtain ⟨inst, hInst, v, hv, hPointer⟩ := h
  obtain ⟨c, hc, rfl⟩ := cell_of_inst hInst
  rcases vet_decides hf hc with ⟨_, hVetted⟩ | ⟨_, hVet, _⟩
  · exact absurd hPointer (hVetted.unconfined v hv)
  · simp [hVet]

/-- A conversion to a pointer may take what it likes. -/
theorem opcode_ne_intToPtr (h : f.TakesStray id) {c : Cell} (hc : f.cells[id]? = some c) :
    c.inst.opcode ≠ .cast .intToPtr := by
  obtain ⟨inst, hInst, v, hv, _⟩ := h
  obtain rfl : c.inst = inst := by simpa [inst_of_cell hc] using hInst
  intro hCast
  simp [Access.ofInstruction, hCast, Access.unconfined] at hv

/-- In an addition of a constant to something that is no pointer, the stray pointer is a surplus
operand. -/
theorem surplus_operand (h : f.TakesStray id) {c : Cell} (hc : f.cells[id]? = some c)
    {index : Value} {constant : UInt64} (hStep : c.inst.positiveStep? = some (index, constant))
    (hIndex : f.typeOf index = .ok .i32) : 2 < c.inst.operands.length := by
  obtain ⟨inst, hInst, v, hv, ty, hTy, hPointer⟩ := h
  obtain rfl : c.inst = inst := by simpa [inst_of_cell hc] using hInst
  obtain ⟨_, _, bits, rest, hOperands, _⟩ := operands_of_positiveStep? hStep
  have hMem := mem_operands_of_unconfined hv
  rw [hOperands] at hMem ⊢
  cases rest with
  | nil =>
      rcases List.mem_pair.mp hMem with rfl | rfl
      · rw [hIndex] at hTy
        cases hTy
        cases hPointer
      · cases hTy
        cases hPointer
  | cons w rest => simp

end TakesStray

end Func

section Bypass

variable {s : Sandbox} {symbol : Symbol} {f : Func} {id : InstId}

/-- Only folding removes an instruction before its turn. -/
theorem Sandbox.Skips.folded (h : s.Skips f id) (hs : s.source = .ofSymbol symbol)
    (hf : f.Consistent) :
    ∃ front back other position v address, f.layout = front ++ id :: back ∧ other ∈ front ∧
      f.AddressAt other position v ∧ s.foldable? f v = .ok (some address) ∧
      (id = address.conversion ∨ id = address.addition) := by
  obtain ⟨front, back, p, hLayout, hWalk, hDead⟩ := h
  have hId : id ∈ f.layout := by simp [hLayout]
  have hBlocks := Func.isDeclaration_eq_false_iff.mp (Func.isDeclaration_of_mem_layout hId)
  obtain ⟨c, hc, hLive⟩ := hf.mem_layout_iff.mp hId
  rcases walk_front hs hf hBlocks hLayout with ⟨q, hq, hWalked⟩ | ⟨_, _, _, q, refusal, _, hq, _⟩
  · obtain rfl : p = q := by simpa [hWalk] using hq
    obtain ⟨_, hDropped⟩ := hWalked.dropped_of_dead hc hLive hDead
    obtain ⟨site, hSite, _, v, address, hTakes, hRole, hFold, hPart⟩ := hDropped.folded
    obtain ⟨other, hOther, hListed⟩ := List.mem_flatMap.mp hSite
    obtain rfl := Func.id_of_mem_sites hListed
    exact ⟨front, back, site.id, site.position, v, address, hLayout, hOther,
      hTakes.addressAt hf hRole, hFold, hPart⟩
  · rw [hWalk] at hq
    cases hq

/-- A stray pointer that is skipped is skipped with the addition that takes it. -/
theorem Sandbox.Skips.foldsEarlier (h : s.Skips f id) (hs : s.source = .ofSymbol symbol)
    (hf : f.Consistent) (hStray : f.TakesStray id) : s.FoldsEarlier f id := by
  obtain ⟨front, back, other, position, v, address, hLayout, hOther, hAt, hFold, hPart⟩ :=
    h.folded hs hf
  obtain ⟨hEnabled, hFold⟩ := Sandbox.foldable?_eq_some_iff.mp hFold
  obtain ⟨a, _, _, ha, hSource, _⟩ := Func.foldable?_some hFold
  rcases hPart with rfl | rfl
  · exact absurd (Func.opcode_of_pointerSource? hSource).1 (hStray.opcode_ne_intToPtr ha)
  · exact ⟨hEnabled, front, back, other, position, v, address, hLayout, hOther, hAt, hFold, rfl⟩

/-- Nothing refers to what is gone in the end. -/
theorem Finished.not_mem_operands {p : Pass} (h : Finished s symbol f p) (hf : f.Consistent)
    (hId : id ∈ f.layout) (hDead : p.func.isLive id = .ok false) {i : InstId} {inst : Instruction}
    (hInst : p.func.inst i = .ok inst) : Value.inst id ∉ inst.operands := by
  obtain ⟨c, hc, hLive⟩ := hf.mem_layout_iff.mp hId
  obtain ⟨e, he, rfl⟩ := Func.cell_of_inst hInst
  obtain ⟨_, hDropped⟩ := h.dropped_of_dead hc hLive hDead
  intro hMem
  have hPos := references_pos_iff.mpr ⟨e, List.mem_of_getElem? he, hMem⟩
  rw [hDropped.unreferenced] at hPos
  cases hPos

/-- If the audit knows the region base and passes, a stray pointer that was skipped is a surplus
operand. -/
theorem Finished.surplus_of_inConfinedForm {p : Pass} (h : Finished s symbol f p)
    (hf : f.Consistent) (hForm : p.func.InConfinedForm symbol.name) (hFolds : s.FoldsEarlier f id)
    (hStray : f.TakesStray id) : ∃ inst, f.inst id = .ok inst ∧ 2 < inst.operands.length := by
  obtain ⟨hEnabled, _, _, other, position, v, address, _, _, hAt, hFold, rfl⟩ := hFolds
  obtain ⟨_, b, _, _, _, hb, hStep⟩ := Func.foldable?_some hFold
  have hIndex := ((h.inConfinedForm_iff hf).mp hForm).1 other position v address hAt
    (Sandbox.foldable?_eq_some_iff.mpr ⟨hEnabled, hFold⟩)
  exact ⟨b.inst, Func.inst_of_cell hb, hStray.surplus_operand hb hStep hIndex.1⟩

end Bypass

/-- A function with an instruction that takes a stray pointer is refused, unless folding has removed
that instruction before its turn. It is then gone for good, and nothing refers to it; and if there
was an audit, it was an addition with more than two operands. Without an audit, a function is
refused exactly if something that does not pass the vet is still there in the end. -/
theorem stray_pointer_refused_or_folded {s : Sandbox} {symbol : Symbol} {f : Func} {id : InstId}
    (hBuilt : f.Built) (hSource : s.source = .ofSymbol symbol) (hId : id ∈ f.layout)
    (hStray : f.TakesStray id) :
    ∃ outcome, s.run f = .ok outcome ∧
      ((∃ refusal, outcome.result = .error refusal) ∨
        s.FoldsEarlier f id ∧ outcome.func.isLive id = .ok false ∧
        (∀ i inst, outcome.func.inst i = .ok inst → Value.inst id ∉ inst.operands) ∧
        (s.options.audit = true → symbol.name = s.options.baseSymbol →
          ∃ inst, f.inst id = .ok inst ∧ 2 < inst.operands.length)) ∧
      (s.options.audit = false →
        ((∃ refusal, outcome.result = .error refusal) ↔
          ∃ i ∈ f.layout, f.vet i ≠ .ok () ∧ outcome.func.isLive i = .ok true)) := by
  have hf := hBuilt.consistent
  rcases Sandbox.run_cases hSource hf (Func.isDeclaration_of_mem_layout hId) with
    ⟨g, refusal, hRun, hStands⟩ | ⟨p, hFinished, ⟨refusal, hRun, hAudit⟩ | ⟨hRun, hForm⟩⟩
  · exact ⟨_, hRun, .inl ⟨refusal, rfl⟩, fun _ => iff_of_true ⟨refusal, rfl⟩ hStands⟩
  · refine ⟨_, hRun, .inl ⟨refusal, rfl⟩, fun hNone => ?_⟩
    rw [hAudit] at hNone
    cases hNone
  · refine ⟨_, hRun, .inr ?_, fun _ => iff_of_false ?_ ?_⟩
    · rcases hFinished.vetted id hId with hVet | ⟨hSkips, hDead⟩
      · exact absurd hVet (hStray.vet_ne_ok hf)
      · have hFolds := hSkips.foldsEarlier hSource hf hStray
        refine ⟨hFolds, hDead, fun i inst => hFinished.not_mem_operands hf hId hDead, ?_⟩
        intro hAudit hName
        exact hFinished.surplus_of_inConfinedForm hf (hName ▸ hForm hAudit) hFolds hStray
    · rintro ⟨refusal, hRefused⟩
      cases hRefused
    · rintro ⟨i, hi, hVet, hAlive⟩
      rcases hFinished.vetted i hi with hPassed | ⟨_, hDead⟩
      · exact hVet hPassed
      · rw [hAlive] at hDead
        cases hDead

def readFromLater : List Func.Edit :=
  [ .addBlock "entry",
    .addBlock "later",
    .append 1 { opcode := .binary .add, operands := [.arg 1, .ofWord 32 8], ty := .i32 },
    .append 1 { opcode := .cast .intToPtr, operands := [.inst 0], ty := .ptr .i32 },
    .append 0 { opcode := .load, operands := [.inst 1], ty := .i32 } ]

def unfoldedSandbox : Sandbox :=
  { source := .ofSymbol (.global defaultBaseSymbol .i64), options := { fold := false } }

theorem stray_pointer_refused_readFromLater :
    ∃ f outcome refusal, Func.ofEdits "f" [.i32, .ptr .i32] .void readFromLater = .ok f ∧
      0 ∈ f.layout ∧ f.TakesStray 0 ∧ unfoldedSandbox.run f = .ok outcome ∧
      outcome.result = .error refusal := by
  obtain ⟨f, hf, hId, hStray⟩ : ∃ f,
    Func.ofEdits "f" [.i32, .ptr .i32] .void readFromLater = .ok f ∧
      0 ∈ f.layout ∧ f.TakesStray 0 :=
    ⟨_, rfl, by decide, _, rfl, .arg 1, by decide, .ptr .i32, rfl, rfl⟩
  obtain ⟨outcome, hRun, ⟨refusal, hRefused⟩ | ⟨⟨hFold, _⟩, _⟩, _⟩ :=
    stray_pointer_refused_or_folded (Func.built_ofEdits hf) (s := unfoldedSandbox) rfl hId hStray
  · exact ⟨f, outcome, refusal, hf, hId, hStray, hRun, hRefused⟩
  · cases hFold

/-- With folding, the addition is removed before the check comes to it, and the function passes. -/
theorem stray_pointer_passes_readFromLater :
    ∃ f g stats, Func.ofEdits "f" [.i32, .ptr .i32] .void readFromLater = .ok f ∧
      0 ∈ f.layout ∧ f.TakesStray 0 ∧ defaultSandbox.run f = .ok ⟨g, .ok stats⟩ :=
  ⟨_, _, _, rfl, by decide, ⟨_, rfl, .arg 1, by decide, .ptr .i32, rfl, rfl⟩, rfl⟩

end FaultIsolation
