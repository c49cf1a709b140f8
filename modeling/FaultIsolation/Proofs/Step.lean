import FaultIsolation.Region.Pass
import FaultIsolation.Proofs.Emission

/-!
One step of confinement. Dealing with an address brings the region base in if it is not there yet,
puts a chain before the instruction, takes the end of the chain as operand and, after folding,
removes what nothing needs any more. Each part is said here once; what a whole run preserves follows
from it.
-/
namespace FaultIsolation

@[simp] theorem lift_ok {α : Type} (a : α) :
    (liftM (Except.ok a : Except Fault α) : Except Stop α) = .ok a :=
  rfl

theorem lift_eq_ok_iff {α : Type} {x : Except Fault α} {a : α} :
    (liftM x : Except Stop α) = .ok a ↔ x = .ok a := by
  cases x with
  | ok b => simp
  | error cause => exact iff_of_false nofun nofun

def foldedParts (fold : Option Foldable) : List InstId :=
  fold.toList.flatMap fun address => [address.conversion, address.addition]

/-- What folding may remove are the conversion and the addition. -/
theorem mem_foldedParts {fold : Option Foldable} {id : InstId} :
    id ∈ foldedParts fold ↔ ∃ address, fold = some address ∧
      (id = address.conversion ∨ id = address.addition) := by
  cases fold <;> simp [foldedParts]

theorem length_foldedParts (fold : Option Foldable) :
    (foldedParts fold).length = 2 * fold.toList.length := by
  cases fold <;> rfl

namespace Func

/-- An instruction was removed if it stood in a block and nothing referred to it, and kept if
not. -/
inductive Swept (f : Func) (id : InstId) : Nat → Func → Prop where
  | gone {c : Cell} {g : Func} (cell : f.cells[id]? = some c) (live : c.live = true)
      (unused : references f.cells id = 0) (removed : Removed f id c g) : Swept f id 1 g
  | kept {c : Cell} (cell : f.cells[id]? = some c)
      (needed : c.live = true → 0 < references f.cells id) : Swept f id 0 f

inductive Sweeps : List InstId → Func → Nat → Func → Prop where
  | nil (f : Func) : Sweeps [] f 0 f
  | cons {id : InstId} {ids : List InstId} {f g h : Func} {first rest : Nat}
      (head : Swept f id first g) (tail : Sweeps ids g rest h) :
      Sweeps (id :: ids) f (first + rest) h

/-- Sweeping up an instruction of a consistent function goes through. -/
theorem removeIfUnused_spec {f : Func} {id : InstId} {c : Cell} (hf : f.Consistent)
    (hc : f.cells[id]? = some c) :
    ∃ g removed, f.removeIfUnused id = .ok (g, removed) ∧
      Swept f id (if removed then 1 else 0) g := by
  have hMem := List.mem_of_getElem? hc
  by_cases hDead : c.live = true ∧ references f.cells id = 0
  · have hUnused : f.usesOf id = 0 := (hf.counted id).trans hDead.2
    obtain ⟨g, hg, hRemoved⟩ := remove_spec hc hDead.1 hUnused (hf.housed c hMem) (hf.within c hMem)
    refine ⟨g, true, ?_, .gone hc hDead.1 hDead.2 hRemoved⟩
    rw [removeIfUnused, node_of_cell hc]
    simp only [bind, Except.bind, hDead.1, hUnused, hg, and_self, if_true]
    rfl
  · refine ⟨f, false, ?_, .kept hc fun hLive => Nat.pos_of_ne_zero fun hZero =>
      hDead ⟨hLive, hZero⟩⟩
    rw [removeIfUnused, node_of_cell hc, hf.counted]
    simp only [bind, Except.bind, hDead, if_false]
    rfl

namespace Swept

variable {f g : Func} {id : InstId} {removed : Nat}

theorem consistent (h : Swept f id removed g) (hf : f.Consistent) : g.Consistent := by
  cases h with
  | gone cell live unused removed => exact removed.consistent hf cell
  | kept cell needed => exact hf

theorem keeps (h : Swept f id removed g) : f.Keeps g := by
  cases h with
  | gone cell live unused removed => exact removed.keeps cell
  | kept cell needed => exact .refl f

/-- What was removed is missing, and nothing else. -/
theorem instCount (h : Swept f id removed g) (hf : f.Consistent) :
    g.instCount + removed = f.instCount := by
  have hg := h.consistent hf
  cases h with
  | gone cell live unused removed => exact removed.instCount hf hg cell live
  | kept cell needed => rfl

theorem blocks_length (h : Swept f id removed g) : g.blocks.length = f.blocks.length := by
  cases h with
  | gone cell live unused removed => rw [removed.blocks, List.length_modify]
  | kept cell needed => rfl

theorem length_cells (h : Swept f id removed g) : g.cells.length = f.cells.length := by
  cases h with
  | gone cell live unused removed => rw [removed.cells, List.length_set]
  | kept cell needed => rfl

/-- The first instruction of the function stays so unless it is the one that goes. -/
theorem entryHead? (h : Swept f id removed g) {first : InstId} (hNe : first ≠ id)
    (hFirst : f.entryHead? = some first) : g.entryHead? = some first := by
  cases h with
  | gone cell live unused removed =>
      refine entryHead?_modify removed.blocks hFirst fun order hOrder => ?_
      obtain ⟨tail, rfl⟩ := List.head?_eq_some_iff.mp hOrder
      simp [hNe]
  | kept cell needed => exact hFirst

/-- Removal takes references away and adds none. -/
theorem references_le (h : Swept f id removed g) (j : InstId) :
    references g.cells j ≤ references f.cells j := by
  cases h with
  | @gone c _ cell live unused removed =>
      have hSet := references_set cell c.emptied j
      have hNil : c.emptied.inst.operands.count (Value.inst j) = 0 := rfl
      rw [removed.cells]
      omega
  | kept cell needed => exact Nat.le_refl _

/-- A cell stays as it is, or it was removed and nothing refers to it. -/
theorem cell (h : Swept f id removed g) {j : InstId} {d : Cell} (hd : f.cells[j]? = some d) :
    g.cells[j]? = some d ∨
      j = id ∧ d.live = true ∧ g.cells[j]? = some d.emptied ∧ references g.cells j = 0 := by
  have hLe := h.references_le j
  cases h with
  | @gone c _ cell live unused removed =>
      by_cases hj : id = j
      · subst hj
        obtain rfl : c = d := by simpa [cell] using hd
        refine .inr ⟨rfl, live, ?_, by omega⟩
        rw [removed.cells]
        exact List.getElem?_set_self (lt_of_cell cell)
      · left
        rw [removed.cells, List.getElem?_set_ne hj]
        exact hd
  | kept cell needed => exact .inl hd

end Swept

namespace Sweeps

variable {f g : Func} {ids : List InstId} {removed : Nat}

theorem consistent (h : Sweeps ids f removed g) (hf : f.Consistent) : g.Consistent := by
  induction h with
  | nil f => exact hf
  | cons head tail ih => exact ih (head.consistent hf)

theorem keeps (h : Sweeps ids f removed g) : f.Keeps g := by
  induction h with
  | nil f => exact .refl f
  | cons head tail ih => exact head.keeps.trans ih

/-- All removals together are missing from the function. -/
theorem instCount (h : Sweeps ids f removed g) (hf : f.Consistent) :
    g.instCount + removed = f.instCount := by
  induction h with
  | nil f => rfl
  | cons head tail ih =>
      have hHead := head.instCount hf
      have hTail := ih (head.consistent hf)
      omega

theorem blocks_length (h : Sweeps ids f removed g) : g.blocks.length = f.blocks.length := by
  induction h with
  | nil f => rfl
  | cons head tail ih => exact ih.trans head.blocks_length

theorem length_cells (h : Sweeps ids f removed g) : g.cells.length = f.cells.length := by
  induction h with
  | nil f => rfl
  | cons head tail ih => exact ih.trans head.length_cells

theorem entryHead? (h : Sweeps ids f removed g) {first : InstId} (hNotMem : first ∉ ids)
    (hFirst : f.entryHead? = some first) : g.entryHead? = some first := by
  induction h with
  | nil f => exact hFirst
  | cons head tail ih =>
      rw [List.mem_cons, not_or] at hNotMem
      exact ih hNotMem.2 (head.entryHead? hNotMem.1 hFirst)

theorem references_le (h : Sweeps ids f removed g) (j : InstId) :
    references g.cells j ≤ references f.cells j := by
  induction h with
  | nil f => exact Nat.le_refl _
  | cons head tail ih => exact Nat.le_trans ih (head.references_le j)

/-- After some removals an instruction is as it was, or it is gone and nothing refers to it. -/
theorem cell (h : Sweeps ids f removed g) {j : InstId} {d : Cell} (hd : f.cells[j]? = some d) :
    g.cells[j]? = some d ∨
      j ∈ ids ∧ d.live = true ∧ g.cells[j]? = some d.emptied ∧ references g.cells j = 0 := by
  induction h generalizing d with
  | nil f => exact .inl hd
  | cons head tail ih =>
      have hLe := tail.references_le j
      rcases head.cell hd with hSame | ⟨rfl, hLive, hGone, hZero⟩
      · rcases ih hSame with hSame | ⟨hMem, hRest⟩
        · exact .inl hSame
        · exact .inr ⟨List.mem_cons_of_mem _ hMem, hRest⟩
      · refine .inr ⟨List.mem_cons_self, hLive, ?_, by omega⟩
        -- What is removed already cannot be removed again.
        rcases ih hGone with hSame | ⟨_, hAlive, _⟩
        · exact hSame
        · cases hAlive

/-- Each instruction is removed at most once. -/
theorem removed_le (h : Sweeps ids f removed g) : removed ≤ ids.length := by
  induction h with
  | nil f => exact Nat.le_refl 0
  | cons head tail ih =>
      cases head with
      | gone cell live unused removed =>
          rw [Nat.add_comm, List.length_cons]; exact Nat.succ_le_succ ih
      | kept cell needed => rw [Nat.zero_add, List.length_cons]; exact Nat.le_succ_of_le ih

end Sweeps

def lastOf (start : InstId) (insts : List Instruction) : InstId := start + (insts.length - 1)

/-- A chain went in before an instruction, its end took the place of an operand, and what nothing
needs after that was removed. -/
inductive Rerouted (f : Func) (anchor : InstId) (c : Cell) (position : Nat) (old : Value)
    (insts : List Instruction) (gone : List InstId) (removed : Nat) (g : Func) : Prop where
  | intro {h k : Func} (emitted : Emitted f c.block anchor insts h)
      (replaced : Replaced h anchor c position old (.inst (lastOf f.cells.length insts)) k)
      (swept : Sweeps gone k removed g)

namespace Rerouted

variable {f g : Func} {anchor : InstId} {c : Cell} {position : Nat} {old : Value}
  {insts : List Instruction} {gone : List InstId} {removed : Nat}

theorem length_cells (h : Rerouted f anchor c position old insts gone removed g) :
    g.cells.length = f.cells.length + insts.length := by
  cases h with
  | intro emitted replaced swept =>
      rw [swept.length_cells, replaced.cells, List.length_set, emitted.length_cells]

/-- No more is removed than may go. -/
theorem removed_le (h : Rerouted f anchor c position old insts gone removed g) :
    removed ≤ gone.length := by
  cases h with
  | intro emitted replaced swept => exact swept.removed_le

theorem blocks_length (h : Rerouted f anchor c position old insts gone removed g) :
    g.blocks.length = f.blocks.length := by
  cases h with
  | intro emitted replaced swept =>
      rw [swept.blocks_length, replaced.blocks, emitted.blocks, List.length_modify]

/-- A chain put in the place of an operand keeps all opcodes and types. -/
theorem keeps (h : Rerouted f anchor c position old insts gone removed g)
    (hc : f.cells[anchor]? = some c) : f.Keeps g := by
  cases h with
  | intro emitted replaced swept =>
      exact (emitted.keeps.trans (replaced.keeps (emitted.old hc))).trans swept.keeps

theorem entryHead? (h : Rerouted f anchor c position old insts gone removed g) {first : InstId}
    (hNe : first ≠ anchor) (hNotMem : first ∉ gone) (hFirst : f.entryHead? = some first) :
    g.entryHead? = some first := by
  cases h with
  | @intro h k emitted replaced swept =>
      apply swept.entryHead? hNotMem
      rw [Func.entryHead?, replaced.blocks]
      exact emitted.entryHead? hNe hFirst

/-- The access has the end of the chain in the place of its operand. -/
theorem anchor_cell (h : Rerouted f anchor c position old insts gone removed g)
    (hc : f.cells[anchor]? = some c) (hAnchor : anchor ∉ gone) :
    g.cells[anchor]? = some (c.setOperand position (.inst (lastOf f.cells.length insts))) := by
  cases h with
  | @intro h k emitted replaced swept =>
      have hSet : k.cells[anchor]? =
          some (c.setOperand position (.inst (lastOf f.cells.length insts))) := by
        rw [replaced.cells, List.getElem?_set_self (lt_of_cell (emitted.old hc))]
      rcases swept.cell hSet with hSame | ⟨hMem, _⟩
      · exact hSame
      · exact absurd hMem hAnchor

/-- Any other cell stays as it is, or it was removed and nothing refers to it. -/
theorem other_cell (h : Rerouted f anchor c position old insts gone removed g) {j : InstId}
    {d : Cell} (hj : anchor ≠ j) (hd : f.cells[j]? = some d) :
    g.cells[j]? = some d ∨
      j ∈ gone ∧ d.live = true ∧ g.cells[j]? = some d.emptied ∧ references g.cells j = 0 := by
  cases h with
  | intro emitted replaced swept =>
      apply swept.cell
      rw [replaced.cells, List.getElem?_set_ne hj]
      exact emitted.old hd

/-- The members of the chain stand in the block of the access under the next numbers. -/
theorem new_cell (h : Rerouted f anchor c position old insts gone removed g)
    (hc : f.cells[anchor]? = some c) (hGone : ∀ j ∈ gone, j < f.cells.length) {i : Nat}
    {inst : Instruction} (hi : insts[i]? = some inst) :
    g.cells[f.cells.length + i]? = some ⟨inst, c.block, true⟩ := by
  cases h with
  | @intro h k emitted replaced swept =>
      have hNe : anchor ≠ f.cells.length + i :=
        Nat.ne_of_lt (Nat.lt_of_lt_of_le (lt_of_cell hc) (Nat.le_add_right _ _))
      have hNew : k.cells[f.cells.length + i]? = some ⟨inst, c.block, true⟩ := by
        rw [replaced.cells, List.getElem?_set_ne hNe]
        exact emitted.new hi
      rcases swept.cell hNew with hSame | ⟨hMem, _⟩
      · exact hSame
      · exact absurd (hGone _ hMem) (Nat.not_lt.mpr (Nat.le_add_right _ _))

/-- What nothing referred to, and the chain does not refer to, is still not referred to. -/
theorem unreferenced (h : Rerouted f anchor c position old insts gone removed g)
    (hc : f.cells[anchor]? = some c) (hOld : c.inst.operands[position]? = some old) {j : InstId}
    (hj : j < f.cells.length) (hNone : references f.cells j = 0)
    (hInsts : ∀ inst ∈ insts, Value.inst j ∉ inst.operands) : references g.cells j = 0 := by
  cases h with
  | @intro h k emitted replaced swept =>
      have hChain : references (insts.map fun inst => (⟨inst, c.block, true⟩ : Cell)) j = 0 := by
        by_contra hNe
        obtain ⟨d, hd, hv⟩ := references_pos_iff.mp (Nat.pos_of_ne_zero hNe)
        obtain ⟨inst, hInst, rfl⟩ := List.mem_map.mp hd
        exact hInsts inst hInst hv
      have hEmitted : references h.cells j = 0 := by
        rw [emitted.cells, references_append, hNone, hChain]
      have hSet := references_set (emitted.old hc)
        (c.setOperand position (.inst (lastOf f.cells.length insts))) j
      have hCount := count_set hOld (Value.inst (lastOf f.cells.length insts)) (Value.inst j)
      have hNe : lastOf f.cells.length insts ≠ j :=
        Nat.ne_of_gt (Nat.lt_of_lt_of_le hj (Nat.le_add_right _ _))
      have hLast : [Value.inst (lastOf f.cells.length insts)].count (Value.inst j) = 0 := by
        simp [hNe]
      have hLe := swept.references_le j
      simp only [Cell.setOperand] at hSet
      rw [replaced.cells] at hLe
      simp only [Cell.setOperand] at hLe
      omega

/-- Putting in a chain and removing what nothing needs preserves the invariant. -/
theorem consistent (h : Rerouted f anchor c position old insts gone removed g)
    (hc : f.cells[anchor]? = some c) (hOld : c.inst.operands[position]? = some old)
    (hInsts : insts ≠ []) : g.Consistent := by
  cases h with
  | intro emitted replaced swept =>
      apply swept.consistent
      apply replaced.consistent emitted.consistent (emitted.old hc) hOld
      exact emitted.new_within (Nat.sub_lt (List.length_pos_of_ne_nil hInsts) Nat.one_pos)

/-- The chain comes in and what was removed goes. -/
theorem instCount (h : Rerouted f anchor c position old insts gone removed g) (hf : f.Consistent)
    (hc : f.cells[anchor]? = some c) (hOld : c.inst.operands[position]? = some old)
    (hInsts : insts ≠ []) : g.instCount + removed = f.instCount + insts.length := by
  cases h with
  | intro emitted replaced swept =>
      have hLast := emitted.new_within (Nat.sub_lt (List.length_pos_of_ne_nil hInsts) Nat.one_pos)
      rw [swept.instCount (replaced.consistent emitted.consistent (emitted.old hc) hOld hLast),
        replaced.instCount, emitted.instCount hf]

end Rerouted

/-- What an access reads at a position is an operand at that position. -/
theorem operand_of_accessOperand? {inst : Instruction} {position : Nat} {v : Value}
    (h : inst.accessOperand? position = some v) : inst.operands[position]? = some v := by
  cases hOpcode : inst.opcode with
  | call =>
      simp only [Instruction.accessOperand?, Instruction.args, hOpcode] at h
      rw [List.getElem?_dropLast] at h
      split at h
      · exact h
      · cases h
  | _ => simpa only [Instruction.accessOperand?, hOpcode] using h

/-- An access that does the same with as many operands finds its operands at the same positions. -/
theorem accessOperand?_of_operand {i j : Instruction} {position : Nat} {v w : Value}
    (hOpcode : j.opcode = i.opcode) (hLength : j.operands.length = i.operands.length)
    (hv : i.accessOperand? position = some v) (hw : j.operands[position]? = some w) :
    j.accessOperand? position = some w := by
  cases hOp : i.opcode with
  | call =>
      simp only [Instruction.accessOperand?, Instruction.args, hOpcode, hOp,
        List.getElem?_dropLast] at hv ⊢
      split at hv
      · next hLt =>
          rw [hLength, if_pos hLt]
          exact hw
      · cases hv
  | _ => simpa only [Instruction.accessOperand?, hOpcode, hOp] using hw

theorem accessOperand_of_cell {f : Func} {id : InstId} {c : Cell} {position : Nat} {v : Value}
    (hc : f.cells[id]? = some c) (hv : c.inst.accessOperand? position = some v) :
    f.accessOperand id position = .ok v := by
  simp only [accessOperand, inst_of_cell hc, lift_ok, bind, Except.bind, hv]
  rfl

/-- An address is read off an access if it is there and is a pointer. -/
theorem addressOperand_of_cell {f : Func} {id : InstId} {c : Cell} {position : Nat} {v : Value}
    {ty : Ty} (hc : f.cells[id]? = some c) (hv : c.inst.accessOperand? position = some v)
    (hTy : f.typeOf v = .ok ty) (hPointer : ty.isPointer = true) :
    f.addressOperand id position = .ok v := by
  simp only [addressOperand, accessOperand_of_cell hc hv, hTy, lift_ok, bind, Except.bind, hPointer]
  rfl

/-- Reading what an access lacks is refused. -/
theorem accessOperand_missing {f : Func} {id : InstId} {c : Cell} {position : Nat}
    (hc : f.cells[id]? = some c) (hNone : c.inst.accessOperand? position = none) :
    f.accessOperand id position =
      .error (.refused (.missingOperand ⟨f.name, c.inst.opcode, position⟩)) := by
  simp only [accessOperand, inst_of_cell hc, lift_ok, bind, Except.bind, hNone]
  rfl

theorem addressOperand_missing {f : Func} {id : InstId} {c : Cell} {position : Nat}
    (hc : f.cells[id]? = some c) (hNone : c.inst.accessOperand? position = none) :
    f.addressOperand id position =
      .error (.refused (.missingOperand ⟨f.name, c.inst.opcode, position⟩)) := by
  simp only [addressOperand, accessOperand_missing hc hNone, bind, Except.bind]

/-- Reading as an address what is no pointer is refused. -/
theorem addressOperand_no_pointer {f : Func} {id : InstId} {c : Cell} {position : Nat} {v : Value}
    {ty : Ty} (hc : f.cells[id]? = some c) (hv : c.inst.accessOperand? position = some v)
    (hTy : f.typeOf v = .ok ty) (hOther : ty.isPointer = false) :
    f.addressOperand id position =
      .error (.refused (.notAPointer ⟨f.name, c.inst.opcode, position⟩ ty)) := by
  simp only [addressOperand, accessOperand_of_cell hc hv, hTy, inst_of_cell hc, lift_ok, bind,
    Except.bind, hOther]
  rfl

/-- A foldable address is a conversion of an addition, and both are still in the store. -/
theorem foldable?_some {f : Func} {pointer : Value} {address : Foldable}
    (h : f.foldable? pointer = .ok (some address)) :
    ∃ c d, pointer = .inst address.conversion ∧ f.cells[address.conversion]? = some c ∧
      c.inst.pointerSource? = some address.addition ∧ f.cells[address.addition]? = some d ∧
      d.inst.positiveStep? = some (address.index, address.constant) := by
  cases pointer with
  | inst conversion =>
      obtain ⟨inst, hInst, h⟩ := bind_eq_ok_iff.mp h
      obtain ⟨c, hc, rfl⟩ := cell_of_inst hInst
      cases hSource : c.inst.pointerSource? with
      | none =>
          simp only [hSource] at h
          cases h
      | some addition =>
          simp only [hSource] at h
          obtain ⟨inst, hInst, h⟩ := bind_eq_ok_iff.mp h
          obtain ⟨d, hd, rfl⟩ := cell_of_inst hInst
          obtain ⟨⟨index, constant⟩, hStep, rfl⟩ := Option.map_eq_some_iff.mp (Except.ok.inj h)
          exact ⟨c, d, rfl, hc, hSource, hd, hStep⟩
  | _ => cases h

/-- Whether the conversion of a result can be folded is decided by the addition. -/
theorem foldable?_of_cells {f : Func} {conversion addition : InstId} {c d : Cell}
    (hc : f.cells[conversion]? = some c) (hSource : c.inst.pointerSource? = some addition)
    (hd : f.cells[addition]? = some d) :
    f.foldable? (.inst conversion) =
      .ok (d.inst.positiveStep?.map fun step => ⟨step.1, step.2, conversion, addition⟩) := by
  simp only [foldable?, inst_of_cell hc, bind, Except.bind, hSource, inst_of_cell hd]
  rfl

/-- What converts no result cannot be folded. -/
theorem foldable?_of_no_source {f : Func} {conversion : InstId} {c : Cell}
    (hc : f.cells[conversion]? = some c) (hSource : c.inst.pointerSource? = none) :
    f.foldable? (.inst conversion) = .ok none := by
  simp only [foldable?, inst_of_cell hc, bind, Except.bind, hSource]
  rfl

theorem opcode_of_pointerSource? {inst : Instruction} {source : InstId}
    (h : inst.pointerSource? = some source) :
    inst.opcode = .cast .intToPtr ∧ ∃ rest, inst.operands = .inst source :: rest := by
  unfold Instruction.pointerSource? at h
  split at h
  · next rest hOpcode hOperands =>
      obtain rfl := Option.some.inj h
      exact ⟨hOpcode, rest, hOperands⟩
  · cases h

/-- Whether a pointer can be folded is always decided. -/
theorem exists_foldable? {f : Func} (hf : f.Consistent) {pointer : Value}
    (hIn : pointer.Within f.cells.length) : ∃ fold, f.foldable? pointer = .ok fold := by
  cases pointer with
  | inst conversion =>
      obtain ⟨c, hc⟩ := exists_cell hIn
      cases hSource : c.inst.pointerSource? with
      | none => exact ⟨_, foldable?_of_no_source hc hSource⟩
      | some addition =>
          obtain ⟨rest, hOperands⟩ := (opcode_of_pointerSource? hSource).2
          have hAddition : (Value.inst addition).Within f.cells.length :=
            hf.within c (List.mem_of_getElem? hc) _ (by simp [hOperands])
          obtain ⟨d, hd⟩ := exists_cell hAddition
          exact ⟨_, foldable?_of_cells hc hSource hd⟩
  | arg index => exact ⟨_, rfl⟩
  | const constant => exact ⟨_, rfl⟩
  | global symbol => exact ⟨_, rfl⟩

theorem opcode_of_positiveStep? {inst : Instruction} {step : Value × UInt64}
    (h : inst.positiveStep? = some step) : inst.opcode = .binary .add := by
  unfold Instruction.positiveStep? at h
  split at h
  · next hAdd => exact hAdd.1
  · cases h

/-- A pointer is folded the same way as before if what it was made by is as before. -/
theorem foldable?_transfer {f g : Func} {pointer : Value} {fold : Option Foldable}
    (hKeeps : f.Keeps g) (hFold : f.foldable? pointer = .ok fold)
    (hConversion : ∀ (id : InstId) (c : Cell), pointer = .inst id → f.cells[id]? = some c →
      c.inst.opcode = .cast .intToPtr → g.cells[id]? = some c)
    (hAddition : ∀ (id source : InstId) (c d : Cell), pointer = .inst id → f.cells[id]? = some c →
      c.inst.pointerSource? = some source → f.cells[source]? = some d →
      d.inst.opcode = .binary .add → g.cells[source]? = some d) :
    g.foldable? pointer = .ok fold := by
  cases pointer with
  | inst conversion =>
      obtain ⟨inst, hInst, _⟩ := bind_eq_ok_iff.mp hFold
      obtain ⟨c, hc, rfl⟩ := cell_of_inst hInst
      cases hSource : c.inst.pointerSource? with
      | none =>
          obtain ⟨c', hc', hOpcode, _⟩ := hKeeps.cells conversion c hc
          rw [foldable?_of_no_source hc hSource] at hFold
          rw [← hFold]
          by_cases hCast : c.inst.opcode = .cast .intToPtr
          · exact foldable?_of_no_source (hConversion conversion c rfl hc hCast) hSource
          · refine foldable?_of_no_source hc' (Option.eq_none_iff_forall_ne_some.mpr
              fun source hSome => hCast ?_)
            exact hOpcode ▸ (opcode_of_pointerSource? hSome).1
      | some source =>
          have hc' := hConversion conversion c rfl hc (opcode_of_pointerSource? hSource).1
          obtain ⟨d, hd⟩ : ∃ d, f.cells[source]? = some d := by
            simp only [foldable?, inst_of_cell hc, bind, Except.bind, hSource] at hFold
            cases hInst : f.inst source with
            | error cause =>
                simp only [hInst] at hFold
                cases hFold
            | ok inst =>
                obtain ⟨d, hd, _⟩ := cell_of_inst hInst
                exact ⟨d, hd⟩
          obtain ⟨d', hd', hOpcode, _⟩ := hKeeps.cells source d hd
          rw [foldable?_of_cells hc hSource hd] at hFold
          rw [← hFold, foldable?_of_cells hc' hSource hd']
          by_cases hAdd : d.inst.opcode = .binary .add
          · obtain rfl : d = d' := by
              rw [hAddition conversion source c d rfl hc hSource hd hAdd] at hd'
              exact Option.some.inj hd'
            rfl
          · have hNone : ∀ e : Cell, e.inst.opcode = d.inst.opcode → e.inst.positiveStep? = none :=
              fun e he =>
              Option.eq_none_iff_forall_ne_some.mpr fun step hSome =>
                hAdd (he ▸ opcode_of_positiveStep? hSome)
            rw [hNone d rfl, hNone d' hOpcode]
  | arg index => exact hFold
  | const constant => exact hFold
  | global symbol => exact hFold

/-- A step is a 32-bit addition of a constant that is positive at its own width. -/
theorem operands_of_positiveStep? {inst : Instruction} {index : Value} {constant : UInt64}
    (h : inst.positiveStep? = some (index, constant)) :
    inst.opcode = .binary .add ∧ inst.ty = .i32 ∧
      ∃ bits rest, inst.operands = index :: .const (.int bits constant) :: rest ∧
      0 < Constant.signedWord bits constant := by
  unfold Instruction.positiveStep? at h
  split at h
  · next hAdd =>
      split at h
      · next first step rest hOperands =>
          cases step with
          | int bits word =>
              simp only [Constant.signed?, Constant.unsigned?] at h
              split at h
              · next hPositive =>
                  obtain ⟨rfl, rfl⟩ : first = index ∧ word = constant := by simpa using h
                  exact ⟨hAdd.1, hAdd.2, bits, rest, hOperands, hPositive⟩
              · cases h
          | null ty => cases h
          | undef ty => cases h
      · cases h
  · cases h

theorem index_mem_of_positiveStep? {inst : Instruction} {index : Value} {constant : UInt64}
    (h : inst.positiveStep? = some (index, constant)) : index ∈ inst.operands := by
  obtain ⟨_, _, bits, rest, hOperands, _⟩ := operands_of_positiveStep? h
  simp [hOperands]

end Func

theorem Sandbox.exists_foldable? (s : Sandbox) {f : Func} (hf : f.Consistent) {pointer : Value}
    (hIn : pointer.Within f.cells.length) : ∃ fold, s.foldable? f pointer = .ok fold := by
  cases hOption : s.options.fold with
  | false => exact ⟨none, by simp [foldable?, hOption]⟩
  | true =>
      obtain ⟨fold, hFold⟩ := Func.exists_foldable? hf hIn
      exact ⟨fold, by simp [foldable?, hOption, hFold]⟩

/-- What is folded can be folded, and folding is asked for. -/
theorem Sandbox.foldable?_eq_some_iff {s : Sandbox} {f : Func} {pointer : Value}
    {address : Foldable} :
    s.foldable? f pointer = .ok (some address) ↔ s.options.fold = true ∧
      f.foldable? pointer = .ok (some address) := by
  cases hOption : s.options.fold <;> simp [foldable?, hOption]

namespace Pass

open Func

/-- The region base is there: it was before, or its load went to the head of the function. -/
inductive Opened (symbol : Symbol) (p : Pass) : Pass → Value → Prop where
  | known {base : Value} (base_eq : p.base = some base) : Opened symbol p p base
  | loaded {g : Func} (base_eq : p.base = none) (consistent : g.Consistent)
      (inserted : Inserted p.func 0 (baseLoad symbol) (p.func.cells.length :: ·) g) :
      Opened symbol p
        { func := g, base := some (.inst p.func.cells.length),
          stats := p.stats.merge { baseLoads := 1, inserted := 1 } }
        (.inst p.func.cells.length)

inductive AddressStep (symbol : Symbol) (anchor : InstId) (c : Cell) (position : Nat)
    (pointer : Value) (ty : Ty) (fold : Option Foldable) (p : Pass) : Pass → Prop where
  | intro {q : Pass} {base : Value} {g : Func} {removed : Nat} (opened : Opened symbol p q base)
      (rerouted : Rerouted q.func anchor c position pointer
        (addressChain q.func.cells.length base pointer ty fold) (foldedParts fold) removed g) :
      AddressStep symbol anchor c position pointer ty fold p
        { func := g, base := some base,
          stats := q.stats.merge
            { addresses := 1, folded := fold.toList.length, inserted := 4, removed } }

inductive LengthStep (anchor : InstId) (c : Cell) (position : Nat) (length : Value) (p : Pass) :
    Pass → Prop where
  | clipped {g : Func} (word : p.func.typeOf length = .ok .i64)
      (rerouted : Rerouted p.func anchor c position length (clippedChain p.func.cells.length length)
        [] 0 g) :
      LengthStep anchor c position length p
        { func := g, base := p.base, stats := p.stats.merge { lengths := 1, inserted := 2 } }
  | kept {ty : Ty} (typed : p.func.typeOf length = .ok ty) (other : ty ≠ .i64) :
      LengthStep anchor c position length p p

/-- A function that has more instructions than before can be counted. -/
theorem grow_eq {p : Pass} {g : Func} {more : Nat}
    (hCount : g.instCount = p.func.instCount + more) :
    p.grow g = .ok { p with func := g, stats := p.stats.merge { inserted := more } } := by
  rw [grow, if_neg (by omega), hCount, Nat.add_sub_cancel_left]
  rfl

/-- A variable always gives a region base to a function with a body. -/
theorem requireBase_spec {p : Pass} (hp : p.func.Consistent) (hBody : 0 < p.func.blocks.length)
    (symbol : Symbol) :
    ∃ q base, p.requireBase (.ofSymbol symbol) = .ok (q, base) ∧ Opened symbol p q base := by
  cases hBase : p.base with
  | some base =>
      refine ⟨p, base, ?_, .known hBase⟩
      simp only [requireBase, hBase]
      rfl
  | none =>
      obtain ⟨g, hg, hConsistent, hInserted⟩ := ofSymbol_spec hp hBody symbol
      refine ⟨_, _, ?_, .loaded hBase hConsistent hInserted⟩
      have hCount := hInserted.instCount hp hConsistent
      simp only [requireBase, hBase, hg, bind, Except.bind, grow_eq hCount, lift_ok, tally, hCount,
        Stats.merge_assoc, Nat.lt_succ_self, if_true]
      rfl

theorem Opened.consistent {symbol : Symbol} {p q : Pass} {base : Value} (h : Opened symbol p q base)
    (hp : p.func.Consistent) : q.func.Consistent := by
  cases h with
  | known base_eq => exact hp
  | loaded base_eq consistent inserted => exact consistent

theorem Opened.keeps {symbol : Symbol} {p q : Pass} {base : Value} (h : Opened symbol p q base) :
    p.func.Keeps q.func := by
  cases h with
  | known base_eq => exact .refl _
  | loaded base_eq consistent inserted => exact inserted.keeps

/-- Bringing in the region base changes nothing that was there. -/
theorem Opened.old {symbol : Symbol} {p q : Pass} {base : Value} (h : Opened symbol p q base)
    {id : InstId} {c : Cell} (hc : p.func.cells[id]? = some c) : q.func.cells[id]? = some c := by
  cases h with
  | known base_eq => exact hc
  | loaded base_eq consistent inserted =>
      rw [inserted.cells, List.getElem?_append_left (lt_of_cell hc)]
      exact hc

theorem Opened.base_eq {symbol : Symbol} {p q : Pass} {base : Value} (h : Opened symbol p q base) :
    q.base = some base := by
  cases h with
  | known base_eq => exact base_eq
  | loaded base_eq consistent inserted => rfl

/-- The region base is a machine word. -/
theorem Opened.typeOf_base {symbol : Symbol} {p q : Pass} {base : Value}
    (h : Opened symbol p q base)
    (hBase : ∀ base, p.base = some base → p.func.typeOf base = .ok .i64) :
    q.func.typeOf base = .ok .i64 := by
  cases h with
  | known base_eq => exact hBase _ base_eq
  | loaded base_eq consistent inserted =>
      apply typeOf_of_cell (c := ⟨baseLoad symbol, 0, true⟩)
      rw [inserted.cells]
      simp

/-- Bringing in the region base does not change what can be folded. -/
theorem Opened.foldable? {s : Sandbox} {symbol : Symbol} {p q : Pass} {base : Value}
    (h : Opened symbol p q base) {pointer : Value} {fold : Option Foldable}
    (hFold : s.foldable? p.func pointer = .ok fold) : s.foldable? q.func pointer = .ok fold := by
  cases hOption : s.options.fold with
  | false => simpa [Sandbox.foldable?, hOption] using hFold
  | true =>
      simp only [Sandbox.foldable?, hOption] at hFold ⊢
      exact foldable?_transfer h.keeps hFold (fun _ _ _ hc _ => h.old hc)
        (fun _ _ _ _ _ _ _ hd _ => h.old hd)

/-- Replacing an operand by a value that is there goes through. -/
theorem replace_spec {p : Pass} {id : InstId} {c : Cell} {position : Nat} {old value : Value}
    (hc : p.func.cells[id]? = some c) (hOld : c.inst.operands[position]? = some old)
    (hValue : value.Within p.func.cells.length) (hOldIn : old.Within p.func.cells.length) :
    ∃ g, p.replace id position value = .ok { p with func := g } ∧
      Replaced p.func id c position old value g := by
  obtain ⟨g, hg, hReplaced⟩ := setOperand_spec hc hOld hValue hOldIn
  refine ⟨g, ?_, hReplaced⟩
  simp only [replace, hg, lift_ok, bind, Except.bind]
  rfl

theorem sweep_spec {p : Pass} {id : InstId} {c : Cell} (hp : p.func.Consistent)
    (hc : p.func.cells[id]? = some c) :
    ∃ g removed, p.sweep id =
      .ok { p with func := g, stats := p.stats.merge { removed := removed } } ∧
      Swept p.func id removed g := by
  obtain ⟨g, removed, hg, hSwept⟩ := removeIfUnused_spec hp hc
  refine ⟨g, _, ?_, hSwept⟩
  simp only [sweep, hg, lift_ok, bind, Except.bind]
  rfl

/-- Sweeping up two instructions one after the other goes through. -/
theorem sweep_both_spec {p : Pass} {first second : InstId} {c d : Cell} (hp : p.func.Consistent)
    (hc : p.func.cells[first]? = some c) (hd : p.func.cells[second]? = some d) :
    ∃ g removed, (p.sweep first >>= fun p => p.sweep second) =
        .ok { p with func := g, stats := p.stats.merge { removed := removed } } ∧
      Sweeps [first, second] p.func removed g := by
  obtain ⟨g, m, hg, hFirst⟩ := sweep_spec hp hc
  obtain ⟨d', hd', _⟩ := hFirst.keeps.cells second d hd
  obtain ⟨h, n, hh, hSecond⟩ := sweep_spec (p := ⟨g, p.base, p.stats.merge { removed := m }⟩)
    (hFirst.consistent hp) hd'
  refine ⟨h, _, ?_, .cons hFirst (.cons hSecond (.nil h))⟩
  simp only [hg, hh, bind, Except.bind, Stats.merge_assoc]
  rfl

/-- A chain went in, and its end took the place of an operand. -/
theorem grow_replace_spec {p : Pass} {id : InstId} {c : Cell} {position : Nat} (last : Nat)
    {old : Value} {insts : List Instruction} {g : Func} (hp : p.func.Consistent)
    (hEmitted : Emitted p.func c.block id insts g) (hLast : last < insts.length)
    (hc : p.func.cells[id]? = some c) (hOld : c.inst.operands[position]? = some old) :
    ∃ q h, p.grow g = .ok q ∧ q.replace id position (.inst (p.func.cells.length + last)) =
        .ok { func := h, base := p.base, stats := p.stats.merge { inserted := insts.length } } ∧
      h.Consistent ∧ Replaced g id c position old (.inst (p.func.cells.length + last)) h := by
  have hLastIn := hEmitted.new_within hLast
  have hOldIn := hp.within c (List.mem_of_getElem? hc) old (List.mem_of_getElem? hOld)
  obtain ⟨h, hh, hReplaced⟩ := replace_spec
    (p := { p with func := g, stats := p.stats.merge { inserted := insts.length } })
    (hEmitted.old hc) hOld hLastIn
    (hOldIn.mono hEmitted.keeps.length_le)
  exact ⟨_, h, grow_eq (hEmitted.instCount hp), hh,
    hReplaced.consistent hEmitted.consistent (hEmitted.old hc) hOld hLastIn, hReplaced⟩

/-- Once the region base is there, wherever it comes from, confining an address that is a pointer
goes through. -/
theorem confineAddress_of_base {s : Sandbox} {p q : Pass} {base : Value} {id : InstId} {c : Cell}
    {position : Nat} {pointer : Value} {ty word : Ty} {fold : Option Foldable}
    (hq : p.requireBase s.source = .ok (q, base)) (hConsistent : q.func.Consistent)
    (hBase : q.func.typeOf base = .ok word)
    (hAddress : p.func.addressOperand id position = .ok pointer)
    (hTy : p.func.typeOf pointer = .ok ty) (hc : q.func.cells[id]? = some c)
    (hOperand : c.inst.operands[position]? = some pointer)
    (hFold : s.foldable? q.func pointer = .ok fold) :
    ∃ g removed, p.confineAddress s id position =
        .ok { func := g, base := q.base,
              stats := q.stats.merge
                { addresses := 1, folded := fold.toList.length, inserted := 4, removed } } ∧
      Rerouted q.func id c position pointer
        ((addressChain q.func.cells.length base pointer ty fold).map (.sumAs word))
        (foldedParts fold) removed g := by
  cases fold with
  | none =>
      have hPointer := hConsistent.within c (List.mem_of_getElem? hc) pointer
        (List.mem_of_getElem? hOperand)
      obtain ⟨g, hg, hEmitted⟩ := emitRebased_spec hConsistent hc hBase hPointer ty
      obtain ⟨grown, h, hGrow, hh, _, hReplaced⟩ :=
        grow_replace_spec 3 hConsistent hEmitted (by simp [rebasedChain]) hc hOperand
      refine ⟨_, 0, ?_, .intro hEmitted hReplaced (.nil h)⟩
      simp only [confineAddress, hAddress, hTy, hq, hFold, hg, hGrow, hh, lift_ok, bind,
        Except.bind, tally, Stats.merge_assoc]
      rfl
  | some address =>
      obtain ⟨a, b, _, ha, _, hb, hStep⟩ :=
        foldable?_some (Sandbox.foldable?_eq_some_iff.mp hFold).2
      have hIndex := hConsistent.within b (List.mem_of_getElem? hb) _
        (index_mem_of_positiveStep? hStep)
      obtain ⟨g, hg, hEmitted⟩ := emitFolded_spec hConsistent hc hBase hIndex ty
      obtain ⟨grown, h, hGrow, hh, hConsistent', hReplaced⟩ :=
        grow_replace_spec 3 hConsistent hEmitted (by simp [foldedChain]) hc hOperand
      have hKeeps := hEmitted.keeps.trans (hReplaced.keeps (hEmitted.old hc))
      obtain ⟨a', ha', _⟩ := hKeeps.cells _ a ha
      obtain ⟨b', hb', _⟩ := hKeeps.cells _ b hb
      obtain ⟨k, removed, hk, hSweeps⟩ := sweep_both_spec
        (p := ⟨h, q.base, q.stats.merge { addresses := 1, folded := 1, inserted := 4 }⟩)
        hConsistent' ha' hb'
      refine ⟨_, _, ?_, .intro hEmitted hReplaced hSweeps⟩
      simp only [confineAddress, hAddress, hTy, hq, hFold, hg, hGrow, hh, lift_ok, bind,
        Except.bind, tally, Stats.merge_assoc] at hk ⊢
      rw [show Stats.merge { addresses := 1, folded := 1, inserted := 4 } { removed := removed } =
        { addresses := 1, folded := 1, inserted := 4, removed := removed }
        by simp [Stats.merge]] at hk
      exact hk

/-- Confining an address that is a pointer goes through. -/
theorem confineAddress_spec {s : Sandbox} {symbol : Symbol} {p : Pass} {id : InstId} {c : Cell}
    {position : Nat} {pointer : Value} {ty : Ty} {fold : Option Foldable}
    (hs : s.source = .ofSymbol symbol) (hp : p.func.Consistent) (hBody : 0 < p.func.blocks.length)
    (hBase : ∀ base, p.base = some base → p.func.typeOf base = .ok .i64)
    (hc : p.func.cells[id]? = some c) (hv : c.inst.accessOperand? position = some pointer)
    (hTy : p.func.typeOf pointer = .ok ty) (hPointer : ty.isPointer = true)
    (hFold : s.foldable? p.func pointer = .ok fold) :
    ∃ q, p.confineAddress s id position = .ok q ∧
      AddressStep symbol id c position pointer ty fold p q := by
  obtain ⟨q, base, hq, hOpened⟩ := requireBase_spec hp hBody symbol
  rw [← hs] at hq
  obtain ⟨g, removed, hg, hRerouted⟩ :=
    confineAddress_of_base hq (hOpened.consistent hp) (hOpened.typeOf_base hBase)
      (addressOperand_of_cell hc hv hTy hPointer) hTy (hOpened.old hc)
      (operand_of_accessOperand? hv) (hOpened.foldable? hFold)
  rw [map_sumAs_addressChain] at hRerouted
  rw [hOpened.base_eq] at hg
  exact ⟨_, hg, .intro hOpened hRerouted⟩

/-- Dealing with the length of an access goes through. -/
theorem clipLength_spec {p : Pass} {id : InstId} {c : Cell} {position : Nat} {length : Value}
    (hp : p.func.Consistent) (hc : p.func.cells[id]? = some c)
    (hv : c.inst.accessOperand? position = some length) :
    ∃ q, p.clipLength id position = .ok q ∧ LengthStep id c position length p q := by
  have hOperand := operand_of_accessOperand? hv
  have hIn := hp.within c (List.mem_of_getElem? hc) length (List.mem_of_getElem? hOperand)
  obtain ⟨ty, hTy⟩ := exists_typeOf hIn
  by_cases hWord : ty = .i64
  · subst hWord
    obtain ⟨g, hg, hEmitted⟩ := emitClipped_spec hp hc hIn
    obtain ⟨grown, h, hGrow, hh, _, hReplaced⟩ :=
      grow_replace_spec 1 hp hEmitted (by simp [clippedChain]) hc hOperand
    refine ⟨_, ?_, .clipped hTy (.intro hEmitted hReplaced (.nil h))⟩
    simp only [clipLength, accessOperand_of_cell hc hv, hTy, hg, hGrow, hh, lift_ok, bind,
      Except.bind, if_true, tally, Stats.merge_assoc]
    rfl
  · refine ⟨p, ?_, .kept hTy hWord⟩
    simp only [clipLength, accessOperand_of_cell hc hv, hTy, lift_ok, bind, Except.bind,
      hWord, if_false]
    rfl

end Pass

end FaultIsolation
