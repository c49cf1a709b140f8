import FaultIsolation.Code.Edit
import Mathlib.Data.List.Basic
import Mathlib.Algebra.BigOperators.Group.List.Basic

/-!
What each edit does to the store and to the blocks. The part of a function that can be read is kept
apart from the use counts: the counts follow from the operands, so an edit is described by the cells
it leaves, the blocks it leaves and the change of every count.
-/
namespace FaultIsolation

/-- A step after which nothing can fail goes through exactly if it goes through. -/
theorem map_eq_ok_iff {ε α β : Type} {x : Except ε α} {f : α → β} {b : β} :
    x.map f = .ok b ↔ ∃ a, x = .ok a ∧ f a = b := by
  cases x with
  | error cause => simp [Except.map]
  | ok a => simp [Except.map]

/-- Two steps go through if both do, the second from where the first ends. -/
theorem bind_eq_ok_iff {ε α β : Type} {x : Except ε α} {f : α → Except ε β} {b : β} :
    (x >>= f) = .ok b ↔ ∃ a, x = .ok a ∧ f a = .ok b := by
  cases x with
  | error cause => simp [bind, Except.bind]
  | ok a => simp [bind, Except.bind]

/-- A place of the store without its use count. -/
structure Cell where
  inst : Instruction
  block : BlockId
  live : Bool := true
  deriving Repr, DecidableEq, Inhabited

namespace Cell

def emptied (c : Cell) : Cell := { c with live := false, inst := { c.inst with operands := [] } }

def setOperand (c : Cell) (position : Nat) (value : Value) : Cell :=
  { c with inst := { c.inst with operands := c.inst.operands.set position value } }

end Cell

def Node.cell (node : Node) : Cell := ⟨node.inst, node.block, node.live⟩

def Value.Within (bound : Nat) : Value → Prop
  | .inst id => id < bound
  | _ => True

/-- A larger store has all values of a smaller one. -/
theorem Value.Within.mono {small large : Nat} (hLe : small ≤ large) {v : Value}
    (h : v.Within small) : v.Within large := by
  cases v with
  | inst id => exact Nat.lt_of_lt_of_le h hLe
  | _ => trivial

def references (cells : List Cell) (id : InstId) : Nat :=
  (cells.flatMap fun c => c.inst.operands).count (.inst id)

theorem references_append (front back : List Cell) (id : InstId) :
    references (front ++ back) id = references front id + references back id := by
  simp [references]

theorem references_cons (c : Cell) (rest : List Cell) (id : InstId) :
    references (c :: rest) id = c.inst.operands.count (.inst id) + references rest id := by
  simp [references]

/-- Writing one cell moves the count by what the two cells refer to. -/
theorem references_set {cells : List Cell} {place : Nat} {old : Cell}
    (hOld : cells[place]? = some old) (new : Cell) (id : InstId) :
    references (cells.set place new) id + old.inst.operands.count (.inst id) =
      references cells id + new.inst.operands.count (.inst id) := by
  induction cells generalizing place with
  | nil => simp at hOld
  | cons head rest ih =>
      cases place with
      | zero =>
          obtain rfl : head = old := by simpa using hOld
          simp only [List.set_cons_zero, references_cons]
          omega
      | succ place =>
          have hRest : references (rest.set place new) id + old.inst.operands.count (.inst id) =
              references rest id + new.inst.operands.count (.inst id) := ih (by simpa using hOld)
          simp only [List.set_cons_succ, references_cons]
          omega

/-- Something counts as referred to if some instruction has it as operand. -/
theorem references_pos_iff {cells : List Cell} {id : InstId} :
    0 < references cells id ↔ ∃ c ∈ cells, Value.inst id ∈ c.inst.operands := by
  simp [references, List.count_pos_iff, List.mem_flatMap]

/-- Writing what is there already changes nothing. -/
theorem set_of_getElem? {α : Type} {xs : List α} {i : Nat} {a : α} (h : xs[i]? = some a) :
    xs.set i a = xs := by
  obtain ⟨hLt, rfl⟩ := List.getElem?_eq_some_iff.mp h
  exact List.set_getElem_self hLt

namespace Func

def signature (f : Func) : String × List Ty × Ty := (f.name, f.params, f.result)

def cells (f : Func) : List Cell := f.nodes.map Node.cell

def usesOf (f : Func) (id : InstId) : Nat := (f.nodes[id]?).elim 0 Node.uses

/-- A function has a body if it has a block. -/
theorem isDeclaration_eq_false_iff {f : Func} : f.isDeclaration = false ↔ 0 < f.blocks.length := by
  cases hBlocks : f.blocks <;> simp [isDeclaration, hBlocks]

theorem length_cells (f : Func) : f.cells.length = f.nodes.length := by simp [cells]

theorem getElem?_cells (f : Func) (id : InstId) : f.cells[id]? = (f.nodes[id]?).map Node.cell := by
  simp [cells]

/-- A cell is a place of the store without its use count. -/
theorem cell_eq_some_iff {f : Func} {id : InstId} {c : Cell} :
    f.cells[id]? = some c ↔ ∃ node, f.nodes[id]? = some node ∧ node.cell = c := by
  simp [getElem?_cells]

theorem lt_of_cell {f : Func} {id : InstId} {c : Cell} (h : f.cells[id]? = some c) :
    id < f.cells.length :=
  (List.getElem?_eq_some_iff.mp h).1

theorem exists_cell {f : Func} {id : InstId} (h : id < f.cells.length) :
    ∃ c, f.cells[id]? = some c :=
  ⟨_, List.getElem?_eq_getElem h⟩

section Reading

variable {f : Func} {id : InstId} {c : Cell}

theorem inst_of_cell (h : f.cells[id]? = some c) : f.inst id = .ok c.inst := by
  obtain ⟨node, hNode, rfl⟩ := cell_eq_some_iff.mp h
  simp [inst, Func.node, hNode, Except.map, Node.cell]

theorem isLive_of_cell (h : f.cells[id]? = some c) : f.isLive id = .ok c.live := by
  obtain ⟨node, hNode, rfl⟩ := cell_eq_some_iff.mp h
  simp [isLive, Func.node, hNode, Except.map, Node.cell]

/-- A place of the store is its cell with the use count. -/
theorem node_of_cell (h : f.cells[id]? = some c) :
    f.node id = .ok { inst := c.inst, block := c.block, uses := f.usesOf id, live := c.live } := by
  obtain ⟨node, hNode, rfl⟩ := cell_eq_some_iff.mp h
  simp [Func.node, hNode, Node.cell, usesOf]

theorem useCount_of_cell (h : f.cells[id]? = some c) : f.useCount id = .ok (f.usesOf id) := by
  simp [useCount, node_of_cell h, Except.map]

/-- An instruction that can be asked for has a place in the store. -/
theorem cell_of_inst {inst : Instruction} (h : f.inst id = .ok inst) :
    ∃ c, f.cells[id]? = some c ∧ c.inst = inst := by
  cases hNode : f.nodes[id]? with
  | none => simp [Func.inst, Func.node, hNode, Except.map] at h
  | some node =>
      refine ⟨node.cell, by simp [getElem?_cells, hNode], ?_⟩
      simpa [Func.inst, Func.node, hNode, Except.map, Node.cell] using h

end Reading

/-- Changing a place goes through if the place exists, and changes nothing else. -/
theorem modifyNode_ok_iff {f g : Func} {id : InstId} {change : Node → Node} :
    f.modifyNode id change = .ok g ↔
      ∃ node, f.nodes[id]? = some node ∧ g = { f with nodes := f.nodes.set id (change node) } := by
  cases hNode : f.nodes[id]? with
  | none => simp [modifyNode, hNode]
  | some node => simp [modifyNode, hNode, eq_comm]

/-- Changing the order of a block goes through if the block exists. -/
theorem modifyBlock_ok_iff {f g : Func} {id : BlockId} {change : List InstId → List InstId} :
    f.modifyBlock id change = .ok g ↔
      id < f.blocks.length ∧ g =
        { f with blocks := f.blocks.modify id fun b => { b with insts := change b.insts } } := by
  have hModify : f.blocks.modify id (fun b => { b with insts := change b.insts }) =
      ((f.blocks[id]?).map fun b => f.blocks.set id { b with insts := change b.insts }).getD
      f.blocks :=
    List.modify_eq_set_getElem? ..
  cases hBlock : f.blocks[id]? with
  | none =>
      have hLe : f.blocks.length ≤ id := List.getElem?_eq_none_iff.mp hBlock
      simp [modifyBlock, Nat.not_lt.mpr hLe]
  | some block =>
      have hLt : id < f.blocks.length := (List.getElem?_eq_some_iff.mp hBlock).1
      rw [hModify]
      simp only [modifyBlock, hBlock, Option.map_some, Option.getD_some,
        Except.ok.injEq, hLt, true_and]
      exact eq_comm

/-- Writing a place that has the same count as before. -/
theorem usesOf_set {nodes : List Node} {id : InstId} {node changed : Node}
    (hNode : nodes[id]? = some node) (hUses : changed.uses = node.uses) (j : InstId) :
    ((nodes.set id changed)[j]?).elim 0 Node.uses = (nodes[j]?).elim 0 Node.uses := by
  have hLt := (List.getElem?_eq_some_iff.mp hNode).1
  rw [List.getElem?_set]
  by_cases hj : id = j
  · subst hj
    rw [if_pos rfl, if_pos hLt, hNode]
    exact hUses
  · rw [if_neg hj]

/-- The function differs from another at most in its use counts. -/
structure Recounted (f g : Func) : Prop where
  signature : g.signature = f.signature
  cells : g.cells = f.cells
  blocks : g.blocks = f.blocks

theorem Recounted.refl (f : Func) : Recounted f f := ⟨rfl, rfl, rfl⟩

theorem Recounted.trans {f g h : Func} (first : Recounted f g) (second : Recounted g h) :
    Recounted f h :=
  ⟨second.signature.trans first.signature, second.cells.trans first.cells,
    second.blocks.trans first.blocks⟩

/-- Changing only the count of one place. -/
theorem recount_spec {f : Func} {id : InstId} (count : Nat → Nat) (hId : id < f.cells.length) :
    ∃ g, (f.modifyNode id fun node => { node with uses := count node.uses }) = .ok g ∧
      Recounted f g ∧ ∀ j, g.usesOf j = if j = id then count (f.usesOf j) else f.usesOf j := by
  rw [length_cells] at hId
  obtain ⟨node, hNode⟩ : ∃ node, f.nodes[id]? = some node := ⟨_, List.getElem?_eq_getElem hId⟩
  refine ⟨_, modifyNode_ok_iff.mpr ⟨node, hNode, rfl⟩, ⟨rfl, ?_, rfl⟩, fun j => ?_⟩
  · have hCell : f.cells[id]? = some node.cell := cell_eq_some_iff.mpr ⟨node, hNode, rfl⟩
    simp only [cells, List.map_set]
    exact set_of_getElem? hCell
  · rw [usesOf, List.getElem?_set]
    by_cases hj : j = id
    · subst hj
      rw [if_pos rfl, if_pos hId, if_pos rfl, usesOf, hNode]
      rfl
    · rw [if_neg (Ne.symm hj), if_neg hj]
      rfl

/-- Counting a use goes through for a value that is there. -/
theorem addUse_spec {f : Func} {v : Value} (hv : v.Within f.cells.length) :
    ∃ g, f.addUse v = .ok g ∧ Recounted f g ∧
      ∀ j, g.usesOf j = f.usesOf j + [v].count (.inst j) := by
  cases v with
  | inst id =>
      obtain ⟨g, hg, hSame, hUses⟩ := recount_spec (· + 1) hv
      refine ⟨g, hg, hSame, fun j => ?_⟩
      rw [hUses]
      by_cases hj : j = id
      · simp [hj]
      · simp [hj, Ne.symm hj]
  | _ => exact ⟨f, rfl, .refl f, by simp⟩

/-- So does uncounting one; a count does not go below zero. -/
theorem dropUse_spec {f : Func} {v : Value} (hv : v.Within f.cells.length) :
    ∃ g, f.dropUse v = .ok g ∧ Recounted f g ∧
      ∀ j, g.usesOf j = f.usesOf j - [v].count (.inst j) := by
  cases v with
  | inst id =>
      obtain ⟨g, hg, hSame, hUses⟩ := recount_spec (· - 1) hv
      refine ⟨g, hg, hSame, fun j => ?_⟩
      rw [hUses]
      by_cases hj : j = id
      · simp [hj]
      · simp [hj, Ne.symm hj]
  | _ => exact ⟨f, rfl, .refl f, by simp⟩

/-- Counting the operands of an instruction one by one. -/
theorem foldlM_addUse_spec {operands : List Value} {f : Func}
    (hIn : ∀ v ∈ operands, v.Within f.cells.length) :
    ∃ g, operands.foldlM addUse f = .ok g ∧ Recounted f g ∧
      ∀ j, g.usesOf j = f.usesOf j + operands.count (.inst j) := by
  induction operands generalizing f with
  | nil => exact ⟨f, rfl, .refl f, by simp⟩
  | cons v rest ih =>
      obtain ⟨g, hg, hSame, hUses⟩ := addUse_spec (hIn v (by simp))
      obtain ⟨h, hh, hSameRest, hUsesRest⟩ := @ih g fun w hw => by
        rw [hSame.cells]
        exact hIn w (List.mem_cons_of_mem v hw)
      refine ⟨h, ?_, hSame.trans hSameRest, fun j => ?_⟩
      · rw [List.foldlM_cons, hg]
        exact hh
      · rw [hUsesRest, hUses, Nat.add_assoc, ← List.count_append]
        rfl

/-- All operands of an instruction can be uncounted. -/
theorem foldlM_dropUse_spec {operands : List Value} {f : Func}
    (hIn : ∀ v ∈ operands, v.Within f.cells.length) :
    ∃ g, operands.foldlM dropUse f = .ok g ∧ Recounted f g ∧
      ∀ j, g.usesOf j = f.usesOf j - operands.count (.inst j) := by
  induction operands generalizing f with
  | nil => exact ⟨f, rfl, .refl f, by simp⟩
  | cons v rest ih =>
      obtain ⟨g, hg, hSame, hUses⟩ := dropUse_spec (hIn v (by simp))
      obtain ⟨h, hh, hSameRest, hUsesRest⟩ := @ih g fun w hw => by
        rw [hSame.cells]
        exact hIn w (List.mem_cons_of_mem v hw)
      refine ⟨h, ?_, hSame.trans hSameRest, fun j => ?_⟩
      · rw [List.foldlM_cons, hg]
        exact hh
      · rw [hUsesRest, hUses, Nat.sub_sub, ← List.count_append]
        rfl

/-- Counting an operand that names no instruction of the store is a fault. -/
theorem within_of_foldlM_addUse {operands : List Value} {f g : Func}
    (h : operands.foldlM addUse f = .ok g) : ∀ v ∈ operands, v.Within f.cells.length := by
  induction operands generalizing f with
  | nil => simp
  | cons v rest ih =>
      have hHead : v.Within f.cells.length := by
        cases v with
        | inst id =>
            rw [List.foldlM_cons, addUse, modifyNode] at h
            cases hNode : f.nodes[id]? with
            | none =>
                rw [hNode] at h
                cases h
            | some node =>
                rw [length_cells]
                exact (List.getElem?_eq_some_iff.mp hNode).1
        | _ => trivial
      obtain ⟨middle, hMiddle, hSame, _⟩ := addUse_spec hHead
      rw [List.foldlM_cons, hMiddle] at h
      intro w hw
      rcases List.mem_cons.mp hw with rfl | hw
      · exact hHead
      · rw [← hSame.cells]
        exact ih h w hw

/-- A new instruction entered a block at some place of its order. -/
structure Inserted (f : Func) (block : BlockId) (inst : Instruction)
    (place : List InstId → List InstId) (g : Func) : Prop where
  signature : g.signature = f.signature
  cells : g.cells = f.cells ++ [⟨inst, block, true⟩]
  blocks : g.blocks = f.blocks.modify block fun b => { b with insts := place b.insts }
  uses : ∀ j, g.usesOf j = f.usesOf j + inst.operands.count (.inst j)

/-- Every insertion: a new number, and a change of the order of one block. -/
def enter (f : Func) (block : BlockId) (inst : Instruction)
    (place : InstId → List InstId → List InstId) : Except Fault (Func × InstId) := do
  let (f, id) ← f.allocate block inst
  return (← f.modifyBlock block (place id), id)

theorem append_eq_enter (f : Func) (block : BlockId) (inst : Instruction) :
    f.append block inst = f.enter block inst fun id order => order ++ [id] := rfl

theorem prepend_eq_enter (f : Func) (block : BlockId) (inst : Instruction) :
    f.prepend block inst = f.enter block inst List.cons := rfl

/-- Inserting before an instruction is an insertion into the block that its place records. -/
theorem insertBefore_eq_enter {f : Func} {anchor : InstId} {c : Cell}
    (h : f.cells[anchor]? = some c) (inst : Instruction) :
    f.insertBefore anchor inst = f.enter c.block inst (spliceBefore anchor) := by
  rw [insertBefore, node_of_cell h]
  rfl

/-- A new instruction gets the next number, and its operands are counted. -/
theorem allocate_spec {f : Func} (block : BlockId) {inst : Instruction}
    (hIn : ∀ v ∈ inst.operands, v.Within f.cells.length) :
    ∃ g, f.allocate block inst = .ok (g, f.cells.length) ∧ g.signature = f.signature ∧
      g.cells = f.cells ++ [⟨inst, block, true⟩] ∧ g.blocks = f.blocks ∧
      ∀ j, g.usesOf j = f.usesOf j + inst.operands.count (.inst j) := by
  obtain ⟨h, hh, hSame, hUses⟩ := foldlM_addUse_spec hIn
  have hLength : h.nodes.length = f.cells.length := by rw [← length_cells, hSame.cells]
  refine ⟨{ h with nodes := h.nodes ++ [{ inst, block }] }, ?_, hSame.signature, ?_,
    hSame.blocks, fun j => ?_⟩
  · rw [allocate, hh, ← hLength]
    rfl
  · rw [← hSame.cells]
    simp [Func.cells, Node.cell]
  · rw [← hUses]
    rcases Nat.lt_trichotomy j h.nodes.length with hj | hj | hj
    · simp [usesOf, List.getElem?_append_left hj]
    · simp [usesOf, hj]
    · have hPast : (h.nodes ++ [Node.mk inst block 0 true])[j]? = none := by
        rw [List.getElem?_eq_none_iff, List.length_append]
        exact hj
      have hBefore : h.nodes[j]? = none := List.getElem?_eq_none_iff.mpr (Nat.le_of_lt hj)
      simp [usesOf, hPast, hBefore]

/-- An insertion goes through if the operands and the block are there. -/
theorem enter_spec {f : Func} {block : BlockId} {inst : Instruction}
    (place : InstId → List InstId → List InstId)
    (hIn : ∀ v ∈ inst.operands, v.Within f.cells.length) (hBlock : block < f.blocks.length) :
    ∃ g, f.enter block inst place = .ok (g, f.cells.length) ∧
      Inserted f block inst (place f.cells.length) g := by
  obtain ⟨h, hAllocate, hSignature, hCells, hBlocks, hUses⟩ := allocate_spec block hIn
  let g : Func :=
    { h with blocks := h.blocks.modify block fun b =>
      { b with insts := place f.cells.length b.insts } }
  have hModify : h.modifyBlock block (place f.cells.length) = .ok g :=
    modifyBlock_ok_iff.mpr ⟨by rw [hBlocks]; exact hBlock, rfl⟩
  refine ⟨g, ?_, hSignature, hCells, ?_, hUses⟩
  · rw [enter, hAllocate]
    simp only [bind, Except.bind, hModify]
    rfl
  · rw [← hBlocks]

/-- An insertion that goes through had a block to go to, and operands that are there. -/
theorem enter_ok {f g : Func} {block : BlockId} {inst : Instruction}
    {place : InstId → List InstId → List InstId} {id : InstId}
    (h : f.enter block inst place = .ok (g, id)) :
    (∀ v ∈ inst.operands, v.Within f.cells.length) ∧ block < f.blocks.length ∧ id = f.cells.length ∧
      Inserted f block inst (place f.cells.length) g := by
  have hIn : ∀ v ∈ inst.operands, v.Within f.cells.length := by
    cases hFold : inst.operands.foldlM addUse f with
    | error cause =>
        rw [enter, allocate, hFold] at h
        cases h
    | ok counted => exact within_of_foldlM_addUse hFold
  have hBlock : block < f.blocks.length := by
    obtain ⟨k, hAllocate, _, _, hBlocks, _⟩ := allocate_spec block hIn
    rw [enter, hAllocate] at h
    cases hModify : k.modifyBlock block (place f.cells.length) with
    | error cause =>
        simp only [bind, Except.bind, hModify] at h
        cases h
    | ok changed =>
        rw [← hBlocks]
        exact (modifyBlock_ok_iff.mp hModify).1
  obtain ⟨k, hk, hInserted⟩ := enter_spec place hIn hBlock
  obtain ⟨rfl, rfl⟩ : g = k ∧ id = f.cells.length := by simpa [h] using hk
  exact ⟨hIn, hBlock, rfl, hInserted⟩

structure Replaced (f : Func) (id : InstId) (c : Cell) (position : Nat) (old value : Value)
    (g : Func) : Prop where
  signature : g.signature = f.signature
  cells : g.cells = f.cells.set id (c.setOperand position value)
  blocks : g.blocks = f.blocks
  uses : ∀ j, g.usesOf j = f.usesOf j + [value].count (.inst j) - [old].count (.inst j)

/-- Replacing an operand goes through if the old and the new value are there. -/
theorem setOperand_spec {f : Func} {id : InstId} {c : Cell} {position : Nat} {old value : Value}
    (hCell : f.cells[id]? = some c) (hOld : c.inst.operands[position]? = some old)
    (hValueIn : value.Within f.cells.length) (hOldIn : old.Within f.cells.length) :
    ∃ g, f.setOperand id position value = .ok g ∧ Replaced f id c position old value g := by
  obtain ⟨h, hAdd, hSame, hUses⟩ := addUse_spec hValueIn
  have hCell' : h.cells[id]? = some c := by rw [hSame.cells]; exact hCell
  obtain ⟨node, hNode, hNodeCell⟩ := cell_eq_some_iff.mp hCell'
  have hOperands : node.inst.operands = c.inst.operands := by rw [← hNodeCell]; rfl
  let changed : Node :=
    { node with inst := { node.inst with operands := node.inst.operands.set position value } }
  let k : Func := { h with nodes := h.nodes.set id changed }
  have hk : (h.modifyNode id fun node' =>
      { node' with inst := { node'.inst with operands := node.inst.operands.set position value } })
        = .ok k :=
    modifyNode_ok_iff.mpr ⟨node, hNode, rfl⟩
  have hkCells : k.cells = f.cells.set id (c.setOperand position value) := by
    rw [← hSame.cells, ← hNodeCell]
    simp only [Func.cells, k, List.map_set]
    rfl
  have hkUses : ∀ j, k.usesOf j = h.usesOf j := usesOf_set hNode rfl
  obtain ⟨g, hDrop, hSameDrop, hUsesDrop⟩ := dropUse_spec (f := k) (v := old) (by
    rw [hkCells, List.length_set]
    exact hOldIn)
  refine ⟨g, ?_, ?_, ?_, ?_, fun j => ?_⟩
  · rw [setOperand, hAdd]
    simp only [bind, Except.bind, Func.node, hNode, hOperands, hOld]
    rw [← hOperands, hk]
    exact hDrop
  · exact hSameDrop.signature.trans hSame.signature
  · exact hSameDrop.cells.trans hkCells
  · exact hSameDrop.blocks.trans hSame.blocks
  · rw [hUsesDrop, hkUses, hUses]

/-- A replacement that goes through had an operand to replace, and a value that is there. -/
theorem setOperand_ok {f g : Func} {id : InstId} {position : Nat} {value : Value}
    (h : f.setOperand id position value = .ok g) :
    ∃ c old, f.cells[id]? = some c ∧ c.inst.operands[position]? = some old ∧
      value.Within f.cells.length := by
  have hIn : value.Within f.cells.length := by
    cases hAdd : f.addUse value with
    | error cause =>
        rw [setOperand, hAdd] at h
        cases h
    | ok counted =>
        have hFold : [value].foldlM addUse f = .ok counted := by simp [hAdd]
        exact within_of_foldlM_addUse hFold value (by simp)
  obtain ⟨k, hAdd, hSame, _⟩ := addUse_spec hIn
  rw [setOperand, hAdd] at h
  cases hNode : k.nodes[id]? with
  | none =>
      simp only [bind, Except.bind, Func.node, hNode] at h
      cases h
  | some node =>
      cases hOld : node.inst.operands[position]? with
      | none =>
          simp only [bind, Except.bind, Func.node, hNode, hOld] at h
          cases h
      | some old =>
          refine ⟨node.cell, old, ?_, hOld, hIn⟩
          rw [← hSame.cells]
          exact cell_eq_some_iff.mpr ⟨node, hNode, rfl⟩

structure Removed (f : Func) (id : InstId) (c : Cell) (g : Func) : Prop where
  signature : g.signature = f.signature
  cells : g.cells = f.cells.set id c.emptied
  blocks : g.blocks = f.blocks.modify c.block fun b => { b with insts := b.insts.filter (· ≠ id) }
  uses : ∀ j, g.usesOf j = f.usesOf j - c.inst.operands.count (.inst j)

/-- Removing an instruction goes through if it stands in its block and nothing uses it. -/
theorem remove_spec {f : Func} {id : InstId} {c : Cell} (hCell : f.cells[id]? = some c)
    (hLive : c.live = true) (hUnused : f.usesOf id = 0) (hBlock : c.block < f.blocks.length)
    (hIn : ∀ v ∈ c.inst.operands, v.Within f.cells.length) :
    ∃ g, f.remove id = .ok g ∧ Removed f id c g := by
  obtain ⟨node, hNode, hNodeCell⟩ := cell_eq_some_iff.mp hCell
  let h : Func :=
    { f with blocks := f.blocks.modify c.block fun b =>
      { b with insts := b.insts.filter (· ≠ id) } }
  have hh : f.modifyBlock c.block (·.filter (· ≠ id)) = .ok h :=
    modifyBlock_ok_iff.mpr ⟨hBlock, rfl⟩
  let changed : Node := { node with live := false, inst := { node.inst with operands := [] } }
  let k : Func := { h with nodes := f.nodes.set id changed }
  have hk : (h.modifyNode id fun node =>
      { node with live := false, inst := { node.inst with operands := [] } }) = .ok k :=
    modifyNode_ok_iff.mpr ⟨node, hNode, rfl⟩
  have hkCells : k.cells = f.cells.set id c.emptied := by
    rw [← hNodeCell]
    simp only [Func.cells, k, List.map_set]
    rfl
  have hkUses : ∀ j, k.usesOf j = f.usesOf j := usesOf_set hNode rfl
  obtain ⟨g, hDrop, hSame, hUses⟩ : ∃ g, c.inst.operands.foldlM dropUse k = .ok g ∧ Recounted k g ∧
      ∀ j, g.usesOf j = k.usesOf j - c.inst.operands.count (.inst j) := by
    apply foldlM_dropUse_spec
    rw [hkCells, List.length_set]
    exact hIn
  refine ⟨g, ?_, hSame.signature, hSame.cells.trans hkCells, hSame.blocks, fun j =>
    by rw [hUses, hkUses]⟩
  rw [remove, node_of_cell hCell]
  simp only [bind, Except.bind, hUnused, hLive, hh, hk]
  exact hDrop

/-- A removal that goes through took out an instruction that stood in a block and that nothing
used. -/
theorem remove_ok {f g : Func} {id : InstId} (h : f.remove id = .ok g) :
    ∃ c, f.cells[id]? = some c ∧ c.live = true ∧ f.usesOf id = 0 := by
  cases hNode : f.nodes[id]? with
  | none =>
      simp only [remove, Func.node, hNode, bind, Except.bind] at h
      cases h
  | some node =>
      have hCell : f.cells[id]? = some node.cell := cell_eq_some_iff.mpr ⟨node, hNode, rfl⟩
      rw [remove, node_of_cell hCell] at h
      by_cases hUnused : f.usesOf id = 0
      · cases hLive : node.cell.live with
        | true => exact ⟨node.cell, hCell, hLive, hUnused⟩
        | false =>
            simp only [bind, Except.bind, hUnused, hLive] at h
            cases h
      · simp only [bind, Except.bind, hUnused] at h
        cases h

end Func

end FaultIsolation
