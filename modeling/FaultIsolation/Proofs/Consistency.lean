import FaultIsolation.Proofs.Store
import FaultIsolation.Code.Cursor
import Mathlib.Data.List.Nodup

/-!
The invariant of the store. It ties together what is kept twice: the order in the blocks, the block
and the liveness that a place records, and the use counts. Every edit preserves it, so every
function that edits can make has it.
-/
namespace FaultIsolation

/-- Writing one position moves a count by what the two values at it count for. -/
theorem count_set {α : Type} [DecidableEq α] {xs : List α} {i : Nat} {old : α}
    (h : xs[i]? = some old) (new a : α) :
    (xs.set i new).count a + [old].count a = xs.count a + [new].count a := by
  obtain ⟨hLt, rfl⟩ := List.getElem?_eq_some_iff.mp h
  have hOld : xs = xs.take i ++ xs[i] :: xs.drop (i + 1) := by simp
  rw [List.set_eq_take_append_cons_drop, if_pos hLt]
  conv_rhs => rw [hOld]
  simp only [List.count_append, List.count_cons, List.count_nil]
  omega

namespace Func

def Stands (f : Func) (id : InstId) (block : BlockId) : Prop :=
  ∃ c, f.cells[id]? = some c ∧ c.live = true ∧ c.block = block

/-- Store, blocks and counts agree. -/
structure Consistent (f : Func) : Prop where
  /-- Operands name instructions of the store. -/
  within : ∀ c ∈ f.cells, ∀ v ∈ c.inst.operands, v.Within f.cells.length
  /-- The counts are exact, those of removed instructions too. -/
  counted : ∀ id, f.usesOf id = references f.cells id
  /-- Removed instructions refer to nothing. -/
  emptied : ∀ c ∈ f.cells, c.live = false → c.inst.operands = []
  housed : ∀ c ∈ f.cells, c.block < f.blocks.length
  /-- A block lists what stands in it. -/
  placed : ∀ block b, f.blocks[block]? = some b → ∀ id, id ∈ b.insts ↔ f.Stands id block
  nodup : ∀ b ∈ f.blocks, b.insts.Nodup

namespace Consistent

variable {f : Func}

/-- What has no number yet stands nowhere. -/
theorem not_stands_fresh {id : InstId} (hId : f.cells.length ≤ id) (block : BlockId) :
    ¬f.Stands id block := by
  rintro ⟨c, hc, _, _⟩
  exact absurd (lt_of_cell hc) (Nat.not_lt.mpr hId)

/-- The layout is made of the instructions that are not removed. -/
theorem mem_layout_iff (hf : f.Consistent) {id : InstId} :
    id ∈ f.layout ↔ ∃ c, f.cells[id]? = some c ∧ c.live = true := by
  simp only [layout, List.mem_flatMap]
  constructor
  · rintro ⟨b, hb, hId⟩
    obtain ⟨block, hBlock⟩ := List.mem_iff_getElem?.mp hb
    obtain ⟨c, hc, hLive, _⟩ := (hf.placed block b hBlock id).mp hId
    exact ⟨c, hc, hLive⟩
  · rintro ⟨c, hc, hLive⟩
    have hLt := hf.housed c (List.mem_of_getElem? hc)
    have hBlock : f.blocks[c.block]? = some f.blocks[c.block] := List.getElem?_eq_getElem hLt
    exact ⟨f.blocks[c.block], List.getElem_mem hLt, (hf.placed _ _ hBlock id).mpr
      ⟨c, hc, hLive, rfl⟩⟩

/-- What stands in the layout has a place in the store that says so. -/
theorem cell_of_mem_layout (hf : f.Consistent) {id : InstId} {inst : Instruction}
    (hLayout : id ∈ f.layout) (hInst : f.inst id = .ok inst) :
    ∃ c, f.cells[id]? = some c ∧ c.live = true ∧ c.inst = inst := by
  obtain ⟨c, hc, hLive⟩ := hf.mem_layout_iff.mp hLayout
  exact ⟨c, hc, hLive, by simpa [inst_of_cell hc] using hInst⟩

/-- An instruction with operands still stands in the function. -/
theorem mem_layout_of_operand (hf : f.Consistent) {id : InstId} {c : Cell} {v : Value}
    (hc : f.cells[id]? = some c) (hv : v ∈ c.inst.operands) : id ∈ f.layout := by
  refine hf.mem_layout_iff.mpr ⟨c, hc, ?_⟩
  cases hLive : c.live with
  | true => rfl
  | false =>
      rw [hf.emptied c (List.mem_of_getElem? hc) hLive] at hv
      cases hv

/-- No instruction stands twice in the layout: not in one block, since orders have no repetition,
and not in two blocks, since its place records one. -/
theorem nodup_layout (hf : f.Consistent) : f.layout.Nodup := by
  rw [layout, List.nodup_flatMap]
  refine ⟨hf.nodup, ?_⟩
  rw [List.pairwise_iff_getElem]
  intro i j hi hj hij id hLeft hRight
  obtain ⟨c, hc, _, hAt⟩ := (hf.placed i _ (List.getElem?_eq_getElem hi) id).mp hLeft
  obtain ⟨d, hd, _, hAt'⟩ := (hf.placed j _ (List.getElem?_eq_getElem hj) id).mp hRight
  obtain rfl : c = d := by simpa [hc] using hd
  exact absurd (hAt.symm.trans hAt') (Nat.ne_of_lt hij)

/-- As many instructions stand in blocks as are not removed. -/
theorem instCount_eq (hf : f.Consistent) : f.instCount = f.cells.countP Cell.live := by
  let standing := (f.cells.zipIdx.filter fun entry => entry.1.live).map Prod.snd
  have hNodup : standing.Nodup := by
    refine List.Nodup.sublist ((List.filter_sublist (l := f.cells.zipIdx)).map Prod.snd) ?_
    rw [List.zipIdx_map_snd]
    exact List.nodup_range'
  have hMem : ∀ id, id ∈ f.layout ↔ id ∈ standing := by
    intro id
    rw [hf.mem_layout_iff]
    simp [standing, List.mem_zipIdx_iff_getElem?]
  have hPerm := (List.perm_ext_iff_of_nodup hf.nodup_layout hNodup).mpr hMem
  rw [instCount_eq_length_layout, hPerm.length_eq, List.length_map, ← List.countP_eq_length_filter]
  conv_rhs => rw [← List.zipIdx_map_fst 0 f.cells, List.countP_map]
  rfl

end Consistent

/-- Putting an element into an order only adds it. -/
theorem spliceBefore_perm (anchor new : InstId) (order : List InstId) :
    (spliceBefore anchor new order).Perm (new :: order) := by
  induction order with
  | nil => exact .refl _
  | cons head rest ih =>
      by_cases hHead : head = anchor
      · simp [spliceBefore, hHead]
      · simp only [spliceBefore, hHead, if_false]
        exact (ih.cons head).trans (.swap new head rest)

/-- Changing one block leaves the others alone. -/
theorem block_of_modify {blocks : List Block} {changed block : BlockId} {change : Block → Block}
    {b : Block} (h : (blocks.modify changed change)[block]? = some b) :
    (changed = block ∧ ∃ b', blocks[block]? = some b' ∧ b = change b') ∨
      (changed ≠ block ∧ blocks[block]? = some b) := by
  rw [List.getElem?_modify] at h
  obtain ⟨b', hb', hEq⟩ := Option.map_eq_some_iff.mp h
  by_cases hBlock : changed = block
  · rw [if_pos hBlock] at hEq
    exact .inl ⟨hBlock, b', hb', hEq.symm⟩
  · rw [if_neg hBlock] at hEq
    exact .inr ⟨hBlock, hEq ▸ hb'⟩

theorem nodup_modify {blocks : List Block} {changed : BlockId} {change : Block → Block}
    (h : ∀ b ∈ blocks, b.insts.Nodup)
    (hChange : ∀ b, blocks[changed]? = some b → (change b).insts.Nodup) :
    ∀ b ∈ blocks.modify changed change, b.insts.Nodup := by
  intro b hb
  obtain ⟨block, hBlock⟩ := List.mem_iff_getElem?.mp hb
  rcases block_of_modify hBlock with ⟨rfl, b', hb', rfl⟩ | ⟨_, hb'⟩
  · exact hChange b' hb'
  · exact h b (List.mem_of_getElem? hb')

/-- After an insertion the new instruction stands in its block, and the others where they stood. -/
theorem Inserted.stands_iff {f g : Func} {block : BlockId} {inst : Instruction}
    {place : List InstId → List InstId} (h : Inserted f block inst place g) (id : InstId)
    (at' : BlockId) : g.Stands id at' ↔ f.Stands id at' ∨ id = f.cells.length ∧ at' = block := by
  have hNew : g.cells[f.cells.length]? = some ⟨inst, block, true⟩ := by simp [h.cells]
  constructor
  · rintro ⟨c, hc, hLive, hAt⟩
    rcases Nat.lt_trichotomy id f.cells.length with hLt | rfl | hGt
    · rw [h.cells, List.getElem?_append_left hLt] at hc
      exact .inl ⟨c, hc, hLive, hAt⟩
    · obtain rfl : Cell.mk inst block true = c := by simpa [hNew] using hc
      exact .inr ⟨rfl, hAt.symm⟩
    · have hLt := lt_of_cell hc
      rw [h.cells, List.length_append] at hLt
      exact absurd hGt (Nat.not_lt.mpr (Nat.le_of_lt_succ hLt))
  · rintro (⟨c, hc, hLive, hAt⟩ | ⟨rfl, rfl⟩)
    · refine ⟨c, ?_, hLive, hAt⟩
      rw [h.cells, List.getElem?_append_left (lt_of_cell hc)]
      exact hc
    · exact ⟨_, hNew, rfl, rfl⟩

/-- An insertion preserves the invariant. -/
theorem Inserted.consistent {f g : Func} {block : BlockId} {inst : Instruction}
    {place : List InstId → List InstId} (h : Inserted f block inst place g) (hf : f.Consistent)
    (hIn : ∀ v ∈ inst.operands, v.Within f.cells.length) (hBlock : block < f.blocks.length)
    (hPlace : ∀ order, (place order).Perm (f.cells.length :: order)) : g.Consistent := by
  have hLength : g.cells.length = f.cells.length + 1 := by simp [h.cells]
  have hCases : ∀ c ∈ g.cells, c ∈ f.cells ∨ c = ⟨inst, block, true⟩ := by
    intro c hc
    simpa [h.cells] using hc
  refine ⟨?_, fun id => ?_, ?_, ?_, ?_, ?_⟩
  · intro c hc v hv
    rw [hLength]
    rcases hCases c hc with hc | rfl
    · exact (hf.within c hc v hv).mono (Nat.le_succ _)
    · exact (hIn v hv).mono (Nat.le_succ _)
  · rw [h.uses, hf.counted, h.cells, references_append]
    simp [references]
  · intro c hc hDead
    rcases hCases c hc with hc | rfl
    · exact hf.emptied c hc hDead
    · cases hDead
  · intro c hc
    rw [h.blocks, List.length_modify]
    rcases hCases c hc with hc | rfl
    · exact hf.housed c hc
    · exact hBlock
  · intro at' b hb id
    rw [h.stands_iff]
    rw [h.blocks] at hb
    rcases block_of_modify hb with ⟨rfl, b', hb', rfl⟩ | ⟨hAt, hb'⟩
    · simp only [(hPlace b'.insts).mem_iff, List.mem_cons, hf.placed _ _ hb']
      simp [or_comm]
    · rw [hf.placed _ _ hb']
      simp [Ne.symm hAt]
  · rw [h.blocks]
    refine nodup_modify hf.nodup fun b hb => ?_
    rw [(hPlace b.insts).nodup_iff, List.nodup_cons]
    refine ⟨fun hMem => ?_, hf.nodup b (List.mem_of_getElem? hb)⟩
    exact Consistent.not_stands_fresh (Nat.le_refl _) _ ((hf.placed _ _ hb _).mp hMem)

theorem Replaced.stands_iff {f g : Func} {id : InstId} {c : Cell} {position : Nat}
    {old value : Value} (h : Replaced f id c position old value g) (hCell : f.cells[id]? = some c)
    (j : InstId) (at' : BlockId) : g.Stands j at' ↔ f.Stands j at' := by
  by_cases hj : id = j
  · subst hj
    rw [Stands, h.cells, List.getElem?_set_self (lt_of_cell hCell), Stands, hCell]
    simp [Cell.setOperand]
  · rw [Stands, h.cells, List.getElem?_set_ne hj, Stands]

/-- Replacing an operand preserves the invariant: both use counts follow. -/
theorem Replaced.consistent {f g : Func} {id : InstId} {c : Cell} {position : Nat}
    {old value : Value} (h : Replaced f id c position old value g) (hf : f.Consistent)
    (hCell : f.cells[id]? = some c) (hOld : c.inst.operands[position]? = some old)
    (hIn : value.Within f.cells.length) : g.Consistent := by
  have hMem := List.mem_of_getElem? hCell
  have hPosition := (List.getElem?_eq_some_iff.mp hOld).1
  have hLength : g.cells.length = f.cells.length := by simp [h.cells]
  have hCases : ∀ d ∈ g.cells, d ∈ f.cells ∨ d = c.setOperand position value := by
    intro d hd
    rw [h.cells] at hd
    exact List.mem_or_eq_of_mem_set hd
  refine ⟨?_, fun j => ?_, ?_, ?_, ?_, ?_⟩
  · intro d hd v hv
    rw [hLength]
    rcases hCases d hd with hd | rfl
    · exact hf.within d hd v hv
    · rcases List.mem_or_eq_of_mem_set hv with hv | rfl
      · exact hf.within c hMem v hv
      · exact hIn
  · -- The old operand is among the operands that were counted, so nothing is cut off at zero.
    have hSet := references_set hCell (c.setOperand position value) j
    have hCount : (c.inst.operands.set position value).count (.inst j) + [old].count (.inst j) =
        c.inst.operands.count (.inst j) + [value].count (.inst j) := count_set hOld value (.inst j)
    have hLe : [old].count (Value.inst j) ≤ c.inst.operands.count (.inst j) :=
      List.Sublist.count_le _ (List.singleton_sublist.mpr (List.mem_of_getElem? hOld))
    rw [h.uses, hf.counted, h.cells]
    simp only [Cell.setOperand] at hSet ⊢
    omega
  · intro d hd hDead
    rcases hCases d hd with hd | rfl
    · exact hf.emptied d hd hDead
    · have hNil := hf.emptied c hMem hDead
      rw [hNil] at hPosition
      cases hPosition
  · intro d hd
    rw [h.blocks]
    rcases hCases d hd with hd | rfl
    · exact hf.housed d hd
    · exact hf.housed c hMem
  · intro at' b hb j
    rw [h.blocks] at hb
    rw [h.stands_iff hCell, hf.placed at' b hb]
  · intro b hb
    rw [h.blocks] at hb
    exact hf.nodup b hb

/-- After a removal the instruction stands nowhere, and the others where they stood. -/
theorem Removed.stands_iff {f g : Func} {id : InstId} {c : Cell} (h : Removed f id c g)
    (hCell : f.cells[id]? = some c) (j : InstId) (at' : BlockId) :
    g.Stands j at' ↔ j ≠ id ∧ f.Stands j at' := by
  by_cases hj : id = j
  · subst hj
    rw [Stands, h.cells, List.getElem?_set_self (lt_of_cell hCell)]
    simp [Cell.emptied]
  · rw [Stands, h.cells, List.getElem?_set_ne hj, Stands]
    simp [Ne.symm hj]

/-- A removal preserves the invariant. -/
theorem Removed.consistent {f g : Func} {id : InstId} {c : Cell} (h : Removed f id c g)
    (hf : f.Consistent) (hCell : f.cells[id]? = some c) : g.Consistent := by
  have hMem := List.mem_of_getElem? hCell
  have hLength : g.cells.length = f.cells.length := by simp [h.cells]
  have hCases : ∀ d ∈ g.cells, d ∈ f.cells ∨ d = c.emptied := by
    intro d hd
    rw [h.cells] at hd
    exact List.mem_or_eq_of_mem_set hd
  refine ⟨?_, fun j => ?_, ?_, ?_, ?_, ?_⟩
  · intro d hd v hv
    rw [hLength]
    rcases hCases d hd with hd | rfl
    · exact hf.within d hd v hv
    · cases hv
  · have hSet := references_set hCell c.emptied j
    have hNil : c.emptied.inst.operands.count (Value.inst j) = 0 := rfl
    rw [h.uses, hf.counted, h.cells]
    omega
  · intro d hd hDead
    rcases hCases d hd with hd | rfl
    · exact hf.emptied d hd hDead
    · rfl
  · intro d hd
    rw [h.blocks, List.length_modify]
    rcases hCases d hd with hd | rfl
    · exact hf.housed d hd
    · exact hf.housed c hMem
  · intro at' b hb j
    rw [h.stands_iff hCell]
    rw [h.blocks] at hb
    rcases block_of_modify hb with ⟨rfl, b', hb', rfl⟩ | ⟨hAt, hb'⟩
    · simp [hf.placed _ _ hb', and_comm]
    · rw [hf.placed _ _ hb']
      refine ⟨fun hj => ⟨?_, hj⟩, fun hj => hj.2⟩
      rintro rfl
      obtain ⟨d, hd, _, hHome⟩ := hj
      obtain rfl : c = d := by simpa [hCell] using hd
      exact hAt hHome
  · rw [h.blocks]
    exact nodup_modify hf.nodup fun b hb => (hf.nodup b (List.mem_of_getElem? hb)).filter _

/-- An insertion adds one to the number of instructions. -/
theorem Inserted.instCount {f g : Func} {block : BlockId} {inst : Instruction}
    {place : List InstId → List InstId} (h : Inserted f block inst place g) (hf : f.Consistent)
    (hg : g.Consistent) : g.instCount = f.instCount + 1 := by
  rw [hf.instCount_eq, hg.instCount_eq, h.cells, List.countP_append]
  rfl

theorem Replaced.instCount {f g : Func} {id : InstId} {c : Cell} {position : Nat}
    {old value : Value} (h : Replaced f id c position old value g) : g.instCount = f.instCount := by
  simp only [Func.instCount, h.blocks]

/-- A removal takes one from the number of instructions. -/
theorem Removed.instCount {f g : Func} {id : InstId} {c : Cell} (h : Removed f id c g)
    (hf : f.Consistent) (hg : g.Consistent) (hCell : f.cells[id]? = some c)
    (hLive : c.live = true) : g.instCount + 1 = f.instCount := by
  obtain ⟨hLt, rfl⟩ := List.getElem?_eq_some_iff.mp hCell
  have hPos : 0 < f.cells.countP Cell.live :=
    List.countP_pos_iff.mpr ⟨_, List.getElem_mem hLt, hLive⟩
  have hDead : (f.cells[id]).emptied.live = false := rfl
  rw [hf.instCount_eq, hg.instCount_eq, h.cells, List.countP_set hLt]
  simp only [hLive, hDead, if_true, Bool.false_eq_true, if_false]
  omega

theorem addBlock_consistent {f : Func} (hf : f.Consistent) (name : String) :
    (f.addBlock name).Consistent := by
  have hCells : (f.addBlock name).cells = f.cells := rfl
  have hBlocks : (f.addBlock name).blocks = f.blocks ++ [{ name := name }] := rfl
  refine ⟨hf.within, hf.counted, hf.emptied, ?_, ?_, ?_⟩
  · intro c hc
    rw [hBlocks, List.length_append]
    exact Nat.lt_of_lt_of_le (hf.housed c hc) (Nat.le_add_right _ _)
  · intro block b hb id
    rw [hBlocks] at hb
    by_cases hLt : block < f.blocks.length
    · rw [List.getElem?_append_left hLt] at hb
      exact hf.placed block b hb id
    · -- Nothing stands in the new block, since every place records an older one.
      obtain rfl : b = { name := name } := by
        rw [List.getElem?_append_right (Nat.not_lt.mp hLt)] at hb
        have hMem := List.mem_of_getElem? hb
        simpa using hMem
      simp only [List.not_mem_nil, false_iff]
      rintro ⟨c, hc, _, rfl⟩
      exact hLt (hf.housed c (List.mem_of_getElem? hc))
  · intro b hb
    rw [hBlocks, List.mem_append, List.mem_singleton] at hb
    rcases hb with hb | rfl
    · exact hf.nodup b hb
    · exact List.nodup_nil

inductive Edit where
  | addBlock (name : String)
  | append (block : BlockId) (inst : Instruction)
  | prepend (block : BlockId) (inst : Instruction)
  | insertBefore (anchor : InstId) (inst : Instruction)
  | setOperand (id : InstId) (position : Nat) (value : Value)
  | remove (id : InstId)
  deriving Repr, DecidableEq, Inhabited

def apply (f : Func) : Edit → Except Fault Func
  | .addBlock name => .ok (f.addBlock name)
  | .append block inst => (f.append block inst).map Prod.fst
  | .prepend block inst => (f.prepend block inst).map Prod.fst
  | .insertBefore anchor inst => (f.insertBefore anchor inst).map Prod.fst
  | .setOperand id position value => f.setOperand id position value
  | .remove id => f.remove id

def Edit.new? : Edit → Option Instruction
  | .append _ inst | .prepend _ inst | .insertBefore _ inst => some inst
  | .addBlock _ | .setOperand _ _ _ | .remove _ => none

def Edit.gains : Edit → List Value
  | .append _ inst | .prepend _ inst | .insertBefore _ inst => inst.operands
  | .setOperand _ _ value => [value]
  | .addBlock _ | .remove _ => []

def losses (f : Func) : Edit → List Value
  | .setOperand id position _ => (f.nodes[id]?).toList.flatMap fun node =>
      (node.inst.operands[position]?).toList
  | .remove id => (f.nodes[id]?).toList.flatMap fun node => node.inst.operands
  | .addBlock _ | .append _ _ | .prepend _ _ | .insertBefore _ _ => []

/-- What an edit that goes through does. The three insertions differ only in where the instruction
goes. -/
inductive Applied (f : Func) : Edit → Func → Prop where
  | addBlock (name : String) : Applied f (.addBlock name) (f.addBlock name)
  | insert {e : Edit} {block : BlockId} {inst : Instruction} {place : List InstId → List InstId}
      {g : Func} (new : e.new? = some inst) (within : ∀ v ∈ inst.operands, v.Within f.cells.length)
      (block_lt : block < f.blocks.length)
      (perm : ∀ order, (place order).Perm (f.cells.length :: order))
      (inserted : Inserted f block inst place g) : Applied f e g
  | replace {id : InstId} {c : Cell} {position : Nat} {old value : Value} {g : Func}
      (cell : f.cells[id]? = some c) (operand : c.inst.operands[position]? = some old)
      (within : value.Within f.cells.length) (replaced : Replaced f id c position old value g) :
      Applied f (.setOperand id position value) g
  | remove {id : InstId} {c : Cell} {g : Func} (cell : f.cells[id]? = some c) (live : c.live = true)
      (unused : f.usesOf id = 0) (removed : Removed f id c g) : Applied f (.remove id) g

/-- The function comes from an empty one by edits that all go through. -/
inductive Built : Func → Prop where
  | empty (name : String) (params : List Ty) (result : Ty) : Built { name, params, result }
  | edit {f g : Func} (e : Edit) (prior : Built f) (last : f.apply e = .ok g) : Built g

def ofEdits (name : String) (params : List Ty) (result : Ty) (edits : List Edit) :
    Except Fault Func :=
  edits.foldlM apply { name, params, result }

theorem built_foldlM {f g : Func} (hf : f.Built) {edits : List Edit}
    (h : edits.foldlM apply f = .ok g) : g.Built := by
  induction edits generalizing f with
  | nil =>
      obtain rfl := Except.ok.inj h
      exact hf
  | cons e rest ih =>
      rw [List.foldlM_cons] at h
      obtain ⟨k, hk, hRest⟩ := bind_eq_ok_iff.mp h
      exact ih (.edit e hf hk) hRest

/-- What edits make from an empty function is built. -/
theorem built_ofEdits {f : Func} {name : String} {params : List Ty} {result : Ty}
    {edits : List Edit} (h : ofEdits name params result edits = .ok f) : f.Built :=
  built_foldlM (.empty name params result) h

theorem insertBefore_ok {f : Func} {anchor : InstId} {inst : Instruction} {r : Func × InstId}
    (h : f.insertBefore anchor inst = .ok r) : ∃ c, f.cells[anchor]? = some c := by
  cases hNode : f.nodes[anchor]? with
  | none =>
      simp only [insertBefore, Func.node, hNode, bind, Except.bind] at h
      cases h
  | some node => exact ⟨node.cell, cell_eq_some_iff.mpr ⟨node, hNode, rfl⟩⟩

/-- Every insertion into a block is an edit that was carried out. -/
theorem Applied.of_enter {f g : Func} {e : Edit} {block : BlockId} {inst : Instruction}
    {place : InstId → List InstId → List InstId} {id : InstId} (hNew : e.new? = some inst)
    (hPlace : ∀ new order, (place new order).Perm (new :: order))
    (h : f.enter block inst place = .ok (g, id)) : Applied f e g := by
  obtain ⟨hIn, hBlock, rfl, hInserted⟩ := enter_ok h
  exact .insert hNew hIn hBlock (hPlace _) hInserted

/-- Whatever an edit does when it goes through is one of four things. -/
theorem applied_of_apply {f g : Func} (hf : f.Consistent) {e : Edit} (h : f.apply e = .ok g) :
    Applied f e g := by
  cases e with
  | addBlock name =>
      obtain rfl : f.addBlock name = g := by simpa [apply] using h
      exact .addBlock name
  | append block inst =>
      obtain ⟨⟨g', id⟩, hEnter, rfl⟩ := map_eq_ok_iff.mp h
      rw [append_eq_enter] at hEnter
      exact .of_enter rfl (fun new order => List.perm_append_singleton new order) hEnter
  | prepend block inst =>
      obtain ⟨⟨g', id⟩, hEnter, rfl⟩ := map_eq_ok_iff.mp h
      rw [prepend_eq_enter] at hEnter
      exact .of_enter rfl (fun new order => .refl _) hEnter
  | insertBefore anchor inst =>
      obtain ⟨⟨g', id⟩, hEnter, rfl⟩ := map_eq_ok_iff.mp h
      obtain ⟨c, hc⟩ := insertBefore_ok hEnter
      rw [insertBefore_eq_enter hc] at hEnter
      exact .of_enter rfl (spliceBefore_perm anchor) hEnter
  | setOperand id position value =>
      obtain ⟨c, old, hc, hOld, hIn⟩ := setOperand_ok h
      have hOldIn := hf.within c (List.mem_of_getElem? hc) old (List.mem_of_getElem? hOld)
      obtain ⟨g', hg', hReplaced⟩ := setOperand_spec hc hOld hIn hOldIn
      obtain rfl : g = g' := by simpa [h] using (h.symm.trans hg')
      exact .replace hc hOld hIn hReplaced
  | remove id =>
      obtain ⟨c, hc, hLive, hUnused⟩ := remove_ok h
      have hMem := List.mem_of_getElem? hc
      obtain ⟨g', hg', hRemoved⟩ :=
        remove_spec hc hLive hUnused (hf.housed c hMem) (hf.within c hMem)
      obtain rfl : g = g' := by simpa [h] using (h.symm.trans hg')
      exact .remove hc hLive hUnused hRemoved

theorem Applied.inserted {f g : Func} {e : Edit} {inst : Instruction} (h : Applied f e g)
    (hNew : e.new? = some inst) : ∃ block place, Inserted f block inst place g := by
  cases h with
  | insert new within block_lt perm inserted =>
      obtain rfl := Option.some.inj (hNew.symm.trans new)
      exact ⟨_, _, inserted⟩
  | _ => cases hNew

/-- Building a draft finishes it and puts it in. -/
theorem build_ok {f g : Func} {id : InstId} {cursor : Cursor} {draft : Draft}
    (h : f.build cursor draft = .ok (g, id)) :
    ∃ inst e, f.finish draft = .ok inst ∧ Edit.new? e = some inst ∧ f.apply e = .ok g ∧
      id = f.cells.length := by
  obtain ⟨inst, hFinish, hInsert⟩ := bind_eq_ok_iff.mp h
  cases cursor with
  | atEnd block =>
      refine ⟨inst, .append block inst, hFinish, rfl, map_eq_ok_iff.mpr ⟨_, hInsert, rfl⟩, ?_⟩
      rw [insert, append_eq_enter] at hInsert
      exact (enter_ok hInsert).2.2.1
  | before anchor =>
      refine ⟨inst, .insertBefore anchor inst, hFinish, rfl, map_eq_ok_iff.mpr ⟨_, hInsert, rfl⟩,
        ?_⟩
      obtain ⟨c, hc⟩ := insertBefore_ok hInsert
      rw [insert, insertBefore_eq_enter hc] at hInsert
      exact (enter_ok hInsert).2.2.1

/-- Whatever an edit does preserves the invariant. -/
theorem Applied.consistent {f g : Func} {e : Edit} (h : Applied f e g) (hf : f.Consistent) :
    g.Consistent := by
  cases h with
  | addBlock name => exact addBlock_consistent hf name
  | insert new within block_lt perm inserted => exact inserted.consistent hf within block_lt perm
  | replace cell operand within replaced => exact replaced.consistent hf cell operand within
  | remove cell live unused removed => exact removed.consistent hf cell

/-- An edit that goes through preserves the invariant. -/
theorem apply_consistent {f g : Func} (hf : f.Consistent) (e : Edit) (h : f.apply e = .ok g) :
    g.Consistent :=
  (applied_of_apply hf h).consistent hf

theorem empty_consistent (name : String) (params : List Ty) (result : Ty) :
    ({ name, params, result } : Func).Consistent := by
  refine ⟨?_, ?_, ?_, ?_, ?_, ?_⟩ <;> simp [cells, usesOf, references]

/-- Every function that edits can make is consistent. -/
theorem Built.consistent {f : Func} (h : f.Built) : f.Consistent := by
  induction h with
  | empty name params result => exact empty_consistent name params result
  | edit e prior last ih => exact apply_consistent ih e last

end Func

end FaultIsolation
