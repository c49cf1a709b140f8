import FaultIsolation.Region.Address
import FaultIsolation.Region.Base
import FaultIsolation.Proofs.Reading

/-!
The instructions that confinement puts in. A chain goes in right before an instruction, in order and
without gaps, under the next free numbers, so it is known from the number it starts at.
-/
namespace FaultIsolation

def baseLoad (symbol : Symbol) : Instruction :=
  { opcode := .load, operands := [.global symbol], ty := .i64, name := some "mem_base" }

def rebasedChain (start : InstId) (base pointer : Value) (ty : Ty) : List Instruction :=
  [ { opcode := .cast .ptrToInt, operands := [pointer], ty := .i32 },
    { opcode := .cast .zext, operands := [.inst start], ty := .i64 },
    { opcode := .binary .add, operands := [base, .inst (start + 1)], ty := .i64 },
    { opcode := .cast .intToPtr, operands := [.inst (start + 2)], ty } ]

def foldedChain (start : InstId) (base : Value) (address : Foldable) (ty : Ty) : List Instruction :=
  [ { opcode := .cast .zext, operands := [address.index], ty := .i64 },
    { opcode := .binary .add, operands := [base, .inst start], ty := .i64 },
    { opcode := .binary .add, operands := [.inst (start + 1),
      .ofWord machineWidth address.constant], ty := .i64 },
    { opcode := .cast .intToPtr, operands := [.inst (start + 2)], ty } ]

/-- What confines an address: folded if it can be, rebased if not. The last of the four yields the
address. -/
def addressChain (start : InstId) (base pointer : Value) (ty : Ty) :
    Option Foldable → List Instruction
  | none => rebasedChain start base pointer ty
  | some address => foldedChain start base address ty

def clippedChain (start : InstId) (length : Value) : List Instruction :=
  [ { opcode := .cast .trunc, operands := [length], ty := .i32 },
    { opcode := .cast .zext, operands := [.inst start], ty := .i64 } ]

theorem length_addressChain (start : InstId) (base pointer : Value) (ty : Ty)
    (fold : Option Foldable) : (addressChain start base pointer ty fold).length = 4 := by
  cases fold <;> rfl

/-- The instruction with the given type if it is an addition. A sum has the type of its first term,
so a region base that is no machine word gives the sums of a chain its own type. -/
def Instruction.sumAs (word : Ty) (i : Instruction) : Instruction :=
  if i.opcode = .binary .add then { i with ty := word } else i

@[simp] theorem Instruction.operands_sumAs (word : Ty) (i : Instruction) :
    (i.sumAs word).operands = i.operands := by
  unfold sumAs
  split <;> rfl

/-- A machine word gives sums the type that they have in a chain. -/
theorem map_sumAs_addressChain (start : InstId) (base pointer : Value) (ty : Ty)
    (fold : Option Foldable) :
    (addressChain start base pointer ty fold).map (.sumAs .i64) = addressChain start base
      pointer ty fold := by
  cases fold <;> rfl

namespace Func

def spliceAll (anchor : InstId) (news order : List InstId) : List InstId :=
  news.foldl (fun order new => spliceBefore anchor new order) order

/-- Putting elements before one that is not the first leaves the first in its place. -/
theorem head?_spliceAll {anchor first : InstId} (hNe : first ≠ anchor) (news : List InstId)
    {order : List InstId} (hFirst : order.head? = some first) :
    (spliceAll anchor news order).head? = some first := by
  induction news generalizing order with
  | nil => exact hFirst
  | cons new rest ih =>
      apply ih
      obtain ⟨tail, rfl⟩ := List.head?_eq_some_iff.mp hFirst
      simp [spliceBefore, hNe]

/-- A change of the order of one block that leaves the first instruction in front leaves the head of
the function. -/
theorem entryHead?_modify {f g : Func} {block : BlockId} {change : List InstId → List InstId}
    {first : InstId}
    (hBlocks : g.blocks = f.blocks.modify block fun b => { b with insts := change b.insts })
    (hFirst : f.entryHead? = some first)
    (hChange : ∀ order, order.head? = some first → (change order).head? = some first) :
    g.entryHead? = some first := by
  obtain ⟨b, hb, hHead⟩ := Option.bind_eq_some_iff.mp hFirst
  rw [List.head?_eq_getElem?] at hb
  rw [entryHead?, List.head?_eq_getElem?, hBlocks, List.getElem?_modify, hb]
  by_cases hBlock : block = 0
  · simpa [hBlock] using hChange b.insts hHead
  · simpa [hBlock] using hHead

/-- Instructions went in right before an anchor that stands in a block. -/
structure Emitted (f : Func) (block : BlockId) (anchor : InstId) (insts : List Instruction)
    (g : Func) : Prop where
  consistent : g.Consistent
  signature : g.signature = f.signature
  cells : g.cells = f.cells ++ insts.map fun inst => ⟨inst, block, true⟩
  blocks : g.blocks = f.blocks.modify block fun b =>
    { b with insts := spliceAll anchor (List.range' f.cells.length insts.length) b.insts }

namespace Emitted

variable {f g h : Func} {block : BlockId} {anchor : InstId} {front back : List Instruction}

/-- Emission changes no instruction that was there. -/
theorem old (hEmitted : Emitted f block anchor front g) {id : InstId} {c : Cell}
    (hc : f.cells[id]? = some c) : g.cells[id]? = some c := by
  rw [hEmitted.cells, List.getElem?_append_left (lt_of_cell hc)]
  exact hc

/-- Emitted instructions stand in the block under consecutive numbers. -/
theorem new (hEmitted : Emitted f block anchor front g) {i : Nat} {inst : Instruction}
    (hi : front[i]? = some inst) : g.cells[f.cells.length + i]? = some ⟨inst, block, true⟩ := by
  rw [hEmitted.cells, List.getElem?_append_right (Nat.le_add_right _ _), Nat.add_sub_cancel_left,
    List.getElem?_map, hi]
  rfl

theorem length_cells (hEmitted : Emitted f block anchor front g) :
    g.cells.length = f.cells.length + front.length := by
  rw [hEmitted.cells, List.length_append, List.length_map]

theorem new_within (hEmitted : Emitted f block anchor front g) {i : Nat} (hi : i < front.length) :
    (Value.inst (f.cells.length + i)).Within g.cells.length := by
  rw [hEmitted.length_cells]
  exact Nat.add_lt_add_left hi _

theorem first_within {inst : Instruction} (hEmitted : Emitted f block anchor (inst :: front) g) :
    (Value.inst f.cells.length).Within g.cells.length :=
  hEmitted.new_within (i := 0) (Nat.succ_pos _)

theorem keeps (hEmitted : Emitted f block anchor front g) : f.Keeps g :=
  ⟨hEmitted.signature, hEmitted.blocks ▸ map_name_modify _ _ _,
    fun _ c hc => ⟨c, hEmitted.old hc, rfl, rfl, rfl, rfl, id⟩⟩

/-- Emission adds as many instructions as were emitted. -/
theorem instCount (hEmitted : Emitted f block anchor front g) (hf : f.Consistent) :
    g.instCount = f.instCount + front.length := by
  rw [hf.instCount_eq, hEmitted.consistent.instCount_eq, hEmitted.cells, List.countP_append,
    List.countP_map]
  simp [Function.comp_def]

theorem entryHead? (hEmitted : Emitted f block anchor front g) {first : InstId}
    (hNe : first ≠ anchor) (hFirst : f.entryHead? = some first) : g.entryHead? = some first :=
  entryHead?_modify hEmitted.blocks hFirst fun _ hOrder => head?_spliceAll hNe _ hOrder

/-- Emitting twice before the same instruction is emitting both lists in order. -/
theorem trans (first : Emitted f block anchor front g) (second : Emitted g block anchor back h) :
    Emitted f block anchor (front ++ back) h := by
  refine ⟨second.consistent, second.signature.trans first.signature, ?_, ?_⟩
  · rw [second.cells, first.cells, List.map_append, List.append_assoc]
  · rw [second.blocks, first.blocks, List.modify_modify_eq, first.length_cells]
    congr 1
    funext b
    simp only [Function.comp_apply, spliceAll, List.length_append, ← List.foldl_append,
      List.range'_append_1]

end Emitted

/-- One draft, finished and put before an anchor. -/
theorem emitBefore_spec {f : Func} {anchor : InstId} {c : Cell} {draft : Draft} {inst : Instruction}
    (hf : f.Consistent) (hc : f.cells[anchor]? = some c) (hFinish : f.finish draft = .ok inst)
    (hIn : ∀ v ∈ inst.operands, v.Within f.cells.length) :
    ∃ g, f.emitBefore anchor draft = .ok (g, .inst f.cells.length) ∧
      Emitted f c.block anchor [inst] g := by
  have hBlock := hf.housed c (List.mem_of_getElem? hc)
  obtain ⟨g, hg, hInserted⟩ := enter_spec (spliceBefore anchor) hIn hBlock
  have hConsistent := hInserted.consistent hf hIn hBlock (spliceBefore_perm anchor _)
  refine ⟨g, ?_, hConsistent, hInserted.signature, hInserted.cells, hInserted.blocks⟩
  rw [emitBefore, build, hFinish]
  simp only [bind, Except.bind, Func.insert, insertBefore_eq_enter hc, hg]
  rfl

section Chains

variable {f : Func} {anchor : InstId} {c : Cell} {base : Value} (hf : f.Consistent)
  (hc : f.cells[anchor]? = some c)

include hf hc

/-- A conversion of a value that is there can be emitted. -/
theorem emitCast_spec (op : CastOp) (ty : Ty) {value : Value}
    (hValue : value.Within f.cells.length) :
    ∃ g, f.emitBefore anchor (.cast op value ty) = .ok (g, .inst f.cells.length) ∧
      Emitted f c.block anchor [{ opcode := .cast op, operands := [value], ty }] g := by
  apply emitBefore_spec hf hc rfl
  intro v hv
  obtain rfl : v = value := by simpa using hv
  exact hValue

/-- So can an addition. The sum has the type of its first term. -/
theorem emitAdd_spec {left right : Value} {word : Ty} (hLeft : f.typeOf left = .ok word)
    (hRight : right.Within f.cells.length) :
    ∃ g, f.emitBefore anchor (.binary .add left right) = .ok (g, .inst f.cells.length) ∧
      Emitted f c.block anchor [{ opcode := .binary .add, operands := [left, right], ty := word }]
      g := by
  apply emitBefore_spec hf hc
  · rw [finish, hLeft]
    rfl
  · intro v hv
    rcases List.mem_cons.mp hv with rfl | hv
    · exact within_of_typeOf hLeft
    · obtain rfl : v = right := by simpa using hv
      exact hRight

/-- Rebasing a pointer emits a chain of four. -/
theorem emitRebased_spec {word : Ty} (hBase : f.typeOf base = .ok word) {pointer : Value}
    (hPointer : pointer.Within f.cells.length) (ty : Ty) :
    ∃ g, f.emitRebased anchor base pointer ty = .ok (g, .inst (f.cells.length + 3)) ∧
      Emitted f c.block anchor ((rebasedChain f.cells.length base pointer ty).map
        (.sumAs word)) g := by
  obtain ⟨f₁, h₁, e₁⟩ := emitCast_spec hf hc .ptrToInt .i32 hPointer
  have n₁ := e₁.length_cells
  obtain ⟨f₂, h₂, e₂⟩ := emitCast_spec e₁.consistent (e₁.old hc) .zext .i64 e₁.first_within
  have n₂ := e₂.length_cells
  obtain ⟨f₃, h₃, e₃⟩ := emitAdd_spec e₂.consistent (e₂.old (e₁.old hc))
    (e₂.keeps.typeOf (e₁.keeps.typeOf hBase)) e₂.first_within
  have n₃ := e₃.length_cells
  obtain ⟨f₄, h₄, e₄⟩ := emitCast_spec e₃.consistent (e₃.old (e₂.old (e₁.old hc))) .intToPtr
    ty e₃.first_within
  have hAll := ((e₁.trans e₂).trans e₃).trans e₄
  simp only [List.length_cons, List.length_nil] at n₁ n₂ n₃
  have m₂ : f₂.cells.length = f.cells.length + 2 := by omega
  have m₃ : f₃.cells.length = f.cells.length + 3 := by omega
  refine ⟨f₄, ?_, ?_⟩
  · rw [emitRebased, h₁]
    simp only [bind, Except.bind, h₂, h₃, h₄, m₃]
  · rw [n₁, m₂] at hAll
    exact hAll

/-- Rebasing an offset and adding the constant afterwards emits a chain of four as well. -/
theorem emitFolded_spec {word : Ty} (hBase : f.typeOf base = .ok word) {address : Foldable}
    (hIndex : address.index.Within f.cells.length) (ty : Ty) :
    ∃ g, f.emitFolded anchor base address ty = .ok (g, .inst (f.cells.length + 3)) ∧
      Emitted f c.block anchor ((foldedChain f.cells.length base address ty).map
        (.sumAs word)) g := by
  obtain ⟨f₁, h₁, e₁⟩ := emitCast_spec hf hc .zext .i64 hIndex
  have n₁ := e₁.length_cells
  obtain ⟨f₂, h₂, e₂⟩ := emitAdd_spec e₁.consistent (e₁.old hc)
    (e₁.keeps.typeOf hBase) e₁.first_within
  have n₂ := e₂.length_cells
  have hSum : f₂.typeOf (.inst f₁.cells.length) = .ok word := typeOf_of_cell (e₂.new (i := 0) rfl)
  have hConstant : (Value.ofWord machineWidth address.constant).Within f₂.cells.length := trivial
  obtain ⟨f₃, h₃, e₃⟩ := emitAdd_spec e₂.consistent (e₂.old (e₁.old hc)) hSum hConstant
  have n₃ := e₃.length_cells
  obtain ⟨f₄, h₄, e₄⟩ := emitCast_spec e₃.consistent (e₃.old (e₂.old (e₁.old hc))) .intToPtr
    ty e₃.first_within
  have hAll := ((e₁.trans e₂).trans e₃).trans e₄
  simp only [List.length_cons, List.length_nil] at n₁ n₂ n₃
  have m₂ : f₂.cells.length = f.cells.length + 2 := by omega
  have m₃ : f₃.cells.length = f.cells.length + 3 := by omega
  refine ⟨f₄, ?_, ?_⟩
  · rw [emitFolded, h₁]
    simp only [bind, Except.bind, h₂, h₃, h₄, m₃]
  · rw [n₁, m₂] at hAll
    exact hAll

/-- Clipping a length emits a chain of two. -/
theorem emitClipped_spec {length : Value} (hLength : length.Within f.cells.length) :
    ∃ g, f.emitClipped anchor length = .ok (g, .inst (f.cells.length + 1)) ∧
      Emitted f c.block anchor (clippedChain f.cells.length length) g := by
  obtain ⟨f₁, h₁, e₁⟩ := emitCast_spec hf hc .trunc .i32 hLength
  have n₁ := e₁.length_cells
  obtain ⟨f₂, h₂, e₂⟩ := emitCast_spec e₁.consistent (e₁.old hc) .zext .i64 e₁.first_within
  refine ⟨f₂, ?_, e₁.trans e₂⟩
  rw [emitClipped, h₁]
  simp only [bind, Except.bind, h₂, n₁]
  rfl

end Chains

/-- What is put at the head of the first block is the first instruction of the function. -/
theorem Inserted.entryHead? {f g : Func} {inst : Instruction} {new : InstId}
    (h : Inserted f 0 inst (new :: ·) g) (hBody : 0 < f.blocks.length) :
    g.entryHead? = some new := by
  rw [Func.entryHead?, List.head?_eq_getElem?, h.blocks, List.getElem?_modify,
    List.getElem?_eq_getElem hBody]
  rfl

/-- A variable is loaded at the head of the function, and the load is all that is new. -/
theorem ofSymbol_spec {f : Func} (hf : f.Consistent) (hBody : 0 < f.blocks.length)
    (symbol : Symbol) :
    ∃ g, BaseSource.ofSymbol symbol f = .ok (g, .inst f.cells.length) ∧ g.Consistent ∧
      Inserted f 0 (baseLoad symbol) (f.cells.length :: ·) g := by
  have hIn : ∀ v ∈ (baseLoad symbol).operands, v.Within f.cells.length := by
    intro v hv
    obtain rfl : v = .global symbol := by simpa [baseLoad] using hv
    trivial
  obtain ⟨g, hg, hInserted⟩ := enter_spec List.cons hIn hBody
  refine ⟨g, ?_, hInserted.consistent hf hIn hBody fun order => .refl _, hInserted⟩
  have hEntry : f.entry? = some 0 := by
    simp [isDeclaration_eq_false_iff.mpr hBody, Func.entry?]
  rw [← prepend_eq_enter] at hg
  simp only [BaseSource.ofSymbol, hEntry]
  simp only [baseLoad] at hg
  rw [hg]
  rfl

end Func

end FaultIsolation
