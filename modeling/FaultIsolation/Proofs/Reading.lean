import FaultIsolation.Code.Text
import FaultIsolation.Memory.Access
import FaultIsolation.Proofs.Consistency

/-!
What can be read off a function. Edits never change the opcode, the type, the name or the block of
an instruction, so a type once read stays true. In a consistent function everything that an operand
names is there, so types can be read and instructions can be written.
-/
namespace FaultIsolation

section Lists

variable {ε α β : Type} {f : α → Except ε β}

/-- If every element has a result, all have. -/
theorem mapM_ok {xs : List α} (h : ∀ x ∈ xs, ∃ y, f x = .ok y) : ∃ ys, xs.mapM f = .ok ys := by
  induction xs with
  | nil => exact ⟨[], rfl⟩
  | cons x rest ih =>
      obtain ⟨y, hy⟩ := h x (by simp)
      obtain ⟨ys, hys⟩ := ih fun x hx => h x (List.mem_cons_of_mem _ hx)
      refine ⟨y :: ys, ?_⟩
      rw [List.mapM_cons, hy, hys]
      rfl

/-- Only the results of the elements matter. -/
theorem mapM_congr {g : α → Except ε β} {xs : List α} (h : ∀ x ∈ xs, g x = f x) :
    xs.mapM g = xs.mapM f := by
  induction xs with
  | nil => rfl
  | cons x rest ih => rw [List.mapM_cons, List.mapM_cons, h x (by simp), ih fun y hy =>
      h y (List.mem_cons_of_mem _ hy)]

theorem filterAuxM_eq {test : α → Except ε Bool} {keep : α → Bool} {xs : List α} (done : List α)
    (h : ∀ x ∈ xs, test x = .ok (keep x)) :
    xs.filterAuxM test done = .ok ((xs.filter keep).reverse ++ done) := by
  induction xs generalizing done with
  | nil => rfl
  | cons x rest ih =>
      have hRest := fun done => ih done fun x hx => h x (List.mem_cons_of_mem _ hx)
      rw [List.filterAuxM, h x (by simp)]
      cases hKeep : keep x with
      | false => simp [bind, Except.bind, hRest, hKeep]
      | true => simp [bind, Except.bind, hRest, hKeep]

/-- A test that always answers filters as its answers do. -/
theorem filterM_eq {test : α → Except ε Bool} {keep : α → Bool} {xs : List α}
    (h : ∀ x ∈ xs, test x = .ok (keep x)) : xs.filterM test = .ok (xs.filter keep) := by
  rw [List.filterM, filterAuxM_eq [] h]
  simp [bind, Except.bind, pure, Except.pure]

end Lists

namespace Func

/-- Changing the order of a block leaves the labels. -/
theorem map_name_modify (blocks : List Block) (changed : BlockId)
    (change : List InstId → List InstId) :
    (blocks.modify changed fun b => { b with insts := change b.insts }).map Block.name = blocks.map
      Block.name := by
  apply List.ext_getElem?
  intro block
  rw [List.getElem?_map, List.getElem?_modify, List.getElem?_map]
  cases blocks[block]? with
  | none => rfl
  | some b => by_cases hBlock : changed = block <;> simp [hBlock]

/-- The second function is a later state of the first: nothing is forgotten, and no label and no
opcode, type, name or block of an instruction has changed. Operands may have, and instructions may
have been removed. -/
structure Keeps (f g : Func) : Prop where
  signature : g.signature = f.signature
  labels : g.blocks.map Block.name = f.blocks.map Block.name
  cells : ∀ (id : InstId) (c : Cell), f.cells[id]? = some c → ∃ d, g.cells[id]? = some d ∧
    d.inst.opcode = c.inst.opcode ∧ d.inst.ty = c.inst.ty ∧ d.inst.name = c.inst.name ∧
    d.block = c.block ∧ (d.live = true → c.live = true)

namespace Keeps

variable {f g h : Func}

theorem refl (f : Func) : f.Keeps f := ⟨rfl, rfl, fun _ c hc => ⟨c, hc, rfl, rfl, rfl, rfl, id⟩⟩

/-- What two changes keep one after the other is kept. -/
theorem trans (first : f.Keeps g) (second : g.Keeps h) : f.Keeps h := by
  refine ⟨second.signature.trans first.signature, second.labels.trans first.labels,
    fun id c hc => ?_⟩
  obtain ⟨d, hd, hOpcode, hTy, hName, hBlock, hLive⟩ := first.cells id c hc
  obtain ⟨e, he, hOpcode', hTy', hName', hBlock', hLive'⟩ := second.cells id d hd
  exact ⟨e, he, hOpcode'.trans hOpcode, hTy'.trans hTy, hName'.trans hName, hBlock'.trans hBlock,
    fun hAlive => hLive (hLive' hAlive)⟩

theorem opcode (hKeeps : f.Keeps g) {id : InstId} {c d : Cell} (hc : f.cells[id]? = some c)
    (hd : g.cells[id]? = some d) : d.inst.opcode = c.inst.opcode := by
  obtain ⟨d', hd', hOpcode, _⟩ := hKeeps.cells id c hc
  obtain rfl := Option.some.inj (hd.symm.trans hd')
  exact hOpcode

/-- What stands in a block has stood there before. -/
theorem live (hKeeps : f.Keeps g) {id : InstId} {c d : Cell} (hc : f.cells[id]? = some c)
    (hd : g.cells[id]? = some d) (hLive : d.live = true) : c.live = true := by
  obtain ⟨d', hd', _, _, _, _, hOld⟩ := hKeeps.cells id c hc
  obtain rfl := Option.some.inj (hd.symm.trans hd')
  exact hOld hLive

/-- What still stands has stood before. -/
theorem mem_layout (hKeeps : f.Keeps g) (hf : f.Consistent) (hg : g.Consistent) {id : InstId}
    (hOld : id < f.cells.length) (hId : id ∈ g.layout) : id ∈ f.layout := by
  obtain ⟨c, hc⟩ := exists_cell hOld
  obtain ⟨d, hd, hLive⟩ := hg.mem_layout_iff.mp hId
  exact hf.mem_layout_iff.mpr ⟨c, hc, hKeeps.live hc hd hLive⟩

/-- No number is taken away. -/
theorem length_le (hKeeps : f.Keeps g) : f.cells.length ≤ g.cells.length := by
  cases hLength : f.cells.length with
  | zero => exact Nat.zero_le _
  | succ last =>
      obtain ⟨c, hc⟩ := exists_cell (show last < f.cells.length by omega)
      obtain ⟨d, hd, _⟩ := hKeeps.cells last c hc
      exact lt_of_cell hd

/-- What is removed stays removed. -/
theorem isLive_eq_false (hKeeps : f.Keeps g) {id : InstId} (h : f.isLive id = .ok false) :
    g.isLive id = .ok false := by
  obtain ⟨node, hNode, hDead⟩ := map_eq_ok_iff.mp h
  cases hCell : f.cells[id]? with
  | none =>
      rw [getElem?_cells, Option.map_eq_none_iff] at hCell
      simp [Func.node, hCell] at hNode
  | some c =>
      obtain ⟨d, hd, _⟩ := hKeeps.cells id c hCell
      rw [isLive_of_cell hCell] at h
      rw [isLive_of_cell hd]
      cases hLive : d.live with
      | false => rfl
      | true =>
          rw [hKeeps.live hCell hd hLive] at h
          cases h

theorem params (hKeeps : f.Keeps g) : g.params = f.params :=
  congrArg (fun s => s.2.1) hKeeps.signature

end Keeps

/-- An insertion keeps the signature, the block names and all that instructions yield. -/
theorem Inserted.keeps {f g : Func} {block : BlockId} {inst : Instruction}
    {place : List InstId → List InstId} (h : Inserted f block inst place g) : f.Keeps g := by
  refine ⟨h.signature, h.blocks ▸ map_name_modify _ _ _, fun id c hc => ?_⟩
  refine ⟨c, ?_, rfl, rfl, rfl, rfl, fun hLive => hLive⟩
  rw [h.cells, List.getElem?_append_left (lt_of_cell hc)]
  exact hc

/-- Replacing an operand keeps them too. -/
theorem Replaced.keeps {f g : Func} {id : InstId} {c : Cell} {position : Nat} {old value : Value}
    (h : Replaced f id c position old value g) (hCell : f.cells[id]? = some c) : f.Keeps g := by
  refine ⟨h.signature, by rw [h.blocks], fun j d hd => ?_⟩
  rw [h.cells]
  by_cases hj : id = j
  · subst hj
    obtain rfl : c = d := by simpa [hCell] using hd
    exact ⟨_, List.getElem?_set_self (lt_of_cell hCell), rfl, rfl, rfl, rfl, fun hLive => hLive⟩
  · exact ⟨d, by rw [List.getElem?_set_ne hj]; exact hd, rfl, rfl, rfl, rfl, fun hLive => hLive⟩

/-- Even a removal keeps them: a removed instruction keeps its opcode, type and name. -/
theorem Removed.keeps {f g : Func} {id : InstId} {c : Cell} (h : Removed f id c g)
    (hCell : f.cells[id]? = some c) : f.Keeps g := by
  refine ⟨h.signature, h.blocks ▸ map_name_modify _ _ _, fun j d hd => ?_⟩
  rw [h.cells]
  by_cases hj : id = j
  · subst hj
    obtain rfl : c = d := by simpa [hCell] using hd
    refine ⟨_, List.getElem?_set_self (lt_of_cell hCell), rfl, rfl, rfl, rfl, fun hLive => ?_⟩
    cases hLive
  · exact ⟨d, by rw [List.getElem?_set_ne hj]; exact hd, rfl, rfl, rfl, rfl, fun hLive => hLive⟩

theorem typeOf_of_cell {f : Func} {id : InstId} {c : Cell} (h : f.cells[id]? = some c) :
    f.typeOf (.inst id) = .ok c.inst.ty := by
  simp [typeOf, inst_of_cell h, Except.map]

/-- Every value of the function has a type. -/
theorem exists_typeOf {f : Func} {v : Value} (h : v.Within f.cells.length) :
    ∃ ty, f.typeOf v = .ok ty := by
  cases v with
  | inst id =>
      obtain ⟨c, hc⟩ := exists_cell h
      exact ⟨_, typeOf_of_cell hc⟩
  | arg index => exact ⟨_, rfl⟩
  | const constant => exact ⟨_, rfl⟩
  | global symbol => exact ⟨_, rfl⟩

theorem within_of_typeOf {f : Func} {v : Value} {ty : Ty} (h : f.typeOf v = .ok ty) :
    v.Within f.cells.length := by
  cases v with
  | inst id =>
      obtain ⟨inst, hInst, _⟩ := map_eq_ok_iff.mp h
      obtain ⟨c, hc, _⟩ := cell_of_inst hInst
      exact lt_of_cell hc
  | _ => trivial

theorem Keeps.typeOf {f g : Func} (hKeeps : f.Keeps g) {v : Value} {ty : Ty}
    (h : f.typeOf v = .ok ty) : g.typeOf v = .ok ty := by
  cases v with
  | inst id =>
      obtain ⟨inst, hInst, rfl⟩ := map_eq_ok_iff.mp h
      obtain ⟨c, hc, rfl⟩ := cell_of_inst hInst
      obtain ⟨d, hd, _, hTy, _⟩ := hKeeps.cells id c hc
      rw [typeOf_of_cell hd, hTy]
  | arg index => simpa [Func.typeOf, hKeeps.params] using h
  | const constant => exact h
  | global symbol => exact h

/-- The type of a value does not change. -/
theorem Keeps.typeOf_eq {f g : Func} (hKeeps : f.Keeps g) {v : Value}
    (hIn : v.Within f.cells.length) : g.typeOf v = f.typeOf v := by
  obtain ⟨ty, hTy⟩ := exists_typeOf hIn
  rw [hTy, hKeeps.typeOf hTy]

theorem Keeps.typeOf_iff {f g : Func} (hKeeps : f.Keeps g) {v : Value}
    (hIn : v.Within f.cells.length) {ty : Ty} : g.typeOf v = .ok ty ↔ f.typeOf v = .ok ty := by
  rw [hKeeps.typeOf_eq hIn]

def IsPointer (f : Func) (v : Value) : Prop := ∃ ty, f.typeOf v = .ok ty ∧ ty.isPointer = true

/-- The search for a pointer ends at the first one, or finds none. -/
theorem pointerPosition?_spec {f : Func} {values : List Value}
    (hIn : ∀ v ∈ values, v.Within f.cells.length) :
    (f.pointerPosition? values = .ok none ∧ ∀ v ∈ values, ¬f.IsPointer v) ∨
      ∃ position v, f.pointerPosition? values = .ok (some position) ∧ values[position]? = some v ∧
        f.IsPointer v := by
  induction values with
  | nil => exact .inl ⟨rfl, by simp⟩
  | cons v rest ih =>
      obtain ⟨ty, hTy⟩ := exists_typeOf (hIn v (by simp))
      cases hPointer : ty.isPointer with
      | true =>
          refine .inr ⟨0, v, ?_, rfl, ty, hTy, hPointer⟩
          rw [pointerPosition?, hTy]
          simp only [bind, Except.bind, hPointer]
          rfl
      | false =>
          have hHead : ¬f.IsPointer v := by
            rintro ⟨ty', hTy', hPointer'⟩
            obtain rfl : ty = ty' := by simpa [hTy] using hTy'
            simp [hPointer] at hPointer'
          have hStep : f.pointerPosition? (v :: rest) =
              (f.pointerPosition? rest).map (Option.map (· + 1)) := by
            rw [pointerPosition?, hTy]
            simp only [bind, Except.bind, hPointer]
            cases f.pointerPosition? rest <;> rfl
          rcases ih fun w hw => hIn w (List.mem_cons_of_mem v hw) with
            ⟨hNone, hRest⟩ | ⟨position, w, hSome, hw, hIs⟩
          · refine .inl ⟨by rw [hStep, hNone]; rfl, fun w hw => ?_⟩
            rcases List.mem_cons.mp hw with rfl | hw
            · exact hHead
            · exact hRest w hw
          · exact .inr ⟨position + 1, w, by rw [hStep, hSome]; rfl, hw, hIs⟩

/-- Which of some values is the first pointer does not change. -/
theorem Keeps.pointerPosition? {f g : Func} (hKeeps : f.Keeps g) {values : List Value}
    (hIn : ∀ v ∈ values, v.Within f.cells.length) :
    g.pointerPosition? values = f.pointerPosition? values := by
  induction values with
  | nil => rfl
  | cons v rest ih =>
      rw [Func.pointerPosition?, Func.pointerPosition?, hKeeps.typeOf_eq (hIn v (by simp)),
        ih fun w hw => hIn w (List.mem_cons_of_mem v hw)]

theorem mem_operands_of_args {inst : Instruction} {v : Value} (h : v ∈ inst.args) :
    v ∈ inst.operands := by
  rw [Instruction.args] at h
  split at h
  · exact (List.dropLast_sublist _).subset h
  · cases h

/-- What nothing confines is an operand. -/
theorem mem_operands_of_unconfined {inst : Instruction} {v : Value}
    (h : v ∈ (Access.ofInstruction inst).unconfined inst) : v ∈ inst.operands := by
  cases hAccess : Access.ofInstruction inst <;> simp only [hAccess, Access.unconfined] at h
  case fence => exact mem_operands_of_args h
  case call => exact mem_operands_of_args h
  case other => exact h
  all_goals cases h

/-- Every value of the function can be written. -/
theorem exists_valueText {f : Func} {v : Value} (h : v.Within f.cells.length) :
    ∃ text, f.valueText v = .ok text := by
  cases v with
  | inst id =>
      obtain ⟨c, hc⟩ := exists_cell h
      exact ⟨_, by rw [valueText, inst_of_cell hc]; rfl⟩
  | arg index => exact ⟨_, rfl⟩
  | const constant => exact ⟨_, rfl⟩
  | global symbol => exact ⟨_, rfl⟩

section Writing

variable {f : Func} {inst : Instruction} (hIn : ∀ v ∈ inst.operands, v.Within f.cells.length)

include hIn

theorem exists_typedText (position : Nat) :
    ∃ text, f.typedText inst.operands[position]? = .ok text := by
  cases hOperand : inst.operands[position]? with
  | none => exact ⟨_, rfl⟩
  | some v =>
      have hv := hIn v (List.mem_of_getElem? hOperand)
      obtain ⟨ty, hTy⟩ := exists_typeOf hv
      obtain ⟨text, hText⟩ := exists_valueText hv
      exact ⟨_, by rw [typedText, hTy, hText]; rfl⟩

theorem exists_bareText (position : Nat) :
    ∃ text, f.bareText inst.operands[position]? = .ok text := by
  cases hOperand : inst.operands[position]? with
  | none => exact ⟨_, rfl⟩
  | some v => exact exists_valueText (hIn v (List.mem_of_getElem? hOperand))

/-- The alternatives of a join can be written. -/
theorem exists_phiText (sources : List BlockId) :
    ∃ texts, ((inst.operands.zip sources).mapM fun (value, source) => do
      let value ← f.valueText value
      return s!"[ {value}, {f.labelText source} ]") = Except.ok texts := by
  apply mapM_ok
  rintro ⟨v, source⟩ hMem
  obtain ⟨text, hText⟩ := exists_valueText (hIn v (List.of_mem_zip hMem).1)
  exact ⟨_, by simp only [hText]; rfl⟩

/-- The arguments of a call can be written. -/
theorem exists_argTexts :
    ∃ texts, (inst.args.mapM fun arg => f.typedText (some arg)) = .ok texts := by
  apply mapM_ok
  intro v hMem
  obtain ⟨position, hPosition⟩ := List.mem_iff_getElem?.mp (mem_operands_of_args hMem)
  obtain ⟨text, hText⟩ := exists_typedText hIn position
  exact ⟨text, by rw [← hPosition]; exact hText⟩

theorem exists_calleeText : ∃ text, f.bareText inst.callee? = .ok text := by
  rw [Instruction.callee?]
  split
  · rw [List.getLast?_eq_getElem?]
    exact exists_bareText hIn _
  · exact ⟨_, rfl⟩

/-- An instruction whose operands are all there can be written, whatever their number. -/
theorem exists_bodyText : ∃ text, f.bodyText inst = .ok text := by
  obtain ⟨first, hFirst⟩ := exists_typedText hIn 0
  obtain ⟨second, hSecond⟩ := exists_typedText hIn 1
  obtain ⟨third, hThird⟩ := exists_typedText hIn 2
  obtain ⟨bare, hBare⟩ := exists_bareText hIn 1
  obtain ⟨args, hArgs⟩ := exists_argTexts hIn
  obtain ⟨callee, hCallee⟩ := exists_calleeText hIn
  cases hOpcode : inst.opcode with
  | alloca ty => exact ⟨_, by simp only [bodyText, hOpcode, hFirst]; rfl⟩
  | load => exact ⟨_, by simp only [bodyText, hOpcode, hFirst]; rfl⟩
  | store => exact ⟨_, by simp only [bodyText, hOpcode, hFirst, hSecond]; rfl⟩
  | binary op => exact ⟨_, by simp only [bodyText, hOpcode, hFirst, hBare]; rfl⟩
  | icmp comparison => exact ⟨_, by simp only [bodyText, hOpcode, hFirst, hBare]; rfl⟩
  | cast op => exact ⟨_, by simp only [bodyText, hOpcode, hFirst]; rfl⟩
  | select => exact ⟨_, by simp only [bodyText, hOpcode, hFirst, hSecond, hThird]; rfl⟩
  | phi sources =>
      obtain ⟨incoming, hIncoming⟩ := exists_phiText hIn sources
      exact ⟨_, by simp only [bodyText, hOpcode]; rw [hIncoming]; rfl⟩
  | call => exact ⟨_, by simp only [bodyText, hOpcode, hArgs, hCallee]; rfl⟩
  | br target => exact ⟨_, by simp only [bodyText, hOpcode]; rfl⟩
  | condBr onTrue onFalse => exact ⟨_, by simp only [bodyText, hOpcode, hFirst]; rfl⟩
  | ret =>
      cases hOperand : inst.operands[0]? with
      | none => exact ⟨_, by simp only [bodyText, hOpcode, hOperand]; rfl⟩
      | some v =>
          rw [hOperand] at hFirst
          exact ⟨_, by simp only [bodyText, hOpcode, hOperand, hFirst]; rfl⟩
  | unreachable => exact ⟨_, by simp only [bodyText, hOpcode]; rfl⟩

end Writing

section Rewriting

variable {f g : Func} (hKeeps : f.Keeps g)

include hKeeps

theorem Keeps.name : g.name = f.name := congrArg Prod.fst hKeeps.signature

/-- Jumps are written as before. -/
theorem Keeps.labelText (id : BlockId) : g.labelText id = f.labelText id := by
  have hLabel : (g.blocks[id]?).map Block.name = (f.blocks[id]?).map Block.name := by
    rw [← List.getElem?_map, ← List.getElem?_map, hKeeps.labels]
  simp only [Func.labelText]
  cases hOld : f.blocks[id]? with
  | none =>
      rw [hOld, Option.map_none, Option.map_eq_none_iff] at hLabel
      rw [hLabel]
  | some b =>
      rw [hOld, Option.map_some] at hLabel
      obtain ⟨b', hNew, hName⟩ := Option.map_eq_some_iff.mp hLabel
      simp only [hNew, hName]

/-- Values are written as before. -/
theorem Keeps.valueText {v : Value} (hIn : v.Within f.cells.length) :
    g.valueText v = f.valueText v := by
  cases v with
  | inst id =>
      obtain ⟨c, hc⟩ := exists_cell hIn
      obtain ⟨d, hd, _, _, hName, _⟩ := hKeeps.cells id c hc
      simp only [Func.valueText, inst_of_cell hc, inst_of_cell hd, bind, Except.bind, hName]
  | arg index => rfl
  | const constant => rfl
  | global symbol => rfl

variable {inst : Instruction} (hIn : ∀ v ∈ inst.operands, v.Within f.cells.length)

include hIn

theorem Keeps.typedText {operand : Option Value} (hOperand : ∀ v ∈ operand, v ∈ inst.operands) :
    g.typedText operand = f.typedText operand := by
  cases operand with
  | none => rfl
  | some v =>
      have hv := hIn v (hOperand v rfl)
      rw [Func.typedText, Func.typedText, hKeeps.typeOf_eq hv, hKeeps.valueText hv]

theorem Keeps.bareText {operand : Option Value} (hOperand : ∀ v ∈ operand, v ∈ inst.operands) :
    g.bareText operand = f.bareText operand := by
  cases operand with
  | none => rfl
  | some v => exact hKeeps.valueText (hIn v (hOperand v rfl))

/-- What an instruction does is written the same way in a later state. -/
theorem Keeps.bodyText : g.bodyText inst = f.bodyText inst := by
  have hAt : ∀ position, ∀ v ∈ inst.operands[position]?, v ∈ inst.operands :=
    fun _ _ => List.mem_of_getElem?
  have hTyped := fun position => hKeeps.typedText hIn (hAt position)
  have hBare := fun position => hKeeps.bareText hIn (hAt position)
  have hArgs : (inst.args.mapM fun arg => g.typedText (some arg)) = inst.args.mapM fun arg =>
      f.typedText (some arg) := by
    refine mapM_congr fun v hv => hKeeps.typedText hIn fun w hw => ?_
    obtain rfl := Option.some.inj hw
    exact mem_operands_of_args hv
  have hCallee : g.bareText inst.callee? = f.bareText inst.callee? := by
    apply hKeeps.bareText hIn
    intro v hv
    rw [Instruction.callee?] at hv
    split at hv
    · exact List.mem_of_getLast? hv
    · cases hv
  have hLabel := hKeeps.labelText
  unfold Func.bodyText
  cases inst.opcode with
  | phi sources =>
      have hIncoming : ((inst.operands.zip sources).mapM fun (value, source) => do
            let value ← g.valueText value
            return s!"[ {value}, {g.labelText source} ]") =
          (inst.operands.zip sources).mapM fun (value, source) => do
            let value ← f.valueText value
            return s!"[ {value}, {f.labelText source} ]" := by
        apply mapM_congr
        rintro ⟨v, source⟩ hEntry
        simp only [hKeeps.valueText (hIn v (List.of_mem_zip hEntry).1), hLabel]
      simp only [hIncoming]
  | call => simp only [hArgs, hCallee]
  | ret =>
      cases hFirst : inst.operands[0]? with
      | none => rfl
      | some v =>
          have hValue := hTyped 0
          rw [hFirst] at hValue
          simp only [hValue]
  | _ => simp only [hTyped, hBare, hLabel]

end Rewriting

/-- An instruction that is as it was is written as it was. -/
theorem Keeps.instText {f g : Func} (hKeeps : f.Keeps g) (hf : f.Consistent) {id : InstId}
    {c : Cell} (hc : f.cells[id]? = some c) (hNow : g.cells[id]? = some c) :
    g.instText id = f.instText id := by
  simp only [Func.instText, inst_of_cell hc, inst_of_cell hNow, bind, Except.bind,
    hKeeps.bodyText (hf.within c (List.mem_of_getElem? hc)), hKeeps.valueText (v := .inst id)
    (lt_of_cell hc)]

/-- Every instruction of a consistent function can be written, a removed one too. -/
theorem Consistent.exists_instText {f : Func} (hf : f.Consistent) {id : InstId} {c : Cell}
    (hc : f.cells[id]? = some c) : ∃ text, f.instText id = .ok text := by
  obtain ⟨body, hBody⟩ := exists_bodyText (hf.within c (List.mem_of_getElem? hc))
  obtain ⟨own, hOwn⟩ : ∃ own, f.valueText (.inst id) = .ok own := exists_valueText (lt_of_cell hc)
  cases hVoid : c.inst.ty.isVoid with
  | true =>
      exact ⟨body, by simp only [instText, inst_of_cell hc, bind, Except.bind, hBody, hVoid]; rfl⟩
  | false => exact ⟨own ++ " = " ++ body,
      by simp only [instText, inst_of_cell hc, bind, Except.bind, hBody, hVoid, hOwn]; rfl⟩

/-- Every block can be written. -/
theorem Consistent.exists_blockText {f : Func} (hf : f.Consistent) {b : Block} (hb : b ∈ f.blocks) :
    ∃ text, f.blockText b = .ok text := by
  obtain ⟨lines, hLines⟩ : ∃ lines, (b.insts.mapM fun id => do
      let line ← f.instText id
      return s!"  {line}\n") = .ok lines := by
    refine mapM_ok fun id hId => ?_
    obtain ⟨c, hc, _⟩ := hf.mem_layout_iff.mp (List.mem_flatMap.mpr ⟨b, hb, hId⟩)
    obtain ⟨line, hLine⟩ := hf.exists_instText hc
    exact ⟨s!"  {line}\n", by rw [hLine]; rfl⟩
  exact ⟨s!"{b.name}:\n" ++ String.join lines, by rw [blockText, hLines]; rfl⟩

/-- A consistent function can be written. -/
theorem Consistent.exists_text {f : Func} (hf : f.Consistent) : ∃ text, f.text = .ok text := by
  cases hDeclared : f.isDeclaration with
  | true => exact ⟨_, by simp only [text, hDeclared]; rfl⟩
  | false =>
      obtain ⟨blocks, hBlocks⟩ := mapM_ok (f := f.blockText) fun b hb => hf.exists_blockText hb
      exact ⟨_, by simp only [text, hDeclared, hBlocks, bind, Except.bind]; rfl⟩

end Func

end FaultIsolation
