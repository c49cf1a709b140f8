import FaultIsolation.Proofs.Agreement
import Mathlib.Data.List.Forall2

/-!
Types are kept. What takes the place of an operand has the type of the operand, whatever function it
is. So an instruction that had operands of the right types still has, and in a well-typed function
the new instructions have them too: the base is a machine word, a pointer becomes an integer and a
pointer of the same type again, and the offset of a folded address is as wide as the addition that
it comes from.
-/
namespace FaultIsolation

/-- The types that go together with an opcode: those of the operands, and that of the result. Where
nothing is said of an opcode, any do. -/
inductive Opcode.Admits : Opcode → List Ty → Ty → Prop where
  | alloca (ty : Ty) (operands : List Ty) (result : Ty) : Admits (.alloca ty) operands result
  | load (ty : Ty) : Admits .load [.ptr ty] ty
  | store (ty result : Ty) : Admits .store [ty, .ptr ty] result
  | binary (op : BinaryOp) (bits : Nat) : Admits (.binary op) [.int bits, .int bits] (.int bits)
  | icmp (comparison : Comparison) (ty : Ty) : Admits (.icmp comparison) [ty, ty] .i1
  | trunc {narrow wide : Nat} (lt : narrow < wide) : Admits (.cast .trunc) [.int wide] (.int narrow)
  | zext {narrow wide : Nat} (lt : narrow < wide) : Admits (.cast .zext) [.int narrow] (.int wide)
  | sext {narrow wide : Nat} (lt : narrow < wide) : Admits (.cast .sext) [.int narrow] (.int wide)
  | ptrToInt (target : Ty) (bits : Nat) : Admits (.cast .ptrToInt) [.ptr target] (.int bits)
  | intToPtr (bits : Nat) (target : Ty) : Admits (.cast .intToPtr) [.int bits] (.ptr target)
  | bitcast (operands : List Ty) (result : Ty) : Admits (.cast .bitcast) operands result
  | select (ty : Ty) : Admits .select [.i1, ty, ty] ty
  | phi (sources : List BlockId) {operands : List Ty} {ty : Ty}
      (all : ∀ operand ∈ operands, operand = ty) : Admits (.phi sources) operands ty
  | call (params : List Ty) (ty : Ty) : Admits .call (params ++ [.ptr (.fn ty params)]) ty
  | br (target : BlockId) (operands : List Ty) (result : Ty) : Admits (.br target) operands result
  | condBr (onTrue onFalse : BlockId) (result : Ty) : Admits (.condBr onTrue onFalse) [.i1] result
  | ret (operands : List Ty) (result : Ty) : Admits .ret operands result
  | unreachable (operands : List Ty) (result : Ty) : Admits .unreachable operands result

namespace Func

def Types (f : Func) (values : List Value) (types : List Ty) : Prop :=
  List.Forall₂ (fun v ty => f.typeOf v = .ok ty) values types

def Fits (f : Func) (inst : Instruction) : Prop :=
  ∃ types, f.Types inst.operands types ∧ inst.opcode.Admits types inst.ty

def WellTyped (f : Func) : Prop := ∀ id ∈ f.layout, ∀ inst, f.inst id = .ok inst → f.Fits inst

section Types

variable {f g : Func}

theorem exists_types {values : List Value} (h : ∀ v ∈ values, v.Within f.cells.length) :
    ∃ types, f.Types values types := by
  induction values with
  | nil => exact ⟨[], .nil⟩
  | cons v rest ih =>
      obtain ⟨ty, hTy⟩ := exists_typeOf (h v (by simp))
      obtain ⟨types, hTypes⟩ := ih fun w hw => h w (List.mem_cons_of_mem _ hw)
      exact ⟨ty :: types, .cons hTy hTypes⟩

/-- Values that have the types of others at every position have the same types altogether. -/
theorem Types.transfer {values others : List Value} {types : List Ty} (h : f.Types values types)
    (hLength : others.length = values.length)
    (hEach : ∀ (position : Nat) (v : Value), values[position]? = some v →
      ∃ w, others[position]? = some w ∧ ∀ ty, f.typeOf v = .ok ty → g.typeOf w = .ok ty) :
    g.Types others types := by
  obtain ⟨hTypes, hOld⟩ := List.forall₂_iff_get.mp h
  refine List.forall₂_iff_get.mpr ⟨hLength.trans hTypes, fun position hOther hTy => ?_⟩
  have hLt : position < values.length := hLength ▸ hOther
  obtain ⟨w, hw, hSame⟩ := hEach position _ (List.getElem?_eq_getElem hLt)
  obtain ⟨_, rfl⟩ := List.getElem?_eq_some_iff.mp hw
  exact hSame _ (hOld position hLt hTy)

/-- The offset of a folded address has the width of the addition. -/
theorem WellTyped.typeOf_index (h : f.WellTyped) (hf : f.Consistent) {v : Value}
    {address : Foldable} (hFold : f.foldable? v = .ok (some address)) :
    f.typeOf address.index = .ok .i32 := by
  obtain ⟨_, c, _, _, _, hc, hStep⟩ := foldable?_some hFold
  obtain ⟨hAdd, hTy, bits, rest, hOperands, _⟩ := operands_of_positiveStep? hStep
  -- An addition that was removed has no operands and would not be folded.
  have hLayout := hf.mem_layout_of_operand hc (index_mem_of_positiveStep? hStep)
  obtain ⟨types, hTypes, hAdmits⟩ := h _ hLayout _ (inst_of_cell hc)
  rw [hOperands] at hTypes
  rw [hAdd, hTy] at hAdmits
  generalize Ty.i32 = result at hAdmits ⊢
  cases hAdmits with
  | binary op width => exact (List.forall₂_cons.mp hTypes).1

end Types

end Func

section Progress

variable {s : Sandbox} {symbol : Symbol} {f : Func} {done : List Site} {p : Pass}

/-- The end of a chain has the type of the operand that it replaces. -/
theorem Placed.typeOf_last {role : Role} {v : Value} {start : InstId} {insts : List Instruction}
    (h : Placed s f p role v start insts) {ty : Ty} (hTy : f.typeOf v = .ok ty) :
    p.func.typeOf (.inst (Func.lastOf start insts)) = .ok ty := by
  obtain ⟨_, hChain, hStanding⟩ := h
  cases hChain with
  | length typed =>
      obtain rfl : ty = .i64 := by simpa [hTy] using typed
      obtain ⟨_, hCell⟩ := hStanding 1 _ rfl
      exact Func.typeOf_of_cell hCell
  | @address _ base ty' fold known typed folded =>
      obtain rfl : ty = ty' := by simpa [hTy] using typed
      rw [Func.lastOf, length_addressChain]
      cases fold with
      | none =>
          obtain ⟨_, hCell⟩ := hStanding 3 _ rfl
          exact Func.typeOf_of_cell hCell
      | some address =>
          obtain ⟨_, hCell⟩ := hStanding 3 _ rfl
          exact Func.typeOf_of_cell hCell

theorem Progress.typeOf_became (h : Progress s symbol f done p) {id : InstId} {position : Nat}
    {v w : Value} {ty : Ty} (hBecame : Became s f done p id position v w)
    (hTy : f.typeOf v = .ok ty) : p.func.typeOf w = .ok ty := by
  cases hBecame with
  | same untouched => exact h.keeps.typeOf hTy
  | kept listed typed other => exact h.keeps.typeOf hTy
  | moved listed placed => exact placed.typeOf_last hTy

/-- An instruction that still stands has operands of the types that they had. -/
theorem Progress.types_of_live (h : Progress s symbol f done p) {id : InstId} {c d : Cell}
    (hc : f.cells[id]? = some c) (hd : p.func.cells[id]? = some d) (hLive : d.live = true)
    {types : List Ty} (hTypes : f.Types c.inst.operands types) :
    p.func.Types d.inst.operands types := by
  have hCarried := h.carried_of_live hc hd hLive
  refine hTypes.transfer hCarried.length fun position v hv => ?_
  obtain ⟨w, hw, hBecame⟩ := hCarried.operands position v hv
  exact ⟨w, hw, fun ty hTy => h.typeOf_became hBecame hTy⟩

/-- Every member of a chain fits. -/
theorem Progress.fits_chain (h : Progress s symbol f done p) (hf : f.Consistent)
    (hTyped : f.WellTyped) {site : Site} {c : Cell} {v : Value} {start : InstId}
    {insts : List Instruction} (hTakes : f.Takes site c v)
    (hPlaced : Placed s f p site.role v start insts) {i : Nat} {inst : Instruction}
    (hi : insts[i]? = some inst) : p.func.Fits inst := by
  have hNarrow : addressWidth < machineWidth := by decide
  obtain ⟨_, hChain, hStanding⟩ := hPlaced
  -- Members refer to each other by number, so their types are read where they stand.
  have hMember : ∀ k inst, insts[k]? = some inst →
      p.func.typeOf (.inst (start + k)) = .ok inst.ty := by
    intro k inst hk
    obtain ⟨_, hCell⟩ := hStanding k inst hk
    exact Func.typeOf_of_cell hCell
  generalize hRole : site.role = role at hChain
  cases hChain with
  | length typed =>
      have hLength := h.keeps.typeOf typed
      rcases i with _ | _ | i <;> cases hi
      · exact ⟨_, .cons hLength .nil, .trunc hNarrow⟩
      · exact ⟨_, .cons (hMember 0 _ rfl) .nil, .zext hNarrow⟩
  | @address _ base ty fold known typed folded =>
      obtain ⟨ty', hTy', hPointer⟩ := hTakes.pointer hRole
      obtain rfl : ty = ty' := by simpa [typed] using hTy'
      obtain ⟨b, _, rfl, _, hBaseCell, _⟩ := h.base base known
      have hBase : p.func.typeOf (.inst b) = .ok .i64 := Func.typeOf_of_cell hBaseCell
      cases ty with
      | ptr target =>
          cases fold with
          | none =>
              rcases i with _ | _ | _ | _ | i <;> cases hi
              · exact ⟨_, .cons (h.keeps.typeOf typed) .nil, .ptrToInt target _⟩
              · exact ⟨_, .cons (hMember 0 _ rfl) .nil, .zext hNarrow⟩
              · exact ⟨_, .cons hBase (.cons (hMember 1 _ rfl) .nil), .binary _ _⟩
              · exact ⟨_, .cons (hMember 2 _ rfl) .nil, .intToPtr _ target⟩
          | some address =>
              have hIndex := hTyped.typeOf_index hf (Sandbox.foldable?_eq_some_iff.mp folded).2
              rcases i with _ | _ | _ | _ | i <;> cases hi
              · exact ⟨_, .cons (h.keeps.typeOf hIndex) .nil, .zext hNarrow⟩
              · exact ⟨_, .cons hBase (.cons (hMember 0 _ rfl) .nil), .binary _ _⟩
              · exact ⟨_, .cons (hMember 1 _ rfl) (.cons rfl .nil), .binary _ _⟩
              · exact ⟨_, .cons (hMember 2 _ rfl) .nil, .intToPtr _ target⟩
      | _ => cases hPointer

theorem Progress.wellTyped (h : Progress s symbol f done p) (hf : f.Consistent)
    (hTyped : f.WellTyped) (hSymbol : symbol.ty = .ptr .i64) : p.func.WellTyped := by
  intro id hLayout inst hInst
  obtain ⟨d, hd, hLive, rfl⟩ := h.consistent.cell_of_mem_layout hLayout hInst
  rcases Nat.lt_or_ge id f.cells.length with hOld | hFresh
  · obtain ⟨c, hc⟩ := Func.exists_cell hOld
    obtain ⟨d', hd', hOpcode, hTy, _, _, hStood⟩ := h.keeps.cells id c hc
    obtain rfl := Option.some.inj (hd.symm.trans hd')
    obtain ⟨types, hTypes, hAdmits⟩ :=
      hTyped id (hf.mem_layout_iff.mpr ⟨c, hc, hStood hLive⟩) c.inst (Func.inst_of_cell hc)
    refine ⟨types, h.types_of_live hc hd hLive hTypes, ?_⟩
    rw [hOpcode, hTy]
    exact hAdmits
  · rcases (h.fresh_cell hFresh hd).2 with
      ⟨_, hLoad⟩ | ⟨site, _, c, v, start, insts, i, hTakes, hPlaced, _, hi⟩
    · rw [hLoad]
      exact ⟨[.ptr .i64], .cons (congrArg Except.ok hSymbol) .nil, .load .i64⟩
    · exact h.fits_chain hf hTyped hTakes hPlaced hi

end Progress

/-- Whatever function it is and whether the run succeeds or not, each instruction of the function
that still stands after it has operands of the types that it had. If the function is well typed and
the variable holds a machine word, so is what the run leaves. -/
theorem typing_kept {s : Sandbox} {symbol : Symbol} {f : Func} {outcome : Outcome}
    (hBuilt : f.Built) (hBody : f.isDeclaration = false) (hSource : s.source = .ofSymbol symbol)
    (hRun : s.run f = .ok outcome) :
    (∀ id ∈ outcome.func.layout, ∀ before after, f.inst id = .ok before →
      outcome.func.inst id = .ok after → ∃ types, f.Types before.operands types ∧
      outcome.func.Types after.operands types) ∧
    (f.WellTyped → symbol.ty = .ptr .i64 → outcome.func.WellTyped) := by
  have hf := hBuilt.consistent
  obtain ⟨done, p, hFunc, hSettled⟩ := Sandbox.run_settled hSource hf hBody hRun
  rw [hFunc]
  refine ⟨fun id hLayout before after hBefore hAfter => ?_, fun hTyped hSymbol =>
    hSettled.wellTyped hf hTyped hSymbol⟩
  obtain ⟨c, hc, rfl⟩ := Func.cell_of_inst hBefore
  obtain ⟨d, hd, hLive, rfl⟩ := hSettled.consistent.cell_of_mem_layout hLayout hAfter
  obtain ⟨types, hTypes⟩ := Func.exists_types (hf.within c (List.mem_of_getElem? hc))
  exact ⟨types, hTypes, hSettled.types_of_live hc hd hLive hTypes⟩

theorem wellTyped_readThenFill {f : Func}
    (h : Func.ofEdits "f" [.i32, .ptr (.int 8)] .void readThenFill = .ok f) : f.WellTyped := by
  obtain rfl := Except.ok.inj h
  intro id _ inst hInst
  rcases id with _ | _ | _ | _ | id <;> cases hInst
  · exact ⟨_, .cons rfl (.cons rfl .nil), .binary .add 32⟩
  · exact ⟨_, .cons rfl .nil, .intToPtr 32 .i64⟩
  · exact ⟨_, .cons rfl .nil, .load .i64⟩
  · exact ⟨_, .cons rfl (.cons rfl (.cons rfl (.cons rfl .nil))),
      .call [.ptr (.int 8), .int 8, .i64] .void⟩

theorem typing_kept_readThenFill :
    ∃ f g stats, Func.ofEdits "f" [.i32, .ptr (.int 8)] .void readThenFill = .ok f ∧ f.WellTyped ∧
      defaultSandbox.run f = .ok ⟨g, .ok stats⟩ ∧ stats.folded = 1 ∧ stats.addresses = 2 ∧
      stats.lengths = 1 ∧ g.WellTyped ∧ ∃ before after types, f.inst 3 = .ok before ∧
      g.inst 3 = .ok after ∧
        before.operands ≠ after.operands ∧ f.Types before.operands types ∧
        g.Types after.operands types := by
  obtain ⟨f, g, stats, before, after, hf, hBody, hRun, hFolded, hAddresses, hLengths, hBefore,
    hAfter, hLayout, hNe⟩ :
      ∃ f g stats before after, Func.ofEdits "f" [.i32, .ptr (.int 8)] .void readThenFill = .ok f ∧
        f.isDeclaration = false ∧ defaultSandbox.run f = .ok ⟨g, .ok stats⟩ ∧ stats.folded = 1 ∧
        stats.addresses = 2 ∧ stats.lengths = 1 ∧ f.inst 3 = .ok before ∧
        g.inst 3 = .ok after ∧ 3 ∈ g.layout ∧ before.operands ≠ after.operands :=
    ⟨_, _, _, _, _, rfl, rfl, rfl, rfl, rfl, rfl, rfl, rfl, by decide, by decide⟩
  have hTyped := wellTyped_readThenFill hf
  obtain ⟨hSlots, hKept⟩ := typing_kept (Func.built_ofEdits hf) hBody (s := defaultSandbox) rfl hRun
  obtain ⟨types, hOld, hNew⟩ := hSlots 3 hLayout before after hBefore hAfter
  exact ⟨f, g, stats, hf, hTyped, hRun, hFolded, hAddresses, hLengths, hKept hTyped rfl, before,
    after, types, hBefore, hAfter, hNe, hOld, hNew⟩

end FaultIsolation
