import FaultIsolation.Proofs.Valuation

/-!
What confinement makes of each operand, as a function of the original code alone. The work happens
on a function that changes all the time, but every address and every length comes out as if it had
been rewritten first: the new instructions compute a fixed formula over values of the original
function and the region base.
-/
namespace FaultIsolation

/-- What code can compute from values with the instructions that confinement puts in: conversions,
and sums of machine words. -/
inductive Formula where
  | value (v : Value)
  | cast (op : CastOp) (arg : Formula) (ty : Ty)
  | add (left right : Formula)
  deriving Repr, DecidableEq, Inhabited

namespace Formula

def rebased (base pointer : Value) (ty : Ty) : Formula :=
  .cast .intToPtr (.add (.value base) (.cast .zext (.cast .ptrToInt (.value pointer) .i32) .i64)) ty

def folded (base index : Value) (constant : UInt64) (ty : Ty) : Formula :=
  .cast .intToPtr
    (.add (.add (.value base) (.cast .zext (.value index) .i64))
      (.value (.ofWord machineWidth constant))) ty

def confined (base pointer : Value) (ty : Ty) : Option Foldable → Formula
  | none => rebased base pointer ty
  | some address => folded base address.index address.constant ty

def clipped (length : Value) : Formula := .cast .zext (.cast .trunc (.value length) .i32) .i64

end Formula

namespace Func

/-- The value is computed by the formula in the second function, by instructions that stand in
blocks and that the first function does not have. -/
inductive Computes (f g : Func) : Value → Formula → Prop where
  | value (v : Value) : Computes f g v (.value v)
  | cast {id : InstId} {op : CastOp} {v : Value} {arg : Formula} {ty : Ty}
      (fresh : f.nodes.length ≤ id) (live : g.isLive id = .ok true)
      (inst : g.inst id = .ok { opcode := .cast op, operands := [v], ty })
      (operand : Computes f g v arg) : Computes f g (.inst id) (.cast op arg ty)
  | add {id : InstId} {v w : Value} {left right : Formula} (fresh : f.nodes.length ≤ id)
      (live : g.isLive id = .ok true)
      (inst : g.inst id = .ok { opcode := .binary .add, operands := [v, w], ty := .i64 })
      (first : Computes f g v left) (second : Computes f g w right) :
      Computes f g (.inst id) (.add left right)

section Chains

variable {f g : Func} {start : InstId} {insts : List Instruction} (hFresh : f.cells.length ≤ start)
  (hStanding : g.Standing start insts)

include hFresh hStanding

/-- A conversion at some place of a chain computes what it converts. -/
theorem Computes.cast_of_standing (i : Nat) {op : CastOp} {v : Value} {arg : Formula} {ty : Ty}
    (hi : insts[i]? = some { opcode := .cast op, operands := [v], ty })
    (hArg : f.Computes g v arg) : f.Computes g (.inst (start + i)) (.cast op arg ty) := by
  obtain ⟨block, hCell⟩ := hStanding i _ hi
  have hNew : f.nodes.length ≤ start + i :=
    f.length_cells ▸ Nat.le_trans hFresh (Nat.le_add_right _ _)
  exact .cast hNew (isLive_of_cell hCell) (inst_of_cell hCell) hArg

/-- A sum at some place of a chain computes the sum of what it adds. -/
theorem Computes.add_of_standing (i : Nat) {v w : Value} {left right : Formula}
    (hi : insts[i]? = some { opcode := .binary .add, operands := [v, w], ty := .i64 })
    (hLeft : f.Computes g v left) (hRight : f.Computes g w right) :
    f.Computes g (.inst (start + i)) (.add left right) := by
  obtain ⟨block, hCell⟩ := hStanding i _ hi
  have hNew : f.nodes.length ≤ start + i :=
    f.length_cells ▸ Nat.le_trans hFresh (Nat.le_add_right _ _)
  exact .add hNew (isLive_of_cell hCell) (inst_of_cell hCell) hLeft hRight

end Chains

section Chains

variable {f g : Func} {start : InstId} (hFresh : f.cells.length ≤ start)

include hFresh

theorem computes_addressChain {base pointer : Value} {ty : Ty} {fold : Option Foldable}
    (hStanding : g.Standing start (addressChain start base pointer ty fold)) :
    f.Computes g (.inst (start + 3)) (.confined base pointer ty fold) := by
  cases fold with
  | none =>
      have hLow : f.Computes g (.inst start) (.cast .ptrToInt (.value pointer) .i32) :=
        .cast_of_standing hFresh hStanding 0 rfl (.value pointer)
      have hWide := Computes.cast_of_standing hFresh hStanding 1 rfl hLow
      have hSum := Computes.add_of_standing hFresh hStanding 2 rfl (.value base) hWide
      exact .cast_of_standing hFresh hStanding 3 rfl hSum
  | some address =>
      have hWide : f.Computes g (.inst start) (.cast .zext (.value address.index) .i64) :=
        .cast_of_standing hFresh hStanding 0 rfl (.value address.index)
      have hSum := Computes.add_of_standing hFresh hStanding 1 rfl (.value base) hWide
      have hBeyond := Computes.add_of_standing hFresh hStanding 2 rfl hSum (.value _)
      exact .cast_of_standing hFresh hStanding 3 rfl hBeyond

theorem computes_clippedChain {length : Value}
    (hStanding : g.Standing start (clippedChain start length)) :
    f.Computes g (.inst (start + 1)) (.clipped length) := by
  have hLow : f.Computes g (.inst start) (.cast .trunc (.value length) .i32) :=
    .cast_of_standing hFresh hStanding 0 rfl (.value length)
  exact .cast_of_standing hFresh hStanding 1 rfl hLow

end Chains

end Func

namespace Finished

variable {s : Sandbox} {symbol : Symbol} {f : Func} {p : Pass}

/-- There is one region base, whichever address asks for it. -/
theorem base_unique (h : Finished s symbol f p) :
    ∃ b, ∀ base, p.base = some base → base = .inst b ∧ f.BroughtIn p.func symbol b := by
  cases hBase : p.base with
  | none => exact ⟨0, by simp⟩
  | some base =>
      obtain ⟨b, rfl, hBroughtIn⟩ := h.broughtIn hBase
      refine ⟨b, fun other hOther => ?_⟩
      obtain rfl := Option.some.inj hOther
      exact ⟨rfl, hBroughtIn⟩

/-- An access of the original function takes the addresses it should. -/
theorem exists_addressAt (h : Finished s symbol f p) (hf : f.Consistent) {id : InstId}
    {inst : Instruction} {position : Nat} (hId : id ∈ f.layout) (hInst : f.inst id = .ok inst)
    (hPosition : position ∈ (Access.ofInstruction inst).addresses) :
    ∃ v, f.AddressAt id position v := by
  obtain ⟨c, hc, hLive, rfl⟩ := hf.cell_of_mem_layout hId hInst
  obtain ⟨d, hd, hStands, _⟩ := h.access_stands hc hLive
    (List.ne_nil_of_mem (Access.mem_places_address.mpr hPosition))
  exact h.addressAt_of_live hf hc hd hStands hPosition

/-- An access of the original function takes the length it should. -/
theorem exists_lengthAt (h : Finished s symbol f p) (hf : f.Consistent) {id : InstId}
    {inst : Instruction} {position : Nat} (hId : id ∈ f.layout) (hInst : f.inst id = .ok inst)
    (hPosition : (Access.ofInstruction inst).length? = some position) :
    ∃ v, f.LengthAt id position v := by
  obtain ⟨c, hc, hLive, rfl⟩ := hf.cell_of_mem_layout hId hInst
  obtain ⟨d, hd, hStands, _⟩ := h.access_stands hc hLive
    (List.ne_nil_of_mem (Access.mem_places_length.mpr hPosition))
  exact h.lengthAt_of_live hf hc hd hStands hPosition

end Finished

/-- Every address of a confined function is computed from the original address, and every length
from the original length, by the formula that the original function determines. All addresses are
computed from the same region base. A length that is no machine word stays what it was. -/
theorem operands_rewritten {s : Sandbox} {symbol : Symbol} {f g : Func} {stats : Stats}
    (hBuilt : f.Built) (hBody : f.isDeclaration = false) (hSource : s.source = .ofSymbol symbol)
    (hRun : s.run f = .ok ⟨g, .ok stats⟩) :
    (∃ b, ∀ id inst position, id ∈ f.layout → f.inst id = .ok inst →
      position ∈ (Access.ofInstruction inst).addresses → ∃ pointer ty fold after w,
      inst.operands[position]? = some pointer ∧ f.typeOf pointer = .ok ty ∧
        s.foldable? f pointer = .ok fold ∧ f.BroughtIn g symbol b ∧ id ∈ g.layout ∧
        g.inst id = .ok after ∧ after.operands[position]? = some w ∧
        f.Computes g w (.confined (.inst b) pointer ty fold)) ∧
    (∀ id inst position, id ∈ f.layout → f.inst id = .ok inst →
      (Access.ofInstruction inst).length? = some position → ∃ length ty after w,
      inst.operands[position]? = some length ∧ f.typeOf length = .ok ty ∧ id ∈ g.layout ∧
        g.inst id = .ok after ∧ after.operands[position]? = some w ∧
        (ty = .i64 → f.Computes g w (.clipped length)) ∧ (ty ≠ .i64 → w = length)) := by
  have hf := hBuilt.consistent
  obtain ⟨p, rfl, rfl, h⟩ := Sandbox.run_ok hSource hf hBody hRun
  constructor
  · obtain ⟨b, hUnique⟩ := h.base_unique
    refine ⟨b, fun id inst position hId hInst hPosition => ?_⟩
    obtain ⟨pointer, hAt⟩ := h.exists_addressAt hf hId hInst hPosition
    obtain ⟨d, start, base, ty, fold, hd, hLive, hOperand, hFresh, hBase, hTy, hFold, hStanding⟩ :=
      h.address hf hAt
    obtain ⟨rfl, hBroughtIn⟩ := hUnique base hBase
    obtain ⟨_, inst', hInst', _, hPointer⟩ := hAt
    obtain rfl := Except.ok.inj (hInst.symm.trans hInst')
    exact ⟨pointer, ty, fold, d.inst, _, hPointer, hTy, hFold, hBroughtIn,
      h.consistent.mem_layout_iff.mpr ⟨d, hd, hLive⟩, Func.inst_of_cell hd, hOperand,
      Func.computes_addressChain hFresh hStanding⟩
  · intro id inst position hId hInst hPosition
    obtain ⟨length, hAt⟩ := h.exists_lengthAt hf hId hInst hPosition
    obtain ⟨d, hd, hLive, hLength⟩ := h.length hf hAt
    obtain ⟨_, inst', hInst', _, hOperand⟩ := hAt
    obtain rfl := Except.ok.inj (hInst.symm.trans hInst')
    have hStands := h.consistent.mem_layout_iff.mpr ⟨d, hd, hLive⟩
    rcases hLength with ⟨start, hNow, hFresh, hTy, hStanding⟩ | ⟨ty, hTy, hOther, hNow⟩
    · exact ⟨length, _, d.inst, _, hOperand, hTy, hStands, Func.inst_of_cell hd, hNow,
        fun _ => Func.computes_clippedChain hFresh hStanding, fun hNe => absurd rfl hNe⟩
    · exact ⟨length, ty, d.inst, length, hOperand, hTy, hStands, Func.inst_of_cell hd, hNow,
        fun hWord => absurd hWord hOther, fun _ => rfl⟩

/-- The read is folded, the block is rebased and its length is clipped. -/
theorem operands_rewritten_readThenFill :
    ∃ f g stats b readAt fillAt read fill,
      Func.ofEdits "f" [.i32, .ptr (.int 8)] .void readThenFill = .ok f ∧
      defaultSandbox.run f = .ok ⟨g, .ok stats⟩ ∧ g.inst 2 = .ok read ∧ g.inst 3 = .ok fill ∧
      read.operands[0]? = some readAt ∧
      f.Computes g readAt (.folded (.inst b) (.arg 0) 8 (.ptr .i64)) ∧
      fill.operands[0]? = some fillAt ∧
      f.Computes g fillAt (.rebased (.inst b) (.arg 1) (.ptr (.int 8))) ∧
      ∃ w, fill.operands[2]? = some w ∧ f.Computes g w (.clipped (.inst 2)) := by
  obtain ⟨f, g, stats, hf, hBody, hRun, hRead, hFill, hReadInst, hFillInst, hFold, hPlain, hTypes⟩ :
    ∃ f g stats,
      Func.ofEdits "f" [.i32, .ptr (.int 8)] .void readThenFill = .ok f ∧ f.isDeclaration = false ∧
      defaultSandbox.run f = .ok ⟨g, .ok stats⟩ ∧ 2 ∈ f.layout ∧ 3 ∈ f.layout ∧
      f.inst 2 = .ok { opcode := .load, operands := [.inst 1], ty := .i64 } ∧
      f.inst 3 = .ok {
        opcode := .call
        operands := [.arg 1, .ofWord 8 0, .inst 2,
          .global (.function "llvm.memset.p0i8.i64" .void [.ptr (.int 8), .int 8, .i64])]
        ty := .void } ∧
      defaultSandbox.foldable? f (.inst 1) = .ok (some ⟨.arg 0, 8, 1, 0⟩) ∧
      defaultSandbox.foldable? f (.arg 1) = .ok none ∧
      (f.typeOf (.inst 1) = .ok (.ptr .i64) ∧ f.typeOf (.arg 1) = .ok (.ptr (.int 8)) ∧
        f.typeOf (.inst 2) = .ok .i64) :=
    ⟨_, _, _, rfl, rfl, rfl, by decide, by decide, rfl, rfl, rfl, rfl, rfl, rfl, rfl⟩
  obtain ⟨⟨b, hAddress⟩, hLength⟩ :=
    operands_rewritten (Func.built_ofEdits hf) hBody (s := defaultSandbox) rfl hRun
  obtain ⟨_, _, _, read, readAt, hv, hTy, hFolded, _, _, hReadNow, hReadAt, hReadComputes⟩ :=
    hAddress 2 _ 0 hRead hReadInst (by decide)
  obtain ⟨_, _, _, fill, fillAt, hv', hTy', hFolded', _, _, hFillNow, hFillAt, hFillComputes⟩ :=
    hAddress 3 _ 0 hFill hFillInst (by decide)
  obtain ⟨_, _, fill', w, hv'', hTy'', _, hFillNow', hw, hClipped, _⟩ :=
    hLength 3 _ 2 hFill hFillInst (by decide)
  obtain rfl := Option.some.inj hv
  obtain rfl := Option.some.inj hv'
  obtain rfl := Option.some.inj hv''
  obtain rfl := Except.ok.inj (hTypes.1.symm.trans hTy)
  obtain rfl := Except.ok.inj (hTypes.2.1.symm.trans hTy')
  obtain rfl := Except.ok.inj (hTypes.2.2.symm.trans hTy'')
  obtain rfl := Except.ok.inj (hFold.symm.trans hFolded)
  obtain rfl := Except.ok.inj (hPlain.symm.trans hFolded')
  obtain rfl := Except.ok.inj (hFillNow.symm.trans hFillNow')
  exact ⟨f, g, stats, b, readAt, fillAt, read, fill, hf, hRun, hReadNow, hFillNow, hReadAt,
    hReadComputes, hFillAt, hFillComputes, w, hw, hClipped rfl⟩

end FaultIsolation
