import FaultIsolation.Proofs.Run
import FaultIsolation.Proofs.Words

/-!
Confinement and audit agree. What confinement leaves is in confined form exactly if the offsets of
all folded addresses are 32 bits wide, their constants are not negative as machine words, and every
length either has a width that is dealt with or comes from 32 bits already.
-/
namespace FaultIsolation

/-- Every folded address adds to a 32-bit offset a constant below half the machine word. -/
def Sandbox.FoldsOffsets (s : Sandbox) (f : Func) : Prop :=
  ∀ id position v address, f.AddressAt id position v → s.foldable? f v = .ok (some address) →
    f.typeOf address.index = .ok .i32 ∧ address.constant.toNat < 2 ^ 63

/-- Every length is an integer of at most 32 bits, a machine word, or an integer widened from 32
bits. -/
def Func.LengthsClippable (f : Func) : Prop :=
  ∀ id position v, f.LengthAt id position v →
    ∃ bits, f.typeOf v = .ok (.int bits) ∧
    (bits ≤ addressWidth ∨ bits = machineWidth ∨ f.IsWidened v)

namespace Func

section Chains

variable {g : Func} {start b : InstId} {block : BlockId} {symbol : Symbol}
  {pointer : Value} {ty : Ty} (hBase : g.cells[b]? = some ⟨baseLoad symbol, block, true⟩)

include hBase

/-- The load that confinement puts in is a region base to the audit. -/
theorem isBase_of_baseLoad : g.IsBase symbol.name (.inst b) :=
  ⟨b, _, rfl, hBase, rfl, by simp [baseLoad, Instruction.isBaseLoad]⟩

/-- A rebased address is confined. -/
theorem isConfined_rebased (h : g.Standing start (rebasedChain start (.inst b) pointer ty)) :
    g.IsConfined symbol.name (.inst (start + 3)) := by
  obtain ⟨_, h₀⟩ := h 0 _ rfl
  obtain ⟨_, h₁⟩ := h 1 _ rfl
  obtain ⟨_, h₂⟩ := h 2 _ rfl
  obtain ⟨_, h₃⟩ := h 3 _ rfl
  have hWidened : g.IsWidened (.inst (start + 1)) := ⟨_, _, _, rfl, h₁, rfl, rfl, typeOf_of_cell h₀⟩
  have hRebased : g.IsRebased symbol.name (.inst (start + 2)) :=
    ⟨_, _, _, _, rfl, h₂, rfl, isBase_of_baseLoad hBase, hWidened⟩
  exact ⟨_, _, _, rfl, h₃, rfl, rfl, .inl hRebased⟩

/-- A folded address is confined exactly if its offset is 32 bits wide and its constant is not
negative. -/
theorem isConfined_folded_iff {address : Foldable}
    (h : g.Standing start (foldedChain start (.inst b) address ty)) :
    g.IsConfined symbol.name (.inst (start + 3)) ↔
      g.typeOf address.index = .ok .i32 ∧ address.constant.toNat < 2 ^ 63 := by
  obtain ⟨_, h₀⟩ := h 0 _ rfl
  obtain ⟨_, h₁⟩ := h 1 _ rfl
  obtain ⟨_, h₂⟩ := h 2 _ rfl
  obtain ⟨_, h₃⟩ := h 3 _ rfl
  have hConstant : 0 ≤ Constant.signedWord machineWidth (mask machineWidth address.constant) ↔
      address.constant.toNat < 2 ^ 63 := by
    rw [Constant.signedWord_nonneg_iff (by decide), mask_toNat]
    simp [machineWidth, Nat.mod_eq_of_lt address.constant.toNat_lt]
  have hWidened : g.IsWidened (.inst start) ↔ g.typeOf address.index = .ok .i32 := by
    simp only [Nat.add_zero] at h₀
    simp [IsWidened, h₀]
  have hInner : g.IsRebased symbol.name (.inst (start + 1)) ↔ g.IsWidened (.inst start) := by
    simp [IsRebased, h₁, Instruction.sum?, isBase_of_baseLoad hBase]
  have hNotInner : ¬g.IsRebased symbol.name (.inst (start + 2)) := by
    simp [IsRebased, h₂, Instruction.sum?, IsBase, h₁, Instruction.isBaseLoad]
  have hBeyond : g.IsRebasedBeyond symbol.name (.inst (start + 2)) ↔
      0 ≤ Constant.signedWord machineWidth (mask machineWidth address.constant) ∧
        g.IsRebased symbol.name (.inst (start + 1)) := by
    simp [IsRebasedBeyond, h₂, Instruction.sum?, Value.ofWord, Constant.ofWord]
  have hConfined : g.IsConfined symbol.name (.inst (start + 3)) ↔
      g.IsRebased symbol.name (.inst (start + 2)) ∨
      g.IsRebasedBeyond symbol.name (.inst (start + 2)) := by
    simp [IsConfined, h₃]
  rw [hConfined, or_iff_right hNotInner, hBeyond, hInner, hWidened, hConstant, and_comm]

end Chains

/-- A clipped length fits. -/
theorem isClipped_clipped {g : Func} {start : InstId} {length : Value}
    (h : g.Standing start (clippedChain start length)) : g.IsClipped (.inst (start + 1)) := by
  obtain ⟨_, h₀⟩ := h 0 _ rfl
  obtain ⟨_, h₁⟩ := h 1 _ rfl
  exact ⟨machineWidth, typeOf_of_cell h₁, .inr ⟨_, _, _, rfl, h₁, rfl, rfl, typeOf_of_cell h₀⟩⟩

/-- An integer is no pointer. -/
theorem not_isPointer_of_int {g : Func} {v : Value} {bits : Nat}
    (h : g.typeOf v = .ok (.int bits)) : ¬g.IsPointer v := by
  simp [IsPointer, h, Ty.isPointer]

theorem approved_of_cast {g : Func} {base : String} {inst : Instruction}
    (h : inst.opcode = .cast .intToPtr ∨ inst.opcode = .cast .ptrToInt) : g.Approved base inst := by
  have hAccess : Access.ofInstruction inst = .exempt := by
    rcases h with h | h <;> simp only [Access.ofInstruction, h]
  constructor <;> simp [hAccess, Access.addresses, Access.length?, Access.unconfined]

/-- Arithmetic on integers is approved. -/
theorem approved_of_arithmetic {g : Func} {base : String} {inst : Instruction}
    (h : inst.opcode = .binary .add ∨ inst.opcode = .cast .zext ∨ inst.opcode = .cast .trunc)
    (hOperands : ∀ v ∈ inst.operands, ∃ bits, g.typeOf v = .ok (.int bits)) :
    g.Approved base inst := by
  have hAccess : Access.ofInstruction inst = .other := by
    rcases h with h | h | h <;> simp only [Access.ofInstruction, h]
  refine ⟨by simp [hAccess, Access.addresses], by simp [hAccess, Access.length?], ?_⟩
  simp only [hAccess, Access.unconfined]
  intro v hv
  obtain ⟨bits, hTy⟩ := hOperands v hv
  exact not_isPointer_of_int hTy

section Approval

variable {g : Func} {start : InstId} (name : String)

/-- A chain that clips a length is approved throughout. -/
theorem approved_clippedChain {length : Value} (h : g.Standing start (clippedChain start length))
    (hLength : g.typeOf length = .ok .i64) :
    ∀ inst ∈ clippedChain start length, g.Approved name inst := by
  obtain ⟨_, h₀⟩ := h 0 _ rfl
  have hLow : g.typeOf (.inst start) = .ok .i32 := typeOf_of_cell h₀
  intro inst hInst
  simp only [clippedChain, List.mem_cons, List.not_mem_nil, or_false] at hInst
  rcases hInst with rfl | rfl
  · exact approved_of_arithmetic (by simp) (by simpa using ⟨_, hLength⟩)
  · exact approved_of_arithmetic (by simp) (by simpa using ⟨_, hLow⟩)

/-- So is a chain that confines an address, if a folded offset is 32 bits wide. -/
theorem approved_addressChain {base pointer : Value} {ty : Ty} {fold : Option Foldable}
    (h : g.Standing start (addressChain start base pointer ty fold))
    (hBase : g.typeOf base = .ok .i64)
    (hIndex : ∀ address, fold = some address → g.typeOf address.index = .ok .i32) :
    ∀ inst ∈ addressChain start base pointer ty fold, g.Approved name inst := by
  intro inst hInst
  cases fold with
  | none =>
      obtain ⟨_, h₀⟩ := h 0 _ rfl
      obtain ⟨_, h₁⟩ := h 1 _ rfl
      have hLow : g.typeOf (.inst start) = .ok .i32 := typeOf_of_cell h₀
      have hWide : g.typeOf (.inst (start + 1)) = .ok .i64 := typeOf_of_cell h₁
      simp only [addressChain, rebasedChain, List.mem_cons, List.not_mem_nil, or_false] at hInst
      rcases hInst with rfl | rfl | rfl | rfl
      · exact approved_of_cast (by simp)
      · exact approved_of_arithmetic (by simp) (by simpa using ⟨_, hLow⟩)
      · exact approved_of_arithmetic (by simp) (by simpa using ⟨⟨_, hBase⟩, _, hWide⟩)
      · exact approved_of_cast (by simp)
  | some address =>
      obtain ⟨_, h₀⟩ := h 0 _ rfl
      obtain ⟨_, h₁⟩ := h 1 _ rfl
      have hWide : g.typeOf (.inst start) = .ok .i64 := typeOf_of_cell h₀
      have hSum : g.typeOf (.inst (start + 1)) = .ok .i64 := typeOf_of_cell h₁
      have hConstant : g.typeOf (.ofWord machineWidth address.constant) = .ok .i64 := rfl
      simp only [addressChain, foldedChain, List.mem_cons, List.not_mem_nil, or_false] at hInst
      rcases hInst with rfl | rfl | rfl | rfl
      · exact approved_of_arithmetic (by simp) (by simpa using ⟨_, hIndex address rfl⟩)
      · exact approved_of_arithmetic (by simp) (by simpa using ⟨⟨_, hBase⟩, _, hWide⟩)
      · exact approved_of_arithmetic (by simp) (by simpa using ⟨⟨_, hSum⟩, _, hConstant⟩)
      · exact approved_of_cast (by simp)

end Approval

/-- A base load reads a variable. -/
theorem load_of_isBaseLoad {inst : Instruction} {base : String} (h : inst.isBaseLoad base = true) :
    inst.opcode = .load ∧ ∃ symbol, inst.operands[0]? = some (.global symbol) := by
  unfold Instruction.isBaseLoad at h
  split at h
  · next symbol rest hOpcode hOperands => exact ⟨hOpcode, symbol, by simp [hOperands]⟩
  · cases h

end Func

/-- The instructions of a chain are conversions and additions. -/
theorem Replacement.access {s : Sandbox} {f : Func} {base? : Option Value} {start : InstId}
    {role : Role} {v : Value} {insts : List Instruction}
    (h : Replacement s f base? start role v insts) :
    ∀ inst ∈ insts, Access.ofInstruction inst = .exempt ∨ Access.ofInstruction inst = .other := by
  cases h with
  | @address _ base ty fold known typed folded =>
      cases fold <;> simp [addressChain, rebasedChain, foldedChain, Access.ofInstruction]
  | length typed => simp [clippedChain, Access.ofInstruction]

theorem total_filter {α : Type} (count : α → Nat) (xs : List α) :
    total count (xs.filter fun a => count a ≠ 0) = total count xs := by
  induction xs with
  | nil => rfl
  | cons a rest ih => by_cases hZero : count a = 0 <;> simp_all

theorem total_perm {α : Type} (count : α → Nat) {xs ys : List α} (h : xs.Perm ys) :
    total count xs = total count ys :=
  h.foldr_eq' (fun a _ b _ sum => Nat.add_left_comm (count b) (count a) sum) 0

theorem total_congr {α : Type} {u v : α → Nat} {xs : List α} (h : ∀ a ∈ xs, u a = v a) :
    total u xs = total v xs := by
  induction xs with
  | nil => rfl
  | cons a rest ih =>
      rw [List.forall_mem_cons] at h
      rw [total_cons, total_cons, h.1, ih h.2]

theorem total_append {α : Type} (count : α → Nat) (xs ys : List α) :
    total count (xs ++ ys) = total count xs + total count ys := by
  induction xs with
  | nil => simp
  | cons a rest ih => rw [List.cons_append, total_cons, total_cons, ih, Nat.add_assoc]

/-- Counting over parts is adding up what is counted in each. -/
theorem countP_flatMap {α β : Type} (q : β → Bool) (part : α → List β) (xs : List α) :
    (xs.flatMap part).countP q = total (fun a => (part a).countP q) xs := by
  induction xs with
  | nil => rfl
  | cons a rest ih => rw [List.flatMap_cons, List.countP_append, total_cons, ih]

/-- Two totals over lists without repetition are equal if what counts is the same. -/
theorem total_eq_of_support {α : Type} {xs ys : List α} {u v : α → Nat} (hx : xs.Nodup)
    (hy : ys.Nodup) (hForward : ∀ a ∈ xs, u a ≠ 0 → a ∈ ys ∧ v a = u a)
    (hBackward : ∀ a ∈ ys, v a ≠ 0 → a ∈ xs ∧ v a = u a) : total u xs = total v ys := by
  have hPerm : (xs.filter fun a => u a ≠ 0).Perm (ys.filter fun a => v a ≠ 0) := by
    refine (List.perm_ext_iff_of_nodup (hx.filter _) (hy.filter _)).mpr fun a => ?_
    simp only [List.mem_filter, decide_eq_true_eq]
    constructor
    · rintro ⟨hMem, hNe⟩
      obtain ⟨hOther, hEq⟩ := hForward a hMem hNe
      exact ⟨hOther, hEq ▸ hNe⟩
    · rintro ⟨hMem, hNe⟩
      obtain ⟨hOther, hEq⟩ := hBackward a hMem hNe
      exact ⟨hOther, hEq ▸ hNe⟩
  calc total u xs = total u (xs.filter fun a => u a ≠ 0) := (total_filter u xs).symm
    _ = total v (xs.filter fun a => u a ≠ 0) := by
        refine total_congr fun a hMem => ?_
        obtain ⟨hMem, hNe⟩ := List.mem_filter.mp hMem
        exact (hForward a hMem (by simpa using hNe)).2.symm
    _ = total v (ys.filter fun a => v a ≠ 0) := total_perm v hPerm
    _ = total v ys := total_filter v ys

/-- The addresses among the places of an instruction. -/
theorem Func.countP_sites (f : Func) (id : InstId) :
    (f.sites id).countP (·.role = .address) = f.addressCount id := by
  cases hc : f.cells[id]? with
  | none => simp [sites, addressCount, hc]
  | some c =>
      simp [sites, addressCount, hc, Access.places, List.countP_map, Function.comp_def,
        List.countP_append]

namespace Finished

variable {s : Sandbox} {symbol : Symbol} {f : Func} {p : Pass}

/-- What is left of the original function does not load the region base: its addresses are ends of
chains. -/
theorem not_isBaseLoad_old (h : Finished s symbol f p) (hf : f.Consistent) {id : InstId}
    {c d : Cell} (hc : f.cells[id]? = some c) (hd : p.func.cells[id]? = some d)
    (hLive : d.live = true) (name : String) : d.inst.isBaseLoad name = false := by
  refine Bool.eq_false_iff.mpr fun hLoad => ?_
  obtain ⟨hOpcode, other, hOperand⟩ := Func.load_of_isBaseLoad hLoad
  have hPosition : 0 ∈ (Access.ofInstruction c.inst).addresses := by
    rw [← h.access_eq_of_live hc hd hLive]
    simp [Access.ofInstruction, hOpcode, Access.addresses]
  obtain ⟨v, hAt⟩ := h.addressAt_of_live hf hc hd hLive hPosition
  obtain ⟨e, start, _, _, _, he, _, hMoved, _⟩ := h.address hf hAt
  obtain rfl := Option.some.inj (hd.symm.trans he)
  rw [hOperand] at hMoved
  cases hMoved

/-- The only load of the region base is the one that was brought in. -/
theorem isBaseLoad_iff (h : Finished s symbol f p) (hf : f.Consistent) {id : InstId} {d : Cell}
    (hd : p.func.cells[id]? = some d) (hLive : d.live = true) :
    d.inst.isBaseLoad symbol.name = true ↔ p.base = some (.inst id) := by
  rcases Nat.lt_or_ge id f.cells.length with hLt | hGe
  · obtain ⟨c, hc⟩ := Func.exists_cell hLt
    refine iff_of_false (Bool.eq_false_iff.mp (h.not_isBaseLoad_old hf hc hd hLive _)) fun hBase =>
      ?_
    exact absurd hLt (Nat.not_lt.mpr (h.base_fresh hBase))
  · rcases (h.fresh_cell hGe hd).2 with
      ⟨hBase, hInst⟩ | ⟨site, _, c, v, start, insts, i, _, hPlaced, rfl, hi⟩
    · simp [hBase, hInst, baseLoad, Instruction.isBaseLoad]
    · have hAccess := hPlaced.chain.access _ (List.mem_of_getElem? hi)
      have hOpcode : d.inst.opcode ≠ .load :=
        fun hLoad => by simp [Access.ofInstruction, hLoad] at hAccess
      refine iff_of_false (fun hLoad => hOpcode (Func.load_of_isBaseLoad hLoad).1)
        fun hBase => hOpcode ?_
      obtain ⟨block, hCell⟩ := h.base_cell hBase
      rw [Option.some.inj (hd.symm.trans hCell)]
      rfl

/-- What is new is in confined form if the folded offsets are. -/
theorem approved_fresh (h : Finished s symbol f p) (hf : f.Consistent) (hFolds : s.FoldsOffsets f)
    {id : InstId} {d : Cell} (hFresh : f.cells.length ≤ id) (hd : p.func.cells[id]? = some d)
    (hOther : d.inst.isBaseLoad symbol.name = false) : p.func.Approved symbol.name d.inst := by
  rcases (h.fresh_cell hFresh hd).2 with
    ⟨_, hInst⟩ | ⟨site, _, c, v, start, insts, i, hTakes, hPlaced, rfl, hi⟩
  · simp [hInst, baseLoad, Instruction.isBaseLoad] at hOther
  · obtain ⟨_, hChain, hStanding⟩ := hPlaced
    have hMem := List.mem_of_getElem? hi
    generalize hRole : site.role = role at hChain
    cases hChain with
    | length typed => exact Func.approved_clippedChain _ hStanding (h.keeps.typeOf typed) _ hMem
    | @address _ base ty fold known typed folded =>
        refine Func.approved_addressChain _ hStanding (h.typeOf_base known)
          (fun address hSome => ?_) _ hMem
        exact h.keeps.typeOf (hFolds _ _ _ _ (hTakes.addressAt hf hRole)
          (folded.trans (congrArg _ hSome))).1

/-- An address comes out confined exactly if it is not folded, or folded with an offset and a
constant that fit. -/
theorem isConfined_address_iff (h : Finished s symbol f p) (hf : f.Consistent) {id : InstId}
    {position : Nat} {v : Value} {d : Cell} (hAt : f.AddressAt id position v)
    (hd : p.func.cells[id]? = some d) :
    ∃ w, d.inst.operands[position]? = some w ∧
      (p.func.IsConfined symbol.name w ↔ ∀ address, s.foldable? f v = .ok (some address) →
        f.typeOf address.index = .ok .i32 ∧ address.constant.toNat < 2 ^ 63) := by
  obtain ⟨e, start, base, ty, fold, he, _, hOperand, _, hBase, _, hFold, hStanding⟩ :=
    h.address hf hAt
  obtain rfl : d = e := by simpa [hd] using he
  obtain ⟨b, block, rfl, _, hCell, _⟩ := h.base base hBase
  refine ⟨_, hOperand, ?_⟩
  cases fold with
  | none =>
      refine iff_of_true (Func.isConfined_rebased hCell hStanding) fun address hSome => ?_
      rw [hFold] at hSome
      cases hSome
  | some address =>
      obtain ⟨_, e, _, _, _, he, hStep⟩ :=
        Func.foldable?_some (Sandbox.foldable?_eq_some_iff.mp hFold).2
      have hIndex := hf.within e (List.mem_of_getElem? he) _ (Func.index_mem_of_positiveStep? hStep)
      rw [Func.isConfined_folded_iff hCell hStanding, h.keeps.typeOf_iff hIndex]
      simp [hFold]

/-- A widening that is still an operand is what it was. -/
theorem cell_of_zext (h : Finished s symbol f p) {id j : InstId} {c d : Cell}
    (hc : f.cells[j]? = some c) (hZext : c.inst.opcode = .cast .zext)
    (hd : p.func.cells[id]? = some d) (hj : .inst j ∈ d.inst.operands) :
    p.func.cells[j]? = some c := by
  have hPlaces : (Access.ofInstruction c.inst).places = [] := by
    simp only [Access.ofInstruction, hZext]
    rfl
  exact h.intact.cell_of_referenced hc hPlaces
    (references_pos_iff.mpr ⟨d, List.mem_of_getElem? hd, hj⟩)

/-- What is still an operand is widened from 32 bits exactly if it was at first. -/
theorem isWidened_iff (h : Finished s symbol f p) (hf : f.Consistent) {id : InstId} {d : Cell}
    {v : Value} (hd : p.func.cells[id]? = some d) (hv : v ∈ d.inst.operands)
    (hIn : v.Within f.cells.length) : p.func.IsWidened v ↔ f.IsWidened v := by
  cases v with
  | inst j =>
      obtain ⟨c, hc⟩ := Func.exists_cell hIn
      obtain ⟨e, he, hOpcode, _⟩ := h.keeps.cells j c hc
      by_cases hZext : c.inst.opcode = .cast .zext
      · have hSame := h.cell_of_zext hc hZext hd hv
        have hType : ∀ w, c.inst.operands[0]? = some w →
            (p.func.typeOf w = .ok .i32 ↔ f.typeOf w = .ok .i32) :=
          fun w hw => h.keeps.typeOf_iff (Func.operand_within hf hc hw)
        constructor
        · rintro ⟨_, _, w, hEq, hCell, hCast, hw, hTy⟩
          obtain rfl := Value.inst.inj hEq
          obtain rfl := Option.some.inj (hSame.symm.trans hCell)
          exact ⟨j, c, w, rfl, hc, hCast, hw, (hType w hw).mp hTy⟩
        · rintro ⟨_, _, w, hEq, hCell, hCast, hw, hTy⟩
          obtain rfl := Value.inst.inj hEq
          obtain rfl := Option.some.inj (hc.symm.trans hCell)
          exact ⟨j, c, w, rfl, hSame, hCast, hw, (hType w hw).mpr hTy⟩
      · simp [Func.IsWidened, hc, he, hOpcode, hZext]
  | arg index => simp [Func.IsWidened]
  | const constant => simp [Func.IsWidened]
  | global symbol => simp [Func.IsWidened]

/-- A length comes out clipped exactly if it is narrow, a machine word, or widened from 32 bits. -/
theorem isClipped_length_iff (h : Finished s symbol f p) (hf : f.Consistent) {id : InstId}
    {position : Nat} {v : Value} {d : Cell} (hAt : f.LengthAt id position v)
    (hd : p.func.cells[id]? = some d) :
    ∃ w, d.inst.operands[position]? = some w ∧ (p.func.IsClipped w ↔
      ∃ bits, f.typeOf v = .ok (.int bits) ∧ (bits ≤ addressWidth ∨ bits = machineWidth ∨
        f.IsWidened v)) := by
  obtain ⟨e, he, _, ⟨start, hOperand, _, hTy, hStanding⟩ | ⟨ty, hTy, hOther, hOperand⟩⟩ :=
    h.length hf hAt
  · obtain rfl : d = e := by simpa [hd] using he
    exact ⟨_, hOperand, iff_of_true (Func.isClipped_clipped hStanding) ⟨machineWidth, hTy,
      .inr (.inl rfl)⟩⟩
  · obtain rfl : d = e := by simpa [hd] using he
    have hWidened := h.isWidened_iff hf hd (List.mem_of_getElem? hOperand)
      (Func.within_of_typeOf hTy)
    refine ⟨v, hOperand, ?_⟩
    simp only [Func.IsClipped, hTy, h.keeps.typeOf hTy, hWidened]
    constructor
    · rintro ⟨bits, hEq, hFits⟩
      exact ⟨bits, hEq, hFits.imp_right .inr⟩
    · rintro ⟨bits, hEq, hFits⟩
      refine ⟨bits, hEq, hFits.imp_right fun hRest => hRest.resolve_left ?_⟩
      rintro rfl
      exact hOther (Except.ok.inj hEq)

/-- What is left of the original function takes no pointer that nothing confines. -/
theorem unconfined_old (h : Finished s symbol f p) (hf : f.Consistent) {id : InstId} {c d : Cell}
    (hc : f.cells[id]? = some c) (hd : p.func.cells[id]? = some d) (hLive : d.live = true) :
    ∀ v ∈ (Access.ofInstruction d.inst).unconfined d.inst, ¬p.func.IsPointer v := by
  rw [h.access_eq_of_live hc hd hLive]
  by_cases hPlaces : (Access.ofInstruction c.inst).places = []
  · rcases h.cell_of_no_place hc hPlaces with hSame | ⟨e, he, hDropped⟩
    · obtain rfl := Option.some.inj (hd.symm.trans hSame)
      intro v hv hPointer
      refine (h.vetted_of_live hf hc hd hLive).unconfined v hv
        ((h.keeps.isPointer_iff ?_).mp hPointer)
      exact hf.within d (List.mem_of_getElem? hc) v (Func.mem_operands_of_unconfined hv)
    · obtain rfl := Option.some.inj (hd.symm.trans he)
      rw [hDropped.emptied] at hLive
      cases hLive
  · have hNone : (Access.ofInstruction c.inst).unconfined d.inst = [] := by
      revert hPlaces
      cases Access.ofInstruction c.inst <;> simp [Access.places, Access.addresses, Access.length?,
        Access.unconfined]
    simp [hNone]

/-- What is left of the original function is in confined form if the folded offsets and the lengths
are. -/
theorem approved_old (h : Finished s symbol f p) (hf : f.Consistent) (hFolds : s.FoldsOffsets f)
    (hLengths : f.LengthsClippable) {id : InstId} {c d : Cell} (hc : f.cells[id]? = some c)
    (hd : p.func.cells[id]? = some d) (hLive : d.live = true) :
    p.func.Approved symbol.name d.inst := by
  have hAccess := h.access_eq_of_live hc hd hLive
  refine ⟨fun position hPosition => ?_, fun position hPosition => ?_,
    h.unconfined_old hf hc hd hLive⟩
  · rw [hAccess] at hPosition
    obtain ⟨v, hAt⟩ := h.addressAt_of_live hf hc hd hLive hPosition
    obtain ⟨w, hw, hIff⟩ := h.isConfined_address_iff hf hAt hd
    exact ⟨w, hw, hIff.mpr fun address => hFolds id position v address hAt⟩
  · rw [hAccess, Option.mem_toList] at hPosition
    obtain ⟨v, hAt⟩ := h.lengthAt_of_live hf hc hd hLive hPosition
    obtain ⟨w, hw, hIff⟩ := h.isClipped_length_iff hf hAt hd
    exact ⟨w, hw, hIff.mpr (hLengths id position v hAt)⟩

/-- The audit takes for a base load exactly the one that confinement put in. -/
theorem mem_baseLoads_iff (h : Finished s symbol f p) (hf : f.Consistent) {id : InstId} :
    id ∈ p.func.baseLoads symbol.name ↔ p.base = some (.inst id) := by
  rw [Func.baseLoads, List.mem_filter, h.consistent.mem_layout_iff]
  constructor
  · rintro ⟨⟨d, hd, hLive⟩, hLoads⟩
    exact (h.isBaseLoad_iff hf hd hLive).mp (by simpa [Func.loadsBase, hd] using hLoads)
  · intro hBase
    obtain ⟨block, hCell⟩ := h.base_cell hBase
    exact ⟨⟨_, hCell, rfl⟩,
      by simpa [Func.loadsBase, hCell] using (h.isBaseLoad_iff hf hCell rfl).mpr hBase⟩

/-- So there is one base load if the region base was asked for, and none if not. -/
theorem length_baseLoads (h : Finished s symbol f p) (hf : f.Consistent) :
    (p.func.baseLoads symbol.name).length = p.base.toList.length := by
  cases hBase : p.base with
  | none =>
      have hNone : p.func.baseLoads symbol.name = [] :=
        List.eq_nil_iff_forall_not_mem.mpr fun id hId => by
        rw [h.mem_baseLoads_iff hf, hBase] at hId
        cases hId
      rw [hNone]
      rfl
  | some base =>
      obtain ⟨b, _, rfl, _⟩ := h.base base hBase
      have hNodup : (p.func.baseLoads symbol.name).Nodup := h.consistent.nodup_layout.filter _
      have hOne : (p.func.baseLoads symbol.name).Perm [b] := by
        refine (List.perm_ext_iff_of_nodup hNodup (List.nodup_singleton b)).mpr fun id => ?_
        simp [h.mem_baseLoads_iff hf, hBase, eq_comm]
      rw [hOne.length_eq]
      rfl

/-- The region base that was brought in is used. -/
theorem base_used (h : Finished s symbol f p) (hf : f.Consistent) {id : InstId}
    (hId : id ∈ p.func.baseLoads symbol.name) : 0 < references p.func.cells id := by
  have hBase := (h.mem_baseLoads_iff hf).mp hId
  obtain ⟨site, hSite, hRole⟩ := h.needed (by simp [hBase])
  obtain ⟨c, v, hTakes⟩ := h.sound site hSite
  obtain ⟨_, start, base, _, fold, _, _, _, _, hSame, _, _, hStanding⟩ :=
    h.address hf (hTakes.addressAt hf hRole)
  obtain rfl : base = .inst id := by simpa [hBase] using hSame.symm
  cases fold with
  | none =>
      obtain ⟨_, hCell⟩ := hStanding 2 _ rfl
      exact references_pos_iff.mpr ⟨_, List.mem_of_getElem? hCell, by simp⟩
  | some address =>
      obtain ⟨_, hCell⟩ := hStanding 1 _ rfl
      exact references_pos_iff.mpr ⟨_, List.mem_of_getElem? hCell, by simp⟩

/-- A finished function is in confined form exactly if its folded offsets and its lengths fit. -/
theorem inConfinedForm_iff (h : Finished s symbol f p) (hf : f.Consistent) :
    p.func.InConfinedForm symbol.name ↔ s.FoldsOffsets f ∧ f.LengthsClippable := by
  constructor
  · intro hForm
    have hApproved : ∀ {id : InstId} {c d : Cell}, f.cells[id]? = some c →
        p.func.cells[id]? = some d → d.live = true → p.func.Approved symbol.name d.inst :=
      fun {id c d} hc hd hLive => by
      exact hForm.approved id d hd hLive (h.not_isBaseLoad_old hf hc hd hLive _)
    constructor
    · intro id position v address hAt hFold
      obtain ⟨c, hTakes, _⟩ := h.takes_address hf hAt
      obtain ⟨d, _, _, _, _, hd, hLive, _⟩ := h.address hf hAt
      obtain ⟨w, hw, hIff⟩ := h.isConfined_address_iff hf hAt hd
      have hPosition : position ∈ (Access.ofInstruction d.inst).addresses := by
        rw [h.access_eq_of_live hTakes.cell hd hLive]
        exact Access.mem_places_address.mp hTakes.listed
      obtain ⟨u, hu, hConfined⟩ := (hApproved hTakes.cell hd hLive).addresses position hPosition
      obtain rfl := Option.some.inj (hw.symm.trans hu)
      exact hIff.mp hConfined address hFold
    · intro id position v hAt
      obtain ⟨c, hTakes, _⟩ := h.takes_length hf hAt
      obtain ⟨d, hd, hLive, _⟩ := h.length hf hAt
      obtain ⟨w, hw, hIff⟩ := h.isClipped_length_iff hf hAt hd
      have hPosition : position ∈ (Access.ofInstruction d.inst).length?.toList := by
        rw [h.access_eq_of_live hTakes.cell hd hLive, Option.mem_toList]
        exact Access.mem_places_length.mp hTakes.listed
      obtain ⟨u, hu, hClipped⟩ := (hApproved hTakes.cell hd hLive).length position hPosition
      obtain rfl := Option.some.inj (hw.symm.trans hu)
      exact hIff.mp hClipped
  · rintro ⟨hFolds, hLengths⟩
    refine ⟨?_, fun id hId => ?_, fun id d hd hLive hOther => ?_⟩
    · rw [h.length_baseLoads hf]
      cases p.base <;> simp
    · obtain ⟨b, _, hEq, _, _, hHead⟩ := h.base _ ((h.mem_baseLoads_iff hf).mp hId)
      obtain rfl := Value.inst.inj hEq
      exact hHead
    · rcases Nat.lt_or_ge id f.cells.length with hLt | hGe
      · obtain ⟨c, hc⟩ := Func.exists_cell hLt
        exact h.approved_old hf hFolds hLengths hc hd hLive
      · exact h.approved_fresh hf hFolds hGe hd hOther

/-- The addresses of the confined function are those of the original one. -/
theorem total_addressCount (h : Finished s symbol f p) (hf : f.Consistent) :
    total p.func.addressCount (p.func.layout.filter fun id => !p.func.loadsBase symbol.name id) =
      p.stats.addresses := by
  rw [h.addresses, countP_flatMap]
  simp only [Func.countP_sites]
  refine total_eq_of_support (h.consistent.nodup_layout.filter _) hf.nodup_layout
    (fun id hId hCount => ?_) fun id hId hCount => ?_
  · obtain ⟨hLayout, hOther⟩ := List.mem_filter.mp hId
    obtain ⟨d, hd, hLive⟩ := h.consistent.mem_layout_iff.mp hLayout
    rcases Nat.lt_or_ge id f.cells.length with hLt | hGe
    · obtain ⟨c, hc⟩ := Func.exists_cell hLt
      refine ⟨h.mem_layout_of_live hf hc hd hLive, ?_⟩
      simp [Func.addressCount, hc, hd, h.access_eq_of_live hc hd hLive]
    · refine absurd ?_ hCount
      rcases (h.fresh_cell hGe hd).2 with ⟨_, hInst⟩ | ⟨_, _, _, _, _, _, _, _, hPlaced, _, hi⟩
      · simp [Func.loadsBase, hd, hInst, baseLoad, Instruction.isBaseLoad] at hOther
      · rcases hPlaced.chain.access _ (List.mem_of_getElem? hi) with hAccess | hAccess <;>
          simp [Func.addressCount, hd, hAccess, Access.addresses]
  · obtain ⟨c, hc, hLive⟩ := hf.mem_layout_iff.mp hId
    have hPlaces : (Access.ofInstruction c.inst).places ≠ [] := fun hNil => hCount (by
      have hNone : (Access.ofInstruction c.inst).addresses = [] := by
        simpa using (List.append_eq_nil_iff.mp hNil).1
      simp [Func.addressCount, hc, hNone])
    obtain ⟨d, hd, hStands, _⟩ := h.access_stands hc hLive hPlaces
    refine ⟨List.mem_filter.mpr ⟨h.consistent.mem_layout_iff.mpr ⟨d, hd, hStands⟩, ?_⟩, ?_⟩
    · simp [Func.loadsBase, hd, h.not_isBaseLoad_old hf hc hd hStands]
    · simp [Func.addressCount, hc, hd, h.access_eq_of_live hc hd hStands]

end Finished

/-- What confinement leaves passes the strict audit exactly if the folded offsets and the lengths
fit, and then both count the same. -/
theorem strict_audit_accepts_iff {s : Sandbox} {symbol : Symbol} {f g : Func} {stats : Stats}
    (hBuilt : f.Built) (hBody : f.isDeclaration = false) (hSource : s.source = .ofSymbol symbol)
    (hName : symbol.name = s.options.baseSymbol) (hRun : s.run f = .ok ⟨g, .ok stats⟩) :
    ∃ report, (Auditor.mk s.options.baseSymbol true).audit g = .ok report ∧
      ((Auditor.mk s.options.baseSymbol true).accepts report = true ↔ s.FoldsOffsets f ∧
        f.LengthsClippable) ∧
      ((Auditor.mk s.options.baseSymbol true).accepts report = true →
        report.counts.baseLoads = stats.baseLoads ∧ report.counts.addresses = stats.addresses ∧
        report.counts.instructions + stats.removed = f.instCount + stats.inserted) := by
  have hf := hBuilt.consistent
  obtain ⟨p, rfl, rfl, hFinished⟩ := Sandbox.run_ok hSource hf hBody hRun
  obtain ⟨report, hAudit, hFindings, hWarnings, hInstructions, hLoads, hAddresses⟩ :=
    (Auditor.mk s.options.baseSymbol true).audit_spec hFinished.consistent
  simp only [← hName] at hAudit hFindings hWarnings hLoads hAddresses ⊢
  have hNoWarnings : report.warnings = [] := hWarnings.mpr fun id hId => hFinished.base_used hf hId
  refine ⟨report, hAudit, ?_, fun hAccepts => ?_⟩
  · rw [← hFinished.inConfinedForm_iff hf, ← hFindings]
    simp [Auditor.accepts, hNoWarnings]
  · have hClear : report.findings = [] := by simpa [Auditor.accepts, hNoWarnings] using hAccepts
    refine ⟨?_, ?_, ?_⟩
    · rw [hLoads, hFinished.length_baseLoads hf, ← hFinished.baseLoads]
    · rw [hAddresses hClear, hFinished.total_addressCount hf]
    · rw [hInstructions]
      exact hFinished.instCount

/-- Reads a length through an address that is folded, and fills that many bytes. -/
def readThenFill : List Func.Edit :=
  [ .addBlock "entry",
    .append 0 { opcode := .binary .add, operands := [.arg 0, .ofWord 32 8], ty := .i32 },
    .append 0 { opcode := .cast .intToPtr, operands := [.inst 0], ty := .ptr .i64 },
    .append 0 { opcode := .load, operands := [.inst 1], ty := .i64 },
    .append 0 {
      opcode := .call
      operands := [.arg 1, .ofWord 8 0, .inst 2,
        .global (.function "llvm.memset.p0i8.i64" .void [.ptr (.int 8), .int 8, .i64])]
      ty := .void } ]

def defaultSandbox : Sandbox := { source := .ofSymbol (.global defaultBaseSymbol .i64) }

theorem strict_audit_accepts_readThenFill :
    ∃ f g stats report, Func.ofEdits "f" [.i32, .ptr (.int 8)] .void readThenFill = .ok f ∧
      defaultSandbox.run f = .ok ⟨g, .ok stats⟩ ∧
      (Auditor.mk defaultBaseSymbol true).audit g = .ok report ∧
      (Auditor.mk defaultBaseSymbol true).accepts report = true ∧
      (defaultSandbox.FoldsOffsets f ∧ f.LengthsClippable) ∧
      (report.counts.baseLoads = stats.baseLoads ∧ report.counts.addresses = stats.addresses ∧
        report.counts.instructions + stats.removed = f.instCount + stats.inserted) := by
  obtain ⟨f, g, stats, hf, hBody, hRun, hEval⟩ : ∃ f g stats,
      Func.ofEdits "f" [.i32, .ptr (.int 8)] .void readThenFill = .ok f ∧ f.isDeclaration = false ∧
      defaultSandbox.run f = .ok ⟨g, .ok stats⟩ ∧
      ((Auditor.mk defaultBaseSymbol true).audit g).map
      (Auditor.mk defaultBaseSymbol true).accepts = .ok true :=
    ⟨_, _, _, rfl, rfl, rfl, rfl⟩
  obtain ⟨report, hAudit, hIff, hCounts⟩ :=
    strict_audit_accepts_iff (Func.built_ofEdits hf) hBody (s := defaultSandbox) rfl rfl hRun
  have hAccepts : (Auditor.mk defaultBaseSymbol true).accepts report = true := by
    rw [show (Auditor.mk defaultBaseSymbol true).audit g = .ok report from hAudit] at hEval
    exact Except.ok.inj hEval
  exact ⟨f, g, stats, report, hf, hRun, hAudit, hAccepts, hIff.mp hAccepts, hCounts hAccepts⟩

end FaultIsolation
