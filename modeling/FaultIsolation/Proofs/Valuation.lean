import FaultIsolation.Proofs.Agreement

/-!
What confined code computes. Values are given to everything that code can name, and only the
arithmetic that confinement relies on is fixed: additions and the conversions that widen, cut or
turn pointers into integers and back. Then every confined address is the region base plus 32 bits of
the original one, or plus the offset and the constant it was folded from, and every clipped length
is the low half of the original one.
-/
namespace FaultIsolation

def Ty.valueWidth? : Ty → Option Nat
  | .int bits => some bits
  | .ptr _ => some machineWidth
  | _ => none

/-- Values for the results of instructions, parameters, symbols, and constants that are no
integers. -/
structure Valuation where
  inst : InstId → UInt64
  arg : Nat → UInt64
  symbol : Symbol → UInt64
  constant : Constant → UInt64

namespace Valuation

/-- The value of an operand. An integer constant has the word that is stored. -/
def value (ρ : Valuation) : Value → UInt64
  | .inst id => ρ.inst id
  | .arg index => ρ.arg index
  | .const (.int _ word) => word
  | .const constant => ρ.constant constant
  | .global symbol => ρ.symbol symbol

/-- The result that arithmetic gives an instruction, cut to the width of its type. Other
instructions and types may yield anything. -/
def result? (ρ : Valuation) (inst : Instruction) : Option UInt64 :=
  match inst.opcode, inst.operands, inst.ty.valueWidth? with
  | .binary .add, left :: right :: _, some bits => some (mask bits (ρ.value left + ρ.value right))
  | .cast .zext, v :: _, some bits | .cast .trunc, v :: _, some bits | .cast .ptrToInt,
      v :: _, some bits
  | .cast .intToPtr, v :: _, some bits => some (mask bits (ρ.value v))
  | _, _, _ => none

/-- Every instruction that stands in the function has the result that arithmetic gives it. -/
def Solves (ρ : Valuation) (f : Func) : Prop :=
  ∀ id ∈ f.layout, ∀ inst word, f.inst id = .ok inst → ρ.result? inst = some word → ρ.inst id = word

def solves (ρ : Valuation) (f : Func) : Bool :=
  f.layout.all fun id => (f.inst id).toOption.all fun inst => (ρ.result? inst).all fun word =>
    decide (ρ.inst id = word)

theorem solves_iff {ρ : Valuation} {f : Func} : ρ.solves f = true ↔ ρ.Solves f := by
  have hInst : ∀ id inst, (f.inst id).toOption = some inst ↔ f.inst id = .ok inst :=
    fun id inst => by
    cases f.inst id <;> simp [Except.toOption]
  simp only [solves, Solves, List.all_eq_true, Option.all_eq_true, hInst, decide_eq_true_eq]
  exact ⟨fun h id hId inst word hOk hWord => h id hId inst hOk word hWord,
    fun h id hId inst hOk word hWord => h id hId inst word hOk hWord⟩

instance (ρ : Valuation) (f : Func) : Decidable (ρ.Solves f) :=
  decidable_of_iff (ρ.solves f = true) solves_iff

/-- Every instruction of one of these kinds that stands in the function has the result that
arithmetic gives it. -/
def SolvesFor (ρ : Valuation) (f : Func) (kinds : List Opcode) : Prop :=
  ∀ id ∈ f.layout, ∀ inst word, f.inst id = .ok inst → inst.opcode ∈ kinds →
    ρ.result? inst = some word → ρ.inst id = word

theorem Solves.solvesFor {ρ : Valuation} {f : Func} (h : ρ.Solves f) (kinds : List Opcode) :
    ρ.SolvesFor f kinds :=
  fun id hId inst word hInst _ hResult => h id hId inst word hInst hResult

def SolvesFrom (ρ : Valuation) (f : Func) (first : InstId) : Prop :=
  ∀ id ∈ f.layout, first ≤ id → ∀ inst word, f.inst id = .ok inst → ρ.result? inst = some word →
    ρ.inst id = word

theorem Solves.solvesFrom {ρ : Valuation} {f : Func} (h : ρ.Solves f) (first : InstId) :
    ρ.SolvesFrom f first :=
  fun id hId _ => h id hId

/-- Without operands there is nothing to compute. -/
theorem operands_of_result? {ρ : Valuation} {inst : Instruction} {word : UInt64}
    (h : ρ.result? inst = some word) : inst.operands ≠ [] := by
  intro hNil
  simp [result?, hNil] at h

/-- An instruction with a result still stands in the function: a removed one has no operands. -/
theorem SolvesFor.eq_of_cell {ρ : Valuation} {f : Func} {kinds : List Opcode}
    (h : ρ.SolvesFor f kinds) (hf : f.Consistent) {id : InstId} {c : Cell}
    (hc : f.cells[id]? = some c) (hKind : c.inst.opcode ∈ kinds) {word : UInt64}
    (hResult : ρ.result? c.inst = some word) : ρ.inst id = word := by
  obtain ⟨v, hv⟩ := List.exists_mem_of_ne_nil _ (operands_of_result? hResult)
  exact h id (hf.mem_layout_of_operand hc hv) c.inst word (Func.inst_of_cell hc) hKind hResult

section Chains

variable {ρ : Valuation} {g : Func} {first start : InstId} {base : Value}
  (h : ρ.SolvesFrom g first) (hg : g.Consistent) (hFirst : first ≤ start)

include h hg hFirst

theorem SolvesFrom.eq_of_standing {insts : List Instruction} (hStanding : g.Standing start insts)
    {i : Nat} {inst : Instruction} (hi : insts[i]? = some inst) {word : UInt64}
    (hResult : ρ.result? inst = some word) : ρ.inst (start + i) = word := by
  obtain ⟨_, hCell⟩ := hStanding i inst hi
  exact h _ (hg.mem_layout_iff.mpr ⟨_, hCell, rfl⟩) (hFirst.trans (Nat.le_add_right _ _)) inst word
    (Func.inst_of_cell hCell) hResult

theorem rebased_value {pointer : Value} {target : Ty}
    (hStanding : g.Standing start (rebasedChain start base pointer (.ptr target))) :
    (ρ.inst (start + 3)).toNat = ((ρ.value base).toNat + (ρ.value pointer).toNat % 2 ^ 32) % 2 ^
      64 := by
  have h₀ : ρ.inst start = mask addressWidth (ρ.value pointer) :=
    h.eq_of_standing hg hFirst hStanding (i := 0) rfl rfl
  have h₁ : ρ.inst (start + 1) = mask machineWidth (ρ.inst start) :=
    h.eq_of_standing hg hFirst hStanding rfl rfl
  have h₂ : ρ.inst (start + 2) = mask machineWidth (ρ.value base + ρ.inst (start + 1)) :=
    h.eq_of_standing hg hFirst hStanding rfl rfl
  have h₃ : ρ.inst (start + 3) = mask machineWidth (ρ.inst (start + 2)) :=
    h.eq_of_standing hg hFirst hStanding rfl rfl
  rw [h₃, h₂, h₁, h₀]
  simp only [mask_machineWidth, UInt64.toNat_add, mask_toNat]
  rfl

theorem folded_value {address : Foldable} {target : Ty}
    (hStanding : g.Standing start (foldedChain start base address (.ptr target))) :
    (ρ.inst (start + 3)).toNat =
      ((ρ.value base).toNat + (ρ.value address.index).toNat + address.constant.toNat) % 2 ^ 64 := by
  have h₀ : ρ.inst start = mask machineWidth (ρ.value address.index) :=
    h.eq_of_standing hg hFirst hStanding (i := 0) rfl rfl
  have h₁ : ρ.inst (start + 1) = mask machineWidth (ρ.value base + ρ.inst start) :=
    h.eq_of_standing hg hFirst hStanding rfl rfl
  have h₂ : ρ.inst (start + 2) = mask machineWidth
      (ρ.inst (start + 1) + mask machineWidth address.constant) :=
    h.eq_of_standing hg hFirst hStanding rfl rfl
  have h₃ : ρ.inst (start + 3) = mask machineWidth (ρ.inst (start + 2)) :=
    h.eq_of_standing hg hFirst hStanding rfl rfl
  rw [h₃, h₂, h₁, h₀]
  simp only [mask_machineWidth, UInt64.toNat_add, Nat.mod_add_mod]

theorem clipped_value {length : Value} (hStanding : g.Standing start (clippedChain start length)) :
    (ρ.inst (start + 1)).toNat = (ρ.value length).toNat % 2 ^ 32 := by
  have h₀ : ρ.inst start = mask addressWidth (ρ.value length) :=
    h.eq_of_standing hg hFirst hStanding (i := 0) rfl rfl
  have h₁ : ρ.inst (start + 1) = mask machineWidth (ρ.inst start) :=
    h.eq_of_standing hg hFirst hStanding rfl rfl
  rw [h₁, h₀]
  simp only [mask_machineWidth, mask_toNat]
  rfl

end Chains

end Valuation

/-- The instruction loads the region base at the head of the second function, and the first one does
not have it. -/
structure Func.BroughtIn (f g : Func) (symbol : Symbol) (b : InstId) : Prop where
  fresh : f.nodes.length ≤ b
  head : g.entryHead? = some b
  loads : g.inst b = .ok (baseLoad symbol)

namespace Finished

variable {s : Sandbox} {symbol : Symbol} {f : Func} {p : Pass}

theorem broughtIn (h : Finished s symbol f p) {base : Value} (hBase : p.base = some base) :
    ∃ b, base = .inst b ∧ f.BroughtIn p.func symbol b := by
  obtain ⟨b, block, rfl, hFresh, hCell, hHead⟩ := h.base base hBase
  exact ⟨b, rfl, f.length_cells ▸ hFresh, hHead, Func.inst_of_cell hCell⟩

/-- Every address has become the end of a chain that starts from the region base, which is loaded at
the head of the function. -/
theorem address_chain (h : Finished s symbol f p) (hf : f.Consistent) {id : InstId} {position : Nat}
    {v : Value} (hAt : f.AddressAt id position v) :
    ∃ b start target fold, f.BroughtIn p.func symbol b ∧ f.cells.length ≤ start ∧
      p.func.AddressAt id position (.inst (start + 3)) ∧ f.typeOf v = .ok (.ptr target) ∧
      s.foldable? f v = .ok fold ∧ p.func.Standing start
      (addressChain start (.inst b) v (.ptr target) fold) := by
  obtain ⟨c, hTakes, _⟩ := h.takes_address hf hAt
  obtain ⟨d, start, base, ty, fold, hd, hLive, hOperand, hFresh, hBase, hTy, hFold, hStanding⟩ :=
    h.address hf hAt
  obtain ⟨b, rfl, hBroughtIn⟩ := h.broughtIn hBase
  obtain ⟨target, rfl⟩ : ∃ target, ty = .ptr target := by
    obtain ⟨ty', hTy', hPointer⟩ := hTakes.pointer rfl
    obtain rfl := Except.ok.inj (hTy.symm.trans hTy')
    cases ty <;> simp [Ty.isPointer] at hPointer ⊢
  refine ⟨b, start, target, fold, hBroughtIn, hFresh, ?_, hTy, hFold, hStanding⟩
  refine ⟨h.consistent.mem_layout_iff.mpr ⟨d, hd, hLive⟩, d.inst,
    Func.inst_of_cell hd, ?_, hOperand⟩
  rw [h.access_eq_of_live hTakes.cell hd hLive]
  exact Access.mem_places_address.mp hTakes.listed

/-- The address that takes the place of another has the value it should. -/
theorem address_value (h : Finished s symbol f p) (hf : f.Consistent) {ρ : Valuation}
    (hρ : ρ.SolvesFrom p.func f.nodes.length) {id : InstId} {position : Nat} {v : Value}
    (hAt : f.AddressAt id position v) :
    ∃ b w, f.BroughtIn p.func symbol b ∧ p.func.AddressAt id position w ∧
      ((s.foldable? f v = .ok none ∧
        (ρ.value w).toNat = ((ρ.inst b).toNat + (ρ.value v).toNat % 2 ^ 32) % 2 ^ 64) ∨
      ∃ address, s.foldable? f v = .ok (some address) ∧
        (ρ.value w).toNat =
          ((ρ.inst b).toNat + (ρ.value address.index).toNat + address.constant.toNat) % 2 ^
          64) := by
  obtain ⟨b, start, target, fold, hBroughtIn, hFresh, hNow, _, hFold, hStanding⟩ :=
    h.address_chain hf hAt
  rw [f.length_cells] at hFresh
  refine ⟨b, .inst (start + 3), hBroughtIn, hNow, ?_⟩
  cases fold with
  | none => exact .inl ⟨hFold, Valuation.rebased_value hρ h.consistent hFresh hStanding⟩
  | some address => exact .inr ⟨address, hFold,
      Valuation.folded_value hρ h.consistent hFresh hStanding⟩

/-- The length that takes the place of a machine word is its low half. -/
theorem length_value (h : Finished s symbol f p) (hf : f.Consistent) {ρ : Valuation}
    (hρ : ρ.Solves p.func) {id : InstId} {position : Nat} {v : Value}
    (hAt : f.LengthAt id position v) (hWord : f.typeOf v = .ok .i64) :
    ∃ w, p.func.LengthAt id position w ∧ (ρ.value w).toNat = (ρ.value v).toNat % 2 ^ 32 := by
  obtain ⟨w, hNow, hBecomes⟩ := h.lengthAt hf hAt
  cases hBecomes with
  | clipped start word last standing =>
      subst last
      exact ⟨_, hNow, Valuation.clipped_value (hρ.solvesFrom 0) h.consistent
        (Nat.zero_le _) standing⟩
  | kept ty typed other same => exact absurd (Except.ok.inj (typed.symm.trans hWord)) other

/-- Every address in the confined function is the one of the base load, or takes the place of an
original one. -/
theorem addressAt_cases (h : Finished s symbol f p) (hf : f.Consistent) {id : InstId}
    {position : Nat} {w : Value} (hAt : p.func.AddressAt id position w) :
    p.base = some (.inst id) ∨ ∃ v, f.AddressAt id position v := by
  obtain ⟨hLayout, inst, hInst, hPosition, _⟩ := hAt
  obtain ⟨d, hd, hLive, rfl⟩ := h.consistent.cell_of_mem_layout hLayout hInst
  rcases Nat.lt_or_ge id f.cells.length with hLt | hGe
  · obtain ⟨c, hc⟩ := Func.exists_cell hLt
    rw [h.access_eq_of_live hc hd hLive] at hPosition
    exact .inr (h.addressAt_of_live hf hc hd hLive hPosition)
  · rcases (h.fresh_cell hGe hd).2 with ⟨hBase, _⟩ | ⟨_, _, _, _, _, _, _, _, hPlaced, _, hi⟩
    · exact .inl hBase
    · rcases hPlaced.chain.access _ (List.mem_of_getElem? hi) with hAccess | hAccess <;>
        simp [hAccess, Access.addresses] at hPosition

end Finished

theorem Func.AddressAt.unique {f : Func} {id : InstId} {position : Nat} {v w : Value}
    (h : f.AddressAt id position v) (h' : f.AddressAt id position w) : v = w := by
  obtain ⟨_, inst, hInst, _, hv⟩ := h
  obtain ⟨_, inst', hInst', _, hw⟩ := h'
  obtain rfl := Except.ok.inj (hInst.symm.trans hInst')
  exact Option.some.inj (hv.symm.trans hw)

theorem sub_lt_of_toNat_eq {a b : UInt64} {offset bound : Nat}
    (h : a.toNat = (b.toNat + offset) % 2 ^ 64) (hOffset : offset < bound)
    (hBound : bound ≤ 2 ^ 64) : (a - b).toNat < bound := by
  have hb := b.toNat_lt
  rw [UInt64.toNat_sub, h]
  have hCancel : (2 ^ 64 - b.toNat + (b.toNat + offset) % 2 ^ 64) % 2 ^ 64 = offset := by omega
  omega

/-- Whatever the code is given, confined addresses and clipped lengths have the values they should.
Without folding no access is further than 32 bits from the region base. -/
theorem confined_values {s : Sandbox} {symbol : Symbol} {f g : Func} {stats : Stats}
    (hBuilt : f.Built) (hBody : f.isDeclaration = false) (hSource : s.source = .ofSymbol symbol)
    (hRun : s.run f = .ok ⟨g, .ok stats⟩) (ρ : Valuation) (hρ : ρ.Solves g) :
    (∀ id position v, f.AddressAt id position v → ∃ b w, f.BroughtIn g symbol b ∧
      g.AddressAt id position w ∧ ((s.foldable? f v = .ok none ∧
        (ρ.value w).toNat = ((ρ.inst b).toNat + (ρ.value v).toNat % 2 ^ 32) % 2 ^ 64) ∨
      ∃ address, s.foldable? f v = .ok (some address) ∧
        (ρ.value w).toNat =
          ((ρ.inst b).toNat + (ρ.value address.index).toNat + address.constant.toNat) % 2 ^ 64)) ∧
    (∀ id position v, f.LengthAt id position v → f.typeOf v = .ok .i64 →
      ∃ w, g.LengthAt id position w ∧ (ρ.value w).toNat = (ρ.value v).toNat % 2 ^ 32) ∧
    (s.options.fold = false → ∀ id position w, g.AddressAt id position w →
      ∃ b, f.BroughtIn g symbol b ∧ (id = b ∨ (ρ.value w - ρ.inst b).toNat < 2 ^ 32)) := by
  have hf := hBuilt.consistent
  obtain ⟨p, rfl, rfl, h⟩ := Sandbox.run_ok hSource hf hBody hRun
  refine ⟨fun _ _ _ hAt => h.address_value hf (hρ.solvesFrom _) hAt, fun _ _ _ hAt hWord =>
    h.length_value hf hρ hAt hWord, fun hOption id position w hAt => ?_⟩
  rcases h.addressAt_cases hf hAt with hBase | ⟨v, hOld⟩
  · obtain ⟨b, hEq, hBroughtIn⟩ := h.broughtIn hBase
    exact ⟨b, hBroughtIn, .inl (Value.inst.inj hEq)⟩
  · obtain ⟨b, w', hBroughtIn, hAt', ⟨_, hValue⟩ | ⟨address, hFold, _⟩⟩ :=
      h.address_value hf (hρ.solvesFrom _) hOld
    · obtain rfl := hAt.unique hAt'
      exact ⟨b, hBroughtIn, .inr (sub_lt_of_toNat_eq hValue (Nat.mod_lt _ (by decide)) (by decide))⟩
    · rw [Sandbox.foldable?_eq_some_iff, hOption] at hFold
      exact absurd hFold.1 Bool.false_ne_true

/-- A region base of 2⁴⁰, and a pointer and a length that do not fit in 32 bits. -/
def readThenFillValues : Valuation where
  inst id :=
    [0, 0, 0x800000009, 0, 0x10000000000, 5, 0x10000000005, 0x1000000000d, 0x1000000000d, 7,
      7, 0x10000000007, 0x10000000007, 9, 9].getD id 0
  arg index := [5, 0x200000007].getD index 0
  symbol _ := 0
  constant _ := 0

theorem confined_values_readThenFill :
    ∃ f g stats, Func.ofEdits "f" [.i32, .ptr (.int 8)] .void readThenFill = .ok f ∧
      defaultSandbox.run f = .ok ⟨g, .ok stats⟩ ∧ readThenFillValues.Solves g ∧
      (∃ b w, f.BroughtIn g (.global defaultBaseSymbol .i64) b ∧ g.AddressAt 3 0 w ∧
        (readThenFillValues.value w).toNat = ((readThenFillValues.inst b).toNat + 7) % 2 ^ 64) ∧
      ∃ w, g.LengthAt 3 2 w ∧ (readThenFillValues.value w).toNat = 9 := by
  obtain ⟨f, g, stats, hf, hBody, hRun, hSolves, hAddress, hLength, hWord, hFold⟩ : ∃ f g stats,
      Func.ofEdits "f" [.i32, .ptr (.int 8)] .void readThenFill = .ok f ∧ f.isDeclaration = false ∧
      defaultSandbox.run f = .ok ⟨g, .ok stats⟩ ∧ readThenFillValues.solves g = true ∧
      f.AddressAt 3 0 (.arg 1) ∧ f.LengthAt 3 2 (.inst 2) ∧ f.typeOf (.inst 2) = .ok .i64 ∧
      defaultSandbox.foldable? f (.arg 1) = .ok none :=
    ⟨_, _, _, rfl, rfl, rfl, rfl, ⟨by decide, _, rfl, by decide, rfl⟩,
      ⟨by decide, _, rfl, rfl, rfl⟩, rfl, rfl⟩
  obtain ⟨hAddresses, hLengths, _⟩ :=
    confined_values (Func.built_ofEdits hf) hBody (s := defaultSandbox) rfl hRun readThenFillValues
      (Valuation.solves_iff.mp hSolves)
  refine ⟨f, g, stats, hf, hRun, Valuation.solves_iff.mp hSolves, ?_, hLengths 3 2 _ hLength hWord⟩
  obtain ⟨b, w, hBroughtIn, hAt, ⟨_, hValue⟩ | ⟨address, hSome, _⟩⟩ := hAddresses 3 0 _ hAddress
  · exact ⟨b, w, hBroughtIn, hAt, hValue⟩
  · rw [hFold] at hSome
    cases hSome

end FaultIsolation
