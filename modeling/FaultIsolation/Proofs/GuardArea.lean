import FaultIsolation.Proofs.Valuation

/-!
How far folding can reach. An address whose constant was folded lies beyond the region by as much as
the constant, so memory after the region must stay unmapped. In a function made of drafts, the index
of a folded address has 32 bits, and its constant is positive at its own width. Constants of at most
32 bits then fit in an area of 2³¹ - 1 bytes, and no access leaves it. But a draft takes a constant
of any width, and a wider one may be larger.
-/
namespace FaultIsolation

/-- The bytes after the region that are never mapped: the largest positive number of 32 bits. -/
def guardArea : Nat := 2 ^ 31 - 1

namespace Func

/-- The function was made from an empty one by adding blocks and building drafts. -/
inductive Drafted : Func → Prop where
  | empty (name : String) (params : List Ty) (result : Ty) : Drafted { name, params, result }
  | addBlock {f : Func} (name : String) (prior : Drafted f) : Drafted (f.addBlock name)
  | build {f g : Func} {id : InstId} (cursor : Cursor) (draft : Draft) (prior : Drafted f)
      (last : f.build cursor draft = .ok (g, id)) : Drafted g

def ConstantsOfWord (f : Func) : Prop :=
  ∀ id inst bits word, f.inst id = .ok inst → Value.const (.int bits word) ∈ inst.operands →
    ∃ w, Constant.int bits word = .ofWord bits w

def BinaryTyped (f : Func) : Prop :=
  ∀ (id : InstId) (c : Cell) (op : BinaryOp), f.cells[id]? = some c → c.inst.opcode = .binary op →
    ∃ left right, c.inst.operands = [left, right] ∧ f.typeOf left = .ok c.inst.ty

section Drafting

variable {f : Func}

theorem Drafted.built (h : f.Drafted) : f.Built := by
  induction h with
  | empty name params result => exact .empty name params result
  | addBlock name prior ih => exact .edit (.addBlock name) ih rfl
  | build cursor draft prior last ih =>
      obtain ⟨_, e, _, _, hApply, _⟩ := build_ok last
      exact .edit e ih hApply

/-- Only a draft of such an operation yields one. -/
theorem finish_binary {draft : Draft} {inst : Instruction} {op : BinaryOp}
    (h : f.finish draft = .ok inst) (hOpcode : inst.opcode = .binary op) :
    ∃ left right, inst.operands = [left, right] ∧ f.typeOf left = .ok inst.ty := by
  cases draft with
  | binary op' left right =>
      obtain ⟨ty, hTy, hInst⟩ := bind_eq_ok_iff.mp h
      obtain rfl := Except.ok.inj hInst
      exact ⟨left, right, rfl, hTy⟩
  | load address =>
      obtain ⟨ty, _, hInst⟩ := bind_eq_ok_iff.mp h
      obtain rfl := Except.ok.inj hInst
      cases hOpcode
  | select condition onTrue onFalse =>
      obtain ⟨ty, _, hInst⟩ := bind_eq_ok_iff.mp h
      obtain rfl := Except.ok.inj hInst
      cases hOpcode
  | call callee args =>
      obtain ⟨ty, _, hInst⟩ := bind_eq_ok_iff.mp h
      obtain rfl := Except.ok.inj hInst
      cases hOpcode
  | _ =>
      obtain rfl := Except.ok.inj h
      cases hOpcode

theorem Drafted.binaryTyped (h : f.Drafted) : f.BinaryTyped := by
  induction h with
  | empty name params result =>
      intro id c op hc
      simp [cells] at hc
  | addBlock name prior ih => exact ih
  | @build f g new cursor draft prior last ih =>
      obtain ⟨inst, e, hFinish, hNew, hApply, _⟩ := build_ok last
      obtain ⟨block, place, hInserted⟩ :=
        (applied_of_apply prior.built.consistent hApply).inserted hNew
      intro id c op hc hOpcode
      rw [hInserted.cells, List.getElem?_append] at hc
      split at hc
      · obtain ⟨left, right, hOperands, hTy⟩ := ih id c op hc hOpcode
        exact ⟨left, right, hOperands, hInserted.keeps.typeOf hTy⟩
      · obtain rfl : c = ⟨inst, block, true⟩ := by simpa using List.mem_of_getElem? hc
        obtain ⟨left, right, hOperands, hTy⟩ := finish_binary hFinish hOpcode
        exact ⟨left, right, hOperands, hInserted.keeps.typeOf hTy⟩

end Drafting

end Func

/-- A constant made at a width fits in it. -/
theorem Constant.toNat_lt_of_ofWord {bits width : Nat} {stored word : UInt64}
    (h : Constant.int width stored = .ofWord bits word) : stored.toNat < 2 ^ bits := by
  obtain ⟨rfl, rfl⟩ : width = bits ∧ stored = mask bits word := by simpa [ofWord] using h
  rw [mask_toNat]
  exact Nat.lt_of_lt_of_le (Nat.mod_lt _ (Nat.two_pow_pos _))
    (Nat.pow_le_pow_right (by decide) (Nat.min_le_left _ _))

/-- A positive constant made at a width stays below the top bit of that width. -/
theorem Constant.lt_of_signedWord_pos {bits : Nat} {word : UInt64}
    (hMade : ∃ w, Constant.int bits word = .ofWord bits w) (hPositive : 0 < signedWord bits word) :
    1 ≤ word.toNat ∧ word.toNat < 2 ^ (min bits machineWidth - 1) := by
  obtain ⟨w, hw⟩ := hMade
  obtain rfl : word = mask bits w := by simpa [ofWord] using hw
  cases bits with
  | zero =>
      have hZero : mask 0 w = 0 := UInt64.toNat_inj.mp (by simp [mask_toNat, Nat.mod_one])
      rw [hZero] at hPositive
      exact absurd hPositive (by decide)
  | succ n =>
      rw [signedWord_pos_iff (Nat.le_add_left 1 n), mask_toNat, Nat.mod_mod] at hPositive
      rwa [mask_toNat]

def Sandbox.Folds (s : Sandbox) (f : Func) (address : Foldable) : Prop :=
  ∃ id position v, f.AddressAt id position v ∧ s.foldable? f v = .ok (some address)

def Func.StepWidth (f : Func) (address : Foldable) (bits : Nat) : Prop :=
  ∃ inst, f.inst address.addition = .ok inst ∧
    inst.operands[1]? = some (.const (.int bits address.constant))

/-- Folded constants that are wider than an offset fit in the guard area nevertheless. -/
def Sandbox.WideStepsFit (s : Sandbox) (f : Func) : Prop :=
  ∀ address bits, s.Folds f address → f.StepWidth address bits → addressWidth < bits →
    address.constant.toNat ≤ guardArea

/-- An integer that is no constant has a value of its width. -/
def Valuation.Respects (ρ : Valuation) (f : Func) : Prop :=
  ∀ v bits, f.typeOf v = .ok (.int bits) → (∀ width word, v ≠ .const (.int width word)) →
    (ρ.value v).toNat < 2 ^ bits

/-- Only instructions and parameters matter if everything else is zero. -/
theorem Valuation.respects_of_zero {ρ : Valuation} {f : Func}
    (hInst : ∀ (id : InstId) bits, (f.cells.map (·.inst.ty))[id]? = some (.int bits) →
      (ρ.inst id).toNat < 2 ^ bits)
    (hArg : ∀ (index : Nat) bits, f.params[index]? = some (.int bits) →
      (ρ.arg index).toNat < 2 ^ bits) (hSymbol : ∀ symbol, ρ.symbol symbol = 0)
    (hConstant : ∀ constant, ρ.constant constant = 0) : ρ.Respects f := by
  intro v bits hTy hOther
  cases v with
  | inst id =>
      obtain ⟨inst, hRead, hInt⟩ := map_eq_ok_iff.mp hTy
      obtain ⟨c, hc, rfl⟩ := Func.cell_of_inst hRead
      exact hInst id bits (by rw [List.getElem?_map, hc, Option.map_some, hInt])
  | arg index =>
      refine hArg index bits ?_
      cases hParam : f.params[index]? <;> simp [Func.typeOf, hParam] at hTy
      rw [hTy]
  | const constant =>
      cases constant with
      | int width word => exact absurd rfl (hOther width word)
      | null ty =>
          simp only [value, hConstant]
          exact Nat.two_pow_pos bits
      | undef ty =>
          simp only [value, hConstant]
          exact Nat.two_pow_pos bits
  | global symbol =>
      simp only [value, hSymbol]
      exact Nat.two_pow_pos bits

/-- An operand that is an integer has a value of its width, constants included. -/
theorem Valuation.Respects.operand_lt {ρ : Valuation} {f g : Func} (hρ : ρ.Respects g)
    (hKeeps : f.Keeps g) (hConstants : f.ConstantsOfWord) {id : InstId} {c : Cell} {v : Value}
    {bits : Nat} (hc : f.cells[id]? = some c) (hv : v ∈ c.inst.operands)
    (hTy : f.typeOf v = .ok (.int bits)) : (ρ.value v).toNat < 2 ^ bits := by
  by_cases hConst : ∃ width word, v = .const (.int width word)
  · obtain ⟨width, word, rfl⟩ := hConst
    obtain rfl : width = bits := by simpa [Func.typeOf, Constant.ty] using hTy
    obtain ⟨w, hw⟩ := hConstants id c.inst width word (Func.inst_of_cell hc) hv
    exact Constant.toNat_lt_of_ofWord hw
  · exact hρ v bits (hKeeps.typeOf hTy) fun width word hEq => hConst ⟨width, word, hEq⟩

namespace Sandbox.Folds

variable {s : Sandbox} {f : Func} {address : Foldable} (h : s.Folds f address)

include h

theorem step : ∃ c, f.cells[address.addition]? = some c ∧
    c.inst.positiveStep? = some (address.index, address.constant) := by
  obtain ⟨_, _, v, _, hFold⟩ := h
  obtain ⟨_, c, _, _, _, hc, hStep⟩ :=
    Func.foldable?_some (Sandbox.foldable?_eq_some_iff.mp hFold).2
  exact ⟨c, hc, hStep⟩

/-- The constant is positive and stays below the top bit of its width. -/
theorem constant_lt (hConstants : f.ConstantsOfWord) :
    ∃ bits, f.StepWidth address bits ∧ 1 ≤ address.constant.toNat ∧
      address.constant.toNat < 2 ^ (min bits machineWidth - 1) := by
  obtain ⟨c, hc, hStep⟩ := h.step
  obtain ⟨_, _, bits, rest, hOperands, hPositive⟩ := Func.operands_of_positiveStep? hStep
  have hInst := Func.inst_of_cell hc
  have hMade := hConstants address.addition c.inst bits address.constant hInst (by simp [hOperands])
  exact ⟨bits, ⟨c.inst, hInst, by simp [hOperands]⟩, Constant.lt_of_signedWord_pos hMade hPositive⟩

theorem index_typed (hTyped : f.BinaryTyped) : f.typeOf address.index = .ok .i32 := by
  obtain ⟨c, hc, hStep⟩ := h.step
  obtain ⟨hOpcode, hTy, bits, rest, hOperands, _⟩ := Func.operands_of_positiveStep? hStep
  obtain ⟨left, right, hPair, hLeft⟩ := hTyped address.addition c .add hc hOpcode
  obtain rfl : address.index = left := by
    rw [hOperands] at hPair
    exact (List.cons.inj hPair).1
  rw [hLeft, hTy]

/-- The index has a value of 32 bits. -/
theorem index_lt (hTyped : f.BinaryTyped) (hConstants : f.ConstantsOfWord) {g : Func}
    (hKeeps : f.Keeps g) {ρ : Valuation} (hρ : ρ.Respects g) :
    (ρ.value address.index).toNat < 2 ^ 32 := by
  obtain ⟨c, hc, hStep⟩ := h.step
  exact hρ.operand_lt hKeeps hConstants hc (Func.index_mem_of_positiveStep? hStep)
    (h.index_typed hTyped)

end Sandbox.Folds

section Reach

variable {s : Sandbox} {symbol : Symbol} {f : Func} (hTyped : f.BinaryTyped)
  (hConstants : f.ConstantsOfWord)

include hConstants in
/-- Only a constant wider than an offset can exceed the guard area. -/
theorem Sandbox.folds_le_guardArea_iff :
    (∀ address, s.Folds f address → address.constant.toNat ≤ guardArea) ↔ s.WideStepsFit f := by
  constructor
  · intro hAll address _ hFolds _ _
    exact hAll address hFolds
  · intro hWide address hFolds
    obtain ⟨bits, hWidth, _, hLt⟩ := hFolds.constant_lt hConstants
    rcases Nat.lt_or_ge addressWidth bits with hBits | hBits
    · exact hWide address bits hFolds hWidth hBits
    · have hPow : 2 ^ (min bits machineWidth - 1) ≤ 2 ^ 31 :=
        Nat.pow_le_pow_right (by decide)
          (Nat.sub_le_sub_right ((Nat.min_le_left _ _).trans hBits) 1)
      simp only [guardArea]
      omega

include hTyped hConstants in
/-- An access of the confined function stays within 32 bits of the region base, or within that and
the constant that was folded. -/
theorem Finished.reach {p : Pass} (h : Finished s symbol f p) (hf : f.Consistent) {ρ : Valuation}
    (hρ : ρ.Solves p.func) (hRespects : ρ.Respects p.func) {id : InstId} {position : Nat}
    {w : Value} (hAt : p.func.AddressAt id position w) :
    ∃ b, f.BroughtIn p.func symbol b ∧ (id = b ∨ (ρ.value w - ρ.inst b).toNat < 2 ^ 32 ∨
      ∃ address, s.Folds f address ∧
        (ρ.value w - ρ.inst b).toNat < 2 ^ 32 + address.constant.toNat) := by
  rcases h.addressAt_cases hf hAt with hBase | ⟨v, hOld⟩
  · obtain ⟨b, hEq, hBroughtIn⟩ := h.broughtIn hBase
    exact ⟨b, hBroughtIn, .inl (Value.inst.inj hEq)⟩
  · obtain ⟨b, w', hBroughtIn, hAt', hValue⟩ := h.address_value hf (hρ.solvesFrom _) hOld
    obtain rfl := hAt.unique hAt'
    refine ⟨b, hBroughtIn, .inr ?_⟩
    rcases hValue with ⟨_, hValue⟩ | ⟨address, hFold, hValue⟩
    · exact .inl (sub_lt_of_toNat_eq hValue (Nat.mod_lt _ (by decide)) (by decide))
    · have hFolds : s.Folds f address := ⟨id, position, v, hOld, hFold⟩
      have hIndex := hFolds.index_lt hTyped hConstants h.keeps hRespects
      obtain ⟨bits, _, _, hLt⟩ := hFolds.constant_lt hConstants
      have hPow : 2 ^ (min bits machineWidth - 1) ≤ 2 ^ 63 :=
        Nat.pow_le_pow_right (by decide) (Nat.sub_le_sub_right (Nat.min_le_right _ _) 1)
      rw [Nat.add_assoc] at hValue
      exact .inr ⟨address, hFolds, sub_lt_of_toNat_eq hValue (by omega) (by omega)⟩

end Reach

/-- A constant that is folded is positive at the width it is written with. All such constants fit in
the guard area exactly if those of more than 32 bits do, and then no access leaves it. -/
theorem folding_within_guard_area {s : Sandbox} {symbol : Symbol} {f g : Func} {stats : Stats}
    (hDrafted : f.Drafted) (hConstants : f.ConstantsOfWord) (hSource : s.source = .ofSymbol symbol)
    (hRun : s.run f = .ok ⟨g, .ok stats⟩) :
    (∀ address, s.Folds f address → ∃ bits, f.StepWidth address bits ∧ 1 ≤ address.constant.toNat ∧
      address.constant.toNat < 2 ^ (min bits machineWidth - 1)) ∧
    ((∀ address, s.Folds f address → address.constant.toNat ≤ guardArea) ↔ s.WideStepsFit f) ∧
    (s.WideStepsFit f → ∀ ρ : Valuation, ρ.Solves g → ρ.Respects g →
      ∀ id position w, g.AddressAt id position w → ∃ b, f.BroughtIn g symbol b ∧
      (id = b ∨ (ρ.value w - ρ.inst b).toNat < 2 ^ 32 + guardArea)) := by
  have hf := hDrafted.built.consistent
  refine ⟨fun address hFolds => hFolds.constant_lt hConstants,
    Sandbox.folds_le_guardArea_iff hConstants, ?_⟩
  intro hWide ρ hρ hRespects id position w hAt
  cases hBody : f.isDeclaration with
  | true =>
      obtain ⟨rfl, _⟩ := Sandbox.run_declaration hBody hRun
      exact absurd (Func.isDeclaration_of_mem_layout hAt.1) (by simp [hBody])
  | false =>
      obtain ⟨p, rfl, _, h⟩ := Sandbox.run_ok hSource hf hBody hRun
      obtain ⟨b, hBroughtIn, hReach⟩ := h.reach hDrafted.binaryTyped hConstants hf hρ hRespects hAt
      refine ⟨b, hBroughtIn, hReach.imp_right fun hNear => ?_⟩
      rcases hNear with hNear | ⟨address, hFolds, hNear⟩
      · exact Nat.lt_of_lt_of_le hNear (Nat.le_add_right _ _)
      · have hFits := (Sandbox.folds_le_guardArea_iff hConstants).mpr hWide address hFolds
        exact Nat.lt_of_lt_of_le hNear (Nat.add_le_add_left hFits _)

def indexedRead (bits : Nat) (step : UInt64) : Except Fault Func :=
  [ Draft.binary .add (.arg 0) (.ofWord bits step),
    .cast .intToPtr (.inst 0) (.ptr .i32),
    .load (.inst 1) ].foldlM (fun f draft => (f.build (.atEnd 0) draft).map Prod.fst)
      (Func.addBlock { name := "f", params := [.i32], result := .void } "entry")

/-- A region base of 2⁴⁰, the parameter, and what the confined read computes from them. -/
def indexedReadValues (index step : UInt64) : Valuation where
  inst id :=
    [0, 0, 0, 0x10000000000, index, 0x10000000000 + index, 0x10000000000 + index + step,
      0x10000000000 + index + step].getD id 0
  arg _ := index
  symbol _ := 0
  constant _ := 0

theorem drafted_indexedRead {bits : Nat} {step : UInt64} {f : Func}
    (h : indexedRead bits step = .ok f) : f.Drafted ∧ f.ConstantsOfWord := by
  obtain rfl := Except.ok.inj h
  constructor
  · exact .build (.atEnd 0) (.load (.inst 1))
      (.build (.atEnd 0) (.cast .intToPtr (.inst 0) (.ptr .i32))
        (.build (.atEnd 0) (.binary .add (.arg 0) (.ofWord bits step))
          (.addBlock "entry" (.empty "f" [.i32] .void)) rfl) rfl) rfl
  · intro id inst width word hInst hMem
    rcases id with _ | _ | _ | id <;> cases hInst
    · obtain ⟨rfl, rfl⟩ : width = bits ∧ word = mask bits step := by
        simpa [Value.ofWord, Constant.ofWord] using hMem
      exact ⟨step, rfl⟩
    · simp at hMem
    · simp at hMem

theorem constant_indexedRead {s : Sandbox} {bits : Nat} {step : UInt64} {f : Func}
    {address : Foldable} (h : indexedRead bits step = .ok f) (hFolds : s.Folds f address) :
    address.constant = mask bits step := by
  obtain rfl := Except.ok.inj h
  obtain ⟨c, hc, hStep⟩ := hFolds.step
  obtain ⟨hOpcode, _, width, rest, hOperands, _⟩ := Func.operands_of_positiveStep? hStep
  generalize address.addition = id at hc
  rcases id with _ | _ | _ | id <;> cases hc
  · have hPair : [Value.arg 0, .ofWord bits step] = address.index :: .const
        (.int width address.constant) :: rest :=
      hOperands
    simp only [Value.ofWord, Constant.ofWord, List.cons.injEq, Value.const.injEq,
      Constant.int.injEq] at hPair
    exact hPair.2.1.2.symm
  · cases hOpcode
  · cases hOpcode

theorem respects_indexedRead {g : Func} {index : UInt64} (hParams : g.params = [.i32])
    (hTypes : g.cells.map (·.inst.ty) = [.i32, .ptr .i32, .i32, .i64, .i64, .i64, .i64, .ptr .i32])
    (hIndex : index.toNat < 2 ^ 32) (step : UInt64) :
    (indexedReadValues index step).Respects g := by
  refine Valuation.respects_of_zero ?_ ?_ (fun _ => rfl) fun _ => rfl
  · intro id bits hAt
    rw [hTypes] at hAt
    rcases id with _ | _ | _ | _ | _ | _ | _ | _ | id <;> cases hAt
    all_goals first | exact UInt64.toNat_lt _ | exact Nat.two_pow_pos _
  · intro position bits hAt
    rw [hParams] at hAt
    rcases position with _ | position <;> cases hAt
    exact hIndex

theorem folding_within_guard_area_indexedRead :
    ∃ f g stats b w, indexedRead 32 8 = .ok f ∧ f.Drafted ∧ f.ConstantsOfWord ∧
      defaultSandbox.run f = .ok ⟨g, .ok stats⟩ ∧ defaultSandbox.WideStepsFit f ∧
      (indexedReadValues 0xffffffff 8).Solves g ∧ (indexedReadValues 0xffffffff 8).Respects g ∧
      f.BroughtIn g (.global defaultBaseSymbol .i64) b ∧ g.AddressAt 2 0 w ∧
      ((indexedReadValues 0xffffffff 8).value w - (indexedReadValues 0xffffffff 8).inst b).toNat <
        2 ^ 32 + guardArea := by
  obtain ⟨f, g, stats, hf, hLength, hRun, hSolves, hParams, hTypes, hAt⟩ : ∃ f g stats,
      indexedRead 32 8 = .ok f ∧ f.nodes.length = 3 ∧ defaultSandbox.run f = .ok ⟨g, .ok stats⟩ ∧
      (indexedReadValues 0xffffffff 8).solves g = true ∧ g.params = [.i32] ∧
      g.cells.map (·.inst.ty) = [.i32, .ptr .i32, .i32, .i64, .i64, .i64, .i64, .ptr .i32] ∧
      g.AddressAt 2 0 (.inst 7) :=
    ⟨_, _, _, rfl, rfl, rfl, rfl, rfl, rfl, ⟨by decide, _, rfl, by decide, rfl⟩⟩
  obtain ⟨hDrafted, hConstants⟩ := drafted_indexedRead hf
  have hRespects := respects_indexedRead hParams hTypes
    (show (0xffffffff : UInt64).toNat < 2 ^ 32 by decide) 8
  obtain ⟨_, hIff, hReach⟩ := folding_within_guard_area hDrafted hConstants
    (s := defaultSandbox) rfl hRun
  have hWide := hIff.mp fun address hFolds => by
    rw [constant_indexedRead hf hFolds]
    decide
  obtain ⟨b, hBroughtIn, rfl | hNear⟩ :=
    hReach hWide _ (Valuation.solves_iff.mp hSolves) hRespects 2 0 _ hAt
  · exact absurd hBroughtIn.fresh (by rw [hLength]; decide)
  · exact ⟨f, g, stats, b, _, hf, hDrafted, hConstants, hRun, hWide,
      Valuation.solves_iff.mp hSolves, hRespects, hBroughtIn, hAt, hNear⟩

def auditedSandbox : Sandbox :=
  { source := .ofSymbol (.global defaultBaseSymbol .i64), options := { audit := true } }

/-- A constant of 64 bits is folded whatever its size, and the read leaves the guard area; the audit
does not object. -/
theorem wide_step_leaves_guard_area :
    ∃ f g stats address, f.Drafted ∧ f.ConstantsOfWord ∧ auditedSandbox.run f = .ok ⟨g, .ok stats⟩ ∧
      auditedSandbox.Folds f address ∧ guardArea < address.constant.toNat ∧
      (indexedReadValues 0 0x10000000000).Solves g ∧
      (indexedReadValues 0 0x10000000000).Respects g ∧
      ∃ b w, f.BroughtIn g (.global defaultBaseSymbol .i64) b ∧ g.AddressAt 2 0 w ∧
        2 ^ 32 + guardArea ≤
          ((indexedReadValues 0 0x10000000000).value w - (indexedReadValues 0 0x10000000000).inst
            b).toNat := by
  obtain ⟨f, g, stats, address, hf, hRun, hSolves, hParams, hTypes, hFolds, hLarge,
    hBroughtIn, hAt⟩ :
      ∃ f g stats address, indexedRead 64 0x10000000000 = .ok f ∧
      auditedSandbox.run f = .ok ⟨g, .ok stats⟩ ∧
      (indexedReadValues 0 0x10000000000).solves g = true ∧ g.params = [.i32] ∧
      g.cells.map (·.inst.ty) = [.i32, .ptr .i32, .i32, .i64, .i64, .i64, .i64, .ptr .i32] ∧
      auditedSandbox.Folds f address ∧ guardArea < address.constant.toNat ∧
      f.BroughtIn g (.global defaultBaseSymbol .i64) 3 ∧ g.AddressAt 2 0 (.inst 7) :=
    ⟨_, _, _, _, rfl, rfl, rfl, rfl, rfl, ⟨2, 0, .inst 1, ⟨by decide, _, rfl, by decide, rfl⟩, rfl⟩,
      by decide, ⟨by decide, rfl, rfl⟩, ⟨by decide, _, rfl, by decide, rfl⟩⟩
  obtain ⟨hDrafted, hConstants⟩ := drafted_indexedRead hf
  have hRespects := respects_indexedRead hParams hTypes
    (show (0 : UInt64).toNat < 2 ^ 32 by decide) 0x10000000000
  exact ⟨f, g, stats, address, hDrafted, hConstants, hRun, hFolds, hLarge,
    Valuation.solves_iff.mp hSolves, hRespects, 3, _, hBroughtIn, hAt, by decide⟩

end FaultIsolation
