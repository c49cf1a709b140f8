import FaultIsolation.Proofs.Verdict

/-!
Folding against not folding. Both ways of confinement accept the same functions and refuse for the
same reasons, because what folding removes early would have passed. They put in equally many
instructions, and from the same values and the same region base they compute the same addresses, but
for one thing: an offset and a constant that overflow 32 bits wrap round if they are added before
rebasing, and do not if the constant is added afterwards. The two addresses are then 2³² apart, or a
multiple of it if the offset is itself a constant that does not fit in 32 bits.
-/
namespace FaultIsolation

/-- Arithmetic says nothing about the result of the instruction. -/
def Func.LeavesOpen (g : Func) (id : InstId) : Prop :=
  ∀ inst, g.inst id = .ok inst → ∀ ρ : Valuation, ρ.result? inst = none

/-- Every instruction from this number on refers to lower numbers, or to results that arithmetic
leaves open. -/
def Func.RefersBack (g : Func) (first : InstId) : Prop :=
  ∀ id inst j, first ≤ id → g.inst id = .ok inst → .inst j ∈ inst.operands → j < id ∨ g.LeavesOpen j

namespace Valuation

/-- The result depends on the operands only. -/
theorem result?_congr {σ τ : Valuation} {inst : Instruction}
    (h : ∀ v ∈ inst.operands, σ.value v = τ.value v) : σ.result? inst = τ.result? inst := by
  unfold result?
  split <;> simp_all

def assign (σ : Valuation) (id : InstId) (word : UInt64) : Valuation :=
  { σ with inst := Function.update σ.inst id word }

theorem value_assign_of_ne (σ : Valuation) {id : InstId} {v : Value} (h : v ≠ .inst id)
    (word : UInt64) : (σ.assign id word).value v = σ.value v := by
  cases v with
  | inst other => exact Function.update_of_ne (fun hEq => h (congrArg Value.inst hEq)) word σ.inst
  | const constant => cases constant <;> rfl
  | _ => rfl

def settle (σ : Valuation) (g : Func) (id : InstId) : Valuation :=
  match (g.inst id).toOption.bind σ.result? with
  | some word => σ.assign id word
  | none => σ

/-- Gives results to so many instructions, from a number on and in the order of the numbers. -/
def settleFrom (σ : Valuation) (g : Func) (first : InstId) : Nat → Valuation
  | 0 => σ
  | count + 1 => (σ.settleFrom g first count).settle g (first + count)

section Settling

variable (σ : Valuation) {g : Func} {first : InstId}

theorem value_settle_of_ne {id : InstId} {v : Value} (h : v ≠ .inst id) :
    (σ.settle g id).value v = σ.value v := by
  unfold settle
  split
  · exact σ.value_assign_of_ne h _
  · rfl

theorem inst_settle {id : InstId} {inst : Instruction} {word : UInt64}
    (hInst : g.inst id = .ok inst) (hResult : σ.result? inst = some word) :
    (σ.settle g id).inst id = word := by
  simp [settle, hInst, Except.toOption, hResult, assign]

theorem settle_of_leavesOpen {id : InstId} (h : g.LeavesOpen id) : σ.settle g id = σ := by
  cases hInst : g.inst id with
  | error fault => simp [settle, hInst, Except.toOption]
  | ok inst => simp [settle, hInst, Except.toOption, h inst hInst]

/-- Values of lower numbers stay as they are. -/
theorem value_settleFrom {v : Value} (h : v.Within first) (count : Nat) :
    (σ.settleFrom g first count).value v = σ.value v := by
  induction count with
  | zero => rfl
  | succ count ih =>
      refine (value_settle_of_ne _ ?_).trans ih
      rintro rfl
      exact absurd h (Nat.not_lt.mpr (Nat.le_add_right _ _))

/-- What arithmetic leaves open stays as it is. -/
theorem inst_settleFrom {id : InstId} (h : g.LeavesOpen id) (count : Nat) :
    (σ.settleFrom g first count).inst id = σ.inst id := by
  induction count with
  | zero => rfl
  | succ count ih =>
      by_cases hId : id = first + count
      · subst hId
        rw [settleFrom, settle_of_leavesOpen _ h]
        exact ih
      · have hNe : Value.inst id ≠ .inst (first + count) := fun hEq => hId (Value.inst.inj hEq)
        exact (value_settle_of_ne _ hNe).trans ih

/-- Once an instruction has got its result, no later one changes what it was computed from. -/
theorem settleFrom_solves (hBack : g.RefersBack first) (count : Nat) :
    ∀ id inst word, first ≤ id → id < first + count → g.inst id = .ok inst →
      (σ.settleFrom g first count).result? inst = some word →
      (σ.settleFrom g first count).inst id = word := by
  induction count with
  | zero => exact fun id _ _ hFirst hId => absurd hId (Nat.not_lt.mpr hFirst)
  | succ count ih =>
      intro id inst word hFirst hId hInst hResult
      have hOperands : ∀ v ∈ inst.operands, (σ.settleFrom g first (count + 1)).value v =
          (σ.settleFrom g first count).value v := by
        intro v hv
        by_cases hLast : v = .inst (first + count)
        · subst hLast
          rcases hBack id inst _ hFirst hInst hv with hLt | hOpen
          · exact absurd hLt (Nat.not_lt.mpr (Nat.le_of_lt_succ hId))
          · rw [settleFrom, settle_of_leavesOpen _ hOpen]
        · exact value_settle_of_ne _ hLast
      rw [result?_congr hOperands] at hResult
      by_cases hLast : id = first + count
      · subst hLast
        exact inst_settle _ hInst hResult
      · have hNe : Value.inst id ≠ .inst (first + count) := fun hEq => hLast (Value.inst.inj hEq)
        have hLess := Nat.lt_of_le_of_ne (Nat.le_of_lt_succ hId) hLast
        exact (value_settle_of_ne _ hNe).trans (ih id inst word hFirst hLess hInst hResult)

end Settling

/-- The values go on from those for the first function to the second: what the first function has
keeps its value, the region base is given, and the instructions that the first function does not
have compute. -/
structure Continues (σ ρ : Valuation) (f g : Func) (symbol : Symbol) (base : UInt64) : Prop where
  known : ∀ v : Value, v.Within f.nodes.length → σ.value v = ρ.value v
  loaded : ∀ b, f.BroughtIn g symbol b → σ.inst b = base
  solves : σ.SolvesFrom g f.nodes.length

end Valuation

namespace Finished

variable {s : Sandbox} {symbol : Symbol} {f : Func} {p : Pass}

theorem leavesOpen_base (h : Finished s symbol f p) {b : InstId} (hBase : p.base = some (.inst b)) :
    p.func.LeavesOpen b := by
  intro inst hInst ρ
  obtain ⟨b', hb', hBroughtIn⟩ := h.broughtIn hBase
  obtain rfl := Value.inst.inj hb'
  obtain rfl := Except.ok.inj (hBroughtIn.loads.symm.trans hInst)
  simp [Valuation.result?, baseLoad]

/-- There is one load of the region base only. -/
theorem base_of_broughtIn (h : Finished s symbol f p) {b : InstId}
    (hBroughtIn : f.BroughtIn p.func symbol b) : p.base = some (.inst b) := by
  obtain ⟨d, hd, hInst⟩ := Func.cell_of_inst hBroughtIn.loads
  have hFresh : f.cells.length ≤ b := f.length_cells ▸ hBroughtIn.fresh
  rcases (h.fresh_cell hFresh hd).2 with ⟨hBase, _⟩ | ⟨_, _, _, _, _, _, _, _, hPlaced, _, hi⟩
  · exact hBase
  · rcases hPlaced.chain.access _ (List.mem_of_getElem? hi) with hAccess | hAccess <;>
      simp [hInst, Access.ofInstruction, baseLoad] at hAccess

/-- What is new refers to what was there, to the region base, and to its own chain in order. -/
theorem refersBack (h : Finished s symbol f p) (hf : f.Consistent) :
    p.func.RefersBack f.nodes.length := by
  intro id inst j hFresh hInst hj
  obtain ⟨d, hd, rfl⟩ := Func.cell_of_inst hInst
  rw [← f.length_cells] at hFresh
  rcases (h.fresh_cell hFresh hd).2 with
    ⟨_, hLoad⟩ | ⟨site, _, c, v, start, insts, i, hTakes, hPlaced, rfl, hi⟩
  · rw [hLoad] at hj
    simp [baseLoad] at hj
  · have hOld : ∀ u : Value, u = .inst j → u.Within f.cells.length → j < start + i := by
      rintro _ rfl hIn
      exact Nat.lt_of_lt_of_le hIn hFresh
    rcases hPlaced.chain.refers hi hj with hOperand | ⟨address, hFold, hIndex⟩ |
      hBase | ⟨k, hk, rfl⟩
    · exact .inl (hOld v hOperand (hf.within c (List.mem_of_getElem? hTakes.cell) v
        (List.mem_of_getElem? (Func.operand_of_accessOperand? hTakes.operand))))
    · obtain ⟨_, e, _, _, _, he, hStep⟩ :=
        Func.foldable?_some (Sandbox.foldable?_eq_some_iff.mp hFold).2
      exact .inl (hOld _ hIndex (hf.within e (List.mem_of_getElem? he) _
        (Func.index_mem_of_positiveStep? hStep)))
    · exact .inr (h.leavesOpen_base hBase)
    · exact .inl (Nat.add_lt_add_left hk start)

/-- From any values for the original function and any region base, the confined function
computes. -/
theorem exists_continues (h : Finished s symbol f p) (hf : f.Consistent) (ρ : Valuation)
    (base : UInt64) : ∃ σ : Valuation, σ.Continues ρ f p.func symbol base := by
  obtain ⟨τ, hKnown, hLoaded⟩ : ∃ τ : Valuation,
      (∀ v : Value, v.Within f.nodes.length → τ.value v = ρ.value v) ∧
      ∀ b, f.BroughtIn p.func symbol b → τ.inst b = base := by
    cases hBase : p.base with
    | none =>
        refine ⟨ρ, fun _ _ => rfl, fun b hb => ?_⟩
        rw [h.base_of_broughtIn hb] at hBase
        cases hBase
    | some value =>
        obtain ⟨b, rfl, hBroughtIn⟩ := h.broughtIn hBase
        refine ⟨ρ.assign b base, fun v hv => ρ.value_assign_of_ne ?_ base, fun b' hb' => ?_⟩
        · rintro rfl
          exact absurd hv (Nat.not_lt.mpr hBroughtIn.fresh)
        · obtain rfl := Option.some.inj (hBroughtIn.head.symm.trans hb'.head)
          simp [Valuation.assign]
  refine ⟨τ.settleFrom p.func f.nodes.length p.func.nodes.length, fun v hv => ?_, fun b hb => ?_,
    fun id hId hFirst inst word hInst hResult => ?_⟩
  · exact (τ.value_settleFrom hv _).trans (hKnown v hv)
  · exact (τ.inst_settleFrom (h.leavesOpen_base (h.base_of_broughtIn hb)) _).trans (hLoaded b hb)
  · obtain ⟨d, hd, _⟩ := h.consistent.mem_layout_iff.mp hId
    have hLt : id < p.func.nodes.length := p.func.length_cells ▸ Func.lt_of_cell hd
    exact τ.settleFrom_solves (h.refersBack hf) _ id inst word hFirst
      (Nat.lt_of_lt_of_le hLt (Nat.le_add_left _ _)) hInst hResult

end Finished

namespace Func

/-- Every constant that a 32-bit addition adds is one that `Constant.ofWord` makes at 32 bits. -/
def StepsMasked (f : Func) : Prop :=
  ∀ id inst bits word, id ∈ f.layout → f.inst id = .ok inst → inst.opcode = .binary .add →
    inst.ty = .i32 → inst.operands[1]? = some (.const (.int bits word)) →
    ∃ w, Constant.int bits word = .ofWord addressWidth w

/-- If the pointer is folded from a constant offset, that too is one that `Constant.ofWord` makes at
32 bits. -/
def OffsetMasked (f : Func) (v : Value) : Prop :=
  ∀ address bits word, f.foldable? v = .ok (some address) →
    address.index = .const (.int bits word) → ∃ w, Constant.int bits word = .ofWord addressWidth w

def Carries (f : Func) (ρ : Valuation) (v : Value) : Prop :=
  ∃ address, f.foldable? v = .ok (some address) ∧
    2 ^ 32 ≤ (ρ.value address.index).toNat + address.constant.toNat

/-- How often the offset and the constant that a pointer is folded from overflow 32 bits
together. -/
def carry (f : Func) (ρ : Valuation) (v : Value) : Nat :=
  match f.foldable? v with
  | .ok (some address) => ((ρ.value address.index).toNat + address.constant.toNat) / 2 ^ 32
  | _ => 0

section Carry

variable {f : Func} {ρ : Valuation} {v : Value} {address : Foldable}

theorem carry_of_foldable (h : f.foldable? v = .ok (some address)) :
    f.carry ρ v = ((ρ.value address.index).toNat + address.constant.toNat) / 2 ^ 32 := by
  simp only [carry, h]

theorem carry_of_not_foldable (h : ∀ address, f.foldable? v ≠ .ok (some address)) :
    f.carry ρ v = 0 := by
  unfold carry
  split
  · next address hFold => exact absurd hFold (h address)
  · rfl

/-- The original code adds the offset and the constant in 32 bits. -/
theorem value_foldable {target : Ty} (hf : f.Consistent)
    (hSolves : ρ.SolvesFor f [.binary .add, .cast .intToPtr])
    (hFold : f.foldable? v = .ok (some address)) (hTy : f.typeOf v = .ok (.ptr target)) :
    (ρ.value v).toNat = ((ρ.value address.index).toNat + address.constant.toNat) % 2 ^ 32 := by
  obtain ⟨c, d, rfl, hc, hSource, hd, hStep⟩ := foldable?_some hFold
  obtain ⟨hCast, others, hSourceFirst⟩ := opcode_of_pointerSource? hSource
  obtain ⟨hAdd, hInt, bits, rest, hOperands, _⟩ := operands_of_positiveStep? hStep
  have hSum : ρ.inst address.addition = mask addressWidth
      (ρ.value address.index + address.constant) := by
    refine hSolves.eq_of_cell hf hd (by simp [hAdd]) ?_
    simp only [Valuation.result?, hAdd, hOperands, hInt]
    rfl
  have hPointer : ρ.inst address.conversion = ρ.inst address.addition := by
    refine hSolves.eq_of_cell hf hc (by simp [hCast]) ?_
    obtain hPtr : c.inst.ty = .ptr target := by simpa [typeOf_of_cell hc] using hTy
    simp only [Valuation.result?, hCast, hSourceFirst, hPtr, Ty.valueWidth?, mask_machineWidth]
    rfl
  have hValue : ρ.value (.inst address.conversion) =
      mask addressWidth (ρ.value address.index + address.constant) := hPointer.trans hSum
  rw [hValue, mask_toNat, UInt64.toNat_add]
  exact Nat.mod_mod_of_dvd _ (by decide)

/-- An offset and a constant of 32 bits overflow once or not at all. -/
theorem carry_cases (hf : f.Consistent) (hPaired : f.OffsetsPaired) (hMasked : f.StepsMasked)
    (hRespects : ρ.Respects f) (hOffset : f.OffsetMasked v) :
    f.Carries ρ v ∧ f.carry ρ v = 1 ∨ ¬f.Carries ρ v ∧ f.carry ρ v = 0 := by
  by_cases hSome : ∃ address, f.foldable? v = .ok (some address)
  · obtain ⟨address, hFold⟩ := hSome
    obtain ⟨_, d, _, _, _, hd, hStep⟩ := foldable?_some hFold
    obtain ⟨hAdd, hInt, bits, rest, hOperands, _⟩ := operands_of_positiveStep? hStep
    have hLayout := hf.mem_layout_of_operand hd (index_mem_of_positiveStep? hStep)
    obtain ⟨left, right, hPair, hLeft⟩ := hPaired _ d.inst hLayout (inst_of_cell hd) hAdd hInt
    obtain ⟨rfl, _⟩ : address.index = left ∧ _ := List.cons.inj (hOperands.symm.trans hPair)
    have hConstant : address.constant.toNat < 2 ^ 32 := by
      obtain ⟨w, hw⟩ := hMasked _ d.inst bits address.constant hLayout (inst_of_cell hd) hAdd hInt
        (by simp [hOperands])
      exact Constant.toNat_lt_of_ofWord hw
    have hIndex : (ρ.value address.index).toNat < 2 ^ 32 := by
      by_cases hConst : ∃ width word, address.index = .const (.int width word)
      · obtain ⟨width, word, hEq⟩ := hConst
        obtain ⟨w, hw⟩ := hOffset address width word hFold hEq
        rw [hEq]
        exact Constant.toNat_lt_of_ofWord hw
      · exact hRespects _ 32 hLeft fun width word hEq => hConst ⟨width, word, hEq⟩
    rw [carry_of_foldable hFold]
    by_cases hCarry : 2 ^ 32 ≤ (ρ.value address.index).toNat + address.constant.toNat
    · exact .inl ⟨⟨address, hFold, hCarry⟩, by omega⟩
    · refine .inr ⟨fun ⟨other, hOther, hOverflow⟩ => hCarry ?_, by omega⟩
      obtain rfl := Option.some.inj (Except.ok.inj (hFold.symm.trans hOther))
      exact hOverflow
  · have hNone : ∀ address, f.foldable? v ≠ .ok (some address) := fun address hFold =>
      hSome ⟨address, hFold⟩
    exact .inr ⟨fun ⟨address, hFold, _⟩ => hNone address hFold, carry_of_not_foldable hNone⟩

end Carry

end Func

namespace Finished

variable {s : Sandbox} {symbol : Symbol} {f : Func} {p : Pass}

/-- The region base is loaded if and only if there is an address. -/
theorem baseLoads_eq (h : Finished s symbol f p) (hf : f.Consistent) :
    p.stats.baseLoads = min 1 p.stats.addresses := by
  rw [h.baseLoads, h.addresses]
  cases hBase : p.base with
  | none =>
      have hNone : (f.layout.flatMap f.sites).countP (·.role = .address) = 0 := by
        refine List.countP_eq_zero.mpr fun site hSite hRole => ?_
        obtain ⟨c, v, hTakes⟩ := h.sound site hSite
        obtain ⟨_, _, _, _, _, _, _, _, _, hSome, _⟩ :=
          h.address hf (hTakes.addressAt hf (by simpa using hRole))
        rw [hBase] at hSome
        cases hSome
      rw [hNone]
      rfl
  | some base =>
      obtain ⟨site, hSite, hRole⟩ := h.needed (by simp [hBase])
      have hPos : 0 < (f.layout.flatMap f.sites).countP (·.role = .address) :=
        List.countP_pos_iff.mpr ⟨site, hSite, decide_eq_true hRole⟩
      exact (Nat.min_eq_left hPos).symm

/-- Whatever is folded, the same is confined and clipped, and equally many instructions go in. -/
theorem counts_eq {s' : Sandbox} {q : Pass} (h : Finished s symbol f p)
    (h' : Finished s' symbol f q) (hf : f.Consistent) :
    p.stats.addresses = q.stats.addresses ∧ p.stats.lengths = q.stats.lengths ∧
      p.stats.baseLoads = q.stats.baseLoads ∧ p.stats.inserted = q.stats.inserted := by
  have hAddresses : p.stats.addresses = q.stats.addresses := h.addresses.trans h'.addresses.symm
  have hLengths : p.stats.lengths = q.stats.lengths :=
    h.tallied.lengths.trans h'.tallied.lengths.symm
  have hLoads : p.stats.baseLoads = q.stats.baseLoads := by
    rw [h.baseLoads_eq hf, h'.baseLoads_eq hf, hAddresses]
  refine ⟨hAddresses, hLengths, hLoads, ?_⟩
  rw [h.tallied.inserted, h'.tallied.inserted, hAddresses, hLengths, hLoads]

/-- The addresses that come out with folding and without are as many times 2³² apart as the offset
and the constant overflow. -/
theorem addresses_apart {s' : Sandbox} {q : Pass} (h : Finished s symbol f p)
    (h' : Finished s' symbol f q) (hf : f.Consistent) (hFold : s.options.fold = true)
    (hFold' : s'.options.fold = false) {ρ σ σ' : Valuation} {base : UInt64}
    (hSolves : ρ.SolvesFor f [.binary .add, .cast .intToPtr])
    (hσ : σ.Continues ρ f p.func symbol base) (hσ' : σ'.Continues ρ f q.func symbol base)
    {id : InstId} {position : Nat} {v : Value} (hAt : f.AddressAt id position v) :
    ∃ w w', p.func.AddressAt id position w ∧ q.func.AddressAt id position w' ∧
      (σ.value w).toNat = ((σ'.value w').toNat + 2 ^ 32 * f.carry ρ v) % 2 ^ 64 := by
  obtain ⟨_, _, target, _, _, _, _, hTy, _⟩ := h.address_chain hf hAt
  have hIn : v.Within f.nodes.length := f.length_cells ▸ Func.within_of_typeOf hTy
  obtain ⟨b, w, hb, hNow, hValue⟩ := h.address_value hf hσ.solves hAt
  obtain ⟨b', w', hb', hNow', ⟨_, hValue'⟩ | ⟨_, hSome, _⟩⟩ := h'.address_value hf hσ'.solves hAt
  · refine ⟨w, w', hNow, hNow', ?_⟩
    rw [hσ.loaded b hb] at hValue
    rw [hσ'.loaded b' hb', hσ'.known v hIn] at hValue'
    rcases hValue with ⟨hNone, hValue⟩ | ⟨address, hSome, hValue⟩
    · have hNotFoldable : ∀ address, f.foldable? v ≠ .ok (some address) := fun address hSome => by
        rw [Sandbox.foldable?_eq_some_iff.mpr ⟨hFold, hSome⟩] at hNone
        cases hNone
      rw [hσ.known v hIn] at hValue
      rw [Func.carry_of_not_foldable hNotFoldable]
      omega
    · have hFoldable := (Sandbox.foldable?_eq_some_iff.mp hSome).2
      obtain ⟨_, d, _, _, _, hd, hStep⟩ := Func.foldable?_some hFoldable
      have hIndex : address.index.Within f.nodes.length := f.length_cells ▸
        hf.within d (List.mem_of_getElem? hd) _ (Func.index_mem_of_positiveStep? hStep)
      rw [hσ.known _ hIndex] at hValue
      rw [Func.value_foldable hf hSolves hFoldable hTy] at hValue'
      rw [Func.carry_of_foldable hFoldable]
      omega
  · rw [Sandbox.foldable?_eq_some_iff, hFold'] at hSome
    cases hSome.1

end Finished

/-- Without an audit the vet decides alone: the first instruction that does not pass is what the run
is refused for. -/
theorem Sandbox.run_by_vet {s : Sandbox} {symbol : Symbol} {f : Func}
    (hSource : s.source = .ofSymbol symbol) (hf : f.Consistent) (hBody : f.isDeclaration = false)
    (hPaired : f.OffsetsPaired) (hAudit : s.options.audit = false) :
    (∃ front id back refusal g, f.layout = front ++ id :: back ∧
      (∀ other ∈ front, f.vet other = .ok ()) ∧ f.vet id = .error (.refused refusal) ∧
        s.run f = .ok ⟨g, .error refusal⟩) ∨
    (∀ id ∈ f.layout, f.vet id = .ok ()) ∧
      ∃ p, Finished s symbol f p ∧ s.run f = .ok ⟨p.func, .ok { p.stats with functions := 1 }⟩ := by
  have hPasses : ∀ {front : List InstId} {p : Pass}, Walked s symbol f front p →
      ∀ id ∈ front, f.vet id = .ok () :=
    fun h id hId => (h.vetted id hId).elim (fun hVet => hVet) fun hSkipped =>
      hSkipped.1.vet_eq_ok hSource hf hPaired
  rcases run_ends hSource hf hBody with
    ⟨front, id, back, p, refusal, hLayout, hRun, hStopped⟩ | ⟨p, hFinished, ⟨_, _, hOn⟩ | ⟨hRun, _⟩⟩
  · exact .inl ⟨front, id, back, refusal, p.func, hLayout, hPasses hStopped.toWalked,
      hStopped.refused, hRun⟩
  · rw [hAudit] at hOn
    cases hOn
  · exact .inr ⟨hPasses hFinished, p, hFinished, hRun⟩

/-- With folding and without, a function is refused for the same reason or confined with the same
counts. From the same values and the same region base, the two results access the same addresses,
except that one folded from an offset and a constant that overflow 32 bits together is 2³² above
what it is without folding. A constant offset that does not fit in 32 bits may overflow more often,
and then the two are so many times 2³² apart. -/
theorem folding_agrees_up_to_carry {s s' : Sandbox} {symbol : Symbol} {f : Func} (hBuilt : f.Built)
    (hBody : f.isDeclaration = false) (hPaired : f.OffsetsPaired) (hMasked : f.StepsMasked)
    (hSource : s.source = .ofSymbol symbol) (hSource' : s'.source = .ofSymbol symbol)
    (hFold : s.options.fold = true) (hFold' : s'.options.fold = false)
    (hAudit : s.options.audit = false) (hAudit' : s'.options.audit = false) :
    (∃ g g' refusal, s.run f = .ok ⟨g, .error refusal⟩ ∧ s'.run f = .ok ⟨g', .error refusal⟩) ∨
    ∃ g g' stats stats', s.run f = .ok ⟨g, .ok stats⟩ ∧ s'.run f = .ok ⟨g', .ok stats'⟩ ∧
      stats.addresses = stats'.addresses ∧ stats.lengths = stats'.lengths ∧
      stats.baseLoads = stats'.baseLoads ∧ stats.inserted = stats'.inserted ∧
      ∀ (base : UInt64) (ρ : Valuation), ρ.Respects f →
        ρ.SolvesFor f [.binary .add, .cast .intToPtr] →
        (∃ σ : Valuation, σ.Continues ρ f g symbol base) ∧
        (∃ σ' : Valuation, σ'.Continues ρ f g' symbol base) ∧
        ∀ σ σ' : Valuation, σ.Continues ρ f g symbol base → σ'.Continues ρ f g' symbol base →
          ∀ id position v, f.AddressAt id position v →
            ∃ w w', g.AddressAt id position w ∧ g'.AddressAt id position w' ∧
              (σ.value w).toNat = ((σ'.value w').toNat + 2 ^ 32 * f.carry ρ v) % 2 ^ 64 ∧
              (f.OffsetMasked v →
                f.Carries ρ v ∧ (σ.value w).toNat = ((σ'.value w').toNat + 2 ^ 32) % 2 ^ 64 ∨
                ¬f.Carries ρ v ∧ σ.value w = σ'.value w') := by
  have hf := hBuilt.consistent
  rcases Sandbox.run_by_vet hSource hf hBody hPaired hAudit with
    ⟨front, id, back, refusal, g, hLayout, hFront, hVet, hRun⟩ | ⟨hAll, p, h, hRun⟩ <;>
  rcases Sandbox.run_by_vet hSource' hf hBody hPaired hAudit' with
    ⟨front', id', back', refusal', g', hLayout', hFront', hVet', hRun'⟩ | ⟨hAll', q, h', hRun'⟩
  · obtain rfl : id = id' := @first_unique _ (fun i => f.vet i = .ok ()) _ _ _ _ _ _
      (hLayout.symm.trans hLayout') hFront (by simp [hVet]) hFront' (by simp [hVet'])
    obtain rfl : refusal = refusal' := by simpa [hVet] using hVet'
    exact .inl ⟨g, g', refusal, hRun, hRun'⟩
  · simp [hAll' id (by simp [hLayout])] at hVet
  · simp [hAll id' (by simp [hLayout'])] at hVet'
  · obtain ⟨hAddresses, hLengths, hLoads, hInserted⟩ := h.counts_eq h' hf
    refine .inr ⟨p.func, q.func, _, _, hRun, hRun', hAddresses, hLengths, hLoads, hInserted, ?_⟩
    intro base ρ hRespects hSolves
    refine ⟨h.exists_continues hf ρ base, h'.exists_continues hf ρ base, ?_⟩
    intro σ σ' hσ hσ' id position v hAt
    obtain ⟨w, w', hNow, hNow', hApart⟩ :=
      h.addresses_apart h' hf hFold hFold' hSolves hσ hσ' hAt
    refine ⟨w, w', hNow, hNow', hApart, fun hOffset => ?_⟩
    have hBound := (σ'.value w').toNat_lt
    rcases Func.carry_cases hf hPaired hMasked hRespects hOffset with
      ⟨hCarries, hOne⟩ | ⟨hNot, hZero⟩
    · exact .inl ⟨hCarries, by rw [hApart, hOne, Nat.mul_one]⟩
    · refine .inr ⟨hNot, UInt64.toNat_inj.mp ?_⟩
      rw [hApart, hZero]
      omega

/-- An offset so large that adding the constant to it wraps round. -/
def wrappedReadValues : Valuation where
  inst id := [4, 4].getD id 0
  arg _ := 0xfffffffc
  symbol _ := 0
  constant _ := 0

theorem stepsMasked_indexedRead {step : UInt64} {f : Func}
    (h : indexedRead addressWidth step = .ok f) : f.StepsMasked := by
  obtain rfl := Except.ok.inj h
  intro id inst bits word _ hInst _ _ hStep
  rcases id with _ | _ | _ | id <;> cases hInst <;> cases hStep
  exact ⟨step, rfl⟩

theorem respects_wrappedRead {f : Func} (hParams : f.params = [.i32])
    (hTypes : f.cells.map (·.inst.ty) = [.i32, .ptr .i32, .i32]) :
    wrappedReadValues.Respects f := by
  refine Valuation.respects_of_zero ?_ ?_ (fun _ => rfl) fun _ => rfl
  · intro id bits hAt
    rw [hTypes] at hAt
    rcases id with _ | _ | _ | id <;> cases hAt
    · decide
    · decide
  · intro position bits hAt
    rw [hParams] at hAt
    rcases position with _ | position <;> cases hAt
    decide

/-- The two runs read 2³² apart. -/
theorem folding_agrees_up_to_carry_wrappedRead :
    ∃ f g g' stats stats' w w', ∃ σ σ' : Valuation, indexedRead 32 8 = .ok f ∧
      f.OffsetsPaired ∧ f.StepsMasked ∧ defaultSandbox.run f = .ok ⟨g, .ok stats⟩ ∧
      unfoldedSandbox.run f = .ok ⟨g', .ok stats'⟩ ∧ stats.inserted = stats'.inserted ∧
      wrappedReadValues.Respects f ∧ wrappedReadValues.SolvesFor f [.binary .add, .cast .intToPtr] ∧
      f.OffsetMasked (.inst 1) ∧ f.Carries wrappedReadValues (.inst 1) ∧
      σ.Continues wrappedReadValues f g (.global defaultBaseSymbol .i64) 0x10000000000 ∧
      σ'.Continues wrappedReadValues f g' (.global defaultBaseSymbol .i64) 0x10000000000 ∧
      g.AddressAt 2 0 w ∧ g'.AddressAt 2 0 w' ∧
      (σ.value w).toNat = ((σ'.value w').toNat + 2 ^ 32) % 2 ^ 64 := by
  obtain ⟨f, g, stats, address, hf, hBody, hRun, hSolves, hParams, hTypes, hAt, hFold,
    hOffset, hOverflow⟩ :
      ∃ f g stats address, indexedRead 32 8 = .ok f ∧ f.isDeclaration = false ∧
      defaultSandbox.run f = .ok ⟨g, .ok stats⟩ ∧ wrappedReadValues.solves f = true ∧
      f.params = [.i32] ∧ f.cells.map (·.inst.ty) = [.i32, .ptr .i32, .i32] ∧
      f.AddressAt 2 0 (.inst 1) ∧ f.foldable? (.inst 1) = .ok (some address) ∧
      address.index = .arg 0 ∧
      2 ^ 32 ≤ (wrappedReadValues.value address.index).toNat + address.constant.toNat :=
    ⟨_, _, _, _, rfl, rfl, rfl, rfl, rfl, rfl, ⟨by decide, _, rfl, by decide, rfl⟩, rfl, rfl,
      by decide⟩
  obtain ⟨hDrafted, _⟩ := drafted_indexedRead hf
  have hMasked := stepsMasked_indexedRead hf
  have hRespects := respects_wrappedRead hParams hTypes
  have hSolvesFor := (Valuation.solves_iff.mp hSolves).solvesFor [.binary .add, .cast .intToPtr]
  have hOffsetMasked : f.OffsetMasked (.inst 1) := by
    intro other bits word hOther hConst
    obtain rfl := Option.some.inj (Except.ok.inj (hFold.symm.trans hOther))
    rw [hOffset] at hConst
    cases hConst
  rcases @folding_agrees_up_to_carry defaultSandbox unfoldedSandbox _ f hDrafted.built hBody
      hDrafted.offsetsPaired hMasked rfl rfl rfl rfl rfl rfl with
    ⟨_, _, _, hRefused, _⟩ | ⟨_, g', _, stats', hRun₁, hRun', _, _, _, hInserted, hValues⟩
  · rw [hRun] at hRefused
    cases hRefused
  · rw [hRun] at hRun₁
    cases hRun₁
    obtain ⟨⟨σ, hσ⟩, ⟨σ', hσ'⟩, hAddresses⟩ :=
      hValues 0x10000000000 wrappedReadValues hRespects hSolvesFor
    obtain ⟨w, w', hNow, hNow', _, hExact⟩ := hAddresses σ σ' hσ hσ' 2 0 (.inst 1) hAt
    have hCarries : f.Carries wrappedReadValues (.inst 1) := ⟨address, hFold, hOverflow⟩
    rcases hExact hOffsetMasked with ⟨_, hApart⟩ | ⟨hNot, _⟩
    · exact ⟨f, g, g', stats, stats', w, w', σ, σ', hf, hDrafted.offsetsPaired, hMasked, hRun,
        hRun', hInserted, hRespects, hSolvesFor, hOffsetMasked, hCarries, hσ, hσ', hNow, hNow',
        hApart⟩
    · exact absurd hCarries hNot

def constantRead : List Func.Edit :=
  [ .addBlock "entry",
    .append 0
      { opcode := .binary .add, operands := [.const (.int 32 0x200000005), .ofWord 32 8],
        ty := .i32 },
    .append 0 { opcode := .cast .intToPtr, operands := [.inst 0], ty := .ptr .i32 },
    .append 0 { opcode := .load, operands := [.inst 1], ty := .i32 } ]

def constantReadValues : Valuation where
  inst id := [13, 13].getD id 0
  arg _ := 0
  symbol _ := 0
  constant _ := 0

theorem offsetsPaired_constantRead {f : Func}
    (h : Func.ofEdits "f" [] .void constantRead = .ok f) : f.OffsetsPaired ∧ f.StepsMasked := by
  obtain rfl := Except.ok.inj h
  constructor
  · intro id inst _ hInst hAdd _
    rcases id with _ | _ | _ | id <;> cases hInst <;> cases hAdd
    exact ⟨_, _, rfl, rfl⟩
  · intro id inst bits word _ hInst _ _ hStep
    rcases id with _ | _ | _ | id <;> cases hInst <;> cases hStep
    exact ⟨8, rfl⟩

theorem respects_constantRead {f : Func} (hParams : f.params = [])
    (hTypes : f.cells.map (·.inst.ty) = [.i32, .ptr .i32, .i32]) :
    constantReadValues.Respects f := by
  refine Valuation.respects_of_zero ?_ ?_ (fun _ => rfl) fun _ => rfl
  · intro id bits hAt
    rw [hTypes] at hAt
    rcases id with _ | _ | _ | id <;> cases hAt
    · decide
    · decide
  · intro position bits hAt
    rw [hParams] at hAt
    cases hAt

/-- A constant offset of more than 32 bits: whatever the region base, the two runs read 2³³
apart. -/
theorem constant_offset_carries_twice :
    ∃ f g g' stats stats', Func.ofEdits "f" [] .void constantRead = .ok f ∧ f.OffsetsPaired ∧
      f.StepsMasked ∧ defaultSandbox.run f = .ok ⟨g, .ok stats⟩ ∧
      unfoldedSandbox.run f = .ok ⟨g', .ok stats'⟩ ∧ constantReadValues.Respects f ∧
      constantReadValues.SolvesFor f [.binary .add, .cast .intToPtr] ∧
      f.AddressAt 2 0 (.inst 1) ∧ f.Carries constantReadValues (.inst 1) ∧
      ∀ base : UInt64, ∃ σ σ' : Valuation, ∃ w w',
        σ.Continues constantReadValues f g (.global defaultBaseSymbol .i64) base ∧
        σ'.Continues constantReadValues f g' (.global defaultBaseSymbol .i64) base ∧
        g.AddressAt 2 0 w ∧ g'.AddressAt 2 0 w' ∧
        (σ.value w).toNat = ((σ'.value w').toNat + 2 ^ 33) % 2 ^ 64 ∧
        (σ.value w).toNat ≠ ((σ'.value w').toNat + 2 ^ 32) % 2 ^ 64 ∧ σ.value w ≠ σ'.value w' := by
  obtain ⟨f, g, g', stats, stats', hf, hBody, hRun, hRun', hSolves, hParams, hTypes, hAt,
    hCarries, hCarry⟩ :
      ∃ f g g' stats stats', Func.ofEdits "f" [] .void constantRead = .ok f ∧
      f.isDeclaration = false ∧ defaultSandbox.run f = .ok ⟨g, .ok stats⟩ ∧
      unfoldedSandbox.run f = .ok ⟨g', .ok stats'⟩ ∧ constantReadValues.solves f = true ∧
      f.params = [] ∧ f.cells.map (·.inst.ty) = [.i32, .ptr .i32, .i32] ∧
      f.AddressAt 2 0 (.inst 1) ∧ f.Carries constantReadValues (.inst 1) ∧
      f.carry constantReadValues (.inst 1) = 2 :=
    ⟨_, _, _, _, _, rfl, rfl, rfl, rfl, rfl, rfl, rfl, ⟨by decide, _, rfl, by decide, rfl⟩,
      ⟨_, rfl, by decide⟩, by decide⟩
  have hConsistent := (Func.built_ofEdits hf).consistent
  obtain ⟨hPaired, hMasked⟩ := offsetsPaired_constantRead hf
  have hSolvesFor := (Valuation.solves_iff.mp hSolves).solvesFor [.binary .add, .cast .intToPtr]
  refine ⟨f, g, g', stats, stats', hf, hPaired, hMasked, hRun, hRun',
    respects_constantRead hParams hTypes, hSolvesFor, hAt, hCarries, fun base => ?_⟩
  obtain ⟨p, rfl, _, h⟩ := Sandbox.run_ok (show defaultSandbox.source = _ from rfl)
    hConsistent hBody hRun
  obtain ⟨q, rfl, _, h'⟩ := Sandbox.run_ok (show unfoldedSandbox.source = _ from rfl)
    hConsistent hBody hRun'
  obtain ⟨σ, hσ⟩ := h.exists_continues hConsistent constantReadValues base
  obtain ⟨σ', hσ'⟩ := h'.exists_continues hConsistent constantReadValues base
  obtain ⟨w, w', hNow, hNow', hApart⟩ :=
    h.addresses_apart h' hConsistent rfl rfl hSolvesFor hσ hσ' hAt
  rw [hCarry] at hApart
  have hBound := (σ'.value w').toNat_lt
  refine ⟨σ, σ', w, w', hσ, hσ', hNow, hNow', by omega, by omega, fun hEq => ?_⟩
  rw [hEq] at hApart
  omega

end FaultIsolation
