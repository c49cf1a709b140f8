import FaultIsolation.Proofs.AuditSoundness

/-!
Confining what is confined already. The audit takes operands as they stand, and vetting takes only
the arguments of a call; they agree because what an intrinsic calls is a symbol, and no symbol is
confined or clipped. So what the audit accepts passes the vet. The addresses of confined code come
of 64-bit sums, so none of them is folded, and a second region base takes the place of the first.
-/
namespace FaultIsolation

theorem total_eq_length {α : Type} {count : α → Nat} {xs : List α} (h : ∀ a ∈ xs, count a = 1) :
    total count xs = xs.length := by
  induction xs with
  | nil => rfl
  | cons a rest ih =>
      rw [List.forall_mem_cons] at h
      rw [total_cons, h.1, ih h.2, List.length_cons, Nat.add_comm]

/-- What a call that is an access calls is a symbol. -/
theorem Access.callee_of_places {inst : Instruction} (hCall : inst.opcode = .call)
    (hPlaces : (ofInstruction inst).places ≠ []) :
    ∃ symbol, inst.operands.getLast? = some (.global symbol) := by
  simp only [ofInstruction, hCall] at hPlaces
  cases hCallee : inst.operands.getLast? with
  | none => simp [Intrinsic.ofCall?, Instruction.callee?, hCall, hCallee, places, addresses,
      length?] at hPlaces
  | some v =>
      cases v with
      | global symbol => exact ⟨symbol, rfl⟩
      | _ => simp [Intrinsic.ofCall?, Instruction.callee?, hCall, hCallee, places, addresses,
          length?] at hPlaces

/-- An operand that a call does not call is found among its arguments. -/
theorem Instruction.accessOperand?_of_not_callee {inst : Instruction} {position : Nat} {v : Value}
    (hv : inst.operands[position]? = some v)
    (hOther : inst.opcode = .call → inst.operands.getLast? ≠ some v) :
    inst.accessOperand? position = some v := by
  cases hOpcode : inst.opcode with
  | call =>
      have hLt := (List.getElem?_eq_some_iff.mp hv).1
      have hNotLast : position ≠ inst.operands.length - 1 := fun hLast => hOther hOpcode (by
        rw [List.getLast?_eq_getElem?, ← hLast]
        exact hv)
      simp only [accessOperand?, args, hOpcode, List.getElem?_dropLast]
      rw [if_pos (by omega)]
      exact hv
  | _ => simpa only [accessOperand?, hOpcode] using hv

namespace Func

def SymbolsTyped (f : Func) : Prop :=
  ∀ id inst symbol, id ∈ f.layout → f.inst id = .ok inst → .global symbol ∈ inst.operands →
    symbol.ty.isPointer = true

section Accepted

variable {f : Func} {base : String} {id : InstId} {c : Cell} (hf : f.Consistent)
  (hSymbols : f.SymbolsTyped) (hConversions : f.ConversionsTyped)

include hf hConversions in
/-- A confined address is a pointer. -/
theorem IsConfined.isPointer {v : Value} (h : f.IsConfined base v) : f.IsPointer v := by
  obtain ⟨conversion, d, address, rfl, hd, hCast, hAddress, _⟩ := h
  have hLayout := hf.mem_layout_of_operand hd (List.mem_of_getElem? hAddress)
  exact ⟨d.inst.ty, typeOf_of_cell hd, hConversions conversion d.inst hLayout
    (inst_of_cell hd) hCast⟩

include hf hSymbols hConversions in
/-- What the audit lets pass passes the vet. -/
theorem Approved.vetted (h : f.Approved base c.inst) (hc : f.cells[id]? = some c)
    (hLive : c.live = true) : f.Vetted c.inst := by
  have hLayout := hf.mem_layout_iff.mpr ⟨c, hc, hLive⟩
  refine ⟨fun position hPosition => ?_, fun position hPosition => ?_, h.unconfined⟩
  · obtain ⟨v, hv, hConfined⟩ := h.addresses position hPosition
    refine ⟨v, Instruction.accessOperand?_of_not_callee hv fun hCall hLast => ?_,
      hConfined.isPointer hf hConversions⟩
    obtain ⟨symbol, hSymbol⟩ := Access.callee_of_places hCall
      (List.ne_nil_of_mem (Access.mem_places_address.mpr hPosition))
    obtain ⟨_, _, _, rfl, _⟩ := hConfined
    rw [hLast] at hSymbol
    cases hSymbol
  · obtain ⟨v, hv, bits, hTy, _⟩ := h.length position hPosition
    refine ⟨v, Instruction.accessOperand?_of_not_callee hv fun hCall hLast => ?_⟩
    obtain ⟨symbol, hSymbol⟩ := Access.callee_of_places hCall
      (List.ne_nil_of_mem (Access.mem_places_length.mpr (Option.mem_toList.mp hPosition)))
    obtain rfl : v = .global symbol := Option.some.inj (hLast.symm.trans hSymbol)
    have hPointer := hSymbols id c.inst symbol hLayout (inst_of_cell hc) (List.mem_of_getElem? hv)
    have hInt : symbol.ty = .int bits := Except.ok.inj hTy
    rw [hInt] at hPointer
    cases hPointer

include hf hSymbols in
/-- A load of the region base passes the vet. -/
theorem vetted_of_isBaseLoad (h : c.inst.isBaseLoad base = true) (hc : f.cells[id]? = some c)
    (hLive : c.live = true) : f.Vetted c.inst := by
  obtain ⟨hOpcode, symbol, hSymbol⟩ := load_of_isBaseLoad h
  have hAccess : Access.ofInstruction c.inst = .load := by simp only [Access.ofInstruction, hOpcode]
  have hPointer := hSymbols id c.inst symbol (hf.mem_layout_iff.mpr ⟨c, hc, hLive⟩)
    (inst_of_cell hc) (List.mem_of_getElem? hSymbol)
  constructor
  · intro position hPosition
    obtain rfl : position = 0 := by simpa [hAccess, Access.addresses] using hPosition
    refine ⟨.global symbol, ?_, symbol.ty, rfl, hPointer⟩
    exact Instruction.accessOperand?_of_not_callee hSymbol (by simp [hOpcode])
  · simp [hAccess, Access.length?]
  · simp [hAccess, Access.unconfined]

namespace InConfinedForm

variable (h : f.InConfinedForm base)

include h hf hSymbols hConversions in
theorem vetted (hc : f.cells[id]? = some c) (hLive : c.live = true) : f.Vetted c.inst := by
  cases hLoad : c.inst.isBaseLoad base with
  | true => exact vetted_of_isBaseLoad hf hSymbols hLoad hc hLive
  | false => exact (h.approved id c hc hLive hLoad).vetted hf hSymbols hConversions hc hLive

include h hf hSymbols hConversions in
theorem vet_eq_ok (hLayout : id ∈ f.layout) : f.vet id = .ok () := by
  obtain ⟨c, hc, hLive⟩ := hf.mem_layout_iff.mp hLayout
  rcases vet_decides hf hc with ⟨hOk, _⟩ | ⟨_, _, hNot⟩
  · exact hOk
  · exact absurd (h.vetted hf hSymbols hConversions hc hLive) hNot

include h hf in
/-- No address is folded: what a confined one is converted from is a sum of 64 bits, and the one of
a base load is a symbol. -/
theorem foldable?_ne_some {position : Nat} {v : Value} (hAt : f.AddressAt id position v)
    (address : Foldable) : f.foldable? v ≠ .ok (some address) := by
  intro hFold
  obtain ⟨a, b, rfl, ha, hSource, hb, hStep⟩ := foldable?_some hFold
  obtain ⟨hLayout, inst, hInst, hPosition, hv⟩ := hAt
  obtain ⟨c, hc, hLive, rfl⟩ := hf.cell_of_mem_layout hLayout hInst
  cases hLoad : c.inst.isBaseLoad base with
  | true =>
      obtain ⟨hOpcode, symbol, hSymbol⟩ := load_of_isBaseLoad hLoad
      obtain rfl : position = 0 := by
        simpa [Access.ofInstruction, hOpcode, Access.addresses] using hPosition
      rw [hSymbol] at hv
      cases hv
  | false =>
      obtain ⟨w, hw, hConfined⟩ := (h.approved id c hc hLive hLoad).addresses position hPosition
      obtain rfl := Option.some.inj (hv.symm.trans hw)
      obtain ⟨conversion, d, sum, hEq, hd, _, hSum, hForm⟩ := hConfined
      obtain rfl := Value.inst.inj hEq
      obtain rfl := Option.some.inj (ha.symm.trans hd)
      obtain ⟨_, rest, hOperands⟩ := opcode_of_pointerSource? hSource
      obtain rfl : sum = .inst address.addition := by simpa [hOperands] using hSum.symm
      -- The addition has 32 bits if it is folded, and 64 if it is confined.
      obtain ⟨e, pair, he, hPair⟩ : ∃ e pair, f.cells[address.addition]? = some e ∧
        e.inst.sum? = some pair := by
        rcases hForm with ⟨_, e, left, right, hEq, he, hPair, _⟩ |
          ⟨_, e, inner, bits, word, hEq, he, hPair, _⟩
        · exact ⟨e, _, Value.inst.inj hEq ▸ he, hPair⟩
        · exact ⟨e, _, Value.inst.inj hEq ▸ he, hPair⟩
      obtain rfl := Option.some.inj (hb.symm.trans he)
      obtain ⟨_, hWide, _⟩ := Instruction.sum?_eq_some hPair
      obtain ⟨_, hNarrow, _⟩ := operands_of_positiveStep? hStep
      rw [hWide] at hNarrow
      cases hNarrow

include h hf in
theorem lengthsClippable : f.LengthsClippable := by
  rintro id position v ⟨hLayout, inst, hInst, hPosition, hv⟩
  obtain ⟨c, hc, hLive, rfl⟩ := hf.cell_of_mem_layout hLayout hInst
  have hOther : c.inst.isBaseLoad base = false := isBaseLoad_eq_false base fun hLoad => by
    rw [hLoad] at hPosition
    cases hPosition
  obtain ⟨w, hw, bits, hTy, hShort⟩ :=
    (h.approved id c hc hLive hOther).length position (by simp [hPosition])
  obtain rfl := Option.some.inj (hv.symm.trans hw)
  exact ⟨bits, hTy, hShort.imp_right .inr⟩

include h hf in
theorem foldsOffsets (s : Sandbox) : s.FoldsOffsets f := by
  intro id position v address hAt hFold
  exact absurd (Sandbox.foldable?_eq_some_iff.mp hFold).2 (h.foldable?_ne_some hf hAt address)

end InConfinedForm

end Accepted

/-- Every address counts, the ones of the base loads included. -/
theorem total_addressCount (f : Func) (base : String) :
    total f.addressCount f.layout =
      total f.addressCount (f.layout.filter fun id =>
        !f.loadsBase base id) + (f.baseLoads base).length := by
  have hLoads : total f.addressCount (f.baseLoads base) = (f.baseLoads base).length := by
    refine total_eq_length fun id hId => ?_
    have hLoad := (List.mem_filter.mp hId).2
    cases hc : f.cells[id]? with
    | none => simp [loadsBase, hc] at hLoad
    | some c =>
        have hBase : c.inst.isBaseLoad base = true := by simpa [loadsBase, hc] using hLoad
        obtain ⟨hOpcode, _⟩ := load_of_isBaseLoad hBase
        simp [addressCount, hc, Access.ofInstruction, hOpcode, Access.addresses]
  rw [← total_perm f.addressCount (List.filter_append_perm (f.loadsBase base) f.layout),
    total_append, Nat.add_comm]
  exact congrArg _ hLoads

end Func

theorem Finished.folded_eq_zero {s : Sandbox} {symbol : Symbol} {f : Func} {p : Pass}
    (h : Finished s symbol f p) (hf : f.Consistent)
    (hNone : ∀ id position v address, f.AddressAt id position v →
      f.foldable? v ≠ .ok (some address)) : p.stats.folded = 0 := by
  rw [h.tallied.folded, List.countP_eq_zero]
  intro site hSite hFolds
  obtain ⟨c, v, hTakes⟩ := h.sound site hSite
  obtain ⟨hRole, address, hFold⟩ := (Sandbox.foldsAt_iff hTakes).mp hFolds
  exact hNone _ _ v address (hTakes.addressAt hf hRole) (Sandbox.foldable?_eq_some_iff.mp hFold).2

/-- What the audit accepts can be confined again, whether or not addresses may be folded and whether
or not the run audits its result. Every address is confined once more, those of the base loads
included; none is folded, nothing is removed, and the result is accepted again, by the strict audit
too. No call that is accepted is too short to have its addresses and its length among its
arguments. -/
theorem accepted_confined_again {f : Func} {s : Sandbox} {symbol : Symbol} {report : AuditReport}
    (hBuilt : f.Built) (hSymbols : f.SymbolsTyped) (hConversions : f.ConversionsTyped)
    (hSource : s.source = .ofSymbol symbol) (hName : symbol.name = s.options.baseSymbol)
    (hAudit : (Auditor.mk s.options.baseSymbol false).audit f = .ok report)
    (hAccepts : (Auditor.mk s.options.baseSymbol false).accepts report = true) :
    (∃ g stats, s.run f = .ok ⟨g, .ok stats⟩ ∧ stats.folded = 0 ∧ stats.removed = 0 ∧
      stats.addresses = report.counts.addresses + report.counts.baseLoads ∧
      ∀ strict, ∃ again, (Auditor.mk s.options.baseSymbol strict).audit g = .ok again ∧
        (Auditor.mk s.options.baseSymbol strict).accepts again = true) ∧
    (∀ id inst, id ∈ f.layout → f.inst id = .ok inst → inst.opcode = .call →
      ∀ position ∈ (Access.ofInstruction inst).addresses ++ (Access.ofInstruction
        inst).length?.toList, position < inst.args.length) := by
  have hf := hBuilt.consistent
  obtain ⟨hForm, hLoads, hAddresses⟩ := Auditor.accepted_spec _ hf hAudit hAccepts
  constructor
  · cases hBody : f.isDeclaration with
    | true =>
        have hNil : f.layout = [] := List.eq_nil_iff_forall_not_mem.mpr fun id hId => by
          rw [Func.isDeclaration_of_mem_layout hId] at hBody
          cases hBody
        refine ⟨f, {}, by simp only [Sandbox.run, hBody, if_true]; rfl, rfl, rfl, ?_,
          fun strict => ?_⟩
        · rw [hAddresses, hLoads, ← Func.total_addressCount, hNil]
          rfl
        · exact Auditor.accepts_of_form _ hf hForm (by simp [Func.baseLoads, hNil])
    | false =>
        have hVets : ∀ id ∈ f.layout, f.vet id = .ok () :=
          fun id hId => hForm.vet_eq_ok hf hSymbols hConversions hId
        have hStays : ∀ p, Finished s symbol f p → p.func.InConfinedForm s.options.baseSymbol :=
          fun p h =>
          hName ▸ (h.inConfinedForm_iff hf).mpr ⟨hForm.foldsOffsets hf s, hForm.lengthsClippable hf⟩
        obtain ⟨p, h, hRun⟩ := Sandbox.run_of_vetted hSource hf hBody hVets hStays
        have hFolded := h.folded_eq_zero hf fun _ _ _ address hAt =>
          hForm.foldable?_ne_some hf hAt address
        have hRemoved := h.tallied.removed
        refine ⟨p.func, _, hRun, hFolded, by simp only; omega, ?_, fun strict => ?_⟩
        · rw [hAddresses, hLoads, ← Func.total_addressCount, h.addresses, countP_flatMap]
          simp only [Func.countP_sites]
        · refine Auditor.accepts_of_form _ h.consistent (hStays p h) fun id hId => h.base_used hf ?_
          rwa [hName]
  · intro id inst hLayout hInst hCall position hPosition
    obtain ⟨c, hc, hLive, rfl⟩ := hf.cell_of_mem_layout hLayout hInst
    have hVetted := hForm.vetted hf hSymbols hConversions hc hLive
    obtain ⟨v, hv⟩ : ∃ v, c.inst.accessOperand? position = some v := by
      rcases List.mem_append.mp hPosition with hPosition | hPosition
      · obtain ⟨v, hv, _⟩ := hVetted.addresses position hPosition
        exact ⟨v, hv⟩
      · exact hVetted.length position hPosition
    simp only [Instruction.accessOperand?, hCall] at hv
    exact (List.getElem?_eq_some_iff.mp hv).1

theorem symbolsTyped_writtenConfined {f : Func}
    (h : Func.ofEdits "f" [.i32] .void writtenConfined = .ok f) : f.SymbolsTyped := by
  obtain rfl := Except.ok.inj h
  intro id inst symbol _ hInst hMem
  rcases id with _ | _ | _ | _ | _ | _ | id <;> cases hInst <;> simp [Value.ofWord] at hMem
  · rw [hMem]
    rfl
  · rw [hMem]
    rfl

theorem accepted_confined_again_writtenConfined :
    ∃ f report g stats, Func.ofEdits "f" [.i32] .void writtenConfined = .ok f ∧
      (Auditor.mk defaultBaseSymbol false).audit f = .ok report ∧
      (Auditor.mk defaultBaseSymbol false).accepts report = true ∧ f.SymbolsTyped ∧
      f.ConversionsTyped ∧ defaultSandbox.run f = .ok ⟨g, .ok stats⟩ ∧ stats.folded = 0 ∧
      stats.addresses = 2 ∧ ∃ again, (Auditor.mk defaultBaseSymbol true).audit g = .ok again ∧
        (Auditor.mk defaultBaseSymbol true).accepts again = true := by
  obtain ⟨f, report, hf, hAudit, hAccepts, hCounts⟩ : ∃ f report,
      Func.ofEdits "f" [.i32] .void writtenConfined = .ok f ∧
      (Auditor.mk defaultBaseSymbol false).audit f = .ok report ∧
      (Auditor.mk defaultBaseSymbol false).accepts report = true ∧
      report.counts.addresses + report.counts.baseLoads = 2 := ⟨_, _, rfl, rfl, rfl, rfl⟩
  have hSymbols := symbolsTyped_writtenConfined hf
  have hConversions := (typed_writtenConfined hf).2.1
  obtain ⟨⟨g, stats, hRun, hFolded, _, hAddresses, hAgain⟩, _⟩ :=
    accepted_confined_again (s := defaultSandbox) (Func.built_ofEdits hf) hSymbols hConversions rfl
      rfl hAudit hAccepts
  exact ⟨f, report, g, stats, hf, hAudit, hAccepts, hSymbols, hConversions, hRun, hFolded,
    hAddresses.trans hCounts, hAgain true⟩

end FaultIsolation
