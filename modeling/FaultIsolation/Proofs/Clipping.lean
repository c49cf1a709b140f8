import FaultIsolation.Proofs.GuardArea

/-!
Which lengths end up short. A length of a machine word is cut to its low half, and every other one
stays what it was. Among those that stay, integers of at most 32 bits and values widened from 32
bits are short already. Integers of another width, and values that are no integers, escape: only the
audit tells.
-/
namespace FaultIsolation

namespace Func

def IsShort (f : Func) (v : Value) : Prop :=
  (∃ bits ≤ addressWidth, f.typeOf v = .ok (.int bits)) ∨ f.IsWidened v

theorem IsClipped.isShort {f : Func} {v : Value} (h : f.IsClipped v) : f.IsShort v := by
  obtain ⟨bits, hTy, hNarrow | hWidened⟩ := h
  · exact .inl ⟨bits, hNarrow, hTy⟩
  · exact .inr hWidened

theorem LengthAt.unique {f : Func} {id : InstId} {position : Nat} {v w : Value}
    (h : f.LengthAt id position v) (h' : f.LengthAt id position w) : v = w := by
  obtain ⟨_, inst, hInst, _, hv⟩ := h
  obtain ⟨_, inst', hInst', _, hw⟩ := h'
  obtain rfl := Except.ok.inj (hInst.symm.trans hInst')
  exact Option.some.inj (hv.symm.trans hw)

theorem LengthAt.operand {f : Func} {id : InstId} {position : Nat} {v : Value}
    (h : f.LengthAt id position v) (hf : f.Consistent) :
    ∃ c, f.cells[id]? = some c ∧ v ∈ c.inst.operands := by
  obtain ⟨hLayout, inst, hInst, _, hv⟩ := h
  obtain ⟨c, hc, _, rfl⟩ := hf.cell_of_mem_layout hLayout hInst
  exact ⟨c, hc, List.mem_of_getElem? hv⟩

end Func

/-- Widening adds nothing to a value. -/
theorem Valuation.SolvesFor.widened_le {ρ : Valuation} {g : Func} {kinds : List Opcode}
    (h : ρ.SolvesFor g kinds) (hKind : .cast .zext ∈ kinds) (hg : g.Consistent) {id : InstId}
    {c : Cell} {u : Value} {bits : Nat} (hc : g.cells[id]? = some c)
    (hZext : c.inst.opcode = .cast .zext) (hu : c.inst.operands[0]? = some u)
    (hTy : c.inst.ty = .int bits) : (ρ.inst id).toNat ≤ (ρ.value u).toNat := by
  obtain ⟨rest, hOperands⟩ : ∃ rest, c.inst.operands = u :: rest := by
    cases hAll : c.inst.operands <;> simp [hAll] at hu
    exact ⟨_, by rw [hu]⟩
  have hResult : ρ.result? c.inst = some (mask bits (ρ.value u)) := by
    simp only [result?, hZext, hOperands, hTy, Ty.valueWidth?]
  rw [h.eq_of_cell hg hc (hZext ▸ hKind) hResult, mask_toNat]
  exact Nat.mod_le _ _

namespace Finished

variable {s : Sandbox} {symbol : Symbol} {f : Func} {p : Pass} {id : InstId}
  {position : Nat} {v w : Value}

/-- Every operation on a block that stands in the confined function stood in the original one. -/
theorem lengthAt_of_position (h : Finished s symbol f p) (hf : f.Consistent) {inst : Instruction}
    (hLayout : id ∈ p.func.layout) (hInst : p.func.inst id = .ok inst)
    (hPosition : (Access.ofInstruction inst).length? = some position) :
    ∃ v, f.LengthAt id position v := by
  obtain ⟨d, hd, hLive, rfl⟩ := h.consistent.cell_of_mem_layout hLayout hInst
  rcases Nat.lt_or_ge id f.cells.length with hLt | hGe
  · obtain ⟨c, hc⟩ := Func.exists_cell hLt
    rw [h.access_eq_of_live hc hd hLive] at hPosition
    exact h.lengthAt_of_live hf hc hd hLive hPosition
  · rcases (h.fresh_cell hGe hd).2 with ⟨_, hLoad⟩ | ⟨_, _, _, _, _, _, _, _, hPlaced, _, hi⟩
    · rw [hLoad] at hPosition
      cases hPosition
    · rcases hPlaced.chain.access _ (List.mem_of_getElem? hi) with hAccess | hAccess <;>
        simp [hAccess, Access.length?] at hPosition

/-- Every length in the confined function has come of one in the original function. -/
theorem lengthAt_origin (h : Finished s symbol f p) (hf : f.Consistent)
    (hAt : p.func.LengthAt id position w) :
    ∃ v, f.LengthAt id position v ∧ f.LengthBecomes p.func v w := by
  have ⟨hLayout, inst, hInst, hPosition, _⟩ := hAt
  obtain ⟨v, hv⟩ := h.lengthAt_of_position hf hLayout hInst hPosition
  obtain ⟨w', hw', hBecomes⟩ := h.lengthAt hf hv
  obtain rfl := hAt.unique hw'
  exact ⟨v, hv, hBecomes⟩

/-- A length comes out short exactly if it was a machine word or short. -/
theorem isShort_iff (h : Finished s symbol f p) (hf : f.Consistent)
    (hAt : p.func.LengthAt id position w) (hBecomes : f.LengthBecomes p.func v w) :
    p.func.IsShort w ↔ f.typeOf v = .ok .i64 ∨ f.IsShort v := by
  cases hBecomes with
  | clipped start word last standing =>
      rw [last]
      exact iff_of_true (Func.isClipped_clipped standing).isShort (.inl word)
  | kept ty typed other same =>
      subst same
      obtain ⟨d, hd, hw⟩ := hAt.operand h.consistent
      have hIn := Func.within_of_typeOf typed
      have hNoWord : f.typeOf w ≠ .ok .i64 :=
        fun hWord => other (Except.ok.inj (typed.symm.trans hWord))
      simp only [Func.IsShort, h.isWidened_iff hf hd hw hIn, h.keeps.typeOf_iff hIn,
        hNoWord, false_or]

/-- A length that the audit accepts has a value of 32 bits. -/
theorem length_lt (h : Finished s symbol f p) (hf : f.Consistent) (hConstants : f.ConstantsOfWord)
    {ρ : Valuation} (hρ : ρ.Solves p.func) (hRespects : ρ.Respects p.func)
    (hAt : p.func.LengthAt id position w) (hClipped : p.func.IsClipped w) :
    (ρ.value w).toNat < 2 ^ 32 := by
  obtain ⟨v, hOld, hBecomes⟩ := h.lengthAt_origin hf hAt
  cases hBecomes with
  | clipped start word last standing =>
      rw [last]
      exact (Valuation.clipped_value (hρ.solvesFrom 0) h.consistent
        (Nat.zero_le _) standing).trans_lt (Nat.mod_lt _ (by decide))
  | kept ty typed other same =>
      subst same
      obtain ⟨d, hd, hw⟩ := hAt.operand h.consistent
      obtain ⟨c, hc, hv⟩ := hOld.operand hf
      have hIn := Func.within_of_typeOf typed
      obtain ⟨bits, hTy, hNarrow | hWidened⟩ := hClipped
      · have hLt := hRespects.operand_lt h.keeps hConstants hc hv ((h.keeps.typeOf_iff hIn).mp hTy)
        exact Nat.lt_of_lt_of_le hLt (Nat.pow_le_pow_right (by decide) hNarrow)
      · obtain ⟨j, e, u, rfl, he, hZext, hu, hOffset⟩ := (h.isWidened_iff hf hd hw hIn).mp hWidened
        -- The widening is as it was, so its value is that of the 32 bits it starts from.
        have hNow := h.cell_of_zext he hZext hd hw
        have hInt : e.inst.ty = .int bits := by simpa [Func.typeOf_of_cell hNow] using hTy
        exact ((hρ.solvesFor [.cast .zext]).widened_le (by simp) h.consistent hNow hZext
          hu hInt).trans_lt (hRespects.operand_lt h.keeps hConstants he
          (List.mem_of_getElem? hu) hOffset)

end Finished

/-- The length of an operation on a block comes out short exactly if it was a machine word or short,
and one that comes out otherwise is what it was. So all lengths are short exactly if each was one or
the other; those that are integers have values of 32 bits then. -/
theorem lengths_short_iff {s : Sandbox} {symbol : Symbol} {f g : Func} {stats : Stats}
    (hBuilt : f.Built) (hSource : s.source = .ofSymbol symbol)
    (hRun : s.run f = .ok ⟨g, .ok stats⟩) :
    (∀ id inst position, id ∈ g.layout → g.inst id = .ok inst →
      (Access.ofInstruction inst).length? = some position → ∃ v w, f.LengthAt id position v ∧
      g.LengthAt id position w ∧
        (g.IsShort w ↔ f.typeOf v = .ok .i64 ∨ f.IsShort v) ∧ (¬g.IsShort w → w = v)) ∧
    ((∀ id position w, g.LengthAt id position w → g.IsShort w) ↔
      ∀ id position v, f.LengthAt id position v → f.typeOf v = .ok .i64 ∨ f.IsShort v) ∧
    (f.ConstantsOfWord → ∀ ρ : Valuation, ρ.Solves g → ρ.Respects g →
      ∀ id position w, g.LengthAt id position w → g.IsClipped w → (ρ.value w).toNat < 2 ^ 32) := by
  have hf := hBuilt.consistent
  cases hBody : f.isDeclaration with
  | true =>
      -- Without a body nothing stands in either function.
      obtain ⟨rfl, _⟩ := Sandbox.run_declaration hBody hRun
      have hNone : ∀ id, id ∉ f.layout := fun id hId => by
        rw [Func.isDeclaration_of_mem_layout hId] at hBody
        cases hBody
      exact ⟨fun id _ _ hId => absurd hId (hNone id),
        iff_of_true (fun id _ _ hAt => absurd hAt.1 (hNone id)) fun id _ _ hAt =>
        absurd hAt.1 (hNone id), fun _ _ _ _ id _ _ hAt => absurd hAt.1 (hNone id)⟩
  | false =>
      obtain ⟨p, rfl, _, h⟩ := Sandbox.run_ok hSource hf hBody hRun
      refine ⟨?_, ⟨?_, ?_⟩, fun hConstants ρ hρ hRespects id position w hAt hClipped =>
        h.length_lt hf hConstants hρ hRespects hAt hClipped⟩
      · intro id inst position hLayout hInst hPosition
        obtain ⟨v, hv⟩ := h.lengthAt_of_position hf hLayout hInst hPosition
        obtain ⟨w, hw, hBecomes⟩ := h.lengthAt hf hv
        refine ⟨v, w, hv, hw, h.isShort_iff hf hw hBecomes, fun hLong => ?_⟩
        cases hBecomes with
        | clipped start word last standing =>
            exact absurd ((h.isShort_iff hf hw (.clipped start word last standing)).mpr
              (.inl word)) hLong
        | kept ty typed other same => exact same
      · intro hAll id position v hv
        obtain ⟨w, hw, hBecomes⟩ := h.lengthAt hf hv
        exact (h.isShort_iff hf hw hBecomes).mp (hAll id position w hw)
      · intro hAll id position w hw
        obtain ⟨v, hv, hBecomes⟩ := h.lengthAt_origin hf hw
        exact (h.isShort_iff hf hw hBecomes).mpr (hAll id position v hv)

theorem lengths_short_iff_readThenFill :
    ∃ f g stats, Func.ofEdits "f" [.i32, .ptr (.int 8)] .void readThenFill = .ok f ∧
      defaultSandbox.run f = .ok ⟨g, .ok stats⟩ ∧ ∃ w, g.LengthAt 3 2 w ∧ g.IsShort w := by
  obtain ⟨f, g, stats, inst, hf, hRun, hLayout, hInst, hPosition, hWord⟩ : ∃ f g stats inst,
      Func.ofEdits "f" [.i32, .ptr (.int 8)] .void readThenFill = .ok f ∧
      defaultSandbox.run f = .ok ⟨g, .ok stats⟩ ∧ 3 ∈ g.layout ∧ g.inst 3 = .ok inst ∧
      (Access.ofInstruction inst).length? = some 2 ∧ f.LengthAt 3 2 (.inst 2) ∧
      f.typeOf (.inst 2) = .ok .i64 :=
    ⟨_, _, _, _, rfl, rfl, by decide, rfl, rfl, ⟨by decide, _, rfl, rfl, rfl⟩, rfl⟩
  obtain ⟨hEach, _⟩ := lengths_short_iff (Func.built_ofEdits hf) (s := defaultSandbox) rfl hRun
  obtain ⟨v, w, hv, hw, hIff, _⟩ := hEach 3 inst 2 hLayout hInst hPosition
  obtain rfl := hv.unique hWord.1
  exact ⟨f, g, stats, hf, hRun, w, hw, hIff.mpr (.inl hWord.2)⟩

def wideFill : List Func.Edit :=
  [ .addBlock "entry",
    .append 0 {
      opcode := .call
      operands := [.arg 0, .ofWord 8 0, .arg 1,
        .global (.function "llvm.memset.p0i8.i64" .void [.ptr (.int 8), .int 8, .int 48])]
      ty := .void } ]

/-- A region base of 2⁴⁰, and a length just beyond 32 bits. -/
def wideFillValues : Valuation where
  inst id := [0, 0x10000000000, 0, 0, 0x10000000000, 0x10000000000].getD id 0
  arg index := [0, 0x100000000].getD index 0
  symbol _ := 0
  constant _ := 0

theorem constantsOfWord_wideFill {f : Func}
    (h : Func.ofEdits "f" [.ptr (.int 8), .int 48] .void wideFill = .ok f) : f.ConstantsOfWord := by
  obtain rfl := Except.ok.inj h
  intro id inst bits word hInst hMem
  rcases id with _ | id <;> cases hInst
  obtain ⟨rfl, rfl⟩ : bits = 8 ∧ word = mask 8 0 := by
    simpa [Value.ofWord, Constant.ofWord] using hMem
  exact ⟨0, rfl⟩

theorem respects_wideFill {g : Func} (hParams : g.params = [.ptr (.int 8), .int 48])
    (hTypes : g.cells.map (·.inst.ty) = [.void, .i64, .i32, .i64, .i64, .ptr (.int 8)]) :
    wideFillValues.Respects g := by
  refine Valuation.respects_of_zero ?_ ?_ (fun _ => rfl) fun _ => rfl
  · intro id bits hAt
    rw [hTypes] at hAt
    rcases id with _ | _ | _ | _ | _ | _ | id <;> cases hAt
    all_goals first | exact UInt64.toNat_lt _ | exact Nat.two_pow_pos _
  · intro position bits hAt
    rw [hParams] at hAt
    rcases position with _ | _ | position <;> cases hAt
    decide

/-- A length of 48 bits is left as it is, and the operation may go on beyond 32 bits. -/
theorem wide_length_escapes_clipping :
    ∃ f g stats w, f.Built ∧ f.ConstantsOfWord ∧ defaultSandbox.run f = .ok ⟨g, .ok stats⟩ ∧
      g.LengthAt 0 2 w ∧ ¬g.IsShort w ∧ wideFillValues.Solves g ∧ wideFillValues.Respects g ∧
      2 ^ 32 ≤ (wideFillValues.value w).toNat := by
  obtain ⟨f, g, stats, hf, hRun, hAt, hTy, hSolves, hParams, hTypes⟩ : ∃ f g stats,
      Func.ofEdits "f" [.ptr (.int 8), .int 48] .void wideFill = .ok f ∧
      defaultSandbox.run f = .ok ⟨g, .ok stats⟩ ∧ g.LengthAt 0 2 (.arg 1) ∧
      g.typeOf (.arg 1) = .ok (.int 48) ∧ wideFillValues.solves g = true ∧
      g.params = [.ptr (.int 8), .int 48] ∧ g.cells.map (·.inst.ty) = [.void, .i64, .i32, .i64,
        .i64, .ptr (.int 8)] :=
    ⟨_, _, _, rfl, rfl, ⟨by decide, _, rfl, rfl, rfl⟩, rfl, rfl, rfl, rfl⟩
  have hLong : ¬g.IsShort (.arg 1) := by
    simp [Func.IsShort, Func.IsWidened, hTy, addressWidth]
  exact ⟨f, g, stats, .arg 1, Func.built_ofEdits hf, constantsOfWord_wideFill hf, hRun, hAt, hLong,
    Valuation.solves_iff.mp hSolves, respects_wideFill hParams hTypes, by decide⟩

end FaultIsolation
