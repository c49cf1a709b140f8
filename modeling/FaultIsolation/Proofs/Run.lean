import FaultIsolation.Proofs.ConfinedForm
import FaultIsolation.Proofs.Walk

/-!
A whole run. It never faults. It is refused if an instruction is, or by the audit if there is one;
otherwise every place was dealt with, and what has become of each address and each length of the
original function is known.
-/
namespace FaultIsolation

/-- All places of the function were dealt with. Every instruction of the layout has passed the vet,
or it was removed before its turn. -/
abbrev Finished (s : Sandbox) (symbol : Symbol) (f : Func) (p : Pass) : Prop :=
  Walked s symbol f f.layout p

theorem Func.isDeclaration_of_mem_layout {f : Func} {id : InstId} (h : id ∈ f.layout) :
    f.isDeclaration = false := by
  obtain ⟨b, hb, _⟩ := List.mem_flatMap.mp h
  exact isDeclaration_eq_false_iff.mpr (List.length_pos_of_mem hb)

namespace Sandbox

variable {s : Sandbox} {symbol : Symbol} {f : Func}

theorem run_declaration (h : f.isDeclaration = true) {g : Func} {stats : Stats}
    (hRun : s.run f = .ok ⟨g, .ok stats⟩) : f = g ∧ stats = {} := by
  simp only [run, h, if_true] at hRun
  cases hRun
  exact ⟨rfl, rfl⟩

/-- The audit, if there is one, refuses what is not in confined form. -/
theorem failedAudit?_cases (s : Sandbox) {g : Func} (hg : g.Consistent) :
    (s.failedAudit? g = .ok none ∧
      (s.options.audit = true → g.InConfinedForm s.options.baseSymbol)) ∨
      ∃ refusal, s.failedAudit? g = .ok (some refusal) ∧ s.options.audit = true ∧
        ¬g.InConfinedForm s.options.baseSymbol := by
  cases hOption : s.options.audit with
  | false =>
      refine .inl ⟨?_, fun hAudit => by cases hAudit⟩
      simp only [failedAudit?, hOption]
      rfl
  | true =>
      obtain ⟨report, hReport, hFindings, _⟩ :=
        (Auditor.mk s.options.baseSymbol false).audit_spec hg
      cases hAccepts : (Auditor.mk s.options.baseSymbol false).accepts report with
      | true =>
          refine .inl ⟨?_, fun _ => hFindings.mp (by simpa [Auditor.accepts] using hAccepts)⟩
          simp only [failedAudit?, hOption, hReport, bind, Except.bind, hAccepts]
          rfl
      | false =>
          refine .inr ⟨.auditFailed g.name report.findings, ?_, rfl, fun hForm => ?_⟩
          · simp only [failedAudit?, hOption, hReport, bind, Except.bind, hAccepts]
            rfl
          · simp [Auditor.accepts, hFindings.mpr hForm] at hAccepts

/-- How a run can end: an instruction is refused, and those before it have had their turn; the audit
refuses what confinement has left; or the run succeeds. -/
theorem run_ends (hs : s.source = .ofSymbol symbol) (hf : f.Consistent)
    (hBody : f.isDeclaration = false) :
    (∃ front id back p refusal, f.layout = front ++ id :: back ∧
      s.run f = .ok ⟨p.func, .error refusal⟩ ∧ Stopped s symbol f front id refusal p) ∨
    ∃ p, Finished s symbol f p ∧
      ((∃ refusal, s.run f = .ok ⟨p.func, .error refusal⟩ ∧ s.options.audit = true) ∨
        s.run f = .ok ⟨p.func, .ok { p.stats with functions := 1 }⟩ ∧
          (s.options.audit = true → p.func.InConfinedForm s.options.baseSymbol)) := by
  rcases walk_front hs hf (Func.isDeclaration_eq_false_iff.mp hBody)
    (List.append_nil f.layout).symm with
    ⟨p, hWalk, hWalked⟩ | ⟨front, id, back, p, refusal, hLayout, hWalk, hStopped⟩
  · refine .inr ⟨p, hWalked, ?_⟩
    rcases s.failedAudit?_cases hWalked.consistent with ⟨hNone, hForm⟩ | ⟨refusal, hSome, hAudit, _⟩
    · refine .inr ⟨?_, hForm⟩
      simp only [run, hBody, hWalk, hNone, bind, Except.bind]
      rfl
    · refine .inl ⟨refusal, ?_, hAudit⟩
      simp only [run, hBody, hWalk, hSome, bind, Except.bind]
      rfl
  · refine .inl ⟨front, id, back, p, refusal, hLayout, ?_, hStopped⟩
    simp only [run, hBody, hWalk, bind, Except.bind]
    rfl

/-- The same, without what has happened before an instruction is refused. -/
theorem run_cases (hs : s.source = .ofSymbol symbol) (hf : f.Consistent)
    (hBody : f.isDeclaration = false) :
    (∃ g refusal, s.run f = .ok ⟨g, .error refusal⟩ ∧
      ∃ id ∈ f.layout, f.vet id ≠ .ok () ∧ g.isLive id = .ok true) ∨
    ∃ p, Finished s symbol f p ∧
      ((∃ refusal, s.run f = .ok ⟨p.func, .error refusal⟩ ∧ s.options.audit = true) ∨
        s.run f = .ok ⟨p.func, .ok { p.stats with functions := 1 }⟩ ∧
          (s.options.audit = true → p.func.InConfinedForm s.options.baseSymbol)) := by
  refine (run_ends hs hf hBody).imp_left ?_
  rintro ⟨front, id, back, p, refusal, hLayout, hRun, hStopped⟩
  exact ⟨p.func, refusal, hRun, id, by simp [hLayout], by simp [hStopped.refused], hStopped.live⟩

/-- A run that loads the region base from a variable never faults. -/
theorem exists_run (hs : s.source = .ofSymbol symbol) (hf : f.Consistent) :
    ∃ outcome, s.run f = .ok outcome := by
  cases hBody : f.isDeclaration with
  | true => exact ⟨⟨f, .ok {}⟩, by simp only [run, hBody]; rfl⟩
  | false =>
      rcases run_cases hs hf hBody with ⟨g, refusal, hRun, _⟩ |
        ⟨p, _, ⟨refusal, hRun, _⟩ | ⟨hRun, _⟩⟩
      · exact ⟨_, hRun⟩
      · exact ⟨_, hRun⟩
      · exact ⟨_, hRun⟩

/-- Wherever a run ends, what it leaves is settled. -/
theorem run_settled (hs : s.source = .ofSymbol symbol) (hf : f.Consistent)
    (hBody : f.isDeclaration = false) {outcome : Outcome} (hRun : s.run f = .ok outcome) :
    ∃ done p, outcome.func = p.func ∧ Settled s symbol f done p := by
  rcases run_ends hs hf hBody with ⟨front, id, back, p, refusal, _, hOk, hStopped⟩ |
    ⟨p, hFinished, hEnd⟩
  · obtain rfl := Except.ok.inj (hRun.symm.trans hOk)
    exact ⟨_, p, rfl, hStopped.toSettled⟩
  · rcases hEnd with ⟨refusal, hOk, _⟩ | ⟨hOk, _⟩
    · obtain rfl := Except.ok.inj (hRun.symm.trans hOk)
      exact ⟨_, p, rfl, hFinished.toSettled⟩
    · obtain rfl := Except.ok.inj (hRun.symm.trans hOk)
      exact ⟨_, p, rfl, hFinished.toSettled⟩

/-- A run succeeds if every instruction passes and what confinement leaves is in confined form. -/
theorem run_of_vetted (hs : s.source = .ofSymbol symbol) (hf : f.Consistent)
    (hBody : f.isDeclaration = false) (hVets : ∀ id ∈ f.layout, f.vet id = .ok ())
    (hForm : ∀ p, Finished s symbol f p → p.func.InConfinedForm s.options.baseSymbol) :
    ∃ p, Finished s symbol f p ∧ s.run f = .ok ⟨p.func, .ok { p.stats with functions := 1 }⟩ := by
  rcases walk_front hs hf (Func.isDeclaration_eq_false_iff.mp hBody)
    (List.append_nil f.layout).symm with
    ⟨p, hWalk, hWalked⟩ | ⟨front, id, back, p, refusal, hLayout, _, hStopped⟩
  · refine ⟨p, hWalked, ?_⟩
    rcases s.failedAudit?_cases hWalked.consistent with ⟨hNone, _⟩ | ⟨_, _, _, hNot⟩
    · simp only [run, hBody, hWalk, hNone, bind, Except.bind]
      rfl
    · exact absurd (hForm p hWalked) hNot
  · have hRefused := hStopped.refused
    rw [hVets id (by simp [hLayout])] at hRefused
    cases hRefused

/-- A run that succeeds is finished. -/
theorem run_ok (hs : s.source = .ofSymbol symbol) (hf : f.Consistent)
    (hBody : f.isDeclaration = false) {g : Func} {stats : Stats}
    (hRun : s.run f = .ok ⟨g, .ok stats⟩) :
    ∃ p, p.func = g ∧ stats = { p.stats with functions := 1 } ∧ Finished s symbol f p := by
  rcases run_cases hs hf hBody with ⟨_, _, hRefused, _⟩ |
    ⟨p, hFinished, ⟨_, hRefused, _⟩ | ⟨hOk, _⟩⟩
  · rw [hRun] at hRefused
    cases hRefused
  · rw [hRun] at hRefused
    cases hRefused
  · rw [hRun] at hOk
    cases hOk
    exact ⟨p, rfl, rfl, hFinished⟩

end Sandbox

def Func.AddressAt (f : Func) (id : InstId) (position : Nat) (v : Value) : Prop :=
  id ∈ f.layout ∧ ∃ inst, f.inst id = .ok inst ∧ position ∈ (Access.ofInstruction inst).addresses ∧
    inst.operands[position]? = some v

def Func.LengthAt (f : Func) (id : InstId) (position : Nat) (v : Value) : Prop :=
  id ∈ f.layout ∧ ∃ inst, f.inst id = .ok inst ∧
    (Access.ofInstruction inst).length? = some position ∧ inst.operands[position]? = some v

/-- What becomes of a length: a chain clips it if it is a machine word, and else it is what it
was. -/
inductive Func.LengthBecomes (f g : Func) (v w : Value) : Prop where
  | clipped (start : InstId) (word : f.typeOf v = .ok .i64) (last : w = .inst (start + 1))
      (standing : g.Standing start (clippedChain start v))
  | kept (ty : Ty) (typed : f.typeOf v = .ok ty) (other : ty ≠ .i64) (same : w = v)

theorem Func.Takes.addressAt {f : Func} {site : Site} {c : Cell} {v : Value} (h : f.Takes site c v)
    (hf : f.Consistent) (hRole : site.role = .address) : f.AddressAt site.id site.position v := by
  refine ⟨hf.mem_layout_iff.mpr ⟨c, h.cell, h.live⟩, c.inst, inst_of_cell h.cell, ?_,
    operand_of_accessOperand? h.operand⟩
  exact Access.mem_places_address.mp (hRole ▸ h.listed)

namespace Finished

variable {s : Sandbox} {symbol : Symbol} {f : Func} {p : Pass} {id : InstId} {c d : Cell}

theorem mem_layout_of_live (h : Finished s symbol f p) (hf : f.Consistent)
    (hc : f.cells[id]? = some c) (hd : p.func.cells[id]? = some d) (hLive : d.live = true) :
    id ∈ f.layout :=
  hf.mem_layout_iff.mpr ⟨c, hc, h.keeps.live hc hd hLive⟩

/-- An instruction of the original function that still stands has passed the vet. -/
theorem vetted_of_live (h : Finished s symbol f p) (hf : f.Consistent) (hc : f.cells[id]? = some c)
    (hd : p.func.cells[id]? = some d) (hLive : d.live = true) : f.Vetted c.inst := by
  rcases h.vetted id (h.mem_layout_of_live hf hc hd hLive) with hVet | ⟨_, hDead⟩
  · rcases Func.vet_decides hf hc with ⟨_, hVetted⟩ | ⟨_, hRefused, _⟩
    · exact hVetted
    · rw [hVet] at hRefused
      cases hRefused
  · rw [Func.isLive_of_cell hd, hLive] at hDead
    cases hDead

theorem mem_done (hf : f.Consistent) (hc : f.cells[id]? = some c) (hLive : c.live = true)
    {position : Nat} {role : Role}
    (hPlace : (position, role) ∈ (Access.ofInstruction c.inst).places) :
    ⟨id, position, role⟩ ∈ f.layout.flatMap f.sites := by
  refine List.mem_flatMap.mpr ⟨id, hf.mem_layout_iff.mpr ⟨c, hc, hLive⟩, ?_⟩
  simp only [Func.sites, hc, Option.toList_some, List.flatMap_singleton, List.mem_map]
  exact ⟨(position, role), hPlace, rfl⟩

/-- An access of the original function still stands. -/
theorem access_stands (h : Finished s symbol f p) (hc : f.cells[id]? = some c)
    (hLive : c.live = true) (hPlaces : (Access.ofInstruction c.inst).places ≠ []) :
    ∃ d, p.func.cells[id]? = some d ∧ d.live = true ∧ d.inst.opcode = c.inst.opcode ∧
      Carried s f (f.layout.flatMap f.sites) p id c d := by
  obtain ⟨d, hd, hCarried | hDropped⟩ := h.old id c hc
  · exact ⟨d, hd, hCarried.live.trans hLive, h.keeps.opcode hc hd, hCarried⟩
  · obtain ⟨_, _, _, _, address, _, _, hFold, hId⟩ := hDropped.folded
    exact absurd (places_of_folded hFold hId hc) hPlaces

/-- Every address of the original function was dealt with. -/
theorem takes_address (h : Finished s symbol f p) (hf : f.Consistent) {position : Nat} {v : Value}
    (hAt : f.AddressAt id position v) :
    ∃ c, f.Takes ⟨id, position, .address⟩ c v ∧
      ⟨id, position, .address⟩ ∈ f.layout.flatMap f.sites := by
  obtain ⟨hLayout, inst, hInst, hPosition, hv⟩ := hAt
  obtain ⟨c, hc, hLive, rfl⟩ := hf.cell_of_mem_layout hLayout hInst
  have hPlace := Access.mem_places_address.mpr hPosition
  obtain ⟨d, hd, hStands, _⟩ := h.access_stands hc hLive (List.ne_nil_of_mem hPlace)
  obtain ⟨w, hw, hPointer⟩ := (h.vetted_of_live hf hc hd hStands).addresses position hPosition
  obtain rfl : w = v := by simpa [Func.operand_of_accessOperand? hw] using hv
  exact ⟨c, ⟨hc, hLive, hPlace, hw, fun _ => hPointer⟩, mem_done hf hc hLive hPlace⟩

/-- Every length of the original function was dealt with. -/
theorem takes_length (h : Finished s symbol f p) (hf : f.Consistent) {position : Nat} {v : Value}
    (hAt : f.LengthAt id position v) :
    ∃ c, f.Takes ⟨id, position, .length⟩ c v ∧
      ⟨id, position, .length⟩ ∈ f.layout.flatMap f.sites := by
  obtain ⟨hLayout, inst, hInst, hPosition, hv⟩ := hAt
  obtain ⟨c, hc, hLive, rfl⟩ := hf.cell_of_mem_layout hLayout hInst
  have hPlace := Access.mem_places_length.mpr hPosition
  obtain ⟨d, hd, hStands, _⟩ := h.access_stands hc hLive (List.ne_nil_of_mem hPlace)
  obtain ⟨w, hw⟩ := (h.vetted_of_live hf hc hd hStands).length position
    (Option.mem_toList.mpr hPosition)
  obtain rfl : w = v := by simpa [Func.operand_of_accessOperand? hw] using hv
  exact ⟨c, ⟨hc, hLive, hPlace, hw, fun hRole => by cases hRole⟩, mem_done hf hc hLive hPlace⟩

/-- Every address has become the end of a chain that confines it. -/
theorem address (h : Finished s symbol f p) (hf : f.Consistent) {position : Nat} {v : Value}
    (hAt : f.AddressAt id position v) :
    ∃ d start base ty fold, p.func.cells[id]? = some d ∧ d.live = true ∧
      d.inst.operands[position]? = some (.inst (start + 3)) ∧ f.cells.length ≤ start ∧
      p.base = some base ∧ f.typeOf v = .ok ty ∧ s.foldable? f v = .ok fold ∧
      p.func.Standing start (addressChain start base v ty fold) := by
  obtain ⟨c, hTakes, hDone⟩ := h.takes_address hf hAt
  obtain ⟨d, hd, hLive, _⟩ := h.access_stands hTakes.cell hTakes.live
    (List.ne_nil_of_mem hTakes.listed)
  obtain ⟨start, base, ty, fold, hAddress⟩ := h.address_of_done hDone hTakes hd
  exact ⟨d, start, base, ty, fold, hd, hLive, hAddress⟩

/-- Every length has become the end of a chain that clips it, or was no machine word and is what it
was. -/
theorem length (h : Finished s symbol f p) (hf : f.Consistent) {position : Nat} {v : Value}
    (hAt : f.LengthAt id position v) :
    ∃ d, p.func.cells[id]? = some d ∧ d.live = true ∧
      ((∃ start, d.inst.operands[position]? = some (.inst (start + 1)) ∧ f.cells.length ≤ start ∧
        f.typeOf v = .ok .i64 ∧ p.func.Standing start (clippedChain start v)) ∨
      ∃ ty, f.typeOf v = .ok ty ∧ ty ≠ .i64 ∧ d.inst.operands[position]? = some v) := by
  obtain ⟨c, hTakes, hDone⟩ := h.takes_length hf hAt
  obtain ⟨d, hd, hLive, _⟩ := h.access_stands hTakes.cell hTakes.live
    (List.ne_nil_of_mem hTakes.listed)
  exact ⟨d, hd, hLive, h.length_of_done hDone hTakes hd⟩

/-- What still stands takes the addresses it should. -/
theorem addressAt_of_live (h : Finished s symbol f p) (hf : f.Consistent)
    (hc : f.cells[id]? = some c) (hd : p.func.cells[id]? = some d) (hLive : d.live = true)
    {position : Nat} (hPosition : position ∈ (Access.ofInstruction c.inst).addresses) :
    ∃ v, f.AddressAt id position v := by
  obtain ⟨v, hv, _⟩ := (h.vetted_of_live hf hc hd hLive).addresses position hPosition
  exact ⟨v, h.mem_layout_of_live hf hc hd hLive, c.inst, Func.inst_of_cell hc, hPosition,
    Func.operand_of_accessOperand? hv⟩

/-- What still stands takes the length it should. -/
theorem lengthAt_of_live (h : Finished s symbol f p) (hf : f.Consistent)
    (hc : f.cells[id]? = some c) (hd : p.func.cells[id]? = some d) (hLive : d.live = true)
    {position : Nat} (hPosition : (Access.ofInstruction c.inst).length? = some position) :
    ∃ v, f.LengthAt id position v := by
  obtain ⟨v, hv⟩ := (h.vetted_of_live hf hc hd hLive).length position
    (Option.mem_toList.mpr hPosition)
  exact ⟨v, h.mem_layout_of_live hf hc hd hLive, c.inst, Func.inst_of_cell hc, hPosition,
    Func.operand_of_accessOperand? hv⟩

/-- What still stands does with memory what it did. -/
theorem access_eq_of_live (h : Finished s symbol f p) (hc : f.cells[id]? = some c)
    (hd : p.func.cells[id]? = some d) (hLive : d.live = true) :
    Access.ofInstruction d.inst = Access.ofInstruction c.inst :=
  h.access_of_carried hc (h.keeps.opcode hc hd) (h.carried_of_live hc hd hLive)

/-- What took a length still takes one at the same position. -/
theorem lengthAt (h : Finished s symbol f p) (hf : f.Consistent) {position : Nat} {v : Value}
    (hAt : f.LengthAt id position v) :
    ∃ w, p.func.LengthAt id position w ∧ f.LengthBecomes p.func v w := by
  obtain ⟨c, hTakes, _⟩ := h.takes_length hf hAt
  obtain ⟨d, hd, hLive, hCases⟩ := h.length hf hAt
  have hNow : ∀ w, d.inst.operands[position]? = some w → p.func.LengthAt id position w :=
    fun w hw => by
    refine ⟨h.consistent.mem_layout_iff.mpr ⟨d, hd, hLive⟩, d.inst, Func.inst_of_cell hd, ?_, hw⟩
    rw [h.access_eq_of_live hTakes.cell hd hLive]
    exact Access.mem_places_length.mp hTakes.listed
  rcases hCases with ⟨start, hOperand, _, hWord, hStanding⟩ | ⟨ty, hTy, hOther, hOperand⟩
  · exact ⟨_, hNow _ hOperand, .clipped start hWord rfl hStanding⟩
  · exact ⟨v, hNow v hOperand, .kept ty hTy hOther rfl⟩

end Finished

end FaultIsolation
