import FaultIsolation.Proofs.Progress
import Mathlib.Data.List.Induction

/-!
The walk over the instructions. Vetting decides a condition on the original function and never
faults. An instruction that passes is confined completely, so the walk goes on with more places
dealt with; the walk ends at the first instruction that still stands when its turn comes and does
not pass.
-/
namespace FaultIsolation

/-- The check passes exactly if the condition holds, and refuses if not. It does not fault. -/
def Decides (check : Except Stop Unit) (P : Prop) : Prop :=
  (check = .ok () ∧ P) ∨ ∃ refusal, check = .error (.refused refusal) ∧ ¬P

namespace Decides

/-- A check decides whatever is equivalent. -/
theorem congr {check : Except Stop Unit} {P Q : Prop} (h : Decides check P) (hIff : P ↔ Q) :
    Decides check Q := by
  rcases h with ⟨hOk, hP⟩ | ⟨refusal, hRefused, hNot⟩
  · exact .inl ⟨hOk, hIff.mp hP⟩
  · exact .inr ⟨refusal, hRefused, fun hQ => hNot (hIff.mpr hQ)⟩

/-- Two checks one after the other decide both conditions. -/
theorem andThen {first second : Except Stop Unit} {P Q : Prop} (hFirst : Decides first P)
    (hSecond : Decides second Q) : Decides (first >>= fun _ => second) (P ∧ Q) := by
  rcases hFirst with ⟨rfl, hP⟩ | ⟨refusal, rfl, hNot⟩
  · exact hSecond.congr ⟨fun hQ => ⟨hP, hQ⟩, fun hBoth => hBoth.2⟩
  · exact .inr ⟨refusal, rfl, fun hBoth => hNot hBoth.1⟩

/-- Checks in order decide whether all hold. -/
theorem forM {α : Type} {xs : List α} {check : α → Except Stop Unit} {P : α → Prop}
    (h : ∀ x ∈ xs, Decides (check x) (P x)) : Decides (xs.forM check) (∀ x ∈ xs, P x) := by
  induction xs with
  | nil => exact .inl ⟨rfl, by simp⟩
  | cons x rest ih =>
      have hRest := ih fun y hy => h y (List.mem_cons_of_mem _ hy)
      exact ((h x (by simp)).andThen hRest).congr (by simp)

end Decides

namespace Func

/-- What vetting asks of an instruction: it has its addresses and its length, its addresses are
pointers, and nothing that stays unconfined is one. -/
structure Vetted (f : Func) (inst : Instruction) : Prop where
  addresses : ∀ position ∈ (Access.ofInstruction inst).addresses,
    ∃ v, inst.accessOperand? position = some v ∧ f.IsPointer v
  length : ∀ position ∈ (Access.ofInstruction inst).length?.toList, ∃ v,
  inst.accessOperand? position = some v
  unconfined : ∀ v ∈ (Access.ofInstruction inst).unconfined inst, ¬f.IsPointer v

section Vetted

variable {f : Func} {id : InstId} {c : Cell} {position : Nat} (h : f.Vetted c.inst)
  (hc : f.cells[id]? = some c) (hLive : c.live = true)

include h hc hLive

/-- Every address of an instruction that passes is there and is a pointer. -/
theorem Vetted.takes_address (hPosition : position ∈ (Access.ofInstruction c.inst).addresses) :
    ∃ v, f.Takes ⟨id, position, .address⟩ c v := by
  obtain ⟨v, hv, hPointer⟩ := h.addresses position hPosition
  exact ⟨v, hc, hLive, Access.mem_places_address.mpr hPosition, hv, fun _ => hPointer⟩

/-- Its length is there as well. -/
theorem Vetted.takes_length (hPosition : position ∈ (Access.ofInstruction c.inst).length?.toList) :
    ∃ v, f.Takes ⟨id, position, .length⟩ c v := by
  obtain ⟨v, hv⟩ := h.length position hPosition
  exact ⟨v, hc, hLive, Access.mem_places_length.mpr (Option.mem_toList.mp hPosition), hv,
    fun hRole => by cases hRole⟩

end Vetted

/-- The places of an instruction are its addresses in order and then its length. -/
theorem sites_of_cell {f : Func} {id : InstId} {c : Cell} (hc : f.cells[id]? = some c) :
    f.sites id = ((Access.ofInstruction c.inst).addresses.map fun position =>
      ⟨id, position, .address⟩) ++ (Access.ofInstruction c.inst).length?.toList.map fun position =>
      ⟨id, position, .length⟩ := by
  simp [sites, hc, Access.places, Function.comp_def]

theorem Keeps.isPointer_iff {f g : Func} (hKeeps : f.Keeps g) {v : Value}
    (hIn : v.Within f.cells.length) : g.IsPointer v ↔ f.IsPointer v := by
  obtain ⟨ty, hTy⟩ := exists_typeOf hIn
  simp [IsPointer, hTy, hKeeps.typeOf hTy]

section Vetting

variable {f : Func} {id : InstId} {c : Cell} (hf : f.Consistent) (hc : f.cells[id]? = some c)

include hc in
theorem accessOperand_decides (position : Nat) :
    Decides (discard (f.accessOperand id position))
      (∃ v, c.inst.accessOperand? position = some v) := by
  cases hv : c.inst.accessOperand? position with
  | some v =>
      rw [accessOperand_of_cell hc hv]
      exact .inl ⟨rfl, v, rfl⟩
  | none =>
      rw [accessOperand_missing hc hv]
      exact .inr ⟨_, rfl, by simp⟩

include hf hc

/-- Reading an address goes through if it is there and is a pointer. -/
theorem addressOperand_decides (position : Nat) :
    Decides (discard (f.addressOperand id position))
      (∃ v, c.inst.accessOperand? position = some v ∧ f.IsPointer v) := by
  cases hv : c.inst.accessOperand? position with
  | none =>
      rw [addressOperand_missing hc hv]
      exact .inr ⟨_, rfl, by simp⟩
  | some v =>
      obtain ⟨ty, hTy⟩ := exists_typeOf
        (hf.within c (List.mem_of_getElem? hc) v
          (List.mem_of_getElem? (operand_of_accessOperand? hv)))
      cases hPointer : ty.isPointer with
      | true =>
          rw [addressOperand_of_cell hc hv hTy hPointer]
          exact .inl ⟨rfl, v, rfl, ty, hTy, hPointer⟩
      | false =>
          rw [addressOperand_no_pointer hc hv hTy hPointer]
          refine .inr ⟨_, rfl, ?_⟩
          rintro ⟨w, hw, ty', hTy', hPointer'⟩
          obtain rfl := Option.some.inj hw
          obtain rfl : ty = ty' := by simpa [hTy] using hTy'
          simp [hPointer] at hPointer'

/-- Values pass if none of them is a pointer. -/
theorem refusePointers_decides {values : List Value} (hIn : ∀ v ∈ values, v.Within f.cells.length) :
    Decides (f.refusePointers id values) (∀ v ∈ values, ¬f.IsPointer v) := by
  rcases pointerPosition?_spec hIn with ⟨hNone, hAll⟩ | ⟨position, v, hSome, hv, hPointer⟩
  · refine .inl ⟨?_, hAll⟩
    simp only [refusePointers, hNone, lift_ok, bind, Except.bind]
    rfl
  · obtain ⟨text, hText⟩ := hf.exists_instText hc
    refine .inr ⟨.strayPointer ⟨f.name, c.inst.opcode, position⟩ text, ?_, fun hAll => ?_⟩
    · simp only [refusePointers, hSome, inst_of_cell hc, hText, lift_ok, bind, Except.bind]
      rfl
    · exact hAll v (List.mem_of_getElem? hv) hPointer

/-- Vetting passes exactly what it should, and never faults. -/
theorem vet_decides : Decides (f.vet id) (f.Vetted c.inst) := by
  have hIn : ∀ v ∈ (Access.ofInstruction c.inst).unconfined c.inst, v.Within f.cells.length :=
    fun v hv =>
    hf.within c (List.mem_of_getElem? hc) v (mem_operands_of_unconfined hv)
  have hAddresses := Decides.forM
    fun position (_ : position ∈ (Access.ofInstruction c.inst).addresses) =>
    addressOperand_decides hf hc position
  have hLength :=
    Decides.forM fun position (_ : position ∈ (Access.ofInstruction c.inst).length?.toList) =>
    accessOperand_decides hc position
  have hAll := hAddresses.andThen (hLength.andThen (refusePointers_decides hf hc hIn))
  rw [vet, inst_of_cell hc]
  exact hAll.congr ⟨fun ⟨h₁, h₂, h₃⟩ => ⟨h₁, h₂, h₃⟩, fun h =>
    ⟨h.addresses, h.length, h.unconfined⟩⟩

end Vetting

section Revetting

variable {f g : Func} {id : InstId} {c : Cell} (hKeeps : f.Keeps g) (hf : f.Consistent)
  (hc : f.cells[id]? = some c) (hNow : g.cells[id]? = some c)

include hKeeps hc hNow in
/-- What an access reads does not change as long as the instruction does not. -/
theorem Keeps.accessOperand (position : Nat) :
    g.accessOperand id position = f.accessOperand id position := by
  simp only [Func.accessOperand, inst_of_cell hc, inst_of_cell hNow, hKeeps.name]

include hKeeps hf hc hNow

theorem Keeps.addressOperand (position : Nat) :
    g.addressOperand id position = f.addressOperand id position := by
  rw [Func.addressOperand, Func.addressOperand, hKeeps.accessOperand hc hNow, inst_of_cell hc,
    inst_of_cell hNow, hKeeps.name]
  cases hv : c.inst.accessOperand? position with
  | none => simp only [accessOperand_missing hc hv, bind, Except.bind]
  | some v =>
      have hIn := hf.within c (List.mem_of_getElem? hc) v
        (List.mem_of_getElem? (operand_of_accessOperand? hv))
      simp only [accessOperand_of_cell hc hv, bind, Except.bind, hKeeps.typeOf_eq hIn]

/-- An instruction that is as it was is vetted with the same result: it passes, or it is refused for
the same reason. -/
theorem Keeps.vet : g.vet id = f.vet id := by
  have hIn : ∀ v ∈ (Access.ofInstruction c.inst).unconfined c.inst, v.Within f.cells.length :=
    fun v hv =>
    hf.within c (List.mem_of_getElem? hc) v (mem_operands_of_unconfined hv)
  simp only [Func.vet, Func.refusePointers, inst_of_cell hc, inst_of_cell hNow, lift_ok,
    bind, Except.bind, hKeeps.addressOperand hf hc hNow, hKeeps.accessOperand hc hNow,
    hKeeps.pointerPosition? hIn, hKeeps.instText hf hc hNow, hKeeps.name]

end Revetting

end Func

def Func.operandAt? (f : Func) (site : Site) : Option Value :=
  (f.cells[site.id]?).bind fun c => c.inst.accessOperand? site.position

theorem Func.Takes.operandAt? {f : Func} {site : Site} {c : Cell} {v : Value}
    (h : f.Takes site c v) : f.operandAt? site = some v := by
  rw [Func.operandAt?, h.cell]
  exact h.operand

def Func.clipsAt (f : Func) (site : Site) : Bool :=
  site.role = .length ∧ (f.operandAt? site).any fun v => (f.typeOf v).toOption = some .i64

def Sandbox.foldsAt (s : Sandbox) (f : Func) (site : Site) : Bool :=
  site.role = .address ∧ (f.operandAt? site).any fun v =>
    (s.foldable? f v).toOption.any Option.isSome

/-- A place counts as folded if it is an address that is folded. -/
theorem Sandbox.foldsAt_iff {s : Sandbox} {f : Func} {site : Site} {c : Cell} {v : Value}
    (h : f.Takes site c v) :
    s.foldsAt f site = true ↔ site.role = .address ∧
      ∃ address, s.foldable? f v = .ok (some address) := by
  rw [foldsAt, h.operandAt?]
  cases hFold : s.foldable? f v with
  | error fault => simp [hFold, Except.toOption]
  | ok fold => cases fold <;> simp [hFold, Except.toOption]

structure Tallied (s : Sandbox) (f : Func) (done : List Site) (stats : Stats) : Prop where
  lengths : stats.lengths = done.countP f.clipsAt
  folded : stats.folded = done.countP (s.foldsAt f)
  inserted : stats.inserted = stats.baseLoads + 4 * stats.addresses + 2 * stats.lengths
  removed : stats.removed ≤ 2 * stats.folded

/-- Counts of more places are added up. -/
theorem Tallied.merge {s : Sandbox} {f : Func} {done more : List Site} {stats counts : Stats}
    (h : Tallied s f done stats) (hMore : Tallied s f more counts) :
    Tallied s f (done ++ more) (stats.merge counts) where
  lengths := by simp only [Stats.merge, List.countP_append, h.lengths, hMore.lengths]
  folded := by simp only [Stats.merge, List.countP_append, h.folded, hMore.folded]
  inserted := by
    have hFirst := h.inserted
    have hSecond := hMore.inserted
    simp only [Stats.merge]
    omega
  removed := by
    have hFirst := h.removed
    have hSecond := hMore.removed
    simp only [Stats.merge]
    omega

section Tallying

variable {s : Sandbox} {f : Func} {site : Site} {c : Cell} {v : Value} (hTakes : f.Takes site c v)

include hTakes

/-- An address counts for four instructions. -/
theorem Tallied.address (hRole : site.role = .address) {fold : Option Foldable}
    (hFold : s.foldable? f v = .ok fold) {removed : Nat}
    (hRemoved : removed ≤ 2 * fold.toList.length) :
    Tallied s f [site] { addresses := 1, folded := fold.toList.length, inserted := 4, removed }
      where
  lengths := by simp [Func.clipsAt, hRole]
  folded := by
    cases fold <;> simp [Sandbox.foldsAt, hRole, hTakes.operandAt?, hFold, Except.toOption]
  inserted := rfl
  removed := hRemoved

/-- A length of a machine word counts for two instructions. -/
theorem Tallied.clipped (hRole : site.role = .length) (hWord : f.typeOf v = .ok .i64) :
    Tallied s f [site] { lengths := 1, inserted := 2 } where
  lengths := by simp [Func.clipsAt, hRole, hTakes.operandAt?, hWord, Except.toOption]
  folded := by simp [Sandbox.foldsAt, hRole]
  inserted := rfl
  removed := Nat.le_refl 0

/-- Any other length counts for nothing. -/
theorem Tallied.kept (hRole : site.role = .length) {ty : Ty} (hTy : f.typeOf v = .ok ty)
    (hOther : ty ≠ .i64) : Tallied s f [site] {} where
  lengths := by simp [Func.clipsAt, hRole, hTakes.operandAt?, hTy, hOther, Except.toOption]
  folded := by simp [Sandbox.foldsAt, hRole]
  inserted := rfl
  removed := Nat.le_refl 0

end Tallying

/-- Bringing in the region base is counted on its own. -/
theorem Tallied.opened {s : Sandbox} {symbol : Symbol} {f : Func} {done : List Site} {p q : Pass}
    {base : Value} (h : Tallied s f done p.stats) (hOpened : Pass.Opened symbol p q base) :
    Tallied s f done q.stats := by
  cases hOpened with
  | known base_eq => exact h
  | loaded base_eq consistent inserted =>
      have hLoad : Tallied s f [] { baseLoads := 1, inserted := 1 } :=
        ⟨rfl, rfl, rfl, Nat.le_refl 0⟩
      simpa using h.merge hLoad

/-- How the work has come to where it is: the region base is brought in, a chain takes the place of
an operand, or a length is left alone. What every one of these preserves holds of all work. -/
inductive Course (s : Sandbox) (symbol : Symbol) (f : Func) : List Site → Pass → Prop where
  | start : Course s symbol f [] { func := f }
  | opened {done : List Site} {p q : Pass} {base : Value} (prior : Course s symbol f done p)
      (progress : Progress s symbol f done p) (last : Pass.Opened symbol p q base) :
      Course s symbol f done q
  | turned {done : List Site} {p : Pass} {site : Site} {c d : Cell} {v : Value}
      {insts : List Instruction} {gone : List InstId} {removed : Nat} {g : Func} {counts : Stats}
      (prior : Course s symbol f done p) (progress : Progress s symbol f done p)
      (pending : Pending s f done p site c d v) (last : Turn s f p site d v insts gone removed g)
      (addresses : counts.addresses = [site].countP (·.role = .address)) :
      Course s symbol f (done ++ [site]) ⟨g, p.base, p.stats.merge counts⟩
  | kept {done : List Site} {p : Pass} {site : Site} {c : Cell} {v : Value} {ty : Ty}
      (prior : Course s symbol f done p) (takes : f.Takes site c v) (role : site.role = .length)
      (typed : f.typeOf v = .ok ty) (other : ty ≠ .i64) : Course s symbol f (done ++ [site]) p

/-- Work in progress where the region base was brought in only for an address, and everything was
counted. -/
structure Settled (s : Sandbox) (symbol : Symbol) (f : Func) (done : List Site) (p : Pass) : Prop
    extends Progress s symbol f done p where
  needed : p.base ≠ none → ∃ site ∈ done, site.role = .address
  tallied : Tallied s f done p.stats
  course : Course s symbol f done p

section Walking

variable {s : Sandbox} {symbol : Symbol} {f : Func} {done : List Site} {p : Pass}
  {id : InstId} {c : Cell} (hs : s.source = .ofSymbol symbol) (hf : f.Consistent)
  (hBody : 0 < f.blocks.length)

/-- The region base is a machine word. -/
theorem Progress.typeOf_base (h : Progress s symbol f done p) {base : Value}
    (hBase : p.base = some base) : p.func.typeOf base = .ok .i64 := by
  obtain ⟨b, block, rfl, _, hCell, _⟩ := h.base base hBase
  exact Func.typeOf_of_cell hCell

include hs hf hBody in
/-- Dealing with an address goes through. -/
theorem Settled.confineAddress (h : Settled s symbol f done p) {position : Nat} {v : Value}
    (hTakes : f.Takes ⟨id, position, .address⟩ c v)
    (hUntouched : ∀ role, ⟨id, position, role⟩ ∉ done) :
    ∃ q, p.confineAddress s id position = .ok q ∧ p.func.Keeps q.func ∧
      Settled s symbol f (done ++ [⟨id, position, .address⟩]) q := by
  obtain ⟨d, hPending⟩ := h.pending hTakes hUntouched
  obtain ⟨ty, hTy, hPointer⟩ := hTakes.pointer rfl
  obtain ⟨fold, hFold⟩ := s.exists_foldable? hf (Func.within_of_typeOf hTy)
  have hFoldNow := h.intact.foldable?_of_operand hPending.cell
    (List.mem_of_getElem? hPending.operand) hFold
  have hBodyNow : 0 < p.func.blocks.length := by rw [h.blocks]; exact hBody
  obtain ⟨r, hr, hStep⟩ := Pass.confineAddress_spec hs h.consistent hBodyNow
    (fun _ => h.typeOf_base) hPending.cell hPending.accessOperand?
    (h.keeps.typeOf hTy) hPointer hFoldNow
  cases hStep with
  | @intro q base g removed opened rerouted =>
      have hProgress := h.toProgress.opened opened hBody
      obtain ⟨d', hPending'⟩ := hProgress.pending hTakes hUntouched
      obtain rfl : d' = d := by simpa [opened.old hPending.cell] using hPending'.cell.symm
      have hTurn : Turn s f q ⟨id, position, .address⟩ d' v
          (addressChain q.func.cells.length base v ty fold) (foldedParts fold) removed g :=
        ⟨.address opened.base_eq hTy hFold, by simp [Sandbox.superfluous, hFold, Except.toOption],
          rerouted⟩
      refine ⟨_, hr, opened.keeps.trans (rerouted.keeps (opened.old hPending.cell)), ?_,
        fun _ => ⟨_, List.mem_append_right _ (List.mem_singleton.mpr rfl), rfl⟩,
        (h.tallied.opened opened).merge
        (.address hTakes rfl hFold (length_foldedParts fold ▸ rerouted.removed_le)), ?_⟩
      · rw [← opened.base_eq]
        exact hProgress.turn hPending' hTurn rfl rfl (length_addressChain ..).symm rfl
      · rw [← opened.base_eq]
        exact .turned (.opened h.course h.toProgress opened) hProgress hPending' hTurn rfl

include hf in
/-- Dealing with a length goes through. -/
theorem Settled.clipLength (h : Settled s symbol f done p) {position : Nat} {v : Value}
    (hTakes : f.Takes ⟨id, position, .length⟩ c v)
    (hUntouched : ∀ role, ⟨id, position, role⟩ ∉ done) :
    ∃ q, p.clipLength id position = .ok q ∧ p.func.Keeps q.func ∧
      Settled s symbol f (done ++ [⟨id, position, .length⟩]) q := by
  obtain ⟨d, hPending⟩ := h.pending hTakes hUntouched
  obtain ⟨ty, hTy⟩ := Func.exists_typeOf (hf.within c (List.mem_of_getElem? hTakes.cell) v
    (List.mem_of_getElem? (Func.operand_of_accessOperand? hTakes.operand)))
  have hTyNow := h.keeps.typeOf hTy
  have hNeeded : p.base ≠ none → ∃ site ∈ done ++ [⟨id, position, Role.length⟩],
      site.role = .address := fun hBase => by
    obtain ⟨site, hSite, hRole⟩ := h.needed hBase
    exact ⟨site, List.mem_append_left _ hSite, hRole⟩
  obtain ⟨r, hr, hStep⟩ := Pass.clipLength_spec h.consistent hPending.cell hPending.accessOperand?
  cases hStep with
  | clipped word rerouted =>
      obtain rfl : ty = .i64 := by simpa [hTyNow] using word
      have hTurn : Turn s f p ⟨id, position, .length⟩ d v (clippedChain p.func.cells.length v)
          [] 0 _ :=
        ⟨.length hTy, rfl, rerouted⟩
      exact ⟨_, hr, rerouted.keeps hPending.cell, h.turn hPending hTurn rfl rfl rfl rfl, hNeeded,
        h.tallied.merge (.clipped hTakes rfl hTy), .turned h.course h.toProgress hPending hTurn rfl⟩
  | kept typed other =>
      obtain rfl := Except.ok.inj (hTyNow.symm.trans typed)
      exact ⟨p, hr, .refl _, h.keep hPending rfl hTy other, hNeeded,
        h.tallied.merge (.kept hTakes rfl hTy other), .kept h.course hTakes rfl hTy other⟩

/-- What goes through at each of several operands goes through at all of them. -/
theorem Settled.foldlM {act : Pass → Nat → Except Stop Pass} {role : Role} {positions : List Nat}
    (hAct : ∀ {done p position v}, Settled s symbol f done p → f.Takes ⟨id, position, role⟩ c v →
      (∀ role, ⟨id, position, role⟩ ∉ done) → ∃ q, act p position = .ok q ∧ p.func.Keeps q.func ∧
      Settled s symbol f (done ++ [⟨id, position, role⟩]) q)
    (hTakes : ∀ position ∈ positions, ∃ v, f.Takes ⟨id, position, role⟩ c v)
    (hNodup : positions.Nodup)
    (hUntouched : ∀ position ∈ positions, ∀ role, ⟨id, position, role⟩ ∉ done)
    (h : Settled s symbol f done p) :
    ∃ q, positions.foldlM act p = .ok q ∧ p.func.Keeps q.func ∧
      Settled s symbol f (done ++ positions.map fun position => ⟨id, position, role⟩) q := by
  induction positions generalizing done p with
  | nil => exact ⟨p, rfl, .refl _, by simpa using h⟩
  | cons position rest ih =>
      obtain ⟨v, hv⟩ := hTakes position (by simp)
      obtain ⟨q, hq, hKeeps, hSettled⟩ := hAct h hv (hUntouched position (by simp))
      have hRest := List.nodup_cons.mp hNodup
      obtain ⟨r, hr, hKeeps', hAll⟩ :=
        ih (fun other hMem => hTakes other (List.mem_cons_of_mem _ hMem)) hRest.2
          (fun other hMem role' => by
          have hNe : other ≠ position := fun hEq => hRest.1 (hEq ▸ hMem)
          simp [hUntouched other (List.mem_cons_of_mem _ hMem) role', hNe])
        hSettled
      refine ⟨r, ?_, hKeeps.trans hKeeps', by simpa using hAll⟩
      rw [List.foldlM_cons, hq]
      exact hr

include hs hf hBody in
/-- An instruction that stands in the function and passes is confined completely. -/
theorem Settled.confine (h : Settled s symbol f done p) (hc : f.cells[id]? = some c)
    (hLive : c.live = true) (hVetted : f.Vetted c.inst) (hUntouched : ∀ site ∈ done, site.id ≠ id)
    (hNow : p.func.cells[id]? = some c) :
    ∃ q, p.confine s id = .ok q ∧ p.func.Keeps q.func ∧
      Settled s symbol f (done ++ f.sites id) q := by
  have hNodup := List.nodup_append.mp (Access.nodup_positions (Access.ofInstruction c.inst))
  obtain ⟨q, hq, hKeeps, hFirst⟩ := h.foldlM (fun hSettled => hSettled.confineAddress hs hf hBody)
    (fun _ => hVetted.takes_address hc hLive) hNodup.1 fun position _ role hMem =>
    hUntouched _ hMem rfl
  obtain ⟨r, hr, hKeeps', hSecond⟩ := hFirst.foldlM (fun hSettled => hSettled.clipLength hf)
    (fun _ => hVetted.takes_length hc hLive) hNodup.2.1 fun position hPosition role hMem => by
      rcases List.mem_append.mp hMem with hMem | hMem
      · exact hUntouched _ hMem rfl
      · obtain ⟨other, hOther, hEq⟩ := List.mem_map.mp hMem
        exact hNodup.2.2 other hOther position hPosition (congrArg Site.position hEq)
  refine ⟨r, ?_, hKeeps.trans hKeeps', ?_⟩
  · simp only [Pass.confine, Func.inst_of_cell hNow, lift_ok, bind, Except.bind] at hq hr ⊢
    rw [hq]
    exact hr
  · rw [Func.sites_of_cell hc, ← List.append_assoc]
    exact hSecond

include hs hf hBody in
/-- The three things that can happen to an instruction when its turn comes: it passes and is
confined, it is refused for what the original function has at this place, or it has been removed. -/
theorem Settled.step (h : Settled s symbol f done p) (hc : f.cells[id]? = some c)
    (hLive : c.live = true) (hUntouched : ∀ site ∈ done, site.id ≠ id) :
    (f.vet id = .ok () ∧ ∃ q, p.step s id = .ok q ∧ p.func.Keeps q.func ∧
      Settled s symbol f (done ++ f.sites id) q) ∨
    (∃ refusal, f.vet id = .error (.refused refusal) ∧ p.func.isLive id = .ok true ∧
      p.step s id = .error (.refused refusal)) ∨
    (p.func.isLive id = .ok false ∧ p.step s id = .ok p ∧
      Settled s symbol f (done ++ f.sites id) p) := by
  rcases h.cell_of_untouched hc hUntouched with hNow | ⟨d, hd, hDropped⟩
  · have hAlive : p.func.isLive id = .ok true := by rw [Func.isLive_of_cell hNow, hLive]
    have hVetNow := h.keeps.vet hf hc hNow
    rcases Func.vet_decides hf hc with ⟨hVet, hVetted⟩ | ⟨refusal, hVet, _⟩
    · obtain ⟨q, hq, hAfter⟩ := h.confine hs hf hBody hc hLive hVetted hUntouched hNow
      refine .inl ⟨hVet, q, ?_, hAfter⟩
      simp only [Pass.step, hAlive, hVetNow, hVet, lift_ok, bind, Except.bind]
      exact hq
    · refine .inr (.inl ⟨refusal, hVet, hAlive, ?_⟩)
      simp only [Pass.step, hAlive, hVetNow, hVet, lift_ok, bind, Except.bind]
      rfl
  · have hDead : p.func.isLive id = .ok false := by
      rw [Func.isLive_of_cell hd, hDropped.emptied]; rfl
    refine .inr (.inr ⟨hDead, ?_, ?_⟩)
    · simp only [Pass.step, hDead, lift_ok, bind, Except.bind]
      rfl
    · obtain ⟨_, _, _, _, address, _, _, hFold, hId⟩ := hDropped.folded
      simpa [Func.sites, hc, places_of_folded hFold hId hc] using h

end Walking

/-- Walking over two lists is walking over one and, unless that is refused, over the other. -/
theorem Pass.walk_append (s : Sandbox) (front back : List InstId) (p : Pass) :
    Pass.walk s (front ++ back) p =
      (Pass.walk s front p >>= fun result =>
        match result.2 with
        | none => Pass.walk s back result.1
        | some refusal => .ok (result.1, some refusal)) := by
  induction front generalizing p with
  | nil => rfl
  | cons id rest ih =>
      simp only [List.cons_append, Pass.walk]
      cases hStep : p.step s id with
      | ok q => exact ih q
      | error stop =>
          cases stop with
          | fault fault => rfl
          | refused refusal => rfl

def Sandbox.Skips (s : Sandbox) (f : Func) (id : InstId) : Prop :=
  ∃ front back p, f.layout = front ++ id :: back ∧ Pass.walk s front { func := f } = .ok (p, none) ∧
    p.func.isLive id = .ok false

/-- Every instruction of a part of the layout has had its turn: it passed and was confined, or it
had been removed. -/
structure Walked (s : Sandbox) (symbol : Symbol) (f : Func) (front : List InstId) (p : Pass) : Prop
    extends Settled s symbol f (front.flatMap f.sites) p where
  vetted : ∀ id ∈ front, f.vet id = .ok () ∨ s.Skips f id ∧ p.func.isLive id = .ok false

/-- The walk has come to an instruction that still stands and is refused. -/
structure Stopped (s : Sandbox) (symbol : Symbol) (f : Func) (front : List InstId) (id : InstId)
    (refusal : Refusal) (p : Pass) : Prop extends Walked s symbol f front p where
  reached : Pass.walk s front { func := f } = .ok (p, none)
  refused : f.vet id = .error (.refused refusal)
  live : p.func.isLive id = .ok true

/-- The places of some instructions of the layout are not places of those behind. -/
theorem Func.Consistent.untouched {f : Func} (hf : f.Consistent) {front back : List InstId}
    (hLayout : f.layout = front ++ back) {id : InstId} (hId : id ∈ back) {site : Site}
    (hSite : site ∈ front.flatMap f.sites) : site.id ≠ id := by
  intro hEq
  obtain ⟨other, hOther, hMem⟩ := List.mem_flatMap.mp hSite
  have hNodup := hf.nodup_layout
  rw [hLayout] at hNodup
  exact (List.nodup_append.mp hNodup).2.2 other hOther id hId
    ((Func.id_of_mem_sites hMem).symm.trans hEq)

section Walking

variable {s : Sandbox} {symbol : Symbol} {f : Func} (hs : s.source = .ofSymbol symbol)
  (hf : f.Consistent) (hBody : 0 < f.blocks.length)

include hs hf hBody in
/-- The walk over a part of the layout never faults. It passes if every instruction of that part
passes the vet or is removed before its turn, and is refused at the first one that does not and is
still there. -/
theorem walk_front {front back : List InstId} (hLayout : f.layout = front ++ back) :
    (∃ p, Pass.walk s front { func := f } = .ok (p, none) ∧ Walked s symbol f front p) ∨
    (∃ before id after p refusal, front = before ++ id :: after ∧
      Pass.walk s front { func := f } = .ok (p, some refusal) ∧
      Stopped s symbol f before id refusal p) := by
  induction front using List.reverseRecOn generalizing back with
  | nil => exact .inl ⟨_, rfl, ⟨.start hf, fun hBase => absurd rfl hBase,
      ⟨rfl, rfl, rfl, Nat.le_refl 0⟩, .start⟩, by simp⟩
  | append_singleton front id ih =>
      have hLayout' : f.layout = front ++ id :: back := by simpa using hLayout
      rcases ih hLayout' with ⟨p, hp, hWalked⟩ |
        ⟨before, other, after, p, refusal, rfl, hp, hStopped⟩
      · obtain ⟨c, hc, hLive⟩ := hf.mem_layout_iff.mp (show id ∈ f.layout by simp [hLayout'])
        have hUntouched : ∀ site ∈ front.flatMap f.sites, site.id ≠ id := fun _ hSite =>
          hf.untouched hLayout' List.mem_cons_self hSite
        have hWalk : Pass.walk s (front ++ [id]) { func := f } = Pass.walk s [id] p := by
          rw [Pass.walk_append, hp]
          rfl
        rw [hWalk]
        rcases hWalked.step hs hf hBody hc hLive hUntouched with
          ⟨hVet, q, hq, hKeeps, hSettled⟩ | ⟨refusal, hVet, hAlive, hRefused⟩ |
            ⟨hDead, hq, hSettled⟩
        · refine .inl ⟨q, by simp [Pass.walk, hq], by simpa using hSettled, fun other hOther => ?_⟩
          rcases List.mem_append.mp hOther with hOther | hOther
          · exact (hWalked.vetted other hOther).imp_right fun hSkipped =>
              ⟨hSkipped.1, hKeeps.isLive_eq_false hSkipped.2⟩
          · obtain rfl : other = id := by simpa using hOther
            exact .inl hVet
        · exact .inr ⟨front, id, [], p, refusal, rfl, by simp [Pass.walk, hRefused], hWalked,
            hp, hVet, hAlive⟩
        · refine .inl ⟨p, by simp [Pass.walk, hq], by simpa using hSettled, fun other hOther => ?_⟩
          rcases List.mem_append.mp hOther with hOther | hOther
          · exact hWalked.vetted other hOther
          · obtain rfl : other = id := by simpa using hOther
            exact .inr ⟨⟨front, back, p, hLayout', hp, hDead⟩, hDead⟩
      · refine .inr ⟨before, other, after ++ [id], p, refusal, by simp, ?_, hStopped⟩
        rw [Pass.walk_append, hp]
        rfl

end Walking

end FaultIsolation
