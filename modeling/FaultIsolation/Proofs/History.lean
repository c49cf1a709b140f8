import FaultIsolation.Proofs.Agreement
import Mathlib.Logic.Relation

/-!
Histories. Whatever is done to a function, by hand, by building drafts or by confining it, is a
sequence of edits, also where confinement is refused halfway. So what edits preserve holds after
every history: each instruction that was not removed stands in one place, and the use counts are
exact. If only instructions that still stand are made operands, operands never name an instruction
that was removed; confinement itself keeps to that.
-/
namespace FaultIsolation

namespace Func

def Edit.target? : Edit → Option InstId
  | .setOperand id _ _ | .remove id => some id
  | .addBlock _ | .append _ _ | .prepend _ _ | .insertBefore _ _ => none

def Refers (f : Func) (id : InstId) (v : Value) : Prop :=
  ∃ c, f.cells[id]? = some c ∧ v ∈ c.inst.operands

def Live (f : Func) : Value → Prop
  | .inst id => f.isLive id = .ok true
  | _ => True

/-- An instruction stands in a block if its place in the store says so. -/
theorem isLive_iff {f : Func} {id : InstId} :
    f.isLive id = .ok true ↔ ∃ c, f.cells[id]? = some c ∧ c.live = true := by
  cases hNode : f.nodes[id]? with
  | none => simp [isLive, Func.node, hNode, getElem?_cells, Except.map]
  | some node => simp [isLive, Func.node, hNode, getElem?_cells, Except.map, Node.cell]

namespace Applied

variable {f g : Func} {e : Edit}

theorem gains_of_new {inst : Instruction} (h : e.new? = some inst) : e.gains = inst.operands := by
  cases e <;> simp_all [Edit.new?, Edit.gains]

theorem losses_of_new {inst : Instruction} (h : e.new? = some inst) : f.losses e = [] := by
  cases e <;> simp_all [Edit.new?, losses]

/-- What an edit does not change stays. -/
theorem cell (h : Applied f e g) {id : InstId} {c : Cell} (hc : f.cells[id]? = some c)
    (hOther : e.target? ≠ some id) : g.cells[id]? = some c := by
  cases h with
  | addBlock name => exact hc
  | insert new within block_lt perm inserted =>
      rw [inserted.cells, List.getElem?_append_left (lt_of_cell hc)]
      exact hc
  | replace cell operand within replaced =>
      rw [replaced.cells, List.getElem?_set_ne fun hEq => hOther (congrArg some hEq)]
      exact hc
  | remove cell live unused removed =>
      rw [removed.cells, List.getElem?_set_ne fun hEq => hOther (congrArg some hEq)]
      exact hc

/-- An edit leaves the references of all other instructions alone. -/
theorem refers_of_other (h : Applied f e g) {id : InstId} {v : Value} (hv : f.Refers id v)
    (hOther : e.target? ≠ some id) : g.Refers id v := by
  obtain ⟨c, hc, hv⟩ := hv
  exact ⟨c, h.cell hc hOther, hv⟩

/-- No edit takes a number away. -/
theorem length_le (h : Applied f e g) : f.cells.length ≤ g.cells.length := by
  cases h with
  | addBlock name => exact Nat.le_refl _
  | insert new within block_lt perm inserted => simp [inserted.cells]
  | replace cell operand within replaced => simp [replaced.cells]
  | remove cell live unused removed => simp [removed.cells]

/-- An instruction that stands goes on to stand unless it is removed. -/
theorem isLive (h : Applied f e g) {id : InstId} (hLive : f.isLive id = .ok true)
    (hKept : e ≠ .remove id) : g.isLive id = .ok true := by
  rw [isLive_iff] at hLive ⊢
  obtain ⟨c, hc, hLive⟩ := hLive
  by_cases hOther : e.target? = some id
  · cases h with
    | addBlock name => cases hOther
    | insert new within block_lt perm inserted =>
        cases e <;> simp [Edit.new?, Edit.target?] at new hOther
    | @replace _ d position _ value _ cell operand within replaced =>
        obtain rfl := Option.some.inj hOther
        obtain rfl := Option.some.inj (hc.symm.trans cell)
        exact ⟨c.setOperand position value,
          by rw [replaced.cells, List.getElem?_set_self (lt_of_cell cell)], hLive⟩
    | remove cell live unused removed =>
        obtain rfl := Option.some.inj hOther
        exact absurd rfl hKept
  · exact ⟨c, h.cell hc hOther, hLive⟩

/-- Every operand was one before, or the edit brings it. -/
theorem refers (h : Applied f e g) {id : InstId} {v : Value} (hv : g.Refers id v) :
    (∃ j, f.Refers j v) ∨ v ∈ e.gains := by
  obtain ⟨d, hd, hv⟩ := hv
  have hOld : d ∈ f.cells → ∃ j, f.Refers j v := fun hMem => by
    obtain ⟨j, hj⟩ := List.mem_iff_getElem?.mp hMem
    exact ⟨j, d, hj, hv⟩
  cases h with
  | addBlock name => exact .inl ⟨id, d, hd, hv⟩
  | @insert _ block inst _ _ new within block_lt perm inserted =>
      have hMem : d ∈ f.cells ∨ d = ⟨inst, block, true⟩ := by
        simpa [inserted.cells] using List.mem_of_getElem? hd
      rcases hMem with hMem | rfl
      · exact .inl (hOld hMem)
      · exact .inr (gains_of_new new ▸ hv)
  | @replace _ c position _ value _ cell operand within replaced =>
      rw [replaced.cells] at hd
      rcases List.mem_or_eq_of_mem_set (List.mem_of_getElem? hd) with hMem | rfl
      · exact .inl (hOld hMem)
      · rcases List.mem_or_eq_of_mem_set hv with hv | rfl
        · exact .inl ⟨_, c, cell, hv⟩
        · exact .inr (List.mem_singleton.mpr rfl)
  | remove cell live unused removed =>
      rw [removed.cells] at hd
      rcases List.mem_or_eq_of_mem_set (List.mem_of_getElem? hd) with hMem | rfl
      · exact .inl (hOld hMem)
      · cases hv

/-- Only what is no operand is removed. -/
theorem ne_of_remove (h : Applied f e g) (hf : f.Consistent) {j : InstId} {v : Value}
    (hv : f.Refers j v) {id : InstId} (hRemove : e = .remove id) : v ≠ .inst id := by
  rintro rfl
  obtain ⟨c, hc, hMem⟩ := hv
  have hUsed := references_pos_iff.mpr ⟨c, List.mem_of_getElem? hc, hMem⟩
  cases h with
  | remove cell live unused removed =>
      obtain rfl := Edit.remove.inj hRemove
      rw [hf.counted] at unused
      omega
  | addBlock name => cases hRemove
  | insert new within block_lt perm inserted =>
      subst hRemove
      cases new
  | replace cell operand within replaced => cases hRemove

/-- Counts move by exactly what an edit brings and takes away, so none is ever cut off at zero. -/
theorem uses (h : Applied f e g) (hf : f.Consistent) (j : InstId) :
    g.usesOf j + (f.losses e).count (.inst j) = f.usesOf j + e.gains.count (.inst j) := by
  -- The operands of one instruction are among those that were counted, so they can be taken off.
  have hCount : ∀ {id : InstId} {c : Cell}, f.cells[id]? = some c →
      c.inst.operands.count (.inst j) ≤ f.usesOf j := by
    intro id c hc
    have hSet := references_set hc c.emptied j
    have hNil : c.emptied.inst.operands.count (Value.inst j) = 0 := rfl
    rw [hf.counted]
    omega
  cases h with
  | addBlock name => rfl
  | insert new within block_lt perm inserted =>
      rw [losses_of_new new, gains_of_new new, inserted.uses]
      rfl
  | @replace id c position old value _ cell operand within replaced =>
      obtain ⟨node, hNode, rfl⟩ := cell_eq_some_iff.mp cell
      have hLosses : f.losses (.setOperand id position value) = [old] := by
        simp only [losses, hNode, Option.toList_some, List.flatMap_singleton]
        exact congrArg Option.toList operand
      have hLe : [old].count (Value.inst j) ≤ node.cell.inst.operands.count (.inst j) :=
        List.Sublist.count_le _ (List.singleton_sublist.mpr (List.mem_of_getElem? operand))
      have hUsed := hCount cell
      rw [hLosses, replaced.uses]
      simp only [Edit.gains]
      omega
  | @remove id c _ cell live unused removed =>
      obtain ⟨node, hNode, rfl⟩ := cell_eq_some_iff.mp cell
      have hLosses : f.losses (.remove id) = node.cell.inst.operands := by
        simp [losses, hNode, Node.cell]
      have hUsed := hCount cell
      rw [hLosses, removed.uses]
      simp only [Edit.gains, List.count_nil]
      omega

end Applied

end Func

/-- Which values may become operands of which function. It is about instructions only. What may be
used goes on to be so unless it is removed, and what was just put in may be used. -/
structure Policy where
  allows : Func → Value → Prop
  other : ∀ {f : Func} {v : Value}, (∀ id, v ≠ .inst id) → allows f v
  persists : ∀ {f g : Func} {e : Func.Edit} {v : Value}, Func.Applied f e g →
    (∀ id, e = .remove id → v ≠ .inst id) → allows f v → allows g v
  fresh : ∀ {f g : Func} {e : Func.Edit} {inst : Instruction}, Func.Applied f e g →
  e.new? = some inst →
    allows g (.inst f.cells.length)

namespace Policy

def any : Policy where
  allows _ _ := True
  other _ := trivial
  persists _ _ _ := trivial
  fresh _ _ := trivial

def live : Policy where
  allows := Func.Live
  other := by
    intro f v hOther
    cases v with
    | inst id => exact absurd rfl (hOther id)
    | _ => trivial
  persists := by
    intro f g e v h hKept hLive
    cases v with
    | inst id => exact h.isLive hLive fun hEq => hKept id hEq rfl
    | _ => trivial
  fresh := by
    intro f g e inst h hNew
    obtain ⟨block, place, hInserted⟩ := h.inserted hNew
    exact Func.isLive_iff.mpr ⟨_, by rw [hInserted.cells, List.getElem?_concat_length], rfl⟩

end Policy

namespace Func

variable {P : Policy} {f g h : Func}

structure Sound (P : Policy) (f : Func) : Prop where
  consistent : f.Consistent
  allowed : ∀ id v, f.Refers id v → P.allows f v

def Step (P : Policy) (f g : Func) : Prop :=
  ∃ e : Edit, (∀ v ∈ e.gains, P.allows f v) ∧ f.apply e = .ok g

abbrev Evolves (P : Policy) : Func → Func → Prop := Relation.ReflTransGen (Step P)

/-- An edit keeps operands allowed: it removes only what is no operand. -/
theorem Step.sound (hStep : Step P f g) (hf : f.Sound P) : g.Sound P := by
  obtain ⟨e, hGains, hApply⟩ := hStep
  have hApplied := applied_of_apply hf.consistent hApply
  refine ⟨hApplied.consistent hf.consistent, fun id v hv => ?_⟩
  rcases hApplied.refers hv with ⟨j, hj⟩ | hGain
  · exact P.persists hApplied (fun _ => hApplied.ne_of_remove hf.consistent hj) (hf.allowed j v hj)
  · refine P.persists hApplied (fun id hRemove => ?_) (hGains v hGain)
    subst hRemove
    cases hGain

/-- Allowed edits keep a function sound. -/
theorem Evolves.sound (hEvolves : f.Evolves P g) (hf : f.Sound P) : g.Sound P := by
  induction hEvolves with
  | refl => exact hf
  | tail prior last ih => exact last.sound ih

theorem Evolves.length_le (hEvolves : f.Evolves P g) (hf : f.Sound P) :
    f.cells.length ≤ g.cells.length := by
  induction hEvolves with
  | refl => exact Nat.le_refl _
  | @tail g h prior last ih =>
      obtain ⟨e, _, hApply⟩ := last
      exact Nat.le_trans ih (applied_of_apply (Evolves.sound prior hf).consistent hApply).length_le

/-- A sequence of edits after which everything that was allowed still is. -/
structure Grows (P : Policy) (f g : Func) : Prop where
  evolves : f.Evolves P g
  allows : ∀ v, P.allows f v → P.allows g v

theorem Grows.refl (P : Policy) (f : Func) : Grows P f f := ⟨.refl, fun _ => id⟩

theorem Grows.trans (first : Grows P f g) (second : Grows P g h) : Grows P f h :=
  ⟨first.evolves.trans second.evolves, fun v hv => second.allows v (first.allows v hv)⟩

/-- An edit that removes nothing lets everything be used that could be. -/
theorem Grows.of_apply (hf : f.Consistent) {e : Edit} (hGains : ∀ v ∈ e.gains, P.allows f v)
    (hKept : ∀ id, e ≠ .remove id) (hApply : f.apply e = .ok g) : Grows P f g :=
  ⟨.single ⟨e, hGains, hApply⟩, fun _ =>
    P.persists (applied_of_apply hf hApply) fun id hRemove => absurd hRemove (hKept id)⟩

/-- A new instruction may be used. -/
theorem Grows.of_new (hf : f.Consistent) {e : Edit} {inst : Instruction} (hNew : e.new? = some inst)
    (hOperands : ∀ v ∈ inst.operands, P.allows f v) (hApply : f.apply e = .ok g) :
    Grows P f g ∧ P.allows g (.inst f.cells.length) := by
  have hKept : ∀ id, e ≠ .remove id := by
    rintro id rfl
    cases hNew
  exact ⟨.of_apply hf (Applied.gains_of_new hNew ▸ hOperands) hKept hApply,
    P.fresh (applied_of_apply hf hApply) hNew⟩

/-- Instructions went in, and the last one may be used. -/
structure Drawn (P : Policy) (f g : Func) (v : Value) : Prop where
  grows : Grows P f g
  usable : P.allows g v
  cells : ∀ (id : InstId) (c : Cell), f.cells[id]? = some c → g.cells[id]? = some c

namespace Drawn

variable {v w : Value}

/-- Values drawn one after the other are drawn from the first function. -/
theorem trans (first : Drawn P f g v) (second : Drawn P g h w) : Drawn P f h w :=
  ⟨first.grows.trans second.grows, second.usable, fun id c hc =>
    second.cells id c (first.cells id c hc)⟩

theorem refers (hDrawn : Drawn P f g v) {id : InstId} (hRefers : f.Refers id w) :
    g.Refers id w := by
  obtain ⟨c, hc, hw⟩ := hRefers
  exact ⟨c, hDrawn.cells id c hc, hw⟩

theorem length_le (hDrawn : Drawn P f g v) : f.cells.length ≤ g.cells.length := by
  by_contra hLt
  obtain ⟨c, hc⟩ := exists_cell (Nat.lt_of_not_le hLt)
  exact absurd (lt_of_cell (hDrawn.cells _ c hc)) (Nat.lt_irrefl _)

end Drawn

section Emission

variable {anchor : InstId} {v base : Value} (hf : f.Sound P)

include hf

/-- Putting in an instruction with allowed operands draws its result. -/
theorem emitBefore_drawn {draft : Draft} {inst : Instruction} (hFinish : f.finish draft = .ok inst)
    (hOperands : ∀ u ∈ inst.operands, P.allows f u)
    (hEmit : f.emitBefore anchor draft = .ok (g, v)) :
    Drawn P f g v ∧ ∀ u ∈ inst.operands, g.Refers f.cells.length u := by
  obtain ⟨⟨k, new⟩, hBuild, hPair⟩ := bind_eq_ok_iff.mp hEmit
  obtain ⟨rfl, rfl⟩ : k = g ∧ Value.inst new = v := by simpa using Except.ok.inj hPair
  obtain ⟨inst', e, hFinish', hNew, hApply, rfl⟩ := build_ok hBuild
  obtain rfl := Except.ok.inj (hFinish.symm.trans hFinish')
  obtain ⟨block, place, hInserted⟩ := (applied_of_apply hf.consistent hApply).inserted hNew
  obtain ⟨hGrows, hUsable⟩ := Grows.of_new hf.consistent hNew hOperands hApply
  refine ⟨⟨hGrows, hUsable, ?_⟩, ?_⟩
  · intro id c hc
    rw [hInserted.cells, List.getElem?_append_left (lt_of_cell hc)]
    exact hc
  · intro u hu
    exact ⟨_, by rw [hInserted.cells, List.getElem?_concat_length], hu⟩

theorem emitCast_drawn {op : CastOp} {value : Value} {ty : Ty} (hValue : P.allows f value)
    (hEmit : f.emitBefore anchor (.cast op value ty) = .ok (g, v)) : Drawn P f g v ∧ g.Sound P := by
  have hDrawn := (emitBefore_drawn hf rfl (by simpa using hValue) hEmit).1
  exact ⟨hDrawn, hDrawn.grows.evolves.sound hf⟩

/-- Putting in an addition draws the sum, which refers to its first term. -/
theorem emitAdd_drawn {left right : Value} (hLeft : P.allows f left) (hRight : P.allows f right)
    (hEmit : f.emitBefore anchor (.binary .add left right) = .ok (g, v)) :
    Drawn P f g v ∧ g.Sound P ∧ g.Refers f.cells.length left := by
  obtain ⟨inst, hFinish, hOperands⟩ : ∃ inst, f.finish (.binary .add left right) = .ok inst ∧
      inst.operands = [left, right] := by
    obtain ⟨_, hBuild, _⟩ := bind_eq_ok_iff.mp hEmit
    obtain ⟨inst, hFinish, _⟩ := bind_eq_ok_iff.mp hBuild
    obtain ⟨ty, _, hInst⟩ := bind_eq_ok_iff.mp hFinish
    obtain rfl := Except.ok.inj hInst
    exact ⟨_, hFinish, rfl⟩
  obtain ⟨hDrawn, hRefers⟩ := emitBefore_drawn hf hFinish
    (by simpa [hOperands] using ⟨hLeft, hRight⟩) hEmit
  exact ⟨hDrawn, hDrawn.grows.evolves.sound hf, hRefers left (by simp [hOperands])⟩

/-- The address chain refers to the region base from then on. -/
theorem emitRebased_drawn {pointer : Value} {ty : Ty} (hBase : P.allows f base)
    (hPointer : P.allows f pointer) (hEmit : f.emitRebased anchor base pointer ty = .ok (g, v)) :
    Drawn P f g v ∧ ∃ id, f.cells.length ≤ id ∧ g.Refers id base := by
  obtain ⟨⟨f₁, low⟩, h₁, hEmit⟩ := bind_eq_ok_iff.mp hEmit
  obtain ⟨⟨f₂, wide⟩, h₂, hEmit⟩ := bind_eq_ok_iff.mp hEmit
  obtain ⟨⟨f₃, sum⟩, h₃, h₄⟩ := bind_eq_ok_iff.mp hEmit
  obtain ⟨d₁, s₁⟩ := emitCast_drawn hf hPointer h₁
  obtain ⟨d₂, s₂⟩ := emitCast_drawn s₁ d₁.usable h₂
  obtain ⟨d₃, s₃, hRefers⟩ := emitAdd_drawn s₂ ((d₁.trans d₂).grows.allows _ hBase) d₂.usable h₃
  obtain ⟨d₄, _⟩ := emitCast_drawn s₃ d₃.usable h₄
  exact ⟨((d₁.trans d₂).trans d₃).trans d₄, _, (d₁.trans d₂).length_le, d₄.refers hRefers⟩

/-- Folding draws the address, and something new refers to the region base. -/
theorem emitFolded_drawn {address : Foldable} {ty : Ty} (hBase : P.allows f base)
    (hIndex : P.allows f address.index) (hEmit : f.emitFolded anchor base address ty = .ok (g, v)) :
    Drawn P f g v ∧ ∃ id, f.cells.length ≤ id ∧ g.Refers id base := by
  obtain ⟨⟨f₁, wide⟩, h₁, hEmit⟩ := bind_eq_ok_iff.mp hEmit
  obtain ⟨⟨f₂, sum⟩, h₂, hEmit⟩ := bind_eq_ok_iff.mp hEmit
  obtain ⟨⟨f₃, beyond⟩, h₃, h₄⟩ := bind_eq_ok_iff.mp hEmit
  obtain ⟨d₁, s₁⟩ := emitCast_drawn hf hIndex h₁
  obtain ⟨d₂, s₂, hRefers⟩ := emitAdd_drawn s₁ (d₁.grows.allows _ hBase) d₁.usable h₂
  obtain ⟨d₃, s₃, _⟩ := emitAdd_drawn s₂ d₂.usable (P.other (by simp [Value.ofWord])) h₃
  obtain ⟨d₄, _⟩ := emitCast_drawn s₃ d₃.usable h₄
  exact ⟨((d₁.trans d₂).trans d₃).trans d₄, _, d₁.length_le, (d₃.trans d₄).refers hRefers⟩

/-- Clipping draws the short length. -/
theorem emitClipped_drawn {length : Value} (hLength : P.allows f length)
    (hEmit : f.emitClipped anchor length = .ok (g, v)) : Drawn P f g v := by
  obtain ⟨⟨f₁, low⟩, h₁, h₂⟩ := bind_eq_ok_iff.mp hEmit
  obtain ⟨d₁, s₁⟩ := emitCast_drawn hf hLength h₁
  exact d₁.trans (emitCast_drawn s₁ d₁.usable h₂).1

end Emission

/-- An operand that was read is one the instruction refers to. -/
theorem accessOperand_ok {id : InstId} {position : Nat} {v : Value}
    (h : f.accessOperand id position = .ok v) : f.Refers id v := by
  obtain ⟨inst, hInst, hValue⟩ := bind_eq_ok_iff.mp h
  obtain ⟨c, hc, rfl⟩ := cell_of_inst (lift_eq_ok_iff.mp hInst)
  cases hv : c.inst.accessOperand? position with
  | none =>
      rw [hv] at hValue
      cases hValue
  | some w =>
      rw [hv] at hValue
      obtain rfl := Except.ok.inj hValue
      exact ⟨c, hc, List.mem_of_getElem? (operand_of_accessOperand? hv)⟩

theorem addressOperand_ok {id : InstId} {position : Nat} {v : Value}
    (h : f.addressOperand id position = .ok v) : f.Refers id v := by
  obtain ⟨w, hw, hRest⟩ := bind_eq_ok_iff.mp h
  obtain ⟨ty, _, hRest⟩ := bind_eq_ok_iff.mp hRest
  cases hPointer : ty.isPointer with
  | true =>
      simp only [hPointer, if_true] at hRest
      obtain rfl := Except.ok.inj hRest
      exact accessOperand_ok hw
  | false =>
      simp only [hPointer] at hRest
      obtain ⟨inst, _, hThrow⟩ := bind_eq_ok_iff.mp hRest
      cases hThrow

/-- The index of a foldable address is an operand, and the two instructions are there. -/
theorem foldable?_ok {s : Sandbox} {pointer : Value} {address : Foldable}
    (h : s.foldable? f pointer = .ok (some address)) :
    f.Refers address.addition address.index ∧ address.conversion < f.cells.length ∧
      address.addition < f.cells.length := by
  obtain ⟨a, b, _, ha, _, hb, hStep⟩ := foldable?_some (Sandbox.foldable?_eq_some_iff.mp h).2
  exact ⟨⟨b, hb, index_mem_of_positiveStep? hStep⟩, lt_of_cell ha, lt_of_cell hb⟩

end Func

/-- Bringing in the region base is a sequence of edits that lets everything be used that could be,
the base included. -/
def BaseSource.Follows (source : BaseSource) (P : Policy) : Prop :=
  ∀ f g v, f.Sound P → source f = .ok (g, v) → f.Grows P g ∧ P.allows g v

namespace BaseSource

variable {P : Policy} {f g : Func}

/-- Putting an instruction with allowed operands at the head only grows the function. -/
theorem prepend_follows (hf : f.Sound P) {block : BlockId} {inst : Instruction} {id : InstId}
    (hOperands : ∀ v ∈ inst.operands, P.allows f v) (h : f.prepend block inst = .ok (g, id)) :
    f.Grows P g ∧ P.allows g (.inst id) := by
  have hApply : f.apply (.prepend block inst) = .ok g := map_eq_ok_iff.mpr ⟨_, h, rfl⟩
  obtain rfl : id = f.cells.length := by
    rw [Func.prepend_eq_enter] at h
    exact (Func.enter_ok h).2.2.1
  exact Func.Grows.of_new hf.consistent rfl hOperands hApply

theorem ofValue_follows {value : Value} (hValue : ∀ f, P.allows f value) :
    (ofValue value).Follows P := by
  intro f g v _ h
  cases h
  exact ⟨.refl P _, hValue _⟩

/-- Sources that work step by step follow if each step does. -/
theorem follows_foldlM {α : Type} {act : Func × Value → α → Except Stop (Func × Value)}
    {xs : List α} {u v : Value}
    (hAct : ∀ f u g v, ∀ x ∈ xs, f.Sound P → act (f, u) x = .ok (g, v) → f.Grows P g ∧ P.allows g v)
    (hf : f.Sound P) (hu : P.allows f u) (h : xs.foldlM act (f, u) = .ok (g, v)) :
    f.Grows P g ∧ P.allows g v := by
  induction xs generalizing f u with
  | nil =>
      cases h
      exact ⟨.refl P _, hu⟩
  | cons x rest ih =>
      rw [List.foldlM_cons] at h
      obtain ⟨⟨k, w⟩, hStep, hRest⟩ := bind_eq_ok_iff.mp h
      obtain ⟨hGrows, hw⟩ := hAct f u k w x (by simp) hf hStep
      obtain ⟨hGrows', hv⟩ := ih (fun f u g v y hy => hAct f u g v y (List.mem_cons_of_mem _ hy))
        (hGrows.evolves.sound hf) hw hRest
      exact ⟨hGrows.trans hGrows', hv⟩

/-- Instructions with allowed operands are an allowed source of the region base. -/
theorem ofInstructions_follows {insts : List Instruction}
    (hOperands : ∀ inst ∈ insts, ∀ v ∈ inst.operands, ∀ f, P.allows f v) :
    (ofInstructions insts).Follows P := by
  intro f g v hf h
  refine follows_foldlM ?_ hf (P.other (v := .arg 0) (by simp)) h
  intro f u g v inst hInst hf h
  cases hEntry : f.entry? with
  | none =>
      simp only [hEntry] at h
      cases h
  | some entry =>
      simp only [hEntry] at h
      obtain ⟨⟨k, id⟩, hPrepend, hPair⟩ := bind_eq_ok_iff.mp h
      cases hPair
      exact prepend_follows hf (fun v hv => hOperands inst hInst v hv f)
        (lift_eq_ok_iff.mp hPrepend)

/-- A variable is read by a single load. -/
theorem ofSymbol_eq (symbol : Symbol) : ofSymbol symbol = ofInstructions [baseLoad symbol] := by
  funext f
  simp only [ofSymbol, ofInstructions, List.foldlM_cons, List.foldlM_nil, bind_pure]
  rfl

/-- A variable is an allowed source of the region base under any policy. -/
theorem ofSymbol_follows (symbol : Symbol) (P : Policy) : (ofSymbol symbol).Follows P := by
  rw [ofSymbol_eq]
  refine ofInstructions_follows fun inst hInst v hv f => ?_
  obtain rfl := List.mem_singleton.mp hInst
  obtain rfl : v = .global symbol := by simpa [baseLoad] using hv
  exact P.other (by simp)

end BaseSource

namespace Pass

variable {P : Policy} {s : Sandbox} {p q : Pass} {id : InstId} {position : Nat}

/-- Work in progress that can go on: the base is there to be used. -/
structure Fit (P : Policy) (p : Pass) : Prop where
  sound : p.func.Sound P
  base : ∀ base, p.base = some base → P.allows p.func base

/-- Work goes on by edits. -/
def Advances (P : Policy) (p q : Pass) : Prop := p.Fit P → p.func.Evolves P q.func ∧ q.Fit P

theorem Advances.refl (P : Policy) (p : Pass) : Advances P p p := fun hp => ⟨.refl, hp⟩

theorem Advances.trans {r : Pass} (first : Advances P p q) (second : Advances P q r) :
    Advances P p r :=
  fun hp => by
  obtain ⟨hFirst, hq⟩ := first hp
  obtain ⟨hSecond, hr⟩ := second hq
  exact ⟨hFirst.trans hSecond, hr⟩

/-- Work that advances at each element advances over a whole list. -/
theorem Advances.foldlM {α : Type} {act : Pass → α → Except Stop Pass} {xs : List α}
    (hAct : ∀ p x q, act p x = .ok q → Advances P p q) (h : xs.foldlM act p = .ok q) :
    Advances P p q := by
  induction xs generalizing p with
  | nil =>
      obtain rfl := Except.ok.inj h
      exact .refl P p
  | cons x rest ih =>
      rw [List.foldlM_cons] at h
      obtain ⟨r, hr, hRest⟩ := bind_eq_ok_iff.mp h
      exact (hAct p x r hr).trans (ih hRest)

/-- Replacing an operand by an allowed value keeps the references of all other instructions. -/
theorem replace_ok {value : Value} (hp : p.func.Sound P) (hValue : P.allows p.func value)
    (h : p.replace id position value = .ok q) :
    p.func.Grows P q.func ∧ q.base = p.base ∧
      ∀ other v, other ≠ id → p.func.Refers other v → q.func.Refers other v := by
  obtain ⟨g, hSet, hq⟩ := bind_eq_ok_iff.mp h
  obtain rfl := Except.ok.inj hq
  have hApply : p.func.apply (.setOperand id position value) = .ok g := lift_eq_ok_iff.mp hSet
  refine ⟨.of_apply hp.consistent (by simpa [Func.Edit.gains] using hValue)
    (fun _ => by simp) hApply, rfl, ?_⟩
  intro other v hOther hv
  exact (Func.applied_of_apply hp.consistent hApply).refers_of_other hv fun hEq =>
    hOther (Option.some.inj hEq).symm

theorem grow_ok {g : Func} (h : p.grow g = .ok q) : q.func = g ∧ q.base = p.base := by
  rw [grow] at h
  split at h
  · cases h
  · obtain rfl := Except.ok.inj h
    exact ⟨rfl, rfl⟩

/-- What went in takes the place of an operand. -/
theorem grow_replace_ok {g : Func} {r : Pass} {value : Value} (hp : p.func.Sound P)
    (hDrawn : p.func.Drawn P g value) (hGrow : p.grow g = .ok r)
    (h : r.replace id position value = .ok q) :
    p.func.Grows P q.func ∧ q.base = p.base ∧ ∀ other v, other ≠ id → g.Refers other v →
      q.func.Refers other v := by
  obtain ⟨rfl, hBase⟩ := grow_ok hGrow
  obtain ⟨hReplaced, hSame, hKept⟩ := replace_ok (hDrawn.grows.evolves.sound hp) hDrawn.usable h
  exact ⟨hDrawn.grows.trans hReplaced, hSame.trans hBase, hKept⟩

/-- A sweep keeps the region base and the references of all other instructions. -/
theorem sweep_ok (hp : p.func.Sound P) (h : p.sweep id = .ok q) :
    p.func.Evolves P q.func ∧ q.base = p.base ∧
      ∀ other v, other ≠ id → p.func.Refers other v → q.func.Refers other v := by
  obtain ⟨⟨g, removed⟩, hSwept, hq⟩ := bind_eq_ok_iff.mp h
  obtain rfl := Except.ok.inj hq
  obtain ⟨node, hNode, hRest⟩ := bind_eq_ok_iff.mp (lift_eq_ok_iff.mp hSwept)
  by_cases hUnused : node.live = true ∧ node.uses = 0
  · rw [if_pos hUnused] at hRest
    obtain ⟨k, hRemove, hPair⟩ := bind_eq_ok_iff.mp hRest
    obtain ⟨rfl, _⟩ : k = g ∧ true = removed := by simpa using Except.ok.inj hPair
    have hApply : p.func.apply (.remove id) = .ok k := hRemove
    refine ⟨.single ⟨.remove id, by simp [Func.Edit.gains], hApply⟩, rfl, ?_⟩
    intro other v hOther hv
    exact (Func.applied_of_apply hp.consistent hApply).refers_of_other hv fun hEq =>
      hOther (Option.some.inj hEq).symm
  · rw [if_neg hUnused] at hRest
    obtain ⟨rfl, _⟩ : p.func = g ∧ false = removed := by simpa using Except.ok.inj hRest
    exact ⟨.refl, rfl, fun _ _ _ hRefers => hRefers⟩

/-- The region base that a source gives may be used from then on. -/
theorem requireBase_ok {source : BaseSource} {base : Value} (hSource : source.Follows P)
    (hp : p.Fit P) (h : p.requireBase source = .ok (q, base)) :
    p.func.Grows P q.func ∧ q.base = some base ∧ P.allows q.func base := by
  cases hBase : p.base with
  | some known =>
      simp only [requireBase, hBase] at h
      obtain ⟨rfl, rfl⟩ : p = q ∧ known = base := by simpa using Except.ok.inj h
      exact ⟨.refl P p.func, hBase, hp.base known hBase⟩
  | none =>
      simp only [requireBase, hBase] at h
      obtain ⟨⟨g, v⟩, hBring, h⟩ := bind_eq_ok_iff.mp h
      obtain ⟨grown, hGrow, hPair⟩ := bind_eq_ok_iff.mp h
      obtain ⟨rfl, _⟩ := grow_ok (lift_eq_ok_iff.mp hGrow)
      obtain ⟨hGrows, hUsable⟩ := hSource p.func grown.func v hp.sound hBring
      cases hPair
      exact ⟨hGrows, rfl, hUsable⟩

/-- The base can be used as long as something refers to it. -/
theorem Fit.of_refers {base : Value} {other : InstId} (hSound : q.func.Sound P)
    (hBase : q.base = some base) (hRefers : q.func.Refers other base) : q.Fit P :=
  ⟨hSound, fun known hKnown => by
    obtain rfl := Option.some.inj (hBase.symm.trans hKnown)
    exact hSound.allowed other base hRefers⟩

/-- The chain that confines an address refers to the base. It goes in under new numbers, so it stays
when the instructions that the address was folded from are removed. -/
theorem confineAddress_advances (hSource : s.source.Follows P)
    (h : p.confineAddress s id position = .ok q) : Advances P p q := by
  intro hp
  obtain ⟨pointer, hPointer, h⟩ := bind_eq_ok_iff.mp h
  obtain ⟨ty, _, h⟩ := bind_eq_ok_iff.mp h
  obtain ⟨⟨p₁, base⟩, hRequire, h⟩ := bind_eq_ok_iff.mp h
  obtain ⟨fold, hFold, h⟩ := bind_eq_ok_iff.mp h
  have hFold' : s.foldable? p₁.func pointer = .ok fold := lift_eq_ok_iff.mp hFold
  have hOperand := Func.addressOperand_ok hPointer
  obtain ⟨hGrows, hBase, hUsable⟩ := requireBase_ok hSource hp hRequire
  have hSound := hGrows.evolves.sound hp.sound
  have hAllowed := hGrows.allows pointer (hp.sound.allowed id pointer hOperand)
  have hId : id < p₁.func.cells.length := by
    obtain ⟨c, hc, _⟩ := hOperand
    exact Nat.lt_of_lt_of_le (Func.lt_of_cell hc) (hGrows.evolves.length_le hp.sound)
  cases fold with
  | none =>
      obtain ⟨⟨g, confined⟩, hEmit, h⟩ := bind_eq_ok_iff.mp h
      obtain ⟨grown, hGrow, h⟩ := bind_eq_ok_iff.mp h
      obtain ⟨p₂, hReplace, h⟩ := bind_eq_ok_iff.mp h
      obtain rfl := Except.ok.inj h
      obtain ⟨hDrawn, other, hFresh, hRefers⟩ :=
        Func.emitRebased_drawn hSound hUsable hAllowed (lift_eq_ok_iff.mp hEmit)
      obtain ⟨hReplaced, hSame, hKept⟩ :=
        grow_replace_ok hSound hDrawn (lift_eq_ok_iff.mp hGrow) hReplace
      have hAll := hGrows.trans hReplaced
      exact ⟨hAll.evolves, .of_refers (hAll.evolves.sound hp.sound) (hSame.trans hBase)
        (hKept other base (Nat.ne_of_gt (Nat.lt_of_lt_of_le hId hFresh)) hRefers)⟩
  | some address =>
      obtain ⟨⟨g, confined⟩, hEmit, h⟩ := bind_eq_ok_iff.mp h
      obtain ⟨grown, hGrow, h⟩ := bind_eq_ok_iff.mp h
      obtain ⟨p₂, hReplace, h⟩ := bind_eq_ok_iff.mp h
      obtain ⟨p₃, hSweep, hSweep'⟩ := bind_eq_ok_iff.mp h
      obtain ⟨hIndex, hConversion, hAddition⟩ := Func.foldable?_ok hFold'
      obtain ⟨hDrawn, other, hFresh, hRefers⟩ := Func.emitFolded_drawn hSound hUsable
        (hSound.allowed _ _ hIndex) (lift_eq_ok_iff.mp hEmit)
      obtain ⟨hReplaced, hSame, hKept⟩ :=
        grow_replace_ok hSound hDrawn (lift_eq_ok_iff.mp hGrow) hReplace
      have hSound₂ := hReplaced.evolves.sound hSound
      obtain ⟨hSwept, hSame₃, hKept₃⟩ :=
        sweep_ok (p := p₂.tally { addresses := 1, folded := 1 }) hSound₂ hSweep
      have hSound₃ := Func.Evolves.sound hSwept hSound₂
      obtain ⟨hSwept', hSame₄, hKept₄⟩ := sweep_ok hSound₃ hSweep'
      -- The chain has newer numbers than all that is changed or removed after it went in.
      have hNe : ∀ j, j < p₁.func.cells.length → other ≠ j := fun j hj =>
        Nat.ne_of_gt (Nat.lt_of_lt_of_le hj hFresh)
      have hRefers' := hKept₄ other base (hNe _ hAddition)
        (hKept₃ other base (hNe _ hConversion) (hKept other base (hNe _ hId) hRefers))
      refine ⟨?_, .of_refers (Func.Evolves.sound hSwept' hSound₃)
        (hSame₄.trans (hSame₃.trans (hSame.trans hBase))) hRefers'⟩
      exact ((hGrows.trans hReplaced).evolves.trans hSwept).trans hSwept'

theorem clipLength_advances (h : p.clipLength id position = .ok q) : Advances P p q := by
  intro hp
  obtain ⟨length, hLength, h⟩ := bind_eq_ok_iff.mp h
  obtain ⟨ty, _, h⟩ := bind_eq_ok_iff.mp h
  have hAllowed := hp.sound.allowed id length (Func.accessOperand_ok hLength)
  by_cases hWord : ty = .i64
  · rw [if_pos hWord] at h
    obtain ⟨⟨g, clipped⟩, hEmit, h⟩ := bind_eq_ok_iff.mp h
    obtain ⟨grown, hGrow, h⟩ := bind_eq_ok_iff.mp h
    obtain ⟨p₁, hReplace, h⟩ := bind_eq_ok_iff.mp h
    obtain rfl := Except.ok.inj h
    have hDrawn := Func.emitClipped_drawn hp.sound hAllowed (lift_eq_ok_iff.mp hEmit)
    obtain ⟨hReplaced, hSame, _⟩ :=
      grow_replace_ok hp.sound hDrawn (lift_eq_ok_iff.mp hGrow) hReplace
    exact ⟨hReplaced.evolves, hReplaced.evolves.sound hp.sound, fun base hBase =>
      hReplaced.allows base (hp.base base (hSame.symm.trans hBase))⟩
  · rw [if_neg hWord] at h
    obtain rfl := Except.ok.inj h
    exact ⟨.refl, hp⟩

/-- Dealing with one instruction advances the work. -/
theorem step_advances (hSource : s.source.Follows P) (h : p.step s id = .ok q) :
    Advances P p q := by
  obtain ⟨live, _, h⟩ := bind_eq_ok_iff.mp h
  cases live with
  | false =>
      obtain rfl := Except.ok.inj h
      exact .refl P p
  | true =>
      obtain ⟨_, _, h⟩ := bind_eq_ok_iff.mp h
      obtain ⟨inst, _, h⟩ := bind_eq_ok_iff.mp h
      obtain ⟨r, hAddresses, hLength⟩ := bind_eq_ok_iff.mp h
      exact (Advances.foldlM (fun _ _ _ => confineAddress_advances hSource) hAddresses).trans
        (Advances.foldlM (fun _ _ _ => clipLength_advances) hLength)

/-- The walk is made of edits wherever it ends. -/
theorem walk_advances (hSource : s.source.Follows P) {ids : List InstId} {refusal : Option Refusal}
    (h : walk s ids p = .ok (q, refusal)) : Advances P p q := by
  induction ids generalizing p with
  | nil =>
      cases h
      exact .refl P _
  | cons id rest ih =>
      rw [walk] at h
      cases hStep : p.step s id with
      | ok r =>
          rw [hStep] at h
          exact (step_advances hSource hStep).trans (ih h)
      | error stop =>
          rw [hStep] at h
          cases stop with
          | refused reason =>
              cases h
              exact .refl P _
          | fault fault => cases h

end Pass

/-- A run is a sequence of edits, whether it succeeds or not. -/
theorem Sandbox.run_evolves {P : Policy} {s : Sandbox} {f : Func} {outcome : Outcome}
    (hSource : s.source.Follows P) (hf : f.Sound P) (h : s.run f = .ok outcome) :
    f.Evolves P outcome.func := by
  cases hBody : f.isDeclaration with
  | true =>
      simp only [Sandbox.run, hBody, if_true] at h
      obtain rfl := Except.ok.inj h
      exact .refl
  | false =>
      simp only [Sandbox.run, hBody] at h
      obtain ⟨⟨p, refusal⟩, hWalk, h⟩ := bind_eq_ok_iff.mp h
      have hEvolves := (Pass.walk_advances hSource hWalk ⟨hf, by simp⟩).1
      cases refusal with
      | some refusal =>
          obtain rfl := Except.ok.inj h
          exact hEvolves
      | none =>
          obtain ⟨failed, _, h⟩ := bind_eq_ok_iff.mp h
          cases failed <;> obtain rfl := Except.ok.inj h <;> exact hEvolves

namespace Func

/-- The function comes from an empty one by edits, drafts and runs, whether these succeed or not,
where every operand that is brought in is allowed at that time. -/
inductive Reached (P : Policy) : Func → Prop where
  | empty (name : String) (params : List Ty) (result : Ty) : Reached P { name, params, result }
  | edit {f g : Func} (e : Edit) (prior : Reached P f) (gains : ∀ v ∈ e.gains, P.allows f v)
      (last : f.apply e = .ok g) : Reached P g
  | build {f g : Func} {id : InstId} (cursor : Cursor) (draft : Draft) (prior : Reached P f)
      (operands : ∀ inst, f.finish draft = .ok inst → ∀ v ∈ inst.operands, P.allows f v)
      (last : f.build cursor draft = .ok (g, id)) : Reached P g
  | run {f : Func} {outcome : Outcome} (s : Sandbox) (prior : Reached P f)
      (source : s.source.Follows P) (last : s.run f = .ok outcome) : Reached P outcome.func

theorem empty_sound (P : Policy) (name : String) (params : List Ty) (result : Ty) :
    ({ name, params, result } : Func).Sound P := by
  refine ⟨empty_consistent name params result, ?_⟩
  rintro id v ⟨c, hc, _⟩
  cases hc

/-- Every history is a sequence of edits. -/
theorem Reached.evolves {P : Policy} {f : Func} (h : f.Reached P) :
    ∃ name params result, Evolves P { name, params, result } f := by
  induction h with
  | empty name params result => exact ⟨name, params, result, .refl⟩
  | edit e prior gains last ih =>
      obtain ⟨name, params, result, hEvolves⟩ := ih
      exact ⟨name, params, result, hEvolves.tail ⟨e, gains, last⟩⟩
  | build cursor draft prior operands last ih =>
      obtain ⟨name, params, result, hEvolves⟩ := ih
      obtain ⟨inst, e, hFinish, hNew, hApply, _⟩ := build_ok last
      exact ⟨name, params, result, hEvolves.tail
        ⟨e, Applied.gains_of_new hNew ▸ operands inst hFinish, hApply⟩⟩
  | run s prior source last ih =>
      obtain ⟨name, params, result, hEvolves⟩ := ih
      have hSound := Evolves.sound hEvolves (empty_sound P name params result)
      exact ⟨name, params, result, hEvolves.trans (Sandbox.run_evolves source hSound last)⟩

/-- Whatever edits and runs have made is sound. -/
theorem Reached.sound {P : Policy} {f : Func} (h : f.Reached P) : f.Sound P := by
  obtain ⟨name, params, result, hEvolves⟩ := h.evolves
  exact Evolves.sound hEvolves (empty_sound P name params result)

/-- Runs make nothing that edits could not make. -/
theorem Reached.built {P : Policy} {f : Func} (h : f.Reached P) : f.Built := by
  obtain ⟨name, params, result, hEvolves⟩ := h.evolves
  clear h
  induction hEvolves with
  | refl => exact .empty name params result
  | tail prior last ih =>
      obtain ⟨e, _, hApply⟩ := last
      exact .edit e ih hApply

theorem Built.reached {f : Func} (h : f.Built) : f.Reached .any := by
  induction h with
  | empty name params result => exact .empty name params result
  | edit e prior last ih => exact .edit e ih (fun _ _ => trivial) last

/-- What is kept twice agrees. -/
structure Exact (f : Func) : Prop where
  /-- What was not removed occurs once in the layout, and what was removed does not. -/
  once : ∀ (id : InstId) (node : Node), f.nodes[id]? = some node →
    f.layout.count id = if node.live then 1 else 0
  /-- It stands in the block that its place records. -/
  placed : ∀ (id : InstId) (node : Node) (block : BlockId) (b : Block), f.nodes[id]? = some node →
    f.blocks[block]? = some b → (id ∈ b.insts ↔ node.live = true ∧ node.block = block)
  known : ∀ id ∈ f.layout, id < f.nodes.length
  /-- The recorded count is the number of operands that refer to the instruction. -/
  counted : ∀ (id : InstId) (node : Node), f.nodes[id]? = some node →
    node.uses = (f.nodes.flatMap fun other => other.inst.operands).count (.inst id)
  emptied : ∀ node ∈ f.nodes, node.live = false → node.inst.operands = []
  within : ∀ node ∈ f.nodes, ∀ j, .inst j ∈ node.inst.operands → j < f.nodes.length
  instCount : f.instCount = f.nodes.countP Node.live

/-- In a consistent function the layout, the counts and the references are exact. -/
theorem Consistent.exact {f : Func} (hf : f.Consistent) : f.Exact where
  once id node hNode := by
    have hCell : f.cells[id]? = some node.cell := cell_eq_some_iff.mpr ⟨node, hNode, rfl⟩
    have hMem : id ∈ f.layout ↔ node.live = true := by simp [hf.mem_layout_iff, hCell, Node.cell]
    by_cases hLive : node.live = true
    · rw [if_pos hLive]
      exact List.count_eq_one_of_mem hf.nodup_layout (hMem.mpr hLive)
    · rw [if_neg hLive]
      exact List.count_eq_zero_of_not_mem fun hId => hLive (hMem.mp hId)
  placed id node block b hNode hBlock := by
    have hCell : f.cells[id]? = some node.cell := cell_eq_some_iff.mpr ⟨node, hNode, rfl⟩
    rw [hf.placed block b hBlock, Stands, hCell]
    simp [Node.cell]
  known id hId := by
    obtain ⟨c, hc, _⟩ := hf.mem_layout_iff.mp hId
    exact f.length_cells ▸ lt_of_cell hc
  counted id node hNode := by
    have hUses : f.usesOf id = node.uses := by simp [usesOf, hNode]
    rw [← hUses, hf.counted, references, cells, List.flatMap_map]
    rfl
  emptied node hNode hDead := hf.emptied node.cell (List.mem_map_of_mem hNode) hDead
  within node hNode j hj := by
    rw [← f.length_cells]
    exact hf.within node.cell (List.mem_map_of_mem hNode) _ hj
  instCount := by
    rw [hf.instCount_eq, cells, List.countP_map]
    rfl

end Func

/-- Drafts and runs, also refused ones, make nothing that edits alone cannot make. After any edits
the order in the blocks, the store and the counts agree, and the next edit moves every count by
exactly what it brings and takes away. If only instructions that still stood were made operands, no
operand names an instruction that was removed; runs that load the region base from a variable are
always among these histories. -/
theorem store_exact_after_every_history :
    (∀ f : Func, f.Reached .any ↔ f.Built) ∧
    (∀ f : Func, f.Built → f.Exact ∧ ∀ e g, f.apply e = .ok g →
      ∀ j, g.usesOf j + (f.losses e).count (.inst j) = f.usesOf j + e.gains.count (.inst j)) ∧
    (∀ f : Func, f.Reached .live → ∀ node ∈ f.nodes, ∀ j, .inst j ∈ node.inst.operands →
      f.isLive j = .ok true) ∧
    ∀ P symbol, (BaseSource.ofSymbol symbol).Follows P := by
  refine ⟨fun f => ⟨fun h => h.built, fun h => h.reached⟩, fun f h =>
    ⟨h.consistent.exact, fun e g hApply => ?_⟩, fun f h node hNode j hj => ?_, fun P symbol =>
      BaseSource.ofSymbol_follows symbol P⟩
  · exact (Func.applied_of_apply h.consistent hApply).uses h.consistent
  · obtain ⟨id, hId⟩ := List.mem_iff_getElem?.mp hNode
    exact h.sound.allowed id (.inst j) ⟨node.cell, Func.cell_eq_some_iff.mpr ⟨node, hId, rfl⟩, hj⟩

/-- An address is folded before the comparison after it is refused. Once that is removed, the
function is confined again, with the region base as parameter. -/
theorem store_exact_after_refusedThenConfined :
    ∃ f : Func, f.Reached .live ∧ f.Reached .any ∧ f.isLive 0 = .ok false ∧
      f.isLive 3 = .ok false ∧ f.Exact ∧ ∀ node ∈ f.nodes, ∀ j, .inst j ∈ node.inst.operands →
      f.isLive j = .ok true := by
  obtain ⟨f, hReached, hFolded, hRemoved⟩ : ∃ f : Func, f.Reached .live ∧ f.isLive 0 = .ok false ∧
      f.isLive 3 = .ok false := by
    refine ⟨_, .run { source := .ofValue (.arg 2) }
      (.edit (.remove 3) (.run defaultSandbox
        (.build (.atEnd 0) (.icmp .eq (.arg 1) (.const (.null (.ptr .i32))))
      (.edit (.append 0 { opcode := .load, operands := [.inst 1], ty := .i32 })
      (.edit (.append 0 { opcode := .cast .intToPtr, operands := [.inst 0], ty := .ptr .i32 })
      (.edit (.append 0 { opcode := .binary .add, operands := [.arg 0, .ofWord 32 8], ty := .i32 })
      (.edit (.addBlock "entry") (.empty "f" [.i32, .ptr .i32, .i64] .void) ?_ rfl) ?_ rfl) ?_ rfl)
        ?_ rfl) ?_ rfl)
      (BaseSource.ofSymbol_follows _ _) rfl) ?_ rfl) (BaseSource.ofValue_follows fun _ =>
        trivial) rfl, rfl, rfl⟩
    · exact List.forall_mem_nil _
    · exact List.forall_mem_cons.mpr ⟨trivial, List.forall_mem_singleton.mpr trivial⟩
    · exact List.forall_mem_singleton.mpr rfl
    · exact List.forall_mem_singleton.mpr rfl
    · intro inst hFinish
      obtain rfl := Except.ok.inj hFinish
      exact List.forall_mem_cons.mpr ⟨trivial, List.forall_mem_singleton.mpr trivial⟩
    · exact List.forall_mem_nil _
  obtain ⟨hIff, hExact, hLive, _⟩ := store_exact_after_every_history
  have hBuilt := hReached.built
  exact ⟨f, hReached, (hIff f).mpr hBuilt, hFolded, hRemoved, (hExact f hBuilt).1, hLive f hReached⟩

end FaultIsolation
