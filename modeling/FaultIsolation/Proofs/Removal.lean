import FaultIsolation.Proofs.History

/-!
Removal of what nothing needs any more. It is tried once, when an address was folded, for the
conversion and then for the addition that made the address. That is enough: whatever is referred to
at some time and still stands later is still referred to, since a chain takes over what an access, a
conversion or an addition has referred to.
-/
namespace FaultIsolation

namespace Func

def PlainArithmetic (f : Func) : Prop :=
  ∀ id inst, id ∈ f.layout → f.inst id = .ok inst →
    (inst.opcode = .binary .add → inst.operands.length = 2) ∧
      (inst.opcode = .cast .intToPtr → inst.operands.length = 1)

section Referring

variable {f g : Func} {user j : InstId} {v : Value}

theorem Refers.references_pos (h : f.Refers user (.inst j)) : 0 < references f.cells j := by
  obtain ⟨c, hc, hv⟩ := h
  exact references_pos_iff.mpr ⟨c, List.mem_of_getElem? hc, hv⟩

theorem exists_refers (h : 0 < references f.cells j) : ∃ user, f.Refers user (.inst j) := by
  obtain ⟨c, hMem, hv⟩ := references_pos_iff.mp h
  obtain ⟨user, hc⟩ := List.mem_iff_getElem?.mp hMem
  exact ⟨user, c, hc, hv⟩

/-- Removing instructions takes away what they refer to. -/
theorem Sweeps.refers {ids : List InstId} {removed : Nat} (h : Sweeps ids f removed g)
    (hRefers : f.Refers user v) : g.Refers user v ∨ user ∈ ids := by
  obtain ⟨c, hc, hv⟩ := hRefers
  rcases h.cell hc with hSame | ⟨hMem, _⟩
  · exact .inl ⟨c, hSame, hv⟩
  · exact .inr hMem

/-- With the end of a chain in the place of an operand, everything else is still referred to. -/
theorem Replaced.refers {anchor : InstId} {c : Cell} {position : Nat} {old value : Value}
    (h : Replaced f anchor c position old value g) (hc : f.cells[anchor]? = some c)
    (hOld : c.inst.operands[position]? = some old) (hRefers : f.Refers user v) :
    g.Refers user v ∨ v = old := by
  obtain ⟨e, he, hv⟩ := hRefers
  by_cases hUser : anchor = user
  · subst hUser
    obtain rfl := Option.some.inj (hc.symm.trans he)
    obtain ⟨i, hi⟩ := List.mem_iff_getElem?.mp hv
    by_cases hPosition : position = i
    · subst hPosition
      exact .inr (Option.some.inj (hi.symm.trans hOld))
    · refine .inl ⟨_, by rw [h.cells, List.getElem?_set_self (lt_of_cell hc)],
        List.mem_of_getElem? (i := i) ?_⟩
      rw [Cell.setOperand, List.getElem?_set_ne hPosition]
      exact hi
  · exact .inl ⟨e, by rw [h.cells, List.getElem?_set_ne hUser]; exact he, hv⟩

end Referring

/-- What makes a foldable address: a conversion that takes the addition, and an addition that takes
the offset. -/
theorem PlainArithmetic.parts {f : Func} (h : f.PlainArithmetic) (hf : f.Consistent) {v : Value}
    {address : Foldable} (hFold : f.foldable? v = .ok (some address)) :
    ∃ a b constant, v = .inst address.conversion ∧ f.cells[address.conversion]? = some a ∧
      a.inst.opcode = .cast .intToPtr ∧ a.inst.operands = [.inst address.addition] ∧
      f.cells[address.addition]? = some b ∧ b.inst.opcode = .binary .add ∧
      b.inst.operands = [address.index, .const constant] := by
  obtain ⟨a, b, rfl, ha, hSource, hb, hStep⟩ := foldable?_some hFold
  obtain ⟨hCast, rest, hConversion⟩ := opcode_of_pointerSource? hSource
  obtain ⟨hAdd, _, bits, more, hAddition, _⟩ := operands_of_positiveStep? hStep
  have hOne := (h _ _ (hf.mem_layout_of_operand ha (by rw [hConversion]; exact List.mem_cons_self))
    (inst_of_cell ha)).2 hCast
  have hTwo := (h _ _ (hf.mem_layout_of_operand hb (by rw [hAddition]; exact List.mem_cons_self))
    (inst_of_cell hb)).1 hAdd
  obtain rfl : rest = [] := by simpa [hConversion] using hOne
  obtain rfl : more = [] := by simpa [hAddition] using hTwo
  exact ⟨a, b, _, rfl, ha, hCast, hConversion, hb, hAdd, hAddition⟩

/-- What was to be removed and still stands is referred to, and nothing was changed. -/
theorem Swept.kept_of_mem {f g : Func} {id : InstId} {removed : Nat} (h : Swept f id removed g)
    (hf : f.Consistent) (hLeft : id ∈ g.layout) : g = f ∧ 0 < references f.cells id := by
  obtain ⟨d, hd, hLive⟩ := (h.consistent hf).mem_layout_iff.mp hLeft
  cases h with
  | gone cell live unused removed =>
      rw [removed.cells, List.getElem?_set_self (lt_of_cell cell)] at hd
      cases hd
      cases hLive
  | kept cell needed =>
      obtain rfl := Option.some.inj (cell.symm.trans hd)
      exact ⟨rfl, needed hLive⟩

/-- Of a conversion and the addition it takes, whatever was not removed is referred to. -/
theorem Sweeps.references_pos {f g : Func} {conversion addition j : InstId} {removed : Nat}
    (h : Sweeps [conversion, addition] f removed g) (hf : f.Consistent)
    (hRefers : f.Refers conversion (.inst addition)) (hj : j = conversion ∨ j = addition)
    (hLeft : j ∈ g.layout) : 0 < references g.cells j := by
  cases h with
  | @cons _ _ _ k _ _ _ first rest =>
      cases rest with
      | cons second rest =>
          cases rest
          have hk := first.consistent hf
          rcases hj with rfl | rfl
          · have hOld : j < k.cells.length := by
              obtain ⟨c, hc, _⟩ := hRefers
              exact first.length_cells ▸ lt_of_cell hc
            obtain ⟨rfl, hNeeded⟩ := first.kept_of_mem hf
              (second.keeps.mem_layout hk (second.consistent hk) hOld hLeft)
            -- The conversion is still there, so the addition cannot be removed.
            cases second with
            | gone cell live unused removed =>
                exact absurd unused (Nat.ne_of_gt hRefers.references_pos)
            | kept cell needed => exact hNeeded
          · obtain ⟨rfl, hNeeded⟩ := second.kept_of_mem hk hLeft
            exact hNeeded

end Func

section Turn

variable {s : Sandbox} {symbol : Symbol} {f g : Func} {done : List Site} {p : Pass}
  {site : Site} {c d : Cell} {v : Value} {insts : List Instruction}
  {gone : List InstId} {removed : Nat}

/-- What makes an address that was not dealt with yet is as it was at first. -/
theorem Pending.parts (hPending : Pending s f done p site c d v)
    (hProgress : Progress s symbol f done p) (hf : f.Consistent) (hPlain : f.PlainArithmetic)
    {address : Foldable} (hFold : f.foldable? v = .ok (some address)) :
    ∃ a b constant, v = .inst address.conversion ∧ p.func.cells[address.conversion]? = some a ∧
      a.inst.operands = [.inst address.addition] ∧ p.func.cells[address.addition]? = some b ∧
      b.inst.operands = [address.index, .const constant] := by
  obtain ⟨a, b, constant, rfl, ha, hCast, hConversion, hb, hAdd, hAddition⟩ := hPlain.parts hf hFold
  have hUsed : p.func.Refers site.id (.inst address.conversion) :=
    ⟨d, hPending.cell, List.mem_of_getElem? hPending.operand⟩
  have ha' := hProgress.intact.cell_of_referenced ha (Access.places_intToPtr hCast)
    hUsed.references_pos
  have hTaken : p.func.Refers address.conversion (.inst address.addition) :=
    ⟨a, ha', by simp [hConversion]⟩
  have hb' := hProgress.intact.cell_of_referenced hb (Access.places_add hAdd) hTaken.references_pos
  exact ⟨a, b, constant, rfl, ha', hConversion, hb', hAddition⟩

/-- What a chain refers to is referred to once the chain is there. -/
theorem Turn.refers_new (hTurn : Turn s f p site d v insts gone removed g)
    (hProgress : Progress s symbol f done p) (hPending : Pending s f done p site c d v) {i : Nat}
    {inst : Instruction} (hi : insts[i]? = some inst) {w : Value} (hw : w ∈ inst.operands) :
    g.Refers (p.func.cells.length + i) w :=
  ⟨_, hTurn.rerouted.new_cell hPending.cell
    (fun _ hj => Nat.lt_of_lt_of_le (hTurn.gone_lt hj) hProgress.keeps.length_le) hi, hw⟩

/-- Whatever was referred to and still stands is still referred to. -/
theorem Turn.references_pos (hTurn : Turn s f p site d v insts gone removed g)
    (hProgress : Progress s symbol f done p) (hPending : Pending s f done p site c d v)
    (hf : f.Consistent) (hPlain : f.PlainArithmetic) {j : InstId}
    (hBefore : 0 < references p.func.cells j) (hLeft : j ∈ g.layout) :
    0 < references g.cells j := by
  obtain ⟨user, e, he, hUser⟩ := Func.exists_refers hBefore
  have hNew : ∀ (i : Nat) (inst : Instruction), insts[i]? = some inst → .inst j ∈ inst.operands →
      0 < references g.cells j := fun _ _ hi hw =>
      (hTurn.refers_new hProgress hPending hi hw).references_pos
  have hOff := hTurn.anchor_not_gone hPending.takes
  have hGone := hTurn.superfluous
  obtain @⟨h, k, emitted, replaced, swept⟩ := hTurn.rerouted
  have hOld := replaced.refers (emitted.old hPending.cell) hPending.operand
    ⟨e, emitted.old he, hUser⟩
  generalize hRole : site.role = role at hGone
  have hChain := hTurn.chain
  rw [hRole] at hChain
  cases hChain with
  | length typed =>
      subst hGone
      cases swept
      rcases hOld with hOld | rfl
      · exact hOld.references_pos
      · exact hNew 0 _ rfl List.mem_cons_self
  | @address _ base ty fold known typed folded =>
      cases fold with
      | none =>
          obtain rfl : gone = [] := by
            simpa [Sandbox.superfluous, folded, Except.toOption, foldedParts] using hGone
          cases swept
          rcases hOld with hOld | rfl
          · exact hOld.references_pos
          · exact hNew 0 _ rfl List.mem_cons_self
      | some address =>
          obtain rfl : gone = [address.conversion, address.addition] := by
            simpa [Sandbox.superfluous, folded, Except.toOption, foldedParts] using hGone
          obtain ⟨a, b, constant, rfl, ha, hConversion, hb, hAddition⟩ :=
            hPending.parts hProgress hf hPlain (Sandbox.foldable?_eq_some_iff.mp folded).2
          rw [List.mem_cons, List.mem_singleton, not_or] at hOff
          have hSame : ∀ {id : InstId} {x : Cell}, site.id ≠ id → p.func.cells[id]? = some x →
              k.cells[id]? = some x :=
            fun hNe hx => by
              rw [replaced.cells, List.getElem?_set_ne hNe]
              exact emitted.old hx
          have hLast := emitted.new_within
            (Nat.sub_lt (List.length_pos_of_ne_nil hTurn.chain.ne_nil) Nat.one_pos)
          have hk := replaced.consistent emitted.consistent (emitted.old hPending.cell)
            hPending.operand hLast
          by_cases hj : j = address.conversion ∨ j = address.addition
          · exact swept.references_pos hk ⟨a, hSame hOff.1 ha, by simp [hConversion]⟩ hj hLeft
          · rw [not_or] at hj
            rcases hOld with hOld | hMoved
            · rcases swept.refers hOld with hNow | hUsed
              · exact hNow.references_pos
              · -- What has referred to it may be gone. Then it is the offset, and the chain refers
                -- to that.
                obtain ⟨x, hx, hw⟩ := hOld
                simp only [List.mem_cons, List.not_mem_nil, or_false] at hUsed
                rcases hUsed with rfl | rfl
                · obtain rfl := Option.some.inj ((hSame hOff.1 ha).symm.trans hx)
                  exact absurd (by simpa [hConversion] using hw) hj.2
                · obtain rfl := Option.some.inj ((hSame hOff.2 hb).symm.trans hx)
                  have hIndex : .inst j = address.index := by simpa [hAddition] using hw
                  exact hNew 0 _ rfl (by simp [hIndex])
            · exact absurd (Value.inst.inj hMoved) hj.1

end Turn

/-- The instruction is one of the two that make an address at one of the places, and the address
could be folded. -/
def Func.MakesAddress (f : Func) (sites : List Site) (j : InstId) : Prop :=
  ∃ site ∈ sites, ∃ (c : Cell) (v : Value) (address : Foldable), f.Takes site c v ∧
    site.role = .address ∧ f.foldable? v = .ok (some address) ∧
    (j = address.conversion ∨ j = address.addition)

theorem Func.MakesAddress.lt_length {f : Func} {sites : List Site} {j : InstId}
    (h : f.MakesAddress sites j) : j < f.cells.length := by
  obtain ⟨_, _, _, _, address, _, _, hFold, hj⟩ := h
  obtain ⟨a, b, _, ha, _, hb, _⟩ := foldable?_some hFold
  rcases hj with rfl | rfl
  · exact lt_of_cell ha
  · exact lt_of_cell hb

/-- At any time of the work, what made an address that was dealt with is referred to if it still
stands. -/
theorem Course.references_pos {s : Sandbox} {symbol : Symbol} {f : Func} {done : List Site}
    {p : Pass} (h : Course s symbol f done p) (hf : f.Consistent) (hPlain : f.PlainArithmetic)
    {j : InstId} (hMakes : f.MakesAddress done j) (hLeft : j ∈ p.func.layout) :
    0 < references p.func.cells j := by
  have hOld := hMakes.lt_length
  induction h with
  | start =>
      obtain ⟨_, hSite, _⟩ := hMakes
      cases hSite
  | @opened done p q base prior progress last ih =>
      cases last with
      | known base_eq => exact ih hMakes hLeft
      | loaded base_eq consistent inserted =>
          have hBefore := inserted.keeps.mem_layout progress.consistent consistent
            (Nat.lt_of_lt_of_le hOld progress.keeps.length_le) hLeft
          rw [inserted.cells, references_append]
          exact Nat.lt_of_lt_of_le (ih hMakes hBefore) (Nat.le_add_right _ _)
  | @turned done p site c d v insts gone removed g counts prior progress pending
      last addresses ih =>
      have hg := last.rerouted.consistent pending.cell pending.operand last.chain.ne_nil
      have hBefore := (last.rerouted.keeps pending.cell).mem_layout progress.consistent hg
        (Nat.lt_of_lt_of_le hOld progress.keeps.length_le) hLeft
      refine last.references_pos progress pending hf hPlain ?_ hLeft
      obtain ⟨other, hOther, c', v', address, hTakes, hRole, hFold, hj⟩ := hMakes
      rcases List.mem_append.mp hOther with hOther | hOther
      · exact ih ⟨other, hOther, c', v', address, hTakes, hRole, hFold, hj⟩ hBefore
      · -- The address is dealt with only now, so the access takes it and the conversion takes the
        -- addition.
        obtain rfl : other = site := by simpa using hOther
        obtain rfl := Option.some.inj (pending.takes.cell.symm.trans hTakes.cell)
        obtain rfl := Option.some.inj (pending.takes.operand.symm.trans hTakes.operand)
        obtain ⟨a, b, _, rfl, ha, hConversion, _⟩ := pending.parts progress hf hPlain hFold
        rcases hj with rfl | rfl
        · exact Func.Refers.references_pos ⟨d, pending.cell, List.mem_of_getElem? pending.operand⟩
        · exact Func.Refers.references_pos ⟨a, ha, by simp [hConversion]⟩
  | @kept done p site c v ty prior takes role typed other ih =>
      obtain ⟨place, hPlace, c', v', address, hTakes, hRole, hRest⟩ := hMakes
      rcases List.mem_append.mp hPlace with hPlace | hPlace
      · exact ih ⟨place, hPlace, c', v', address, hTakes, hRole, hRest⟩ hLeft
      · obtain rfl : place = site := by simpa using hPlace
        rw [role] at hRole
        cases hRole

/-- Confinement removes from a function only what made an address that it has folded, and of that
exactly what nothing refers to in the end. -/
theorem dead_arithmetic_removed {s : Sandbox} {symbol : Symbol} {f g : Func} {stats : Stats}
    (hBuilt : f.Built) (hBody : f.isDeclaration = false) (hSource : s.source = .ofSymbol symbol)
    (hPlain : f.PlainArithmetic) (hRun : s.run f = .ok ⟨g, .ok stats⟩) :
    (∀ id ∈ f.layout, id ∉ g.layout → s.options.fold = true ∧ ∃ access position v address,
      f.AddressAt access position v ∧ f.foldable? v = .ok (some address) ∧
      (id = address.conversion ∨ id = address.addition)) ∧
    ∀ access position v address, f.AddressAt access position v →
      f.foldable? v = .ok (some address) → ∀ id, id = address.conversion ∨ id = address.addition →
        (id ∈ g.layout ↔ ∃ user ∈ g.layout, ∃ inst, g.inst user = .ok inst ∧
          .inst id ∈ inst.operands) := by
  have hf := hBuilt.consistent
  obtain ⟨p, rfl, rfl, h⟩ := Sandbox.run_ok hSource hf hBody hRun
  have hDead : ∀ id ∈ f.layout, id ∉ p.func.layout →
      ∃ c d, Dropped s f (f.layout.flatMap f.sites) p id c d :=
    fun id hId hGone => by
      obtain ⟨c, hc, hLive⟩ := hf.mem_layout_iff.mp hId
      obtain ⟨d, hd, hCarried | hDropped⟩ := h.old id c hc
      · exact absurd (h.consistent.mem_layout_iff.mpr ⟨d, hd, hCarried.live.trans hLive⟩) hGone
      · exact ⟨c, d, hDropped⟩
  constructor
  · intro id hId hGone
    obtain ⟨_, _, hDropped⟩ := hDead id hId hGone
    obtain ⟨site, _, _, v, address, hTakes, hRole, hFold, hPart⟩ := hDropped.folded
    obtain ⟨hOn, hFold⟩ := Sandbox.foldable?_eq_some_iff.mp hFold
    exact ⟨hOn, site.id, site.position, v, address, hTakes.addressAt hf hRole, hFold, hPart⟩
  · intro access position v address hAt hFold id hPart
    obtain ⟨c, hTakes, hDone⟩ := h.takes_address hf hAt
    constructor
    · intro hLeft
      have hPos := h.course.references_pos hf hPlain ⟨_, hDone, c, v, address, hTakes, rfl,
        hFold, hPart⟩ hLeft
      obtain ⟨user, e, he, hUser⟩ := Func.exists_refers hPos
      exact ⟨user, h.consistent.mem_layout_of_operand he hUser, e.inst, Func.inst_of_cell he, hUser⟩
    · rintro ⟨user, _, inst, hInst, hUser⟩
      by_contra hGone
      obtain ⟨e, he, rfl⟩ := Func.cell_of_inst hInst
      have hId : id ∈ f.layout := by
        obtain ⟨a, b, _, _, ha, _, hConversion, hb, _, hAddition⟩ := hPlain.parts hf hFold
        rcases hPart with rfl | rfl
        · exact hf.mem_layout_of_operand ha (by rw [hConversion]; exact List.mem_cons_self)
        · exact hf.mem_layout_of_operand hb (by rw [hAddition]; exact List.mem_cons_self)
      obtain ⟨_, _, hDropped⟩ := hDead id hId hGone
      exact absurd hDropped.unreferenced (Nat.ne_of_gt (Func.Refers.references_pos ⟨e, he, hUser⟩))

/-- Three addresses: the first two share an addition, which is the offset of the third, and the
first is returned. -/
def sharedOffsets : List Func.Edit :=
  [ .addBlock "entry",
    .append 0 { opcode := .binary .add, operands := [.arg 0, .ofWord 32 8], ty := .i32 },
    .append 0 { opcode := .cast .intToPtr, operands := [.inst 0], ty := .ptr .i32 },
    .append 0 { opcode := .cast .intToPtr, operands := [.inst 0], ty := .ptr .i32 },
    .append 0 { opcode := .binary .add, operands := [.inst 0, .ofWord 32 4], ty := .i32 },
    .append 0 { opcode := .cast .intToPtr, operands := [.inst 3], ty := .ptr .i32 },
    .append 0 { opcode := .load, operands := [.inst 1], ty := .i32 },
    .append 0 { opcode := .load, operands := [.inst 2], ty := .i32 },
    .append 0 { opcode := .load, operands := [.inst 4], ty := .i32 },
    .append 0 { opcode := .ret, operands := [.inst 1], ty := .void } ]

theorem Func.plainArithmetic_of_nodes {f : Func}
    (h : ∀ node ∈ f.nodes, (node.inst.opcode = .binary .add → node.inst.operands.length = 2) ∧
      (node.inst.opcode = .cast .intToPtr → node.inst.operands.length = 1)) :
    f.PlainArithmetic := by
  intro id inst _ hInst
  obtain ⟨c, hc, rfl⟩ := cell_of_inst hInst
  obtain ⟨node, hNode, rfl⟩ := cell_eq_some_iff.mp hc
  exact h node (List.mem_of_getElem? hNode)

/-- The second conversion goes, and so do the third conversion and its addition. The first
conversion and the shared addition stay. -/
theorem dead_arithmetic_removed_sharedOffsets :
    ∃ f g stats, Func.ofEdits "f" [.i32] (.ptr .i32) sharedOffsets = .ok f ∧ f.PlainArithmetic ∧
      defaultSandbox.run f = .ok ⟨g, .ok stats⟩ ∧ f.layout = [0, 1, 2, 3, 4, 5, 6, 7, 8] ∧
      g.layout.filter (· < 9) = [0, 1, 5, 6, 7, 8] ∧
      (∃ user ∈ g.layout, ∃ inst, g.inst user = .ok inst ∧ .inst 1 ∈ inst.operands) ∧
      ¬∃ user ∈ g.layout, ∃ inst, g.inst user = .ok inst ∧ .inst 2 ∈ inst.operands := by
  obtain ⟨f, g, stats, hf, hNodes, hBody, hRun, hOld, hNew, hStays, hGoes, hFirst, hSecond, hAt,
    hAt'⟩ : ∃ f g stats,
      Func.ofEdits "f" [.i32] (.ptr .i32) sharedOffsets = .ok f ∧
      (∀ node ∈ f.nodes, (node.inst.opcode = .binary .add → node.inst.operands.length = 2) ∧
        (node.inst.opcode = .cast .intToPtr → node.inst.operands.length = 1)) ∧
      f.isDeclaration = false ∧ defaultSandbox.run f = .ok ⟨g, .ok stats⟩ ∧
      f.layout = [0, 1, 2, 3, 4, 5, 6, 7, 8] ∧ g.layout.filter (· < 9) = [0, 1, 5, 6, 7, 8] ∧
      1 ∈ g.layout ∧ 2 ∉ g.layout ∧ f.foldable? (.inst 1) = .ok (some ⟨.arg 0, 8, 1, 0⟩) ∧
      f.foldable? (.inst 2) = .ok (some ⟨.arg 0, 8, 2, 0⟩) ∧
      f.inst 5 = .ok { opcode := .load, operands := [.inst 1], ty := .i32 } ∧
      f.inst 6 = .ok { opcode := .load, operands := [.inst 2], ty := .i32 } :=
    ⟨_, _, _, rfl, by decide, rfl, rfl, rfl, rfl, by decide, by decide, rfl, rfl, rfl, rfl⟩
  have hPlain := Func.plainArithmetic_of_nodes hNodes
  obtain ⟨_, hExact⟩ := dead_arithmetic_removed (Func.built_ofEdits hf) hBody
    (s := defaultSandbox) rfl hPlain hRun
  have hRead : f.AddressAt 5 0 (.inst 1) := ⟨by simp [hOld], _, hAt, by decide, rfl⟩
  have hReadAgain : f.AddressAt 6 0 (.inst 2) := ⟨by simp [hOld], _, hAt', by decide, rfl⟩
  exact ⟨f, g, stats, hf, hPlain, hRun, hOld, hNew,
    (hExact _ _ _ _ hRead hFirst 1 (.inl rfl)).mp hStays, fun hUsed =>
    hGoes ((hExact _ _ _ _ hReadAgain hSecond 2 (.inl rfl)).mpr hUsed)⟩

end FaultIsolation
