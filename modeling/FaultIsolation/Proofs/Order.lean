import FaultIsolation.Proofs.Layout
import FaultIsolation.Proofs.Agreement

/-!
Values are there before they are used. Confinement puts a chain right before the instruction that
needs it, so all that the chain refers to stands before it: what the instruction took, what a folded
address was made from, and the region base, which comes in last but at the head of the function.
What is removed is used by nothing.
-/
namespace FaultIsolation

def Instruction.isJoin (i : Instruction) : Bool :=
  match i.opcode with
  | .phi _ => true
  | _ => false

theorem Instruction.places_of_isJoin {inst : Instruction} (h : inst.isJoin = true) :
    (Access.ofInstruction inst).places = [] := by
  unfold isJoin at h
  split at h
  · next hOpcode => simp [Access.ofInstruction, hOpcode, Access.places,
      Access.addresses, Access.length?]
  · cases h

namespace Func

def Precedes (f : Func) (j id : InstId) : Prop := [j, id].Sublist f.layout

instance (f : Func) (j id : InstId) : Decidable (f.Precedes j id) :=
  inferInstanceAs (Decidable ([j, id].Sublist f.layout))

/-- The instruction of number `id` can refer to that of number `j`: it stands before, or just
somewhere if the reference is from a join. -/
def Available (f : Func) (inst : Instruction) (id j : InstId) : Prop :=
  if inst.isJoin then j ∈ f.layout else f.Precedes j id

instance (f : Func) (inst : Instruction) (id j : InstId) : Decidable (f.Available inst id j) :=
  inferInstanceAs (Decidable (if inst.isJoin then j ∈ f.layout else f.Precedes j id))

def Ordered (f : Func) : Prop :=
  ∀ id ∈ f.layout, ∀ inst, f.inst id = .ok inst → ∀ j, .inst j ∈ inst.operands →
    f.Available inst id j

section Availability

variable {f g : Func} {inst : Instruction} {id j : InstId}

theorem Precedes.left_mem (h : f.Precedes j id) : j ∈ f.layout := h.subset (by simp)

theorem Precedes.ne (h : f.Precedes j id) (hf : f.Consistent) : j ≠ id :=
  List.pairwise_iff_forall_sublist.mp hf.nodup_layout h

/-- Standing before is transitive, since nothing stands in the layout twice. -/
theorem Precedes.trans {k : InstId} (hf : f.Consistent) (first : f.Precedes j id)
    (second : f.Precedes id k) : f.Precedes j k :=
  pair_sublist_trans hf.nodup_layout first second

/-- The head of the function stands before everything else. -/
theorem precedes_of_entryHead? (hHead : f.entryHead? = some j) (hMem : id ∈ f.layout)
    (hNe : j ≠ id) : f.Precedes j id := by
  obtain ⟨rest, hLayout⟩ := List.head?_eq_some_iff.mp (head?_layout hHead)
  rw [hLayout] at hMem
  rw [Precedes, hLayout, List.cons_sublist_cons, List.singleton_sublist]
  exact (List.mem_cons.mp hMem).resolve_left (Ne.symm hNe)

/-- What stands before an instruction is available to it. -/
theorem Precedes.available (h : f.Precedes j id) (inst : Instruction) : f.Available inst id j := by
  unfold Available
  split
  · exact h.left_mem
  · exact h

/-- What stands before an instruction is in the part of the layout in front of it. -/
theorem Precedes.mem_front (h : f.Precedes j id) (hf : f.Consistent) {front back : List InstId}
    (hLayout : f.layout = front ++ id :: back) : j ∈ front := by
  have hMem := h.left_mem
  rw [hLayout, List.mem_append, List.mem_cons] at hMem
  rcases hMem with hFront | rfl | hBack
  · exact hFront
  · exact absurd rfl (h.ne hf)
  · have hAfter : f.Precedes id j := by
      rw [Precedes, hLayout]
      exact ((List.singleton_sublist.mpr hBack).cons_cons id).trans (List.sublist_append_right _ _)
    exact absurd rfl ((h.trans hf hAfter).ne hf)

theorem Available.mem_layout (h : f.Available inst id j) : j ∈ f.layout := by
  unfold Available at h
  split at h
  · exact h
  · exact h.left_mem

theorem Available.precedes (h : f.Available inst id j) (hJoin : inst.isJoin = false) :
    f.Precedes j id := by
  simpa [Available, hJoin] using h

/-- What is available stays so when instructions are only put in. -/
theorem Available.mono (h : f.Available inst id j) (hSub : f.layout.Sublist g.layout) :
    g.Available inst id j := by
  by_cases hJoin : inst.isJoin = true
  · rw [Available, if_pos hJoin] at h ⊢
    exact hSub.subset h
  · rw [Available, if_neg hJoin] at h ⊢
    exact List.Sublist.trans h hSub

/-- What stays is in the order it was in. -/
theorem Available.of_sublist (h : f.Available inst id j) (hf : f.Consistent)
    (hSub : g.layout.Sublist f.layout) (hj : j ∈ g.layout) (hId : id ∈ g.layout) :
    g.Available inst id j := by
  by_cases hJoin : inst.isJoin = true
  · rw [Available, if_pos hJoin]
    exact hj
  · rw [Available, if_neg hJoin] at h ⊢
    -- The new layout is the old one without what is gone, and neither of the two is.
    have hFilter := List.Sublist.filter (· ∈ g.layout) h
    rw [List.filter_eq_self.mpr (by simp [hj, hId]),
      ← eq_filter_of_sublist hSub hf.nodup_layout] at hFilter
    exact hFilter

/-- In an ordered function every operand is available. -/
theorem Ordered.available (h : f.Ordered) (hf : f.Consistent) {c : Cell}
    (hc : f.cells[id]? = some c) (hj : .inst j ∈ c.inst.operands) : f.Available c.inst id j :=
  h id (hf.mem_layout_of_operand hc hj) c.inst (inst_of_cell hc) j hj

/-- It is enough that the operands of everything in the store are available. -/
theorem ordered_of_cells (h : ∀ (id : InstId) (c : Cell) (j : InstId), f.cells[id]? = some c →
    .inst j ∈ c.inst.operands → f.Available c.inst id j) : f.Ordered := by
  intro id _ inst hInst j hj
  obtain ⟨c, hc, rfl⟩ := cell_of_inst hInst
  exact h id c j hc hj

end Availability

/-- The members of a chain refer to what stands before the anchor, and to earlier members. -/
def ChainOrdered (f : Func) (anchor : InstId) (insts : List Instruction) : Prop :=
  ∀ (i : Nat) (inst : Instruction) (j : InstId), insts[i]? = some inst → .inst j ∈ inst.operands →
    f.Precedes j anchor ∨ ∃ k < i, j = f.cells.length + k

section Emission

variable {f g : Func} {anchor : InstId} {c : Cell} {insts : List Instruction}
  (h : Emitted f c.block anchor insts g) (hf : f.Consistent) (hc : f.cells[anchor]? = some c)
  (hLive : c.live = true)

include h hf hc hLive

/-- The whole chain stands before its anchor. -/
theorem Emitted.precedes_anchor {i : Nat} (hi : i < insts.length) :
    g.Precedes (f.cells.length + i) anchor := by
  obtain ⟨front, back, _, hNew⟩ := h.layout hf hc hLive
  have hMem : f.cells.length + i ∈ front ++ List.range' f.cells.length insts.length :=
    List.mem_append_right _ (List.mem_range'_1.mpr ⟨Nat.le_add_right _ _, Nat.add_lt_add_left hi _⟩)
  rw [Precedes, hNew]
  exact pair_sublist_append hMem List.mem_cons_self

/-- What a member of the chain may refer to stands before it. -/
theorem Emitted.precedes_new {i : Nat} {j : InstId} (hi : i < insts.length)
    (hBefore : f.Precedes j anchor ∨ ∃ k < i, j = f.cells.length + k) :
    g.Precedes j (f.cells.length + i) := by
  obtain ⟨front, back, hOld, hNew⟩ := h.layout hf hc hLive
  have hMem : f.cells.length + i ∈ List.range' f.cells.length insts.length :=
    List.mem_range'_1.mpr ⟨Nat.le_add_right _ _, Nat.add_lt_add_left hi _⟩
  rw [Precedes, hNew]
  refine List.Sublist.trans ?_ (List.sublist_append_left _ _)
  rcases hBefore with hBefore | ⟨k, hk, rfl⟩
  · exact pair_sublist_append (hBefore.mem_front hf hOld) hMem
  · exact (pair_sublist_range' hk hi).trans (List.sublist_append_right _ _)

/-- Emitting an ordered chain keeps the order. -/
theorem Emitted.ordered (hOrdered : f.Ordered) (hChain : f.ChainOrdered anchor insts) :
    g.Ordered := by
  obtain ⟨front, back, hOld, hNew⟩ := h.layout hf hc hLive
  have hSub : f.layout.Sublist g.layout := by
    rw [hOld, hNew, List.append_assoc]
    exact (List.sublist_append_right _ _).append_left front
  refine ordered_of_cells fun id d j hd hj => ?_
  rcases Nat.lt_or_ge id f.cells.length with hLt | hGe
  · rw [h.cells, List.getElem?_append_left hLt] at hd
    exact (hOrdered.available hf hd hj).mono hSub
  · obtain ⟨i, rfl⟩ := Nat.exists_eq_add_of_le hGe
    have hi : i < insts.length := by
      have hLt := lt_of_cell hd
      rw [h.length_cells] at hLt
      exact Nat.lt_of_add_lt_add_left hLt
    have hInst : insts[i]? = some insts[i] := List.getElem?_eq_getElem hi
    obtain rfl := Option.some.inj (hd.symm.trans (h.new hInst))
    exact (h.precedes_new hf hc hLive hi (hChain i _ j hInst hj)).available _

end Emission

/-- An operand may become what stands before the instruction. -/
theorem Replaced.ordered {f g : Func} {id : InstId} {c : Cell} {position : Nat} {old : Value}
    {j : InstId} (h : Replaced f id c position old (.inst j) g) (hf : f.Consistent)
    (hOrdered : f.Ordered) (hc : f.cells[id]? = some c) (hBefore : f.Precedes j id) :
    g.Ordered := by
  have hSub : f.layout.Sublist g.layout := by rw [h.layout]
  refine ordered_of_cells fun id' d k hd hk => ?_
  rw [h.cells] at hd
  by_cases hId : id = id'
  · subst hId
    rw [List.getElem?_set_self (lt_of_cell hc)] at hd
    obtain rfl := Option.some.inj hd
    rcases List.mem_or_eq_of_mem_set hk with hOld | hNew
    · exact (hOrdered.available hf hc hOld).mono hSub
    · obtain rfl := Value.inst.inj hNew
      exact (hBefore.available _).mono hSub
  · rw [List.getElem?_set_ne hId] at hd
    exact (hOrdered.available hf hd hk).mono hSub

/-- Nothing refers to what was removed. -/
theorem Sweeps.ordered {f g : Func} {ids : List InstId} {removed : Nat} (h : Sweeps ids f removed g)
    (hf : f.Consistent) (hOrdered : f.Ordered) : g.Ordered := by
  have hg := h.consistent hf
  refine ordered_of_cells fun id d j hd hj => ?_
  obtain ⟨c, hc⟩ := exists_cell (h.length_cells ▸ lt_of_cell hd)
  obtain rfl : c = d := by
    rcases h.cell hc with hSame | ⟨_, _, hGone, _⟩
    · exact Option.some.inj (hSame.symm.trans hd)
    · obtain rfl := Option.some.inj (hd.symm.trans hGone)
      cases hj
  have hAvailable := hOrdered.available hf hc hj
  -- An instruction that is still referred to was not removed.
  have hStays : j ∈ g.layout := by
    obtain ⟨e, he, hLive⟩ := hf.mem_layout_iff.mp hAvailable.mem_layout
    rcases h.cell he with hSame | ⟨_, _, _, hNone⟩
    · exact hg.mem_layout_iff.mpr ⟨e, hSame, hLive⟩
    · exact absurd hNone (Nat.ne_of_gt (references_pos_iff.mpr ⟨c, List.mem_of_getElem? hd, hj⟩))
  exact hAvailable.of_sublist hf (h.layout_sublist hf) hStays (hg.mem_layout_of_operand hd hj)

/-- So does putting it in the place of an operand and removing what nothing needs. -/
theorem Rerouted.ordered {f g : Func} {anchor : InstId} {c : Cell} {position : Nat} {old : Value}
    {insts : List Instruction} {gone : List InstId} {removed : Nat}
    (h : Rerouted f anchor c position old insts gone removed g) (hf : f.Consistent)
    (hOrdered : f.Ordered) (hc : f.cells[anchor]? = some c)
    (hOld : c.inst.operands[position]? = some old) (hInsts : insts ≠ [])
    (hChain : f.ChainOrdered anchor insts) : g.Ordered := by
  cases h with
  | intro emitted replaced swept =>
      have hLive : c.live = true := by
        obtain ⟨d, hd, hLive⟩ := hf.mem_layout_iff.mp
          (hf.mem_layout_of_operand hc (List.mem_of_getElem? hOld))
        obtain rfl := Option.some.inj (hc.symm.trans hd)
        exact hLive
      have hLast := Nat.sub_lt (List.length_pos_of_ne_nil hInsts) Nat.one_pos
      have hReplaced := replaced.consistent emitted.consistent (emitted.old hc) hOld
        (emitted.new_within hLast)
      refine swept.ordered hReplaced ?_
      exact replaced.ordered emitted.consistent (emitted.ordered hf hc hLive hOrdered hChain)
        (emitted.old hc) (emitted.precedes_anchor hf hc hLive hLast)

end Func

/-- The load of the region base refers to no instruction, so it may stand at the head. -/
theorem Pass.Opened.ordered {symbol : Symbol} {p q : Pass} {base : Value}
    (h : Pass.Opened symbol p q base) (hp : p.func.Consistent) (hOrdered : p.func.Ordered)
    (hBody : 0 < p.func.blocks.length) : q.func.Ordered := by
  cases h with
  | known base_eq => exact hOrdered
  | @loaded g base_eq consistent inserted =>
      have hSub : p.func.layout.Sublist g.layout := by
        rw [inserted.layout_head hBody]
        exact List.sublist_cons_self _ _
      refine Func.ordered_of_cells fun id d j hd hj => ?_
      rw [inserted.cells] at hd
      rcases Nat.lt_or_ge id p.func.cells.length with hLt | hGe
      · rw [List.getElem?_append_left hLt] at hd
        exact (hOrdered.available hp hd hj).mono hSub
      · rw [List.getElem?_append_right hGe] at hd
        obtain rfl : d = ⟨baseLoad symbol, 0, true⟩ := by simpa using List.mem_of_getElem? hd
        simp [baseLoad] at hj

section Run

variable {s : Sandbox} {symbol : Symbol} {f : Func} {done : List Site} {p : Pass} {site : Site}
  {c d : Cell} {v : Value}

/-- An access is no join. -/
theorem Pending.isJoin_eq_false (h : Pending s f done p site c d v) : d.inst.isJoin = false := by
  refine Bool.eq_false_iff.mpr fun hJoin => ?_
  have hListed := h.takes.listed
  rw [Instruction.places_of_isJoin
    (by simpa only [Instruction.isJoin, h.opcode] using hJoin)] at hListed
  cases hListed

section Chain

variable (h : Pending s f done p site c d v) (hProgress : Progress s symbol f done p)
  (hOrdered : p.func.Ordered) {j : InstId}

include h hProgress

/-- The region base stands before every access. -/
theorem Pending.base_precedes (hBase : p.base = some (.inst j)) : p.func.Precedes j site.id := by
  obtain ⟨b, _, hEq, hFresh, _, hHead⟩ := hProgress.base _ hBase
  obtain rfl := Value.inst.inj hEq
  apply Func.precedes_of_entryHead? hHead
  · exact hProgress.consistent.mem_layout_of_operand h.cell (List.mem_of_getElem? h.operand)
  · exact Nat.ne_of_gt (Nat.lt_of_lt_of_le (Func.lt_of_cell h.takes.cell) hFresh)

include hOrdered

/-- An operand that is still to be dealt with stands before the access. -/
theorem Pending.operand_precedes (hv : v = .inst j) : p.func.Precedes j site.id := by
  have hMem : .inst j ∈ d.inst.operands := hv ▸ List.mem_of_getElem? h.operand
  exact (hOrdered.available hProgress.consistent h.cell hMem).precedes h.isJoin_eq_false

/-- The offset of a folded address stands before the addition, that before the conversion, and that
before the access. -/
theorem Pending.index_precedes {address : Foldable} (hFold : s.foldable? f v = .ok (some address))
    (hIndex : address.index = .inst j) : p.func.Precedes j site.id := by
  have hp := hProgress.consistent
  -- Folding is decided by the original function, but the order is that of the function now.
  have hNow := hProgress.intact.foldable?_of_operand h.cell (List.mem_of_getElem? h.operand) hFold
  obtain ⟨a, b, hPointer, ha, hSource, hb, hStep⟩ :=
    Func.foldable?_some (Sandbox.foldable?_eq_some_iff.mp hNow).2
  obtain ⟨hCast, rest, hOperands⟩ := Func.opcode_of_pointerSource? hSource
  have hAdd := Func.opcode_of_positiveStep? hStep
  have hFirst : p.func.Precedes j address.addition :=
    (hOrdered.available hp hb (hIndex ▸ Func.index_mem_of_positiveStep? hStep)).precedes
      (by simp [Instruction.isJoin, hAdd])
  have hSecond : p.func.Precedes address.addition address.conversion :=
    (hOrdered.available hp ha (by simp [hOperands])).precedes (by simp [Instruction.isJoin, hCast])
  exact (hFirst.trans hp hSecond).trans hp (h.operand_precedes hProgress hOrdered hPointer)

/-- A chain refers to what stands before the access, and to its own members in order. -/
theorem Pending.chainOrdered {insts : List Instruction}
    (hChain : Replacement s f p.base p.func.cells.length site.role v insts) :
    p.func.ChainOrdered site.id insts := by
  intro i inst j hi hj
  rcases hChain.refers hi hj with hPointer | ⟨address, hFold, hIndex⟩ | hBase | hMember
  · exact .inl (h.operand_precedes hProgress hOrdered hPointer)
  · exact .inl (h.index_precedes hProgress hOrdered hFold hIndex)
  · exact .inl (h.base_precedes hProgress hBase)
  · exact .inr hMember

end Chain

/-- At any time of the work, values are there before they are used. -/
theorem Course.ordered (h : Course s symbol f done p) (hBody : 0 < f.blocks.length)
    (hOrdered : f.Ordered) : p.func.Ordered := by
  induction h with
  | start => exact hOrdered
  | opened prior progress last ih =>
      exact last.ordered progress.consistent ih (progress.blocks ▸ hBody)
  | turned prior progress pending last addresses ih =>
      exact last.rerouted.ordered progress.consistent ih pending.cell pending.operand
        last.chain.ne_nil (pending.chainOrdered progress ih last.chain)
  | kept prior takes role typed other ih => exact ih

end Run

/-- If every instruction of a function, joins apart, refers only to what stands before it, and joins
refer to what stands in the function, the same holds of what a run leaves, whether it succeeds or
not. -/
theorem values_precede_uses {s : Sandbox} {symbol : Symbol} {f : Func} {outcome : Outcome}
    (hBuilt : f.Built) (hBody : f.isDeclaration = false) (hSource : s.source = .ofSymbol symbol)
    (hOrdered : f.Ordered) (hRun : s.run f = .ok outcome) : outcome.func.Ordered := by
  have hf := hBuilt.consistent
  obtain ⟨done, p, hFunc, hSettled⟩ := Sandbox.run_settled hSource hf hBody hRun
  rw [hFunc]
  exact hSettled.course.ordered (Func.isDeclaration_eq_false_iff.mp hBody) hOrdered

/-- Reads through a counter that goes round a loop: the join at the head of the loop refers to the
addition after it, and the address is folded from that addition. -/
def readInLoop : List Func.Edit :=
  [ .addBlock "entry",
    .addBlock "loop",
    .append 0 { opcode := .binary .mul, operands := [.arg 0, .ofWord 32 4], ty := .i32 },
    .append 0 { opcode := .br 1, operands := [], ty := .void },
    .append 1 { opcode := .phi [0, 1], operands := [.inst 0, .inst 0], ty := .i32 },
    .append 1 { opcode := .binary .add, operands := [.inst 2, .ofWord 32 8], ty := .i32 },
    .append 1 { opcode := .cast .intToPtr, operands := [.inst 3], ty := .ptr .i64 },
    .append 1 { opcode := .load, operands := [.inst 4], ty := .i64 },
    .append 1 { opcode := .br 1, operands := [], ty := .void },
    .setOperand 2 1 (.inst 3) ]

theorem ordered_readInLoop {f : Func} (h : Func.ofEdits "f" [.i32] .void readInLoop = .ok f) :
    f.Ordered := by
  obtain rfl := Except.ok.inj h
  intro id _ inst hInst j hj
  rcases id with _ | _ | _ | _ | _ | _ | _ | id <;> cases hInst <;> simp [Value.ofWord] at hj
  · rcases hj with rfl | rfl <;> decide
  · subst hj
    decide
  · subst hj
    decide
  · subst hj
    decide

theorem values_precede_uses_readInLoop :
    ∃ f g stats, Func.ofEdits "f" [.i32] .void readInLoop = .ok f ∧ f.Ordered ∧ ¬f.Precedes 3 2 ∧
      defaultSandbox.run f = .ok ⟨g, .ok stats⟩ ∧ stats.folded = 1 ∧
      stats.removed = 1 ∧ g.Ordered := by
  obtain ⟨f, g, stats, hf, hBody, hLater, hRun, hFolded, hRemoved⟩ : ∃ f g stats,
      Func.ofEdits "f" [.i32] .void readInLoop = .ok f ∧ f.isDeclaration = false ∧ ¬f.Precedes 3 2 ∧
      defaultSandbox.run f = .ok ⟨g, .ok stats⟩ ∧ stats.folded = 1 ∧ stats.removed = 1 :=
    ⟨_, _, _, rfl, rfl, by decide, rfl, rfl, rfl⟩
  have hOrdered := ordered_readInLoop hf
  exact ⟨f, g, stats, hf, hOrdered, hLater, hRun, hFolded, hRemoved,
    values_precede_uses (Func.built_ofEdits hf) hBody (s := defaultSandbox) rfl hOrdered hRun⟩

end FaultIsolation
