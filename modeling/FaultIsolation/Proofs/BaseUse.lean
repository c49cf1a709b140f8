import FaultIsolation.Proofs.Folding
import FaultIsolation.Proofs.History
import FaultIsolation.Proofs.Layout

/-!
The region base of a confined function. It is brought in by one load at the head of the function, in
the middle of the work and only if there is an address. From then on each chain that confines an
address refers to it once, and nothing else does. A load of the same variable that was there before
becomes an access like any other.
-/
namespace FaultIsolation

/-- A chain comes after what is new already, and of that nothing changes. -/
theorem Turn.new_cells {s : Sandbox} {symbol : Symbol} {f g : Func} {done : List Site} {p : Pass}
    {site : Site} {c d : Cell} {v : Value} {insts : List Instruction} {gone : List InstId}
    {removed : Nat} (h : Turn s f p site d v insts gone removed g)
    (hProgress : Progress s symbol f done p) (hPending : Pending s f done p site c d v) :
    g.cells.drop f.cells.length =
      p.func.cells.drop f.cells.length ++ insts.map fun inst => ⟨inst, d.block, true⟩ := by
  have hLe := hProgress.keeps.length_le
  apply List.ext_getElem?
  intro i
  rw [List.getElem?_drop]
  by_cases hOld : f.cells.length + i < p.func.cells.length
  · obtain ⟨e, he⟩ := Func.exists_cell hOld
    rw [List.getElem?_append_left (by rw [List.length_drop]; omega), List.getElem?_drop, he]
    exact (h.extends hPending.takes {}).cells _ e (Nat.le_add_right _ _) he
  · obtain ⟨j, hj⟩ := Nat.exists_eq_add_of_le (Nat.not_lt.mp hOld)
    have hIndex : i - (p.func.cells.length - f.cells.length) = j := by omega
    rw [List.getElem?_append_right (by rw [List.length_drop]; omega), List.length_drop, hIndex,
      List.getElem?_map, hj]
    cases hInst : insts[j]? with
    | some inst =>
        apply h.rerouted.new_cell hPending.cell _ hInst
        intro k hk
        exact Nat.lt_of_lt_of_le (h.gone_lt hk) hLe
    | none =>
        rw [List.getElem?_eq_none_iff] at hInst
        rw [Option.map_none, List.getElem?_eq_none_iff, h.rerouted.length_cells]
        omega

/-- A chain refers to the region base once if it confines an address, and not at all if it clips a
length. -/
theorem Replacement.references_base {s : Sandbox} {f : Func} {base? : Option Value}
    {start b : InstId} {role : Role} {v : Value} {insts : List Instruction}
    (h : Replacement s f base? start role v insts) (hf : f.Consistent)
    (hv : v.Within f.cells.length) (hBase : base? = some (.inst b)) (hFresh : f.cells.length ≤ b)
    (hOld : b < start) (block : BlockId) :
    references (insts.map fun inst => ⟨inst, block, true⟩) b = if role =
      .address then 1 else 0 := by
  have hOther : ∀ {w : Value}, w.Within f.cells.length → w ≠ .inst b := by
    rintro w hw rfl
    exact absurd hw (Nat.not_lt.mpr hFresh)
  have hNew : ∀ i, start + i ≠ b := fun i => Nat.ne_of_gt (Nat.lt_add_right i hOld)
  cases h with
  | length typed => simp [clippedChain, references, hOther hv, Nat.ne_of_gt hOld]
  | @address _ base ty fold known typed folded =>
      obtain rfl := Option.some.inj (hBase.symm.trans known)
      cases fold with
      | none => simp [addressChain, rebasedChain, references, hOther hv, hNew, Nat.ne_of_gt hOld]
      | some address =>
          obtain ⟨_, e, _, _, _, he, hStep⟩ :=
            Func.foldable?_some (Sandbox.foldable?_eq_some_iff.mp folded).2
          have hIndex := hOther (hf.within e (List.mem_of_getElem? he) _
            (Func.index_mem_of_positiveStep? hStep))
          simp [addressChain, foldedChain, references, Value.ofWord, hIndex, hNew,
            Nat.ne_of_gt hOld]

/-- At any time of the work, as many new operands are the region base as addresses were confined. -/
theorem Course.references_base {s : Sandbox} {symbol : Symbol} {f : Func} {done : List Site}
    {p : Pass} (h : Course s symbol f done p) (hf : f.Consistent) :
    (p.base = none → p.stats.addresses = 0) ∧
      ∀ b, p.base = some (.inst b) →
        references (p.func.cells.drop f.cells.length) b = p.stats.addresses := by
  induction h with
  | start => exact ⟨fun _ => rfl, fun b hBase => by cases hBase⟩
  | @opened done p q base prior progress last ih =>
      cases last with
      | known base_eq => exact ih
      | @loaded g base_eq consistent inserted =>
          refine ⟨fun hNone => (by cases hNone), fun b hBase => ?_⟩
          obtain rfl : p.func.cells.length = b := by simpa using hBase
          -- Nothing can refer to an instruction before it is there.
          have hNone : references (p.func.cells.drop f.cells.length) p.func.cells.length = 0 := by
            by_contra hSome
            obtain ⟨c, hc, hv⟩ := references_pos_iff.mp (Nat.pos_of_ne_zero hSome)
            exact absurd (progress.consistent.within c (List.mem_of_mem_drop hc) _ hv)
              (Nat.lt_irrefl _)
          rw [inserted.cells, List.drop_append_of_le_length progress.keeps.length_le,
            references_append, hNone]
          exact (ih.1 base_eq).symm
  | @turned done p site c d v insts gone removed g counts prior progress pending
      last addresses ih =>
      have hCount : counts.addresses = if site.role = .address then 1 else 0 := by
        rw [addresses, List.countP_singleton]
        simp
      constructor
      · intro hNone
        have hRole : site.role ≠ .address := by
          intro hRole
          have hChain := last.chain
          rw [hRole, hNone] at hChain
          cases hChain with
          | address known typed folded => cases known
        show p.stats.addresses + counts.addresses = 0
        rw [ih.1 hNone, hCount, if_neg hRole]
      · intro b hBase
        obtain ⟨_, hCell⟩ := progress.base_cell hBase
        have hv := hf.within c (List.mem_of_getElem? pending.takes.cell) v
          (List.mem_of_getElem? (Func.operand_of_accessOperand? pending.takes.operand))
        have hOnce := last.chain.references_base hf hv hBase (progress.base_fresh hBase)
          (Func.lt_of_cell hCell) d.block
        show references (g.cells.drop f.cells.length) b = p.stats.addresses + counts.addresses
        rw [last.new_cells progress pending, references_append, ih.2 b hBase, hOnce, hCount]
  | kept prior takes role typed other ih => exact ih

/-- What is left of the original function does not refer to the region base that was brought in. -/
theorem Progress.base_not_operand {s : Sandbox} {symbol : Symbol} {f : Func} {done : List Site}
    {p : Pass} (h : Progress s symbol f done p) (hf : f.Consistent) {id b : InstId} {d : Cell}
    (hBase : p.base = some (.inst b)) (hOld : id < f.cells.length)
    (hd : p.func.cells[id]? = some d) : Value.inst b ∉ d.inst.operands := by
  intro hMem
  obtain ⟨position, hPosition⟩ := List.mem_iff_getElem?.mp hMem
  obtain ⟨c, hc⟩ := Func.exists_cell hOld
  obtain ⟨d', hd', hCarried | hDropped⟩ := h.old id c hc
  · obtain rfl := Option.some.inj (hd.symm.trans hd')
    have hLt : position < c.inst.operands.length := by
      rw [← hCarried.length]
      exact (List.getElem?_eq_some_iff.mp hPosition).1
    have hv : c.inst.operands[position]? = some c.inst.operands[position] :=
      List.getElem?_eq_getElem hLt
    obtain ⟨w, hw, hBecame⟩ := hCarried.operands position _ hv
    obtain rfl := Option.some.inj (hPosition.symm.trans hw)
    have hSame : c.inst.operands[position] ≠ .inst b := by
      intro hEq
      have hWithin := hf.within c (List.mem_of_getElem? hc) _ (List.mem_of_getElem? hv)
      rw [hEq] at hWithin
      exact absurd hWithin (Nat.not_lt.mpr (h.base_fresh hBase))
    generalize hNow : Value.inst b = now at hBecame
    cases hBecame with
    | same untouched => exact hSame hNow.symm
    | kept listed typed other => exact hSame hNow.symm
    | @moved role start insts listed placed =>
        -- The end of a chain is no load.
        obtain rfl := Value.inst.inj hNow
        have hLast : insts.length - 1 < insts.length :=
          Nat.sub_lt (List.length_pos_of_ne_nil placed.chain.ne_nil) Nat.one_pos
        obtain ⟨block, hCell⟩ := placed.standing _ _ (List.getElem?_eq_getElem hLast)
        obtain ⟨block', hLoad⟩ := h.base_cell hBase
        have hInst : insts[insts.length - 1] = baseLoad symbol :=
          congrArg Cell.inst (Option.some.inj (hCell.symm.trans hLoad))
        have hAccess := placed.chain.access _ (List.getElem_mem hLast)
        rw [hInst] at hAccess
        simp [baseLoad, Access.ofInstruction] at hAccess
  · obtain rfl := Option.some.inj (hd.symm.trans hd')
    rw [hDropped.emptied] at hMem
    cases hMem

namespace Finished

variable {s : Sandbox} {symbol : Symbol} {f : Func} {p : Pass}

theorem addresses_eq (h : Finished s symbol f p) :
    p.stats.addresses = total f.addressCount f.layout := by
  rw [h.addresses, countP_flatMap]
  simp only [Func.countP_sites]

/-- As many operands are the region base as addresses were confined. -/
theorem useCount_base (h : Finished s symbol f p) (hf : f.Consistent) {b : InstId}
    (hBase : p.base = some (.inst b)) : p.func.useCount b = .ok p.stats.addresses := by
  obtain ⟨_, hCell⟩ := h.base_cell hBase
  have hOld : references (p.func.cells.take f.cells.length) b = 0 := by
    by_contra hSome
    obtain ⟨d, hd, hMem⟩ := references_pos_iff.mp (Nat.pos_of_ne_zero hSome)
    obtain ⟨id, hId⟩ := List.mem_iff_getElem?.mp hd
    rw [List.getElem?_take] at hId
    split at hId
    · next hLt => exact h.base_not_operand hf hBase hLt hId hMem
    · cases hId
  rw [Func.useCount_of_cell hCell, h.consistent.counted,
    ← List.take_append_drop f.cells.length p.func.cells, references_append, hOld,
    (h.course.references_base hf).2 b hBase, Nat.zero_add]

/-- Where no region base was brought in, a load is an old one that was removed before. -/
theorem load_removed (h : Finished s symbol f p) (hf : f.Consistent) (hNone : p.base = none)
    {id : InstId} {d : Cell} (hd : p.func.cells[id]? = some d) (hLoad : d.inst.opcode = .load) :
    id < f.cells.length ∧ d.live = false := by
  rcases Nat.lt_or_ge id f.cells.length with hLt | hGe
  · refine ⟨hLt, Bool.eq_false_iff.mpr fun hLive => ?_⟩
    obtain ⟨c, hc⟩ := Func.exists_cell hLt
    have hPosition : 0 ∈ (Access.ofInstruction c.inst).addresses := by
      rw [← h.access_eq_of_live hc hd hLive]
      simp [Access.ofInstruction, hLoad, Access.addresses]
    obtain ⟨v, hAt⟩ := h.addressAt_of_live hf hc hd hLive hPosition
    obtain ⟨_, _, _, _, _, _, _, _, _, hBase, _⟩ := h.address hf hAt
    rw [hNone] at hBase
    cases hBase
  · rcases (h.fresh_cell hGe hd).2 with ⟨hBase, _⟩ | ⟨_, _, _, _, _, _, _, _, hPlaced, _, hi⟩
    · rw [hNone] at hBase
      cases hBase
    · have hAccess := hPlaced.chain.access _ (List.mem_of_getElem? hi)
      simp [Access.ofInstruction, hLoad] at hAccess

end Finished

/-- A function with an address comes out with one load of the region base. That is a new instruction
at the head of the function, and it has as many uses as there were addresses. Nothing else loads a
variable of that name, whatever the function had before. A function without an address comes out
without a load. -/
theorem single_region_base {s : Sandbox} {symbol : Symbol} {f g : Func} {stats : Stats}
    (hBuilt : f.Built) (hBody : f.isDeclaration = false) (hSource : s.source = .ofSymbol symbol)
    (hRun : s.run f = .ok ⟨g, .ok stats⟩) :
    stats.addresses = total f.addressCount f.layout ∧
    (0 < total f.addressCount f.layout → ∃ b, f.nodes.length ≤ b ∧
      g.inst b = .ok (baseLoad symbol) ∧ g.baseLoads symbol.name = [b] ∧ g.entryHead? = some b ∧
      g.layout.head? = some b ∧ stats.baseLoads = 1 ∧ g.useCount b = .ok stats.addresses) ∧
    (total f.addressCount f.layout = 0 → stats.baseLoads = 0 ∧
      ∀ id inst, g.inst id = .ok inst → inst.opcode = .load → id < f.nodes.length ∧
        id ∉ g.layout) := by
  have hf := hBuilt.consistent
  obtain ⟨p, rfl, rfl, h⟩ := Sandbox.run_ok hSource hf hBody hRun
  have hAddresses := h.addresses_eq
  have hLoads : p.stats.baseLoads = min 1 (total f.addressCount f.layout) := by
    rw [← hAddresses, h.baseLoads_eq hf]
  have hBaseLoads := h.baseLoads
  refine ⟨hAddresses, fun hSome => ?_, fun hNone => ?_⟩
  · have hOne : p.stats.baseLoads = 1 := by omega
    obtain ⟨base, hBase⟩ : ∃ base, p.base = some base := by
      cases hBase : p.base with
      | none => simp [hBase, hOne] at hBaseLoads
      | some base => exact ⟨base, rfl⟩
    obtain ⟨b, block, rfl, hFresh, hCell, hHead⟩ := h.base base hBase
    have hOnly : p.func.baseLoads symbol.name = [b] := by
      have hLength := h.length_baseLoads hf
      rw [hBase] at hLength
      obtain ⟨id, hId⟩ := List.length_eq_one_iff.mp hLength
      have hMem := (h.mem_baseLoads_iff hf).mpr hBase
      rw [hId, List.mem_singleton] at hMem
      rw [hId, hMem]
    exact ⟨b, f.length_cells ▸ hFresh, Func.inst_of_cell hCell, hOnly, hHead,
      Func.head?_layout hHead, hOne, h.useCount_base hf hBase⟩
  · have hZero : p.stats.baseLoads = 0 := by omega
    have hBase : p.base = none := by
      rw [hZero] at hBaseLoads
      exact Option.toList_eq_nil_iff.mp (List.length_eq_zero_iff.mp hBaseLoads.symm)
    refine ⟨hZero, fun id inst hInst hLoad => ?_⟩
    obtain ⟨d, hd, rfl⟩ := Func.cell_of_inst hInst
    obtain ⟨hOld, hDead⟩ := h.load_removed hf hBase hd hLoad
    refine ⟨f.length_cells ▸ hOld, fun hLayout => ?_⟩
    obtain ⟨e, he, hLive⟩ := h.consistent.mem_layout_iff.mp hLayout
    obtain rfl := Option.some.inj (hd.symm.trans he)
    rw [hDead] at hLive
    cases hLive

/-- Confined twice, a function keeps the region base of the first time as an address of the
second. -/
theorem single_region_base_confinedTwice :
    ∃ f g h stats again, Func.ofEdits "f" [.i32, .ptr (.int 8)] .void readThenFill = .ok f ∧
      defaultSandbox.run f = .ok ⟨g, .ok stats⟩ ∧ defaultSandbox.run g = .ok ⟨h, .ok again⟩ ∧
      stats.addresses = 2 ∧ again.addresses = 3 ∧ again.baseLoads = 1 ∧
      ∃ b, g.nodes.length ≤ b ∧ h.baseLoads defaultBaseSymbol = [b] ∧ h.layout.head? = some b ∧
        h.useCount b = .ok 3 := by
  obtain ⟨f, g, h, stats, again, hf, hOnce, hBody, hTwice, hBefore, hThree⟩ : ∃ f g h stats again,
      Func.ofEdits "f" [.i32, .ptr (.int 8)] .void readThenFill = .ok f ∧
      defaultSandbox.run f = .ok ⟨g, .ok stats⟩ ∧ g.isDeclaration = false ∧
      defaultSandbox.run g = .ok ⟨h, .ok again⟩ ∧ stats.addresses = 2 ∧
      total g.addressCount g.layout = 3 :=
    ⟨_, _, _, _, _, rfl, rfl, rfl, rfl, rfl, rfl⟩
  have hReached : g.Reached .any :=
    .run defaultSandbox (Func.built_ofEdits hf).reached (BaseSource.ofSymbol_follows _ _) hOnce
  obtain ⟨hAddresses, hSome, _⟩ :=
    single_region_base hReached.built hBody (s := defaultSandbox) rfl hTwice
  obtain ⟨b, hNew, _, hOnly, _, hHead, hLoads, hUses⟩ := hSome (by rw [hThree]; decide)
  rw [hAddresses, hThree] at hUses
  exact ⟨f, g, h, stats, again, hf, hOnce, hTwice, hBefore, hAddresses.trans hThree, hLoads, b,
    hNew, hOnly, hHead, hUses⟩

end FaultIsolation
