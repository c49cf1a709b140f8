import FaultIsolation.Proofs.Agreement
import FaultIsolation.Proofs.Sharing

/-!
The counts of a run, wherever the region base comes from. A source may put any number of
instructions into the function, in any order, and name any value that is there. Whatever it does, an
operand that was not dealt with is still the one of the original function, and what made it an
address still stands, so whether it is folded does not depend on when its turn comes. Every count is
then a number that the original function has; only how many instructions were removed is read off
from what is left.
-/
namespace FaultIsolation

/-- Nothing happened but that new instructions stand in the function. -/
structure Func.Enlarged (f : Func) (count : Nat) (g : Func) : Prop where
  consistent : g.Consistent
  keeps : f.Keeps g
  cells : ∃ news : List Cell, news.length = count ∧ (∀ c ∈ news, c.live = true) ∧
    g.cells = f.cells ++ news

namespace Func

variable {f g h : Func} {count : Nat}

theorem Enlarged.refl (hf : f.Consistent) : f.Enlarged 0 f :=
  ⟨hf, .refl f, [], rfl, by simp, by simp⟩

/-- Enlarging twice is enlarging once by the sum. -/
theorem Enlarged.trans {more : Nat} (first : f.Enlarged count g) (second : g.Enlarged more h) :
    f.Enlarged (count + more) h := by
  obtain ⟨news, hNews, hLive, hCells⟩ := first.cells
  obtain ⟨others, hOthers, hLive', hCells'⟩ := second.cells
  refine ⟨second.consistent, first.keeps.trans second.keeps, news ++ others,
    by simp [hNews, hOthers], fun c hc => ?_, by rw [hCells', hCells, List.append_assoc]⟩
  exact (List.mem_append.mp hc).elim (hLive c) (hLive' c)

/-- What was there has not changed. -/
theorem Enlarged.old (hEnlarged : f.Enlarged count g) {id : InstId} {c : Cell}
    (hc : f.cells[id]? = some c) : g.cells[id]? = some c := by
  obtain ⟨news, _, _, hCells⟩ := hEnlarged.cells
  rw [hCells, List.getElem?_append_left (lt_of_cell hc)]
  exact hc

/-- What is new stands in a block. -/
theorem Enlarged.new (hEnlarged : f.Enlarged count g) {id : InstId} {c : Cell}
    (hFresh : f.cells.length ≤ id) (hc : g.cells[id]? = some c) : c.live = true := by
  obtain ⟨news, _, hLive, hCells⟩ := hEnlarged.cells
  rw [hCells, List.getElem?_append_right hFresh] at hc
  exact hLive c (List.mem_of_getElem? hc)

theorem Enlarged.length_cells (hEnlarged : f.Enlarged count g) :
    g.cells.length = f.cells.length + count := by
  obtain ⟨news, hNews, _, hCells⟩ := hEnlarged.cells
  rw [hCells, List.length_append, hNews]

/-- The new instructions are all that the function has gained. -/
theorem Enlarged.instCount (hEnlarged : f.Enlarged count g) (hf : f.Consistent) :
    g.instCount = f.instCount + count := by
  obtain ⟨news, hNews, hLive, hCells⟩ := hEnlarged.cells
  rw [hf.instCount_eq, hEnlarged.consistent.instCount_eq, hCells, List.countP_append,
    List.countP_eq_length.mpr hLive, hNews]

/-- An insertion enlarges the function by one. -/
theorem Applied.enlarged {e : Edit} (h : Applied f e g) (hf : f.Consistent)
    (hNew : e.new?.isSome) : f.Enlarged 1 g := by
  cases h with
  | insert new within block_lt perm inserted =>
      exact ⟨inserted.consistent hf within block_lt perm, inserted.keeps, _, rfl, by simp,
        inserted.cells⟩
  | _ => cases hNew

/-- Insertions, wherever they put what is new, enlarge the function by their number. -/
theorem enlarged_of_insertions {edits : List Edit} (hf : f.Consistent)
    (hNew : ∀ e ∈ edits, e.new?.isSome) (h : edits.foldlM apply f = .ok g) :
    f.Enlarged edits.length g := by
  induction edits generalizing f with
  | nil =>
      obtain rfl := Except.ok.inj h
      exact .refl hf
  | cons e rest ih =>
      rw [List.foldlM_cons] at h
      obtain ⟨k, hk, hRest⟩ := bind_eq_ok_iff.mp h
      have hFirst := (applied_of_apply hf hk).enlarged hf (hNew e List.mem_cons_self)
      rw [List.length_cons, Nat.add_comm]
      exact hFirst.trans
        (ih hFirst.consistent (fun other hOther => hNew other (List.mem_cons_of_mem _ hOther))
          hRest)

end Func

/-- Asked for the region base of the function, the source puts in this many instructions and names a
value that is there. -/
def BaseSource.Adds (source : BaseSource) (count : Nat) (f : Func) : Prop :=
  ∀ g base, source f = .ok (g, base) → f.Enlarged count g ∧ ∃ ty, g.typeOf base = .ok ty

/-- A variable takes one instruction. -/
theorem BaseSource.ofSymbol_adds {f : Func} (hf : f.Consistent) (symbol : Symbol) :
    (ofSymbol symbol).Adds 1 f := by
  intro g base h
  cases hBody : f.isDeclaration with
  | true =>
      simp only [ofSymbol, Func.entry?, hBody] at h
      cases h
  | false =>
      obtain ⟨k, hk, hConsistent, hInserted⟩ :=
        Func.ofSymbol_spec hf (Func.isDeclaration_eq_false_iff.mp hBody) symbol
      cases hk.symm.trans h
      have hCell : g.cells[f.cells.length]? = some ⟨baseLoad symbol, 0, true⟩ := by
        rw [hInserted.cells, List.getElem?_concat_length]
      exact ⟨⟨hConsistent, hInserted.keeps, _, rfl, by simp, hInserted.cells⟩, _,
        Func.typeOf_of_cell hCell⟩

/-- The function and the counts fit together: what is new stands in a block and was counted, what is
gone was counted, and a region base that was there at first has not been removed. -/
structure Balanced (f : Func) (done : List Site) (p : Pass) :
    Prop extends Intact f done p.func where
  fresh : ∀ (id : InstId) (d : Cell), f.cells.length ≤ id → p.func.cells[id]? = some d →
    d.live = true
  base : ∀ base, p.base = some base → base.Within p.func.cells.length
  usable : ∀ (id : InstId) (c d : Cell), p.base = some (.inst id) → f.cells[id]? = some c →
    p.func.cells[id]? = some d → d.live = c.live
  length : p.func.cells.length = f.cells.length + p.stats.inserted
  instCount : p.func.instCount + p.stats.removed = f.instCount + p.stats.inserted

/-- The operand of a place that was not dealt with is still what it was. -/
theorem Intact.operand_of_takes {f g : Func} {done : List Site} (h : Intact f done g) {site : Site}
    {c : Cell} {v : Value} (hTakes : f.Takes site c v)
    (hUntouched : ∀ role, ⟨site.id, site.position, role⟩ ∉ done) :
    ∃ d, g.cells[site.id]? = some d ∧ d.inst.accessOperand? site.position = some v := by
  obtain ⟨d, hd, hUpheld⟩ := h.upheld_of_takes hTakes
  have hSame := hUpheld.untouched _ v (Func.operand_of_accessOperand? hTakes.operand) hUntouched
  exact ⟨d, hd, Func.accessOperand?_of_operand (h.keeps.opcode hTakes.cell hd) hUpheld.length
    hTakes.operand hSame⟩

/-- A chain in the place of an operand, of which nothing is asked but what it refers to. -/
structure Rewired (f : Func) (p : Pass) (site : Site) (d : Cell) (v : Value)
    (insts : List Instruction) (gone : List InstId) (removed : Nat) (g : Func) : Prop where
  rerouted : Func.Rerouted p.func site.id d site.position v insts gone removed g
  chain : insts ≠ []
  plain : ∀ j ∈ gone, ∃ c, f.cells[j]? = some c ∧ (Access.ofInstruction c.inst).places = []
  mentions : ∀ j, j < f.cells.length → references p.func.cells j = 0 → p.base ≠ some (.inst j) →
    ∀ inst ∈ insts, Value.inst j ∉ inst.operands
  based : ∀ base, gone ≠ [] → p.base = some base → ∃ inst ∈ insts, base ∈ inst.operands

section Rewired

variable {f g : Func} {done : List Site} {p : Pass} {site : Site} {c d : Cell} {v : Value}
  {insts : List Instruction} {gone : List InstId}
  {removed : Nat} (h : Rewired f p site d v insts gone removed g) (hTakes : f.Takes site c v)
  (hd : p.func.cells[site.id]? = some d) (hOperand : d.inst.operands[site.position]? = some v)

include h

theorem Rewired.gone_lt {j : InstId} (hj : j ∈ gone) : j < f.cells.length := by
  obtain ⟨c, hc, _⟩ := h.plain j hj
  exact Func.lt_of_cell hc

include hTakes hd hOperand

/-- The original function stays intact. -/
theorem Rewired.intact (hBalanced : Balanced f done p) : Intact f (done ++ [site]) g where
  consistent := h.rerouted.consistent hd hOperand h.chain
  keeps := hBalanced.keeps.trans (h.rerouted.keeps hd)
  sound := hTakes.sound_append hBalanced.sound
  old id e he := by
    by_cases hId : site.id = id
    · subst hId
      obtain rfl : e = c := by simpa [hTakes.cell] using he.symm
      obtain ⟨d', hd', hUpheld⟩ := hBalanced.upheld_of_takes hTakes
      obtain rfl : d' = d := by simpa [hd] using hd'.symm
      refine ⟨_, h.rerouted.anchor_cell hd (hTakes.id_not_mem h.plain), .inl ⟨hUpheld.live, ?_, ?_⟩⟩
      · simpa [Cell.setOperand] using hUpheld.length
      · intro position w hw hUntouched
        have hNe : site.position ≠ position := by
          rintro rfl
          exact hUntouched site.role (by simp)
        have hSame := hUpheld.untouched position w hw fun role hMem =>
          hUntouched role (List.mem_append_left _ hMem)
        simpa [Cell.setOperand, List.getElem?_set_ne hNe] using hSame
    · obtain ⟨e', he', hState⟩ := hBalanced.old id e he
      rcases h.rerouted.other_cell hId he' with hSame | ⟨hMem, hLive, hGone, hNone⟩
      · refine ⟨e', hSame, hState.imp (·.append _) fun hDiscarded => ?_⟩
        -- What was removed is not the region base, so the chain does not bring it back.
        have hBase : p.base ≠ some (.inst id) := fun hBase => by
          have hLive := hBalanced.usable id e e' hBase he he'
          rw [hDiscarded.emptied, hDiscarded.live] at hLive
          cases hLive
        refine ⟨hDiscarded.live, hDiscarded.emptied, ?_, hDiscarded.plain⟩
        exact h.rerouted.unreferenced hd hOperand (Func.lt_of_cell he') hDiscarded.unreferenced
          (h.mentions id (Func.lt_of_cell he) hDiscarded.unreferenced hBase)
      · obtain ⟨c', hc', hPlaces⟩ := h.plain id hMem
        obtain rfl : e = c' := by simpa [he] using hc'
        rcases hState with hUpheld | hDiscarded
        · have hPlain := untouched_of_no_place hBalanced.sound he hPlaces
          obtain rfl := hUpheld.eq_of_untouched hBalanced.keeps he he' hPlain
          exact ⟨_, hGone, .inr ⟨hLive, rfl, hNone, hPlaces⟩⟩
        · rw [hDiscarded.emptied] at hLive
          cases hLive

omit hTakes hOperand in
theorem Rewired.new_cell (hBalanced : Balanced f done p) {i : Nat} {inst : Instruction}
    (hi : insts[i]? = some inst) : g.cells[p.func.cells.length + i]? = some ⟨inst, d.block, true⟩ :=
  h.rerouted.new_cell hd (fun _ hj => Nat.lt_of_lt_of_le (h.gone_lt hj) hBalanced.keeps.length_le)
    hi

omit hOperand in
/-- What is new stands in a block. -/
theorem Rewired.fresh (hBalanced : Balanced f done p) {id : InstId} {e : Cell}
    (hFresh : f.cells.length ≤ id) (he : g.cells[id]? = some e) : e.live = true := by
  rcases Nat.lt_or_ge id p.func.cells.length with hLt | hGe
  · have hNe : site.id ≠ id := Nat.ne_of_lt
      (Nat.lt_of_lt_of_le (Func.lt_of_cell hTakes.cell) hFresh)
    obtain ⟨e', he'⟩ := Func.exists_cell hLt
    rcases h.rerouted.other_cell hNe he' with hSame | ⟨hMem, _⟩
    · obtain rfl := Option.some.inj (he.symm.trans hSame)
      exact hBalanced.fresh id e hFresh he'
    · exact absurd (h.gone_lt hMem) (Nat.not_lt.mpr hFresh)
  · obtain ⟨i, rfl⟩ := Nat.exists_eq_add_of_le hGe
    have hi : i < insts.length := by
      have hLt := Func.lt_of_cell he
      rw [h.rerouted.length_cells] at hLt
      exact Nat.lt_of_add_lt_add_left hLt
    obtain rfl := Option.some.inj
      (he.symm.trans (h.new_cell hd hBalanced (List.getElem?_eq_getElem hi)))
    rfl

omit hOperand in
/-- A region base that was there at first has not been removed: the chain refers to it. -/
theorem Rewired.usable (hBalanced : Balanced f done p) {id : InstId} {e e' : Cell}
    (hBase : p.base = some (.inst id)) (he : f.cells[id]? = some e) (he' : g.cells[id]? = some e') :
    e'.live = e.live := by
  by_cases hId : site.id = id
  · subst hId
    obtain rfl := Option.some.inj
      ((h.rerouted.anchor_cell hd (hTakes.id_not_mem h.plain)).symm.trans he')
    exact hBalanced.usable _ e d hBase he hd
  · obtain ⟨e'', he'', _⟩ := hBalanced.keeps.cells id e he
    rcases h.rerouted.other_cell hId he'' with hSame | ⟨hMem, _, _, hNone⟩
    · obtain rfl := Option.some.inj (hSame.symm.trans he')
      exact hBalanced.usable id e e'' hBase he he''
    · obtain ⟨inst, hInst, hOperands⟩ := h.based _ (List.ne_nil_of_mem hMem) hBase
      obtain ⟨i, hi⟩ := List.getElem?_of_mem hInst
      have hNew := List.mem_of_getElem? (h.new_cell hd hBalanced hi)
      exact absurd hNone (Nat.ne_of_gt (references_pos_iff.mpr ⟨_, hNew, hOperands⟩))

/-- A chain in the place of an operand keeps the balance. -/
theorem Balanced.rewire (hBalanced : Balanced f done p) {counts : Stats}
    (hInserted : counts.inserted = insts.length) (hRemoved : counts.removed = removed) :
    Balanced f (done ++ [site]) ⟨g, p.base, p.stats.merge counts⟩ where
  toIntact := h.intact hTakes hd hOperand hBalanced
  fresh _ _ := h.fresh hTakes hd hBalanced
  base base hBase := (hBalanced.base base hBase).mono (h.rerouted.keeps hd).length_le
  usable _ _ _ := h.usable hTakes hd hBalanced
  length := by
    have hBefore := hBalanced.length
    simp only [Stats.merge]
    rw [h.rerouted.length_cells]
    omega
  instCount := by
    have hCount := h.rerouted.instCount hBalanced.consistent hd hOperand h.chain
    have hBefore := hBalanced.instCount
    simp only [Stats.merge]
    omega

end Rewired

/-- A place that is left as it is may be counted among those dealt with. -/
theorem Balanced.keep {f : Func} {done : List Site} {p : Pass} (h : Balanced f done p) {site : Site}
    {c : Cell} {v : Value} (hTakes : f.Takes site c v) : Balanced f (done ++ [site]) p :=
  { h with
    sound := hTakes.sound_append h.sound
    old := fun id e he => by
      obtain ⟨d, hd, hState⟩ := h.old id e he
      exact ⟨d, hd, hState.imp_left (·.append _)⟩ }

/-- What bringing in the region base counts for, once it was asked for. -/
def broughtIn (count : Nat) : Option Value → Stats
  | none => {}
  | some _ => { baseLoads := min 1 count, inserted := count }

def Accounted (s : Sandbox) (count : Nat) (f : Func) (done : List Site) (p : Pass) : Prop :=
  ∃ work, Tallied s f done work ∧ work.baseLoads = 0 ∧
    work.addresses = done.countP (·.role = .address) ∧ p.stats = (broughtIn count p.base).merge work

/-- A place that is dealt with is accounted for with the others. -/
theorem Accounted.merge {s : Sandbox} {count : Nat} {f g : Func} {done : List Site} {p : Pass}
    {site : Site} {counts : Stats} (h : Accounted s count f done p)
    (hMore : Tallied s f [site] counts) (hLoads : counts.baseLoads = 0)
    (hAddresses : counts.addresses = [site].countP (·.role = .address)) :
    Accounted s count f (done ++ [site]) ⟨g, p.base, p.stats.merge counts⟩ := by
  obtain ⟨work, hWork, hWorkLoads, hWorkAddresses, hStats⟩ := h
  refine ⟨work.merge counts, hWork.merge hMore, ?_, ?_, by rw [hStats, Stats.merge_assoc]⟩
  · simp only [Stats.merge, hWorkLoads, hLoads]
  · rw [List.countP_append, ← hWorkAddresses, ← hAddresses]
    rfl

/-- Work in balance where the region base is asked for at the first address, and everything was
counted. -/
structure Counted (s : Sandbox) (count : Nat) (f : Func) (done : List Site) (p : Pass) : Prop
    extends Balanced f done p where
  idle : p.base = none → done = [] ∧ p = { func := f }
  needed : p.base ≠ none → ∃ site ∈ done, site.role = .address
  accounted : Accounted s count f done p

namespace Counted

variable {s : Sandbox} {count : Nat} {f : Func} {done : List Site} {p q : Pass} {id : InstId}
  {c : Cell} {v : Value}

/-- Nothing is counted at first. -/
theorem start (hf : f.Consistent) : Counted s count f [] { func := f } where
  toIntact := .refl hf
  fresh id d hFresh hd := absurd (Func.lt_of_cell hd) (Nat.not_lt.mpr hFresh)
  base := by simp
  usable := by simp
  length := rfl
  instCount := rfl
  idle _ := ⟨rfl, rfl⟩
  needed hBase := absurd rfl hBase
  accounted := ⟨{}, ⟨rfl, rfl, rfl, Nat.le_refl 0⟩, rfl, rfl, rfl⟩

section Steps

variable (hf : f.Consistent) (h : Counted s count f done p)

include hf h

/-- With the region base there the work is in balance. If it was asked for now, nothing else has
happened yet. -/
theorem requireBase (hs : s.source.Adds count f) {base : Value}
    (hq : p.requireBase s.source = .ok (q, base)) :
    Balanced f done q ∧ q.base = some base ∧
      (∀ (id : InstId) (d : Cell), p.func.cells[id]? = some d → q.func.cells[id]? = some d) ∧
      Accounted s count f done q := by
  cases hBase : p.base with
  | some known =>
      simp only [Pass.requireBase, hBase] at hq
      cases hq
      exact ⟨h.toBalanced, hBase, fun _ _ hd => hd, h.accounted⟩
  | none =>
      obtain ⟨rfl, rfl⟩ := h.idle hBase
      obtain ⟨⟨g, v⟩, hSource, hq⟩ := bind_eq_ok_iff.mp hq
      obtain ⟨hEnlarged, ty, hTy⟩ := hs g v hSource
      have hCount := hEnlarged.instCount hf
      simp only [Pass.grow_eq (p := { func := f }) hCount, lift_ok, bind, Except.bind,
        Pass.tally, hCount, Stats.empty_merge] at hq
      cases hq
      have hLoads : (if f.instCount < f.instCount + count then 1 else 0) = min 1 count := by
        split <;> omega
      refine ⟨⟨⟨hEnlarged.consistent, hEnlarged.keeps, by simp, fun id c hc => ?_⟩,
        fun id d => hEnlarged.new, ?_, fun id c d _ hc hd => ?_, hEnlarged.length_cells, hCount⟩,
        rfl, fun _ _ => hEnlarged.old, {}, ⟨rfl, rfl, rfl, Nat.le_refl 0⟩, rfl, rfl, ?_⟩
      · exact ⟨c, hEnlarged.old hc, .inl ⟨rfl, rfl, fun _ _ hv _ => hv⟩⟩
      · rintro base ⟨⟩
        exact Func.within_of_typeOf hTy
      · obtain rfl := Option.some.inj ((hEnlarged.old hc).symm.trans hd)
        rfl
      · rw [hLoads]
        simp [broughtIn, Stats.merge]

/-- Dealing with an address counts it, and counts it as folded if the original function has it
so. -/
theorem confineAddress (hs : s.source.Adds count f) {position : Nat}
    (hTakes : f.Takes ⟨id, position, .address⟩ c v)
    (hUntouched : ∀ role, ⟨id, position, role⟩ ∉ done)
    (hq : p.confineAddress s id position = .ok q) :
    Counted s count f (done ++ [⟨id, position, .address⟩]) q := by
  obtain ⟨d, hd, hv⟩ := h.operand_of_takes hTakes hUntouched
  obtain ⟨ty, hTy, hPointer⟩ := hTakes.pointer rfl
  have hTyNow := h.keeps.typeOf hTy
  have hAddress := Func.addressOperand_of_cell hd hv hTyNow hPointer
  obtain ⟨r, base, hr⟩ : ∃ r base, p.requireBase s.source = .ok (r, base) := by
    simp only [Pass.confineAddress, hAddress, hTyNow, lift_ok, bind, Except.bind] at hq
    cases hr : p.requireBase s.source with
    | error stop =>
        rw [hr] at hq
        cases hq
    | ok opened => exact ⟨opened.1, opened.2, rfl⟩
  obtain ⟨hBalanced, hBase, hCells, hAccounted⟩ := h.requireBase hf hs hr
  have hNow := hCells id d hd
  have hOperand := Func.operand_of_accessOperand? hv
  have hMem := List.mem_of_getElem? hOperand
  obtain ⟨fold, hFold⟩ := s.exists_foldable? hf (Func.within_of_typeOf hTy)
  obtain ⟨word, hWord⟩ := Func.exists_typeOf (hBalanced.base base hBase)
  obtain ⟨g, removed, hg, hRerouted⟩ :=
    Pass.confineAddress_of_base hr hBalanced.consistent hWord hAddress hTyNow hNow hOperand
      (hBalanced.foldable?_of_operand hNow hMem hFold)
  obtain rfl := Except.ok.inj (hq.symm.trans hg)
  have hRewired : Rewired f r ⟨id, position, .address⟩ d v
      ((addressChain r.func.cells.length base v ty fold).map (.sumAs word))
      (foldedParts fold) removed g := {
    rerouted := hRerouted
    chain := by cases fold <;> simp [addressChain, rebasedChain, foldedChain]
    plain := fun j hj => by
      obtain ⟨address, rfl, hPart⟩ := mem_foldedParts.mp hj
      exact exists_plain_of_folded hFold hPart
    mentions := fun j hj hNone hOther inst hInst => by
      obtain ⟨i, hi, rfl⟩ := List.mem_map.mp hInst
      rw [Instruction.operands_sumAs]
      exact hBalanced.not_mem_addressChain hNow hMem hj hNone hFold (fun hEq =>
        hOther (hEq ▸ hBase)) i hi
    based := fun other _ hOther => by
      obtain rfl := Option.some.inj (hBase.symm.trans hOther)
      cases fold <;> simp [addressChain, rebasedChain, foldedChain] }
  have hTallied := Tallied.address hTakes rfl hFold (length_foldedParts fold ▸ hRerouted.removed_le)
  refine ⟨hBalanced.rewire hRewired hTakes hNow hOperand (by simp [length_addressChain]) rfl,
    fun hNone => ?_, fun _ => ⟨_, List.mem_append_right _ (List.mem_singleton.mpr rfl), rfl⟩,
    hAccounted.merge hTallied rfl rfl⟩
  simp [hBase] at hNone

/-- Dealing with the addresses of an instruction one after the other counts each of them. -/
theorem confineAddresses (hs : s.source.Adds count f) {positions : List Nat}
    (hTakes : ∀ position ∈ positions, ∃ v, f.Takes ⟨id, position, .address⟩ c v)
    (hNodup : positions.Nodup)
    (hUntouched : ∀ position ∈ positions, ∀ role, ⟨id, position, role⟩ ∉ done)
    (hq : positions.foldlM (fun p position => p.confineAddress s id position) p = .ok q) :
    Counted s count f (done ++ positions.map fun position => ⟨id, position, .address⟩) q := by
  induction positions generalizing done p with
  | nil =>
      obtain rfl := Except.ok.inj hq
      simpa using h
  | cons position rest ih =>
      rw [List.foldlM_cons] at hq
      obtain ⟨r, hr, hq⟩ := bind_eq_ok_iff.mp hq
      obtain ⟨v, hv⟩ := hTakes position (by simp)
      have hRest := List.nodup_cons.mp hNodup
      have hFirst := h.confineAddress hf hs hv (hUntouched position (by simp)) hr
      have hAll := ih hFirst (fun other hMem => hTakes other (List.mem_cons_of_mem _ hMem)) hRest.2
        (fun other hMem role => by
          have hNe : other ≠ position := fun hEq => hRest.1 (hEq ▸ hMem)
          simp [hUntouched other (List.mem_cons_of_mem _ hMem) role, hNe]) hq
      simpa using hAll

/-- Dealing with a length counts it if it is a machine word. An address came before it, so the
region base is there. -/
theorem clipLength {position : Nat} (hTakes : f.Takes ⟨id, position, .length⟩ c v)
    (hUntouched : ∀ role, ⟨id, position, role⟩ ∉ done) (hSome : done ≠ [])
    (hq : p.clipLength id position = .ok q) :
    Counted s count f (done ++ [⟨id, position, .length⟩]) q := by
  obtain ⟨d, hd, hv⟩ := h.operand_of_takes hTakes hUntouched
  have hOperand := Func.operand_of_accessOperand? hv
  have hMem := List.mem_of_getElem? hOperand
  have hBase : p.base ≠ none := fun hNone => hSome (h.idle hNone).1
  obtain ⟨site, hSite, hRole⟩ := h.needed hBase
  obtain ⟨ty, hTy⟩ := Func.exists_typeOf (hf.within c (List.mem_of_getElem? hTakes.cell) v
    (List.mem_of_getElem? (Func.operand_of_accessOperand? hTakes.operand)))
  obtain ⟨r, hr, hStep⟩ := Pass.clipLength_spec h.consistent hd hv
  obtain rfl := Except.ok.inj (hq.symm.trans hr)
  cases hStep with
  | clipped word rerouted =>
      obtain rfl : ty = .i64 := by simpa [h.keeps.typeOf hTy] using word
      have hRewired : Rewired f p ⟨id, position, .length⟩ d v (clippedChain p.func.cells.length v)
          [] 0 _ := {
        rerouted
        chain := by simp [clippedChain]
        plain := by simp
        mentions := fun j hj hNone _ => h.not_mem_clippedChain hd hMem hj hNone
        based := by simp }
      exact ⟨h.rewire hRewired hTakes hd hOperand rfl rfl, fun hNone => absurd hNone hBase,
        fun _ => ⟨site, List.mem_append_left _ hSite, hRole⟩,
        h.accounted.merge (.clipped hTakes rfl hTy) rfl rfl⟩
  | kept typed other =>
      obtain rfl := Except.ok.inj ((h.keeps.typeOf hTy).symm.trans typed)
      exact ⟨h.keep hTakes, fun hNone => absurd hNone hBase, fun _ =>
        ⟨site, List.mem_append_left _ hSite, hRole⟩,
          h.accounted.merge (.kept hTakes rfl hTy other) rfl rfl⟩

/-- Confining an instruction that passes the vet counts its places. -/
theorem confine (hs : s.source.Adds count f) (hc : f.cells[id]? = some c) (hLive : c.live = true)
    (hVetted : f.Vetted c.inst) (hUntouched : ∀ site ∈ done, site.id ≠ id)
    (hNow : p.func.cells[id]? = some c) (hq : p.confine s id = .ok q) :
    Counted s count f (done ++ f.sites id) q := by
  have hNodup := List.nodup_append.mp (Access.nodup_positions (Access.ofInstruction c.inst))
  obtain ⟨inst, hInst, hq⟩ := bind_eq_ok_iff.mp hq
  obtain rfl : c.inst = inst := by simpa [Func.inst_of_cell hNow] using lift_eq_ok_iff.mp hInst
  obtain ⟨r, hr, hq⟩ := bind_eq_ok_iff.mp hq
  have hFirst := h.confineAddresses hf hs (fun _ => hVetted.takes_address hc hLive) hNodup.1
    (fun position _ role hMem => hUntouched _ hMem rfl) hr
  rw [Func.sites_of_cell hc, ← List.append_assoc]
  cases hLength : (Access.ofInstruction c.inst).length? with
  | none =>
      rw [hLength] at hq
      obtain rfl := Except.ok.inj hq
      simpa using hFirst
  | some position =>
      rw [hLength] at hq
      have hPosition : position ∈ (Access.ofInstruction c.inst).length?.toList := by simp [hLength]
      obtain ⟨v, hTakes⟩ := hVetted.takes_length hc hLive hPosition
      refine hFirst.clipLength hf hTakes (fun role hMem => ?_) ?_ (by simpa using hq)
      · rcases List.mem_append.mp hMem with hMem | hMem
        · exact hUntouched _ hMem rfl
        · obtain ⟨other, hOther, hEq⟩ := List.mem_map.mp hMem
          exact hNodup.2.2 other hOther position hPosition (congrArg Site.position hEq)
      · simp [Access.addresses_ne_nil hLength]

/-- An instruction whose turn comes is confined, or it was removed and has no places. -/
theorem step (hs : s.source.Adds count f) (hc : f.cells[id]? = some c) (hLive : c.live = true)
    (hUntouched : ∀ site ∈ done, site.id ≠ id) (hq : p.step s id = .ok q) :
    Counted s count f (done ++ f.sites id) q := by
  obtain ⟨alive, hAlive, hq⟩ := bind_eq_ok_iff.mp hq
  rcases h.cell_of_untouched hc hUntouched with hNow | ⟨d, hd, hDiscarded⟩
  · obtain rfl : alive = true := by
      simpa [Func.isLive_of_cell hNow, hLive] using (lift_eq_ok_iff.mp hAlive).symm
    obtain ⟨_, hVet, hq⟩ := bind_eq_ok_iff.mp hq
    rw [h.keeps.vet hf hc hNow] at hVet
    rcases Func.vet_decides hf hc with ⟨_, hVetted⟩ | ⟨refusal, hRefused, _⟩
    · exact h.confine hf hs hc hLive hVetted hUntouched hNow hq
    · rw [hVet] at hRefused
      cases hRefused
  · obtain rfl : alive = false := by
      simpa [Func.isLive_of_cell hd, hDiscarded.emptied,
        Cell.emptied] using (lift_eq_ok_iff.mp hAlive).symm
    obtain rfl := Except.ok.inj hq
    simpa [Func.sites, hc, hDiscarded.plain] using h

end Steps

/-- The walk over the rest of the layout counts all that is left. -/
theorem walk (hf : f.Consistent) (hs : s.source.Adds count f) {front back : List InstId}
    (hLayout : f.layout = front ++ back) (h : Counted s count f (front.flatMap f.sites) p)
    (hq : Pass.walk s back p = .ok (q, none)) : Counted s count f (f.layout.flatMap f.sites) q := by
  induction back generalizing front p with
  | nil =>
      cases hq
      simpa [hLayout] using h
  | cons id rest ih =>
      rw [Pass.walk] at hq
      cases hStep : p.step s id with
      | error stop => cases stop <;> simp [hStep] at hq
      | ok r =>
          rw [hStep] at hq
          obtain ⟨c, hc, hLive⟩ := hf.mem_layout_iff.mp (show id ∈ f.layout by simp [hLayout])
          have hNext := h.step hf hs hc hLive (fun _ hSite =>
            hf.untouched hLayout List.mem_cons_self hSite) hStep
          refine ih (show f.layout = (front ++ [id]) ++ rest by simp [hLayout]) ?_ hq
          simpa using hNext

end Counted

/-- A run that succeeds has walked the whole layout. -/
theorem Sandbox.run_walked {s : Sandbox} {f g : Func} {stats : Stats}
    (hBody : f.isDeclaration = false) (hRun : s.run f = .ok ⟨g, .ok stats⟩) :
    ∃ p, Pass.walk s f.layout { func := f } = .ok (p, none) ∧ p.func = g ∧
      stats = { p.stats with functions := 1 } := by
  simp only [run, hBody] at hRun
  obtain ⟨⟨p, refusal⟩, hWalk, hRun⟩ := bind_eq_ok_iff.mp hRun
  cases refusal with
  | some refusal => cases hRun
  | none =>
      obtain ⟨failed, _, hRun⟩ := bind_eq_ok_iff.mp hRun
      cases failed with
      | some refusal => cases hRun
      | none =>
          cases hRun
          exact ⟨p, hWalk, rfl, rfl⟩

namespace Func

def clips (f : Func) (id : InstId) : Bool :=
  (f.cells[id]?).any fun c => (Access.ofInstruction c.inst).length?.any fun position =>
    (c.inst.accessOperand? position).any fun v => (f.typeOf v).toOption = some .i64

def foldCount (f : Func) (id : InstId) : Nat :=
  (f.cells[id]?).elim 0 fun c => (Access.ofInstruction c.inst).addresses.countP fun position =>
    (c.inst.accessOperand? position).any fun v => (f.foldable? v).toOption.any Option.isSome

/-- An instruction has one length at most. -/
theorem countP_clipsAt_sites (f : Func) (id : InstId) :
    (f.sites id).countP f.clipsAt = if f.clips id then 1 else 0 := by
  cases hc : f.cells[id]? with
  | none => simp [sites, clips, hc]
  | some c =>
      rw [sites_of_cell hc, List.countP_append, List.countP_map, List.countP_map]
      cases hLength : (Access.ofInstruction c.inst).length? <;>
        simp [Function.comp_def, clipsAt, clips, operandAt?, hc, hLength, List.countP_cons]

/-- The places of an instruction that are folded are those of its foldable addresses. -/
theorem countP_foldsAt_sites (s : Sandbox) (f : Func) (id : InstId) :
    (f.sites id).countP (s.foldsAt f) = if s.options.fold then f.foldCount id else 0 := by
  cases hc : f.cells[id]? with
  | none => simp [sites, foldCount, hc]
  | some c =>
      rw [sites_of_cell hc, List.countP_append, List.countP_map, List.countP_map]
      cases hOption : s.options.fold <;>
        simp [Function.comp_def, Sandbox.foldsAt, Sandbox.foldable?, foldCount, operandAt?, hc,
          hOption, Except.toOption]

end Func

/-- What was removed are the instructions of the original function that are not there any more. -/
theorem Balanced.removed_eq {f : Func} {done : List Site} {p : Pass} (h : Balanced f done p)
    (hf : f.Consistent) : p.stats.removed = f.layout.countP (· ∉ p.func.layout) := by
  obtain ⟨old, hIff⟩ : ∃ old : InstId → Bool, ∀ id, old id = true ↔ id < f.cells.length :=
    ⟨fun id => decide (id < f.cells.length), fun id => decide_eq_true_iff⟩
  have hKept : (f.layout.filter (· ∈ p.func.layout)).Perm (p.func.layout.filter old) := by
    refine (List.perm_ext_iff_of_nodup (hf.nodup_layout.filter _)
      (h.consistent.nodup_layout.filter _)).mpr fun id => ?_
    simp only [List.mem_filter, decide_eq_true_eq, hIff]
    constructor
    · rintro ⟨hId, hNow⟩
      obtain ⟨c, hc, _⟩ := hf.mem_layout_iff.mp hId
      exact ⟨hNow, Func.lt_of_cell hc⟩
    · rintro ⟨hNow, hLt⟩
      exact ⟨h.keeps.mem_layout hf h.consistent hLt hNow, hNow⟩
  have hAdded : (p.func.layout.filter (!old ·)).Perm
      (List.range' f.cells.length p.stats.inserted) := by
    refine (List.perm_ext_iff_of_nodup (h.consistent.nodup_layout.filter _) List.nodup_range').mpr
      fun id => ?_
    simp only [List.mem_filter, List.mem_range'_1, ← h.length, Bool.not_eq_true',
      ← Bool.not_eq_true, hIff, Nat.not_lt]
    constructor
    · rintro ⟨hNow, hFresh⟩
      obtain ⟨d, hd, _⟩ := h.consistent.mem_layout_iff.mp hNow
      exact ⟨hFresh, Func.lt_of_cell hd⟩
    · rintro ⟨hFresh, hLt⟩
      obtain ⟨d, hd⟩ := Func.exists_cell hLt
      exact ⟨h.consistent.mem_layout_iff.mpr ⟨d, hd, h.fresh id d hFresh hd⟩, hFresh⟩
  have hBefore := f.layout.length_eq_length_filter_add (· ∈ p.func.layout)
  have hAfter := p.func.layout.length_eq_length_filter_add old
  have hCount := h.instCount
  rw [Func.instCount_eq_length_layout, Func.instCount_eq_length_layout] at hCount
  rw [hKept.length_eq] at hBefore
  rw [hAdded.length_eq, List.length_range'] at hAfter
  simp only [← decide_not] at hBefore
  rw [List.countP_eq_length_filter]
  omega

/-- The counts say exactly what confinement has done to a function, if the source of the region base
puts in so many instructions. -/
structure ExactCounts (options : Options) (count : Nat) (f g : Func) (stats : Stats) : Prop where
  functions : stats.functions = 1
  addresses : stats.addresses = total f.addressCount f.layout
  lengths : stats.lengths = f.layout.countP f.clips
  folded : stats.folded = if options.fold then total f.foldCount f.layout else 0
  baseLoads : stats.baseLoads = if 0 < stats.addresses ∧ 0 < count then 1 else 0
  inserted : stats.inserted = 4 * stats.addresses + 2 * stats.lengths + if 0 < stats.addresses
    then count else 0
  removed : stats.removed = f.layout.countP (· ∉ g.layout)
  removed_le : stats.removed ≤ 2 * stats.folded
  instCount : g.instCount + stats.removed = f.instCount + stats.inserted

theorem total_ite {α : Type} (q : α → Bool) (xs : List α) :
    total (fun a => if q a then 1 else 0) xs = xs.countP q := by
  induction xs with
  | nil => rfl
  | cons a rest ih => rw [total_cons, ih, List.countP_cons, Nat.add_comm]

section Exact

variable {s : Sandbox} {count : Nat} {f g : Func} {p : Pass}

/-- The region base was brought in if there is an address at all. -/
theorem Counted.broughtIn_eq {done : List Site} (h : Counted s count f done p) {addresses : Nat}
    (hAddresses : addresses = done.countP (·.role = .address)) :
    broughtIn count p.base =
      { baseLoads := if 0 < addresses ∧ 0 < count then 1 else 0,
        inserted := if 0 < addresses then count else 0 } := by
  cases hBase : p.base with
  | none =>
      have hNone : addresses = 0 := by rw [hAddresses, (h.idle hBase).1, List.countP_nil]
      simp [broughtIn, hNone]
  | some base =>
      have hSome : 0 < addresses := by
        obtain ⟨site, hSite, hRole⟩ := h.needed (by simp [hBase])
        rw [hAddresses]
        exact List.countP_pos_iff.mpr ⟨site, hSite, by simpa using hRole⟩
      have hLoads : min 1 count = if 0 < count then 1 else 0 := by split <;> omega
      simp [broughtIn, hSome, hLoads]

/-- Once all places were dealt with, the counts are exact. -/
theorem Counted.exact (hf : f.Consistent) (h : Counted s count f (f.layout.flatMap f.sites) p) :
    ExactCounts s.options count f p.func { p.stats with functions := 1 } := by
  obtain ⟨work, hTallied, hLoads, hAddresses, hStats⟩ := h.accounted
  rw [h.broughtIn_eq hAddresses] at hStats
  have hA : p.stats.addresses = work.addresses := by simp [hStats, Stats.merge]
  have hL : p.stats.lengths = work.lengths := by simp [hStats, Stats.merge]
  have hF : p.stats.folded = work.folded := by simp [hStats, Stats.merge]
  have hR : p.stats.removed = work.removed := by simp [hStats, Stats.merge]
  have hB : p.stats.baseLoads = if 0 < work.addresses ∧ 0 < count then 1 else 0 := by
    simp [hStats, Stats.merge, hLoads]
  have hI : p.stats.inserted = (if 0 < work.addresses then count else 0) + work.inserted := by
    simp [hStats, Stats.merge]
  refine ⟨rfl, ?_, ?_, ?_, ?_, ?_, h.removed_eq hf, ?_, h.instCount⟩
  · simp only [hA, hAddresses, countP_flatMap, Func.countP_sites]
  · simp only [hL, hTallied.lengths, countP_flatMap, Func.countP_clipsAt_sites, total_ite]
  · simp only [hF, hTallied.folded]
    cases hOption : s.options.fold with
    | true => simp only [countP_flatMap, Func.countP_foldsAt_sites, hOption, if_true]
    | false =>
        refine List.countP_eq_zero.mpr fun site _ => ?_
        simp [Sandbox.foldsAt, Sandbox.foldable?, hOption, Except.toOption]
  · simp only [hA, hB]
  · have hInserted := hTallied.inserted
    simp only [hA, hL, hI]
    omega
  · simp only [hF, hR]
    exact hTallied.removed

/-- The counts of a run that succeeds are exact, whatever the source. -/
theorem Sandbox.exactCounts_of_run (hf : f.Consistent) (hBody : f.isDeclaration = false)
    (hs : s.source.Adds count f) {stats : Stats} (hRun : s.run f = .ok ⟨g, .ok stats⟩) :
    ExactCounts s.options count f g stats := by
  obtain ⟨p, hWalk, rfl, rfl⟩ := run_walked hBody hRun
  exact (Counted.walk hf hs (List.nil_append f.layout).symm (.start hf) hWalk).exact hf

end Exact

def Stats.reads : List (Stats → Nat) :=
  [functions, baseLoads, addresses, folded, lengths, inserted, removed]

section Reads

variable {read : Stats → Nat} (h : read ∈ Stats.reads)

include h

/-- Merging adds. -/
theorem Stats.read_merge (a b : Stats) : read (a.merge b) = read a + read b := by
  simp only [reads, List.mem_cons, List.not_mem_nil, or_false] at h
  rcases h with rfl | rfl | rfl | rfl | rfl | rfl | rfl <;> rfl

/-- Merging adds up every count. -/
theorem Stats.read_foldl_merge (parts : List Stats) :
    read (parts.foldl merge {}) = total read parts := by
  have hFrom : ∀ start, read (parts.foldl merge start) = read start + total read parts := by
    induction parts with
    | nil => exact fun _ => rfl
    | cons part rest ih =>
        intro start
        rw [List.foldl_cons, ih, read_merge h, total_cons, Nat.add_assoc]
  have hNone : read {} = read {} + read {} := read_merge h {} {}
  rw [hFrom]
  omega

end Reads

theorem total_map {α β : Type} (count : β → Nat) (view : α → β) (xs : List α) :
    total count (xs.map view) = total (fun a => count (view a)) xs := by
  induction xs with
  | nil => rfl
  | cons a rest ih => rw [List.map_cons, total_cons, total_cons, ih]

/-- The counts of a function of a program are exact. A declaration counts for nothing. -/
def ExactResult (options : Options) (f : Func) (result : Func × Stats) : Prop :=
  if f.isDeclaration then result = (f, {}) else ExactCounts options 1 f result.1 result.2

/-- The counts of a function of a program are exact if it is confined alone. -/
theorem exactResult_of_run {symbol : Symbol} {options : Options} {f : Func} {result : Func × Stats}
    (hf : f.Consistent)
    (hRun : Sandbox.run ⟨.ofSymbol symbol, options⟩ f = .ok ⟨result.1, .ok result.2⟩) :
    ExactResult options f result := by
  unfold ExactResult
  cases hBody : f.isDeclaration with
  | true =>
      obtain ⟨hSame, hNone⟩ := Sandbox.run_declaration hBody hRun
      exact Prod.ext hSame.symm hNone
  | false => exact Sandbox.exactCounts_of_run hf hBody (BaseSource.ofSymbol_adds hf symbol) hRun

/-- The counts of a run that succeeds are exact, for any source of the region base that only puts in
instructions; those may be put in anywhere and in any order, and a variable takes one. The counts of
a program are the sums of those of its functions. -/
theorem counts_exact (options : Options) :
    (∀ (source : BaseSource) (count : Nat) (f g : Func) (stats : Stats), f.Built →
      f.isDeclaration = false → source.Adds count f →
      Sandbox.run ⟨source, options⟩ f = .ok ⟨g, .ok stats⟩ → ExactCounts options count f g stats) ∧
    (∀ (edits : List Func.Edit) (f g : Func), f.Built → (∀ e ∈ edits, e.new?.isSome) →
      edits.foldlM Func.apply f = .ok g → f.Enlarged edits.length g) ∧
    (∀ (symbol : Symbol) (f : Func), f.Built → (BaseSource.ofSymbol symbol).Adds 1 f) ∧
    ∀ (p q : Program) (stats : Stats), (∀ f ∈ p.functions, f.Built) →
      p.sandbox options = .ok (q, stats) →
      ∃ results : List (Func × Stats), q.functions = results.map (·.1) ∧
        List.Forall₂ (ExactResult options) p.functions results ∧
        ∀ read ∈ Stats.reads, read stats = total (fun result => read result.2) results := by
  refine ⟨fun source count f g stats hf hBody hSource hRun => ?_, fun edits f g hf hNew hEdits =>
    ?_, fun symbol f hf => ?_, fun p q stats hf hRun => ?_⟩
  · exact @Sandbox.exactCounts_of_run ⟨source, options⟩ _ _ _ hf.consistent hBody hSource _ hRun
  · exact Func.enlarged_of_insertions hf.consistent hNew hEdits
  · exact BaseSource.ofSymbol_adds hf.consistent symbol
  · rcases Program.sandbox_cases hf options with
      ⟨_, _, hError⟩ | ⟨results, hRuns, hOk⟩ | ⟨_, _, _, _, _, _, _, _, hError⟩
    · cases hRun.symm.trans hError
    · cases hRun.symm.trans hOk
      refine ⟨results, rfl, ?_, fun read hRead => ?_⟩
      · have hAll := (List.forall₂_and_left _ _).mpr ⟨fun f hMem => (hf f hMem).consistent, hRuns⟩
        exact hAll.imp fun f result h => exactResult_of_run h.1 h.2
      · rw [Stats.read_foldl_merge hRead, total_map]
    · cases hRun.symm.trans hError

/-- Loads a variable at the head of the function and adds to it. Both stand before the first
instruction, in this order. -/
def displacedBase : List Func.Edit :=
  [ .insertBefore 0 { opcode := .load, operands := [.global (.global "page" .i64)], ty := .i64 },
    .insertBefore 0
      { opcode := .binary .add, operands := [.inst 4, .ofWord 64 4096], ty := .i64 } ]

def sourceOfEdits (edits : List Func.Edit) (base : Value) : BaseSource := fun f => do
  let g ← (edits.foldlM Func.apply f : Except Fault Func)
  return (g, base)

/-- A source that takes two instructions, of which the second refers to the first, and one that
takes none and names the addition of the folded address, which therefore stays. The program also has
a declaration. -/
theorem counts_exact_readThenFill :
    ∃ d f, Func.ofEdits "d" [] .void [] = .ok d ∧
      Func.ofEdits "f" [.i32, .ptr (.int 8)] .void readThenFill = .ok f ∧
      (∃ g, Sandbox.run ⟨sourceOfEdits displacedBase (.inst 5), {}⟩ f =
          .ok ⟨g, .ok ⟨1, 1, 2, 1, 1, 12, 2⟩⟩ ∧
        ExactCounts {} 2 f g ⟨1, 1, 2, 1, 1, 12, 2⟩) ∧
      (∃ g, Sandbox.run ⟨.ofValue (.inst 0), {}⟩ f = .ok ⟨g, .ok ⟨1, 0, 2, 1, 1, 10, 1⟩⟩ ∧
        ExactCounts {} 0 f g ⟨1, 0, 2, 1, 1, 10, 1⟩) ∧
      ∃ q results, Program.sandbox ⟨"m", [], [d, f]⟩ {} = .ok (q, ⟨1, 1, 2, 1, 1, 11, 2⟩) ∧
        List.Forall₂ (ExactResult {}) [d, f] results ∧
        total (fun result => result.2.inserted) results = 11 := by
  obtain ⟨d, f, g, k, l, q, hd, hf, hBody, hEdits, hBase, hRun, hOld, hRun', hSandbox⟩ :
      ∃ d f g k l q, Func.ofEdits "d" [] .void [] = .ok d ∧
      Func.ofEdits "f" [.i32, .ptr (.int 8)] .void readThenFill = .ok f ∧
      f.isDeclaration = false ∧ displacedBase.foldlM Func.apply f = .ok g ∧
      g.typeOf (.inst 5) = .ok .i64 ∧
      Sandbox.run ⟨sourceOfEdits displacedBase (.inst 5), {}⟩ f =
        .ok ⟨k, .ok ⟨1, 1, 2, 1, 1, 12, 2⟩⟩ ∧
      f.typeOf (.inst 0) = .ok .i32 ∧
      Sandbox.run ⟨.ofValue (.inst 0), {}⟩ f = .ok ⟨l, .ok ⟨1, 0, 2, 1, 1, 10, 1⟩⟩ ∧
      Program.sandbox ⟨"m", [], [d, f]⟩ {} = .ok (q, ⟨1, 1, 2, 1, 1, 11, 2⟩) :=
    ⟨_, _, _, _, _, _, rfl, rfl, rfl, rfl, rfl, rfl, rfl, rfl, rfl⟩
  obtain ⟨hFunction, hInsertions, _, hProgram⟩ := counts_exact {}
  have hBuilt := Func.built_ofEdits hf
  have hTwo : (sourceOfEdits displacedBase (.inst 5)).Adds 2 f := by
    intro g' base hSource
    simp only [sourceOfEdits, hEdits] at hSource
    cases hSource
    exact ⟨hInsertions displacedBase f g hBuilt (by simp [displacedBase, Func.Edit.new?]) hEdits, _,
      hBase⟩
  have hNone : (BaseSource.ofValue (.inst 0)).Adds 0 f := by
    intro g' base hSource
    cases hSource
    exact ⟨.refl hBuilt.consistent, _, hOld⟩
  obtain ⟨results, _, hResults, hSums⟩ :=
    hProgram _ _ _ (by simp [Func.built_ofEdits hd, hBuilt]) hSandbox
  exact ⟨d, f, hd, hf, ⟨k, hRun, hFunction _ _ _ _ _ hBuilt hBody hTwo hRun⟩,
    ⟨l, hRun', hFunction _ _ _ _ _ hBuilt hBody hNone hRun'⟩, q, results, hSandbox, hResults,
    (hSums Stats.inserted (by simp [Stats.reads])).symm⟩

end FaultIsolation
