import FaultIsolation.Proofs.BaseUse

/-!
What a run leaves alone, and where it puts what is new. The region base takes the first free number.
The chains follow, numbered on in the order of the places they are for, so where each of them stands
and what it is can be read off the original function. Between them the instructions that are left
stand in the order they were in.
-/
namespace FaultIsolation

theorem total_flatMap {α β : Type} (count : β → Nat) (part : α → List β) (xs : List α) :
    total count (xs.flatMap part) = total (fun a => total count (part a)) xs := by
  induction xs with
  | nil => rfl
  | cons a rest ih => rw [List.flatMap_cons, total_append, total_cons, ih]

namespace Func

def growthAt (f : Func) (site : Site) : Nat :=
  match site.role with
  | .address => 4
  | .length => if f.clipsAt site then 2 else 0

def growth (f : Func) (id : InstId) : Nat := total f.growthAt (f.sites id)

def chainStart (f : Func) (id : InstId) : InstId :=
  f.nodes.length + 1 + total f.growth (f.layout.takeWhile (· ≠ id))

def newsBefore (f : Func) (id : InstId) : List InstId := List.range' (f.chainStart id) (f.growth id)

/-- The number of the region base, at the head of the function, if there is an address. -/
def opening (f : Func) (block : BlockId) : List InstId :=
  if block = 0 ∧ 0 < total f.addressCount f.layout then [f.nodes.length] else []

/-- The numbers of what goes in for the places of one instruction among others, numbered on from
`start`. -/
def newsOf (f : Func) : InstId → List Site → InstId → List InstId
  | _, [], _ => []
  | start, site :: rest, id =>
    (if site.id = id then List.range' start (f.growthAt site) else []) ++ f.newsOf
      (start + f.growthAt site) rest id

end Func

def Sandbox.chainAt (s : Sandbox) (f : Func) (base : Value) (start : InstId) (site : Site) :
    List Instruction :=
  match site.role, f.operandAt? site with
  | .address, some v =>
    addressChain start base v ((f.typeOf v).toOption.getD .void)
      ((s.foldable? f v).toOption.getD none)
  | .length, some v => if f.clipsAt site then clippedChain start v else []
  | _, none => []

def Sandbox.chains (s : Sandbox) (f : Func) (base : Value) : InstId → List Site → List Instruction
  | _, [] => []
  | start, site :: rest => s.chainAt f base start site ++ s.chains f base
      (start + f.growthAt site) rest

section Numbering

variable {s : Sandbox} {f : Func} {site : Site} {c : Cell} {v : Value}

/-- The chains of some places are followed by those of the next, numbered on. -/
theorem Sandbox.chains_append (s : Sandbox) (f : Func) (base : Value) (start : InstId)
    (front back : List Site) :
    s.chains f base start (front ++ back) =
      s.chains f base start front ++ s.chains f base (start + total f.growthAt front) back := by
  induction front generalizing start with
  | nil => rfl
  | cons site rest ih => simp [chains, ih, Nat.add_assoc]

/-- So are the numbers that go before an instruction. -/
theorem Func.newsOf_append (f : Func) (start : InstId) (front back : List Site) (id : InstId) :
    f.newsOf start (front ++ back) id = f.newsOf start front id ++ f.newsOf
      (start + total f.growthAt front) back id := by
  induction front generalizing start with
  | nil => rfl
  | cons site rest ih => simp [newsOf, ih, Nat.add_assoc]

/-- Nothing goes before an instruction of which no place is dealt with. -/
theorem Func.newsOf_eq_nil {sites : List Site} {id : InstId} (h : ∀ site ∈ sites, site.id ≠ id)
    (start : InstId) : f.newsOf start sites id = [] := by
  induction sites generalizing start with
  | nil => rfl
  | cons site rest ih =>
      rw [List.forall_mem_cons] at h
      simp [newsOf, h.1, ih h.2]

/-- The chains of one instruction have consecutive numbers. -/
theorem Func.newsOf_of_id {sites : List Site} {id : InstId} (h : ∀ site ∈ sites, site.id = id)
    (start : InstId) : f.newsOf start sites id = List.range' start (total f.growthAt sites) := by
  induction sites generalizing start with
  | nil => rfl
  | cons site rest ih =>
      rw [List.forall_mem_cons] at h
      rw [newsOf, if_pos h.1, ih h.2, List.range'_append_1, total_cons]

theorem Func.mem_newsOf {start id new : InstId} {sites : List Site}
    (h : new ∈ f.newsOf start sites id) : start ≤ new ∧ new < start + total f.growthAt sites := by
  induction sites generalizing start with
  | nil => cases h
  | cons site rest ih =>
      rw [total_cons]
      rcases List.mem_append.mp h with hHead | hRest
      · split at hHead
        · obtain ⟨hGe, hLt⟩ := List.mem_range'_1.mp hHead
          exact ⟨hGe, Nat.lt_of_lt_of_le hLt (Nat.add_le_add_left (Nat.le_add_right _ _) _)⟩
        · cases hHead
      · obtain ⟨hGe, hLt⟩ := ih hRest
        exact ⟨Nat.le_trans (Nat.le_add_right _ _) hGe, Nat.add_assoc _ _ _ ▸ hLt⟩

/-- A place makes the function grow by the length of its chain. -/
theorem Func.Takes.length_chainAt (h : f.Takes site c v) (s : Sandbox) (base : Value)
    (start : InstId) : (s.chainAt f base start site).length = f.growthAt site := by
  cases hRole : site.role with
  | address => simp [Sandbox.chainAt, Func.growthAt, hRole, h.operandAt?, length_addressChain]
  | length => cases hClips : f.clipsAt site <;> simp [Sandbox.chainAt, Func.growthAt, hRole,
      h.operandAt?, hClips, clippedChain]

/-- All chains together are as long as the function grows. -/
theorem Sandbox.length_chains {sites : List Site} (h : ∀ site ∈ sites, ∃ c v, f.Takes site c v)
    (base : Value) (start : InstId) :
    (s.chains f base start sites).length = total f.growthAt sites := by
  induction sites generalizing start with
  | nil => rfl
  | cons site rest ih =>
      rw [List.forall_mem_cons] at h
      obtain ⟨⟨c, v, hTakes⟩, hRest⟩ := h
      rw [chains, List.length_append, hTakes.length_chainAt, ih hRest, total_cons]

/-- A chain is the one that belongs to its place. -/
theorem Replacement.eq_chainAt {base : Value} {start : InstId} {insts : List Instruction}
    (h : Replacement s f (some base) start site.role v insts) (hTakes : f.Takes site c v) :
    insts = s.chainAt f base start site := by
  have hOperand := hTakes.operandAt?
  obtain ⟨id, position, role⟩ := site
  cases h with
  | @address _ base ty fold known typed folded =>
      obtain rfl := Option.some.inj known
      simp [Sandbox.chainAt, hOperand, typed, folded, Except.toOption]
  | length typed =>
      have hClips : f.clipsAt ⟨id, position, .length⟩ = true := by
        simp [Func.clipsAt, hOperand, typed, Except.toOption]
      simp [Sandbox.chainAt, hOperand, hClips]

/-- For a length that is no machine word nothing goes in. -/
theorem Func.Takes.no_growth (hTakes : f.Takes site c v) (hRole : site.role = .length) {ty : Ty}
    (hTy : f.typeOf v = .ok ty) (hOther : ty ≠ .i64) : f.growthAt site = 0 := by
  have hClips : f.clipsAt site = false := by
    simp [Func.clipsAt, hTakes.operandAt?, hTy, hOther, Except.toOption]
  simp [Func.growthAt, hRole, hClips]

end Numbering

/-- The region base was brought in first, and a chain for each place dealt with since. What is new
has the numbers that come next, and each chain stands right before its instruction. -/
structure Grown (s : Sandbox) (symbol : Symbol) (f : Func) (done : List Site) (p : Pass) :
    Prop where
  base : p.base = some (.inst f.cells.length)
  length : p.func.cells.length = f.cells.length + 1 + total f.growthAt done
  insts : (p.func.cells.drop f.cells.length).map Cell.inst =
    baseLoad symbol :: s.chains f (.inst f.cells.length) (f.cells.length + 1) done
  order : ∀ (block : BlockId) (b b' : Block), f.blocks[block]? = some b →
  p.func.blocks[block]? = some b' →
    b'.insts = (if block = 0 then [f.cells.length] else []) ++
      Func.interleave (f.newsOf (f.cells.length + 1) done) (b.insts.filter (· ∈ p.func.layout))

section Growing

variable {s : Sandbox} {symbol : Symbol} {f : Func} {done : List Site} {p : Pass}

/-- What is new stands in the function. -/
theorem Progress.mem_layout_of_fresh (h : Progress s symbol f done p) {id : InstId}
    (hFresh : f.cells.length ≤ id) (hId : id < p.func.cells.length) : id ∈ p.func.layout := by
  obtain ⟨d, hd⟩ := Func.exists_cell hId
  exact h.consistent.mem_layout_iff.mpr ⟨d, hd, (h.fresh_cell hFresh hd).1⟩

/-- An access that confinement deals with stands in the function. -/
theorem Progress.mem_layout_of_takes (h : Progress s symbol f done p) {site : Site} {c : Cell}
    {v : Value} (hTakes : f.Takes site c v) : site.id ∈ p.func.layout := by
  obtain ⟨d, hd, _, hCarried⟩ := h.carried_of_takes hTakes
  exact h.consistent.mem_layout_iff.mpr ⟨d, hd, hCarried.live.trans hTakes.live⟩

/-- With the base alone nothing has moved. -/
theorem Pass.Opened.grown {q : Pass} {base : Value} (hf : f.Consistent) (hNone : p.base = none)
    (hFunc : p.func = f) (h : Pass.Opened symbol p q base) : Grown s symbol f [] q := by
  subst hFunc
  cases h with
  | known base_eq =>
      rw [hNone] at base_eq
      cases base_eq
  | @loaded g base_eq consistent inserted =>
      refine ⟨rfl, by simp [inserted.cells], by simp [inserted.cells, Sandbox.chains], ?_⟩
      intro block b b' hb hb'
      have hStands : ∀ id ∈ b.insts, id ∈ g.layout := fun id hId => by
        obtain ⟨c, hc, hLive, _⟩ := (hf.placed block b hb id).mp hId
        refine consistent.mem_layout_iff.mpr ⟨c, ?_, hLive⟩
        rw [inserted.cells, List.getElem?_append_left (Func.lt_of_cell hc)]
        exact hc
      have hAll : b.insts.filter (· ∈ g.layout) = b.insts :=
        List.filter_eq_self.mpr (by simpa using hStands)
      have hNothing : ∀ order, Func.interleave (p.func.newsOf (p.func.cells.length + 1) [])
          order = order :=
        fun order => Func.interleave_of_nil fun _ _ => rfl
      simp only [hAll, hNothing]
      rw [inserted.blocks] at hb'
      rcases Func.block_of_modify hb' with ⟨rfl, e, he, rfl⟩ | ⟨hBlock, he⟩
      · obtain rfl := Option.some.inj (hb.symm.trans he)
        rfl
      · obtain rfl := Option.some.inj (hb.symm.trans he)
        rw [if_neg (Ne.symm hBlock)]
        rfl

section Turn

variable {site : Site} {c d : Cell} {v : Value} {insts : List Instruction}
  {gone : List InstId} {removed : Nat} {g : Func}

/-- A chain goes right before its instruction, after the chains that stand there. -/
theorem Grown.emitted (h : Grown s symbol f done p) (hf : f.Consistent)
    (hProgress : Progress s symbol f done p) (hPending : Pending s f done p site c d v) {k : Func}
    (hEmitted : Func.Emitted p.func d.block site.id insts k)
    (hLength : insts.length = f.growthAt site) {block : BlockId} {b b' : Block}
    (hb : f.blocks[block]? = some b) (hb' : k.blocks[block]? = some b') :
    b'.insts = (if block = 0 then [f.cells.length] else []) ++
      Func.interleave (f.newsOf (f.cells.length + 1) (done ++ [site]))
      (b.insts.filter (· ∈ p.func.layout)) := by
  have hCell := hPending.takes.cell
  have hOld := Func.lt_of_cell hCell
  have hAnchor : f.newsOf (f.cells.length + 1) (done ++ [site]) site.id =
      f.newsOf (f.cells.length + 1) done site.id ++ List.range' p.func.cells.length
      insts.length := by
    rw [Func.newsOf_append, Func.newsOf_of_id (show ∀ other ∈ [site], other.id = site.id by simp),
      h.length, hLength]
    rfl
  have hOther : ∀ id, id ≠ site.id →
      f.newsOf (f.cells.length + 1) (done ++ [site]) id = f.newsOf (f.cells.length + 1) done id :=
    fun id hId => by
    rw [Func.newsOf_append, Func.newsOf_eq_nil (show ∀ other ∈ [site],
      other.id ≠ id by simpa using Ne.symm hId), List.append_nil]
  obtain ⟨_, hd, _, _, _, hBlock, _⟩ := hProgress.keeps.cells site.id c hCell
  obtain rfl := Option.some.inj (hPending.cell.symm.trans hd)
  rw [hEmitted.blocks] at hb'
  rcases Func.block_of_modify hb' with ⟨rfl, e, he, rfl⟩ | ⟨hElse, he⟩
  · rw [h.order _ b e hb he]
    refine Func.spliceAll_interleave ((hf.nodup b (List.mem_of_getElem? hb)).filter _) ?_ ?_ ?_
      ?_ hAnchor hOther
    · refine List.mem_filter.mpr ⟨(hf.placed _ b hb _).mpr ⟨c, hCell, hPending.takes.live,
        hBlock.symm⟩, ?_⟩
      simpa using hProgress.consistent.mem_layout_iff.mpr
        ⟨_, hPending.cell, hPending.carried.live.trans hPending.takes.live⟩
    · split
      · simpa using Nat.ne_of_lt hOld
      · simp
    · exact fun id _ hMem => Nat.lt_asymm hOld (Func.mem_newsOf hMem).1
    · exact fun hMem => Nat.not_le.mpr (Func.lt_of_cell hPending.cell) (List.mem_range'_1.mp hMem).1
  · -- In any other block the instruction of the place does not stand.
    rw [h.order _ b b' hb he]
    congr 1
    refine (Func.interleave_congr fun id hId => hOther id ?_).symm
    rintro rfl
    obtain ⟨c', hc', _, hHome⟩ := (hf.placed _ b hb _).mp (List.mem_filter.mp hId).1
    obtain rfl := Option.some.inj (hCell.symm.trans hc')
    exact hElse (hBlock.trans hHome)

/-- Progress by one place, whatever is counted. -/
theorem Turn.progress (hTurn : Turn s f p site d v insts gone removed g)
    (hProgress : Progress s symbol f done p) (hPending : Pending s f done p site c d v) :
    ∃ stats, Progress s symbol f (done ++ [site]) ⟨g, p.base, stats⟩ := by
  let counts : Stats :=
    { addresses := [site].countP (·.role = .address), inserted := insts.length, removed }
  exact ⟨p.stats.merge counts, hProgress.turn hPending hTurn rfl rfl rfl rfl⟩

/-- A chain for one more place. What is removed with it stood between the chains. -/
theorem Turn.grown (hTurn : Turn s f p site d v insts gone removed g) (h : Grown s symbol f done p)
    (hf : f.Consistent) (hProgress : Progress s symbol f done p)
    (hPending : Pending s f done p site c d v) (stats : Stats) :
    Grown s symbol f (done ++ [site]) ⟨g, p.base, stats⟩ := by
  have hChain := hTurn.chain
  rw [h.base] at hChain
  have hInsts := hChain.eq_chainAt hPending.takes
  have hLength : insts.length = f.growthAt site := by rw [hInsts, hPending.takes.length_chainAt]
  have hLengthNow : g.cells.length = f.cells.length + 1 + total f.growthAt (done ++ [site]) := by
    rw [hTurn.rerouted.length_cells, h.length, hLength, total_append]
    simp [Nat.add_assoc]
  obtain ⟨_, hNext⟩ := hTurn.progress hProgress hPending
  refine ⟨h.base, hLengthNow, ?_, fun block b b' hb hb' => ?_⟩
  · show (g.cells.drop f.cells.length).map Cell.inst = _
    rw [hTurn.new_cells hProgress hPending, List.map_append, h.insts,
      Sandbox.chains_append, ← h.length]
    simp [Sandbox.chains, hInsts, Function.comp_def]
  · obtain ⟨emitted, replaced, swept⟩ := hTurn.rerouted
    have hLast := emitted.new_within
      (Nat.sub_lt (List.length_pos_of_ne_nil hTurn.chain.ne_nil) Nat.one_pos)
    have hReplaced := replaced.consistent emitted.consistent (emitted.old hPending.cell)
      hPending.operand hLast
    obtain ⟨e, he⟩ : ∃ e, _ = some e := ⟨_, List.getElem?_eq_getElem (swept.blocks_length ▸
      (List.getElem?_eq_some_iff.mp hb').1)⟩
    rw [swept.order hReplaced he hb']
    rw [replaced.blocks] at he
    have hBase : f.cells.length ∈ g.layout := hNext.mem_layout_of_fresh (Nat.le_refl _)
      (hLengthNow ▸ Nat.lt_add_right _ (Nat.lt_succ_self _))
    have hKeep : ∀ id ∈ b.insts.filter (· ∈ p.func.layout),
        ∀ new ∈ f.newsOf (f.cells.length + 1) (done ++ [site]) id, decide (new ∈ g.layout) = true :=
      fun id _ new hNew => by
      obtain ⟨hGe, hLt⟩ := Func.mem_newsOf hNew
      exact decide_eq_true (hNext.mem_layout_of_fresh (Nat.le_of_succ_le hGe) (hLengthNow ▸ hLt))
    have hGone : ∀ id ∈ b.insts.filter (· ∈ p.func.layout), decide (id ∈ g.layout) = false →
        f.newsOf (f.cells.length + 1) (done ++ [site]) id = [] := fun id _ hDead => by
      refine Func.newsOf_eq_nil (fun other hOther hId => ?_) _
      obtain ⟨_, _, hTakes⟩ := hNext.sound other hOther
      exact of_decide_eq_false hDead (hId ▸ hNext.mem_layout_of_takes hTakes)
    have hLeft : ∀ id ∈ b.insts, (decide (id ∈ g.layout) && decide (id ∈ p.func.layout)) = decide
        (id ∈ g.layout) :=
      fun id hId => by
        obtain ⟨_, hc, _⟩ := (hf.placed block b hb id).mp hId
        have hOld := Nat.lt_of_lt_of_le (Func.lt_of_cell hc) hProgress.keeps.length_le
        have hBefore : id ∈ g.layout → id ∈ p.func.layout :=
          (hTurn.rerouted.keeps hPending.cell).mem_layout hProgress.consistent hNext.consistent hOld
        simpa using hBefore
    rw [h.emitted hf hProgress hPending emitted hLength hb he, List.filter_append,
      Func.filter_interleave hKeep hGone, List.filter_filter, List.filter_congr hLeft]
    congr 1
    split
    · simpa using hBase
    · rfl

/-- At any time of the work the region base is not there and nothing has happened, or what is new is
where it should be. -/
theorem Course.grown (h : Course s symbol f done p) (hf : f.Consistent)
    (hHead : ∀ site, done.head? = some site → site.role = .address) :
    (done = [] ∧ p.base = none ∧ p.func = f) ∨ Grown s symbol f done p := by
  have hFront : ∀ {done : List Site} {site : Site},
      (∀ other, (done ++ [site]).head? = some other → other.role = .address) →
      ∀ other, done.head? = some other → other.role = .address := fun hAll other hOther =>
    hAll other (by rw [List.head?_append, hOther]; rfl)
  induction h with
  | start => exact .inl ⟨rfl, rfl, rfl⟩
  | opened prior progress last ih =>
      right
      rcases ih hHead with ⟨rfl, hNone, hFunc⟩ | hGrown
      · exact last.grown hf hNone hFunc
      · cases last with
        | known base_eq => exact hGrown
        | loaded base_eq consistent inserted =>
            rw [hGrown.base] at base_eq
            cases base_eq
  | @turned done p site c d v insts gone removed g counts prior progress pending
      last addresses ih =>
      rcases ih (hFront hHead) with ⟨rfl, hNone, _⟩ | hGrown
      · -- The first place is an address, and for that the base is needed.
        have hChain := last.chain
        rw [hHead site rfl, hNone] at hChain
        cases hChain with
        | address known typed folded => cases known
      · exact .inr (last.grown hGrown hf progress pending _)
  | @kept done p site c v ty prior takes role typed other ih =>
      rcases ih (hFront hHead) with ⟨rfl, _, _⟩ | hGrown
      · rw [hHead site rfl] at role
        cases role
      · have hNone := takes.no_growth role typed other
        refine .inr ⟨hGrown.base, by simpa [total_append, hNone] using hGrown.length, ?_,
          fun block b b' hb hb' => ?_⟩
        · have hNil : s.chainAt f (.inst f.cells.length)
              (f.cells.length + 1 + total f.growthAt done) site = [] :=
            List.eq_nil_of_length_eq_zero (by rw [takes.length_chainAt, hNone])
          rw [hGrown.insts, Sandbox.chains_append]
          simp [Sandbox.chains, hNil]
        · rw [hGrown.order block b b' hb hb']
          congr 1
          refine (Func.interleave_congr fun id _ => ?_).symm
          rw [Func.newsOf_append]
          simp [Func.newsOf, hNone]

end Turn

end Growing

namespace Func

/-- Among the places of several instructions the first is an address. -/
theorem role_of_head_sites {f : Func} {order : List InstId} {site : Site}
    (h : (order.flatMap f.sites).head? = some site) : site.role = .address := by
  induction order with
  | nil => cases h
  | cons id rest ih =>
      rw [List.flatMap_cons, List.head?_append, Option.or_eq_some_iff] at h
      rcases h with hFirst | ⟨_, hRest⟩
      · cases hc : f.cells[id]? with
        | none => simp [sites, hc] at hFirst
        | some c =>
            simp only [sites, hc, Option.toList_some, List.flatMap_singleton,
              List.head?_map] at hFirst
            obtain ⟨place, hPlace, rfl⟩ := Option.map_eq_some_iff.mp hFirst
            exact Access.role_of_head hPlace
      · exact ih hRest

section Layout

variable {f : Func} {id : InstId}

/-- What goes in for an instruction is numbered on after what goes in for those before it. -/
theorem chainStart_eq {front back : List InstId} (hLayout : f.layout = front ++ id :: back)
    (hFront : id ∉ front) :
    f.chainStart id = f.cells.length + 1 + total f.growthAt (front.flatMap f.sites) := by
  have hTake : f.layout.takeWhile (· ≠ id) = front := by
    have hOther : ∀ a ∈ front, decide (a ≠ id) = true := fun a ha => by
      simp only [decide_eq_true_eq]
      rintro rfl
      exact hFront ha
    rw [hLayout, List.takeWhile_append_of_pos hOther]
    simp
  rw [chainStart, hTake, total_flatMap, length_cells]
  rfl

/-- Over the whole layout, what goes before an instruction is read off the instructions before
it. -/
theorem newsOf_layout (hf : f.Consistent) (hId : id ∈ f.layout) :
    f.newsOf (f.cells.length + 1) (f.layout.flatMap f.sites) id = f.newsBefore id := by
  obtain ⟨front, back, hLayout, hFront⟩ := List.eq_append_cons_of_mem hId
  have hNodup := hf.nodup_layout
  rw [hLayout] at hNodup
  have hOther : ∀ part : List InstId, id ∉ part → ∀ site ∈ part.flatMap f.sites, site.id ≠ id :=
    fun part hPart site hSite hEq => by
      obtain ⟨other, hMem, hOwn⟩ := List.mem_flatMap.mp hSite
      exact hPart (hEq ▸ id_of_mem_sites hOwn ▸ hMem)
  have hBack : id ∉ back := fun hMem => (List.nodup_cons.mp (List.nodup_middle.mp hNodup)).1
    (by simp [hMem])
  rw [newsBefore, chainStart_eq hLayout hFront, hLayout, List.flatMap_append,
    List.flatMap_cons, newsOf_append, newsOf_append, newsOf_eq_nil (hOther front hFront),
    newsOf_eq_nil (hOther back hBack), newsOf_of_id fun site hSite => id_of_mem_sites hSite]
  simp [growth]

end Layout

/-- A part of what is new, read by number. -/
theorem map_inst_range' {g : Func} {n : Nat} {front insts back : List Instruction}
    (h : (g.cells.drop n).map Cell.inst = front ++ insts ++ back) :
    (List.range' (n + front.length) insts.length).map g.inst = insts.map .ok := by
  apply List.ext_getElem?
  intro i
  rw [List.getElem?_map, List.getElem?_map]
  cases hi : insts[i]? with
  | none =>
      rw [List.getElem?_eq_none_iff] at hi
      rw [List.getElem?_eq_none (by simpa using hi)]
      rfl
  | some inst =>
      have hLt := (List.getElem?_eq_some_iff.mp hi).1
      have hCell : ((g.cells.drop n).map Cell.inst)[front.length + i]? = some inst := by
        rw [h, List.append_assoc, List.getElem?_append_right (Nat.le_add_right _ _),
          Nat.add_sub_cancel_left, List.getElem?_append_left hLt, hi]
      rw [List.getElem?_map, List.getElem?_drop] at hCell
      obtain ⟨c, hc, rfl⟩ := Option.map_eq_some_iff.mp hCell
      rw [List.getElem?_range' hLt, Nat.one_mul, Nat.add_assoc]
      simp [inst_of_cell hc]

/-- Without what is new an order is as it was. -/
theorem filter_old_interleave {news : InstId → List InstId} {keep : InstId → Bool}
    {order : List InstId} (hNews : ∀ id ∈ order, ∀ new ∈ news id, keep new = false)
    (hOld : ∀ id ∈ order, keep id = true) : (interleave news order).filter keep = order := by
  have hEach : ∀ id ∈ order, (news id ++ [id]).filter keep = [id] := fun id hId => by
    rw [List.filter_append, List.filter_eq_nil_iff.mpr fun new hNew =>
      by simp [hNews id hId new hNew]]
    simp [hOld id hId]
  rw [interleave, List.filter_flatMap, List.flatMap_def, List.map_congr_left hEach,
    ← List.flatMap_def, List.flatMap_singleton']

end Func

/-- An instruction that is left is what it was, apart from its addresses and from a length that is a
machine word. -/
structure Node.Retained (f : Func) (old new : Node) : Prop where
  block : new.block = old.block
  opcode : new.inst.opcode = old.inst.opcode
  ty : new.inst.ty = old.inst.ty
  name : new.inst.name = old.inst.name
  count : new.inst.operands.length = old.inst.operands.length
  callee : new.inst.callee? = old.inst.callee?
  operands : ∀ (position : Nat) (v : Value), old.inst.operands[position]? = some v →
    position ∉ (Access.ofInstruction old.inst).addresses →
    ¬((Access.ofInstruction old.inst).length? = some position ∧ f.typeOf v = .ok .i64) →
    new.inst.operands[position]? = some v
  unhandled : Access.ofInstruction old.inst ∈ [.fence, .exempt, .call, .other] → new.inst = old.inst

/-- What a run leaves of a function, and where it puts what. -/
structure Sandbox.Framed (s : Sandbox) (symbol : Symbol) (f g : Func) : Prop where
  signature : g.name = f.name ∧ g.params = f.params ∧ g.result = f.result
  labels : g.blocks.map Block.name = f.blocks.map Block.name
  retained : ∀ id ∈ f.layout, id ∈ g.layout →
    ∃ old new, f.node id = .ok old ∧ g.node id = .ok new ∧ old.Retained f new
  /-- Each block has the region base at its head if it should, and then what is left of it, with
  what is new right before the instructions it is for. -/
  order : ∀ (block : BlockId) (b : Block), f.blocks[block]? = some b →
    ∃ b', g.blocks[block]? = some b' ∧ b'.insts = f.opening block ++ Func.interleave f.newsBefore
    (b.insts.filter (· ∈ g.layout)) ∧
    b'.insts.filter (· < f.nodes.length) = b.insts.filter (· ∈ g.layout)
  base : ∀ id ∈ f.opening 0, g.inst id = .ok (baseLoad symbol)
  /-- For an instruction the chains of its addresses go in, in order, and then the chain of its
  length. -/
  chains : ∀ id ∈ f.layout, (f.newsBefore id).map g.inst =
    (s.chains f (.inst f.nodes.length) (f.chainStart id) (f.sites id)).map .ok
  handled : ∀ id ∈ f.layout, f.sites id ≠ [] → id ∈ g.layout
  /-- Nothing else is new. -/
  news : ∀ id, f.nodes.length ≤ id → (id < g.nodes.length ↔ id ∈ g.layout) ∧
    (id ∈ g.layout ↔ id ∈ f.opening 0 ∨ ∃ anchor ∈ f.layout, id ∈ f.newsBefore anchor)

section Whole

variable {s : Sandbox} {symbol : Symbol} {f : Func} {p : Pass}

/-- An instruction that still stands keeps whatever was not dealt with. -/
theorem Progress.retained {done : List Site} (h : Progress s symbol f done p) {id : InstId}
    {old new : Node} (hOld : f.nodes[id]? = some old) (hNew : p.func.nodes[id]? = some new)
    (hLive : new.live = true) : old.Retained f new := by
  have hc : f.cells[id]? = some old.cell := Func.cell_eq_some_iff.mpr ⟨old, hOld, rfl⟩
  have hd : p.func.cells[id]? = some new.cell := Func.cell_eq_some_iff.mpr ⟨new, hNew, rfl⟩
  have hCarried := h.carried_of_live hc hd hLive
  obtain ⟨_, hd', hOpcode, hTy, hName, hBlock, _⟩ := h.keeps.cells id _ hc
  obtain rfl := Option.some.inj (hd.symm.trans hd')
  refine ⟨hBlock, hOpcode, hTy, hName, hCarried.length, h.callee?_of_carried hc hOpcode hCarried,
    ?_, ?_⟩
  · intro position v hv hAddress hLength
    obtain ⟨w, hw, hBecame⟩ := hCarried.operands position v hv
    cases hBecame with
    | same untouched => exact hw
    | kept listed typed other => exact hw
    | @moved role start insts listed placed =>
        obtain ⟨c, u, hTakes⟩ := h.sound _ listed
        obtain rfl := Option.some.inj (hc.symm.trans hTakes.cell)
        cases role with
        | address => exact absurd (Access.mem_places_address.mp hTakes.listed) hAddress
        | length =>
            cases placed.chain with
            | length typed =>
                exact absurd ⟨Access.mem_places_length.mp hTakes.listed, typed⟩ hLength
  · intro hClass
    have hPlaces : (Access.ofInstruction old.cell.inst).places = [] := by
      simp only [List.mem_cons, List.not_mem_nil, or_false] at hClass
      rcases hClass with hClass | hClass | hClass | hClass <;>
        simp [Node.cell, hClass, Access.places, Access.addresses, Access.length?]
    rcases h.cell_of_no_place hc hPlaces with hSame | ⟨d, hd', hDropped⟩
    · exact congrArg Cell.inst (Option.some.inj (hd.symm.trans hSame))
    · have hDead := congrArg Cell.live (Option.some.inj (hd.symm.trans hd'))
      rw [hDropped.emptied] at hDead
      cases hLive.symm.trans hDead

namespace Finished

/-- A function without an address is left as it is, and in any other what is new is where it should
be. -/
theorem grown_cases (h : Finished s symbol f p) (hf : f.Consistent) :
    (total f.addressCount f.layout = 0 ∧ (∀ id ∈ f.layout, f.sites id = []) ∧ p.func = f) ∨
      0 < total f.addressCount f.layout ∧ Grown s symbol f (f.layout.flatMap f.sites) p := by
  rw [← h.addresses_eq, h.addresses]
  rcases h.course.grown hf fun _ => Func.role_of_head_sites with ⟨hNone, _, hFunc⟩ | hGrown
  · exact .inl ⟨by rw [hNone]; rfl, List.flatMap_eq_nil_iff.mp hNone, hFunc⟩
  · obtain ⟨site, hSite, hRole⟩ := h.needed (by simp [hGrown.base])
    exact .inr ⟨List.countP_pos_iff.mpr ⟨site, hSite, by simpa using hRole⟩, hGrown⟩

/-- An instruction with places is not removed. -/
theorem handled (h : Finished s symbol f p) {id : InstId} (hId : id ∈ f.layout)
    (hSites : f.sites id ≠ []) : id ∈ p.func.layout := by
  obtain ⟨site, hSite⟩ := List.exists_mem_of_ne_nil _ hSites
  obtain ⟨_, _, hTakes⟩ := h.sound site (List.mem_flatMap.mpr ⟨id, hId, hSite⟩)
  exact Func.id_of_mem_sites hSite ▸ h.mem_layout_of_takes hTakes

/-- In every block the chains stand before their instructions, and the rest in the old order. -/
theorem order (h : Finished s symbol f p) (hf : f.Consistent) {block : BlockId} {b b' : Block}
    (hb : f.blocks[block]? = some b) (hb' : p.func.blocks[block]? = some b') :
    b'.insts = f.opening block ++ Func.interleave f.newsBefore
      (b.insts.filter (· ∈ p.func.layout)) := by
  have hLayout : ∀ id ∈ b.insts, id ∈ f.layout := fun id hId =>
    List.mem_flatMap.mpr ⟨b, List.mem_of_getElem? hb, hId⟩
  rcases h.grown_cases hf with ⟨hNone, hSites, hFunc⟩ | ⟨hSome, hGrown⟩
  · rw [hFunc] at hb' ⊢
    obtain rfl := Option.some.inj (hb.symm.trans hb')
    have hNothing : ∀ id ∈ b.insts, f.newsBefore id = [] := fun id hId => by
      simp [Func.newsBefore, Func.growth, hSites id (hLayout id hId)]
    rw [List.filter_eq_self.mpr (by simpa using hLayout), Func.interleave_of_nil hNothing]
    simp [Func.opening, hNone]
  · rw [hGrown.order block b b' hb hb', Func.interleave_congr fun id hId =>
      (Func.newsOf_layout hf (hLayout id (List.mem_filter.mp hId).1)).symm]
    simp [Func.opening, hSome, Func.length_cells]

/-- What goes before an instruction are its chains. -/
theorem chains (h : Finished s symbol f p) (hf : f.Consistent) {id : InstId} (hId : id ∈ f.layout) :
    (f.newsBefore id).map p.func.inst =
      (s.chains f (.inst f.nodes.length) (f.chainStart id) (f.sites id)).map .ok := by
  rcases h.grown_cases hf with ⟨_, hSites, _⟩ | ⟨_, hGrown⟩
  · simp [Func.newsBefore, Func.growth, hSites id hId, Sandbox.chains]
  · obtain ⟨front, back, hLayout, hFront⟩ := List.eq_append_cons_of_mem hId
    have hTakes : ∀ part : List InstId, (∀ a ∈ part, a ∈ f.layout) →
        ∀ site ∈ part.flatMap f.sites, ∃ c v, f.Takes site c v := fun part hPart site hSite => by
      obtain ⟨a, ha, hOwn⟩ := List.mem_flatMap.mp hSite
      exact h.sound site (List.mem_flatMap.mpr ⟨a, hPart a ha, hOwn⟩)
    have hStart := Func.chainStart_eq hLayout hFront
    have hBefore := Sandbox.length_chains (s := s) (hTakes front fun a ha => by simp [hLayout, ha])
      (.inst f.cells.length) (f.cells.length + 1)
    have hOwn := Sandbox.length_chains (s := s) (f := f) (fun site hSite => h.sound site
      (List.mem_flatMap.mpr ⟨id, hId, hSite⟩)) (.inst f.cells.length) (f.chainStart id)
    have hInsts := hGrown.insts
    rw [hLayout, List.flatMap_append, List.flatMap_cons, Sandbox.chains_append,
      Sandbox.chains_append, ← hStart, ← List.cons_append, ← List.append_assoc] at hInsts
    have hMap := Func.map_inst_range' hInsts
    rw [List.length_cons, hBefore, hOwn] at hMap
    rw [Func.newsBefore, Func.growth, ← Func.length_cells, ← hMap, hStart]
    congr 2
    omega

/-- What is new is the load of the region base or belongs to a chain. -/
theorem mem_layout_iff (h : Finished s symbol f p) (hf : f.Consistent) (hBody : 0 < f.blocks.length)
    {id : InstId} (hFresh : f.cells.length ≤ id) :
    id ∈ p.func.layout ↔ id ∈ f.opening 0 ∨ ∃ anchor ∈ f.layout, id ∈ f.newsBefore anchor := by
  constructor
  · intro hId
    obtain ⟨b', hb', hMem⟩ := List.mem_flatMap.mp hId
    obtain ⟨block, hBlock⟩ := List.mem_iff_getElem?.mp hb'
    obtain ⟨b, hb⟩ : ∃ b, f.blocks[block]? = some b :=
      ⟨_, List.getElem?_eq_getElem (h.blocks ▸ (List.getElem?_eq_some_iff.mp hBlock).1)⟩
    rw [h.order hf hb hBlock, List.mem_append] at hMem
    rcases hMem with hHead | hRest
    · left
      unfold Func.opening at hHead ⊢
      split at hHead
      · next hIf => simpa [hIf.2] using hHead
      · cases hHead
    · obtain ⟨anchor, hAnchor, hNew⟩ := List.mem_flatMap.mp hRest
      have hOld : anchor ∈ f.layout :=
        List.mem_flatMap.mpr ⟨b, List.mem_of_getElem? hb, (List.mem_filter.mp hAnchor).1⟩
      rcases List.mem_append.mp hNew with hNew | hNew
      · exact .inr ⟨anchor, hOld, hNew⟩
      · obtain rfl : id = anchor := by simpa using hNew
        obtain ⟨c, hc, _⟩ := hf.mem_layout_iff.mp hOld
        exact absurd (Func.lt_of_cell hc) (Nat.not_lt.mpr hFresh)
  · have hMem : ∀ (block : BlockId) (b : Block), f.blocks[block]? = some b →
        id ∈ f.opening block ++ Func.interleave f.newsBefore (b.insts.filter (· ∈ p.func.layout)) →
        id ∈ p.func.layout := fun block b hb hId => by
      obtain ⟨b', hb'⟩ : ∃ b', p.func.blocks[block]? = some b' :=
        ⟨_, List.getElem?_eq_getElem (h.blocks ▸ (List.getElem?_eq_some_iff.mp hb).1)⟩
      rw [← h.order hf hb hb'] at hId
      exact List.mem_flatMap.mpr ⟨b', List.mem_of_getElem? hb', hId⟩
    rintro (hHead | ⟨anchor, hAnchor, hNew⟩)
    · exact hMem 0 _ (List.getElem?_eq_getElem hBody) (List.mem_append_left _ hHead)
    · have hSites : f.sites anchor ≠ [] :=
        fun hNil => by simp [Func.newsBefore, Func.growth, hNil] at hNew
      obtain ⟨b, hb, hIn⟩ := List.mem_flatMap.mp hAnchor
      obtain ⟨block, hBlock⟩ := List.mem_iff_getElem?.mp hb
      refine hMem block b hBlock (List.mem_append_right _
        (List.mem_flatMap.mpr ⟨anchor, ?_, by simp [hNew]⟩))
      exact List.mem_filter.mpr ⟨hIn, by simpa using h.handled hAnchor hSites⟩

/-- Without what is new a block is what is left of it. -/
theorem filter_old (h : Finished s symbol f p) (hf : f.Consistent) {block : BlockId} {b b' : Block}
    (hb : f.blocks[block]? = some b) (hb' : p.func.blocks[block]? = some b') :
    b'.insts.filter (· < f.nodes.length) = b.insts.filter (· ∈ p.func.layout) := by
  have hHead : (f.opening block).filter (· < f.nodes.length) = [] := by
    unfold Func.opening
    split <;> simp
  rw [h.order hf hb hb', List.filter_append, hHead, List.nil_append]
  refine Func.filter_old_interleave (fun id _ new hNew => ?_) fun id hId => ?_
  · have hGe : f.nodes.length + 1 ≤ new :=
      Nat.le_trans (Nat.le_add_right _ _) (List.mem_range'_1.mp hNew).1
    simpa using Nat.le_of_succ_le hGe
  · obtain ⟨c, hc, _⟩ := (hf.placed block b hb id).mp (List.mem_filter.mp hId).1
    simpa [Func.length_cells] using Func.lt_of_cell hc

end Finished

end Whole

/-- A run that succeeds leaves everything as it was that it need not change: names and types of the
function, its blocks, and of the instructions all but the addresses and the lengths. What is new is
the load of the region base at the head of the function, and right before each instruction that was
dealt with the chains for its operands. -/
theorem confinement_frame {s : Sandbox} {symbol : Symbol} {f g : Func} {stats : Stats}
    (hBuilt : f.Built) (hBody : f.isDeclaration = false) (hSource : s.source = .ofSymbol symbol)
    (hRun : s.run f = .ok ⟨g, .ok stats⟩) : s.Framed symbol f g := by
  have hf := hBuilt.consistent
  obtain ⟨p, rfl, rfl, h⟩ := Sandbox.run_ok hSource hf hBody hRun
  have hSignature : p.func.name = f.name ∧ p.func.params = f.params ∧ p.func.result = f.result := by
    simpa [Func.signature] using h.keeps.signature
  refine ⟨hSignature, h.keeps.labels, fun id hId hLeft => ?_, fun block b hb => ?_,
    fun id hId => ?_, fun id hId => h.chains hf hId, fun id hId => h.handled hId, fun id hFresh =>
    ⟨⟨fun hLt => ?_, fun hId => ?_⟩, ?_⟩⟩
  · obtain ⟨c, hc, _⟩ := hf.mem_layout_iff.mp hId
    obtain ⟨d, hd, hLive⟩ := h.consistent.mem_layout_iff.mp hLeft
    obtain ⟨old, hOld, rfl⟩ := Func.cell_eq_some_iff.mp hc
    obtain ⟨new, hNew, rfl⟩ := Func.cell_eq_some_iff.mp hd
    exact ⟨old, new, by simp [Func.node, hOld], by simp [Func.node, hNew],
      h.retained hOld hNew hLive⟩
  · obtain ⟨b', hb'⟩ : ∃ b', p.func.blocks[block]? = some b' :=
      ⟨_, List.getElem?_eq_getElem (h.blocks ▸ (List.getElem?_eq_some_iff.mp hb).1)⟩
    exact ⟨b', hb', h.order hf hb hb', h.filter_old hf hb hb'⟩
  · rcases h.grown_cases hf with ⟨hNone, _⟩ | ⟨hSome, hGrown⟩
    · simp [Func.opening, hNone] at hId
    · obtain rfl : id = f.cells.length := by
        simpa [Func.opening, hSome, Func.length_cells] using hId
      obtain ⟨_, hCell⟩ := h.base_cell hGrown.base
      exact Func.inst_of_cell hCell
  · rw [← Func.length_cells] at hFresh hLt
    exact h.mem_layout_of_fresh hFresh hLt
  · obtain ⟨c, hc, _⟩ := h.consistent.mem_layout_iff.mp hId
    rw [← Func.length_cells]
    exact Func.lt_of_cell hc
  · exact h.mem_layout_iff hf (Func.isDeclaration_eq_false_iff.mp hBody) (f.length_cells ▸ hFresh)

/-- The address of the read is folded, so nothing is left before its chain; the fill has a chain for
its address and one for its length. -/
theorem confinement_frame_readThenFill :
    ∃ f g stats, Func.ofEdits "f" [.i32, .ptr (.int 8)] .void readThenFill = .ok f ∧
      defaultSandbox.run f = .ok ⟨g, .ok stats⟩ ∧
      defaultSandbox.Framed (.global defaultBaseSymbol .i64) f g ∧ f.layout = [0, 1, 2, 3] ∧
      f.newsBefore 2 = [5, 6, 7, 8] ∧ f.newsBefore 3 = [9, 10, 11, 12, 13, 14] ∧
      g.layout = [4, 5, 6, 7, 8, 2, 9, 10, 11, 12, 13, 14, 3] := by
  obtain ⟨f, g, stats, hf, hBody, hRun, hOld, hRead, hFill, hNew⟩ : ∃ f g stats,
      Func.ofEdits "f" [.i32, .ptr (.int 8)] .void readThenFill = .ok f ∧ f.isDeclaration = false ∧
      defaultSandbox.run f = .ok ⟨g, .ok stats⟩ ∧ f.layout = [0, 1, 2, 3] ∧
      f.newsBefore 2 = [5, 6, 7, 8] ∧ f.newsBefore 3 = [9, 10, 11, 12, 13, 14] ∧
      g.layout = [4, 5, 6, 7, 8, 2, 9, 10, 11, 12, 13, 14, 3] :=
    ⟨_, _, _, rfl, rfl, rfl, rfl, rfl, rfl, rfl⟩
  exact ⟨f, g, stats, hf, hRun, confinement_frame (Func.built_ofEdits hf) hBody
    (s := defaultSandbox) rfl hRun, hOld, hRead, hFill, hNew⟩

end FaultIsolation
