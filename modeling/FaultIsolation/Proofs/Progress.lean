import FaultIsolation.Proofs.Step

/-!
How far confinement has come. At any time of the work an instruction of the original function still
has its operands, apart from those that were dealt with and are now the ends of chains, or it was
removed and nothing refers to it. Everything else is the load of the region base or belongs to a
chain, and chains never change.
-/
namespace FaultIsolation

inductive Role where
  | address
  | length
  deriving Repr, DecidableEq

structure Site where
  id : InstId
  position : Nat
  role : Role
  deriving Repr, DecidableEq

namespace Access

def places (access : Access) : List (Nat × Role) :=
  access.addresses.map (·, .address) ++ access.length?.toList.map (·, .length)

/-- No operand is used for two things. -/
theorem nodup_positions (access : Access) : (access.addresses ++ access.length?.toList).Nodup := by
  cases access <;> simp [addresses, length?]

theorem mem_places_address {access : Access} {position : Nat} :
    (position, Role.address) ∈ access.places ↔ position ∈ access.addresses := by
  simp [places]

theorem mem_places_length {access : Access} {position : Nat} :
    (position, Role.length) ∈ access.places ↔ access.length? = some position := by
  simp [places]

/-- What has a length has an address, and the address comes first. -/
theorem role_of_head {access : Access} {place : Nat × Role} (h : access.places.head? = some place) :
    place.2 = .address := by
  cases access <;> simp_all [places, addresses, length?, eq_comm]

/-- An access with a length has an address too. -/
theorem addresses_ne_nil {access : Access} {position : Nat} (h : access.length? = some position) :
    access.addresses ≠ [] := by
  intro hNil
  have hHead : access.places.head? = some (position, .length) := by simp [places, hNil, h]
  cases role_of_head hHead

/-- The class depends on what an instruction does and on what it calls. -/
theorem ofInstruction_congr {i j : Instruction} (hOpcode : j.opcode = i.opcode)
    (hCallee : j.callee? = i.callee?) : ofInstruction j = ofInstruction i := by
  simp only [ofInstruction, Intrinsic.ofCall?, hOpcode, hCallee]

/-- A conversion to a pointer accesses nothing. -/
theorem places_intToPtr {inst : Instruction} (h : inst.opcode = .cast .intToPtr) :
    (ofInstruction inst).places = [] := by
  simp only [ofInstruction, h]
  rfl

theorem places_add {inst : Instruction} (h : inst.opcode = .binary .add) :
    (ofInstruction inst).places = [] := by
  simp only [ofInstruction, h]
  rfl

end Access

namespace Func

def sites (f : Func) (id : InstId) : List Site :=
  (f.cells[id]?).toList.flatMap fun c =>
    (Access.ofInstruction c.inst).places.map fun place => ⟨id, place.1, place.2⟩

theorem id_of_mem_sites {f : Func} {id : InstId} {site : Site} (h : site ∈ f.sites id) :
    site.id = id := by
  obtain ⟨c, _, hPlace⟩ := List.mem_flatMap.mp h
  obtain ⟨place, _, rfl⟩ := List.mem_map.mp hPlace
  rfl

/-- At this place stands an access with this operand, which is a pointer if it is used as an
address. -/
structure Takes (f : Func) (site : Site) (c : Cell) (v : Value) : Prop where
  cell : f.cells[site.id]? = some c
  live : c.live = true
  listed : (site.position, site.role) ∈ (Access.ofInstruction c.inst).places
  operand : c.inst.accessOperand? site.position = some v
  pointer : site.role = .address → f.IsPointer v

theorem Takes.places_ne_nil {f : Func} {site : Site} {c : Cell} {v : Value} (h : f.Takes site c v) :
    (Access.ofInstruction c.inst).places ≠ [] :=
  List.ne_nil_of_mem h.listed

/-- What takes a place is none of several instructions that are no accesses. -/
theorem Takes.id_not_mem {f : Func} {site : Site} {c : Cell} {v : Value} (h : f.Takes site c v)
    {ids : List InstId}
    (hPlain : ∀ id ∈ ids, ∃ c, f.cells[id]? = some c ∧ (Access.ofInstruction c.inst).places = []) :
    site.id ∉ ids := by
  intro hMem
  obtain ⟨c', hc', hPlaces⟩ := hPlain _ hMem
  obtain rfl : c' = c := by simpa [h.cell] using hc'.symm
  exact h.places_ne_nil hPlaces

/-- A list of places that accesses take may grow by another one. -/
theorem Takes.sound_append {f : Func} {site : Site} {c : Cell} {v : Value} (h : f.Takes site c v)
    {done : List Site} (hSound : ∀ other ∈ done, ∃ c v, f.Takes other c v) :
    ∀ other ∈ done ++ [site], ∃ c v, f.Takes other c v := by
  intro other hOther
  rcases List.mem_append.mp hOther with hOther | hOther
  · exact hSound other hOther
  · obtain rfl : other = site := by simpa using hOther
    exact ⟨c, v, h⟩

def Standing (g : Func) (start : InstId) (insts : List Instruction) : Prop :=
  ∀ (i : Nat) (inst : Instruction), insts[i]? = some inst →
    ∃ block, g.cells[start + i]? = some ⟨inst, block, true⟩

end Func

/-- The chain that takes the place of an operand. Whether an address is folded is decided by the
function as it was at first. -/
inductive Replacement (s : Sandbox) (f : Func) (base? : Option Value) (start : InstId) :
    Role → Value → List Instruction → Prop where
  | address {pointer base : Value} {ty : Ty} {fold : Option Foldable} (known : base? = some base)
      (typed : f.typeOf pointer = .ok ty) (folded : s.foldable? f pointer = .ok fold) :
      Replacement s f base? start .address pointer (addressChain start base pointer ty fold)
  | length {length : Value} (typed : f.typeOf length = .ok .i64) :
      Replacement s f base? start .length length (clippedChain start length)

/-- The chain is there, under numbers that the original function does not use. -/
structure Placed (s : Sandbox) (f : Func) (p : Pass) (role : Role) (v : Value) (start : InstId)
    (insts : List Instruction) : Prop where
  fresh : f.cells.length ≤ start
  chain : Replacement s f p.base start role v insts
  standing : p.func.Standing start insts

/-- What has become of an operand. -/
inductive Became (s : Sandbox) (f : Func) (done : List Site) (p : Pass) (id : InstId)
    (position : Nat) (v : Value) : Value → Prop where
  | same (untouched : ∀ role, ⟨id, position, role⟩ ∉ done) : Became s f done p id position v v
  | kept {ty : Ty} (listed : ⟨id, position, .length⟩ ∈ done) (typed : f.typeOf v = .ok ty)
      (other : ty ≠ .i64) : Became s f done p id position v v
  | moved {role : Role} {start : InstId} {insts : List Instruction}
      (listed : ⟨id, position, role⟩ ∈ done) (placed : Placed s f p role v start insts) :
      Became s f done p id position v (.inst (Func.lastOf start insts))

/-- The instruction is still there, and its operands are what they should have become. -/
structure Carried (s : Sandbox) (f : Func) (done : List Site) (p : Pass) (id : InstId)
    (c d : Cell) : Prop where
  live : d.live = c.live
  length : d.inst.operands.length = c.inst.operands.length
  operands : ∀ (position : Nat) (v : Value), c.inst.operands[position]? = some v →
    ∃ w, d.inst.operands[position]? = some w ∧ Became s f done p id position v w

/-- The instruction was removed after an address had been folded, and nothing refers to it. -/
structure Dropped (s : Sandbox) (f : Func) (done : List Site) (p : Pass) (id : InstId)
    (c d : Cell) : Prop where
  live : c.live = true
  emptied : d = c.emptied
  unreferenced : references p.func.cells id = 0
  folded : ∃ site ∈ done, ∃ (access : Cell) (v : Value) (address : Foldable),
    f.Takes site access v ∧ site.role = .address ∧ s.foldable? f v = .ok (some address) ∧
    (id = address.conversion ∨ id = address.addition)

structure Progress (s : Sandbox) (symbol : Symbol) (f : Func) (done : List Site) (p : Pass) :
    Prop where
  consistent : p.func.Consistent
  keeps : f.Keeps p.func
  blocks : p.func.blocks.length = f.blocks.length
  sound : ∀ site ∈ done, ∃ c v, f.Takes site c v
  old : ∀ (id : InstId) (c : Cell), f.cells[id]? = some c →
    ∃ d, p.func.cells[id]? = some d ∧ (Carried s f done p id c d ∨ Dropped s f done p id c d)
  fresh : ∀ id : InstId, f.cells.length ≤ id → id < p.func.cells.length → p.base = some (.inst id) ∨
    ∃ site ∈ done, ∃ c v start insts, f.Takes site c v ∧ Placed s f p site.role v start insts ∧
      start ≤ id ∧ id < start + insts.length
  base : ∀ base, p.base = some base → ∃ b block, base = .inst b ∧ f.cells.length ≤ b ∧
    p.func.cells[b]? = some ⟨baseLoad symbol, block, true⟩ ∧ p.func.entryHead? = some b
  baseLoads : p.stats.baseLoads = p.base.toList.length
  addresses : p.stats.addresses = done.countP (·.role = .address)
  instCount : p.func.instCount + p.stats.removed = f.instCount + p.stats.inserted

/-- What folding removes is no access. -/
theorem places_of_folded {s : Sandbox} {f : Func} {v : Value} {address : Foldable} {id : InstId}
    {c : Cell} (hFold : s.foldable? f v = .ok (some address))
    (hId : id = address.conversion ∨ id = address.addition) (hc : f.cells[id]? = some c) :
    (Access.ofInstruction c.inst).places = [] := by
  obtain ⟨a, b, _, ha, hSource, hb, hStep⟩ :=
    Func.foldable?_some (Sandbox.foldable?_eq_some_iff.mp hFold).2
  rcases hId with rfl | rfl
  · obtain rfl : a = c := by simpa [ha] using hc
    exact Access.places_intToPtr (Func.opcode_of_pointerSource? hSource).1
  · obtain rfl : b = c := by simpa [hb] using hc
    exact Access.places_add (Func.opcode_of_positiveStep? hStep)

/-- What folding removes is in the store and is no access. -/
theorem exists_plain_of_folded {s : Sandbox} {f : Func} {v : Value} {address : Foldable}
    {id : InstId} (hFold : s.foldable? f v = .ok (some address))
    (hId : id = address.conversion ∨ id = address.addition) :
    ∃ c, f.cells[id]? = some c ∧ (Access.ofInstruction c.inst).places = [] := by
  obtain ⟨a, b, _, ha, _, hb, _⟩ := Func.foldable?_some (Sandbox.foldable?_eq_some_iff.mp hFold).2
  rcases hId with rfl | rfl
  · exact ⟨a, ha, places_of_folded hFold (.inl rfl) ha⟩
  · exact ⟨b, hb, places_of_folded hFold (.inr rfl) hb⟩

/-- The instruction still has the operands that were not dealt with. -/
structure Upheld (done : List Site) (id : InstId) (c d : Cell) : Prop where
  live : d.live = c.live
  length : d.inst.operands.length = c.inst.operands.length
  untouched : ∀ (position : Nat) (v : Value), c.inst.operands[position]? = some v →
    (∀ role, ⟨id, position, role⟩ ∉ done) → d.inst.operands[position]? = some v

structure Discarded (g : Func) (id : InstId) (c d : Cell) : Prop where
  live : c.live = true
  emptied : d = c.emptied
  unreferenced : references g.cells id = 0
  plain : (Access.ofInstruction c.inst).places = []

/-- The function is what an original one becomes as some places are dealt with. This much holds
wherever the region base comes from and whatever the chains are. -/
structure Intact (f : Func) (done : List Site) (g : Func) : Prop where
  consistent : g.Consistent
  keeps : f.Keeps g
  sound : ∀ site ∈ done, ∃ c v, f.Takes site c v
  old : ∀ (id : InstId) (c : Cell), f.cells[id]? = some c →
    ∃ d, g.cells[id]? = some d ∧ (Upheld done id c d ∨ Discarded g id c d)

/-- An instruction none of whose operands were dealt with is as it was. -/
theorem Upheld.eq_of_untouched {f g : Func} {done : List Site} {id : InstId} {c d : Cell}
    (h : Upheld done id c d) (hKeeps : f.Keeps g) (hc : f.cells[id]? = some c)
    (hd : g.cells[id]? = some d) (hUntouched : ∀ site ∈ done, site.id ≠ id) : d = c := by
  obtain ⟨d', hd', hOpcode, hTy, hName, hBlock, _⟩ := hKeeps.cells id c hc
  obtain rfl : d = d' := by simpa [hd] using hd'
  have hOperands : d.inst.operands = c.inst.operands := by
    apply List.ext_getElem?
    intro position
    cases hv : c.inst.operands[position]? with
    | none =>
        rw [List.getElem?_eq_none_iff] at hv ⊢
        rw [h.length]
        exact hv
    | some v => exact h.untouched position v hv fun role hMem => hUntouched _ hMem rfl
  obtain ⟨⟨opcode, operands, ty, name⟩, block, live⟩ := d
  obtain ⟨⟨opcode', operands', ty', name'⟩, block', live'⟩ := c
  have hLive := h.live
  simp only at hOpcode hTy hName hBlock hOperands hLive
  simp only [hOpcode, hTy, hName, hBlock, hOperands, hLive]

theorem Upheld.append {done : List Site} {id : InstId} {c d : Cell} (h : Upheld done id c d)
    (more : List Site) : Upheld (done ++ more) id c d :=
  ⟨h.live, h.length, fun position v hv hUntouched =>
    h.untouched position v hv fun role hMem => hUntouched role (List.mem_append_left _ hMem)⟩

/-- What is no access has no operands that are dealt with. -/
theorem untouched_of_no_place {f : Func} {done : List Site}
    (hSound : ∀ site ∈ done, ∃ c v, f.Takes site c v) {id : InstId} {c : Cell}
    (hc : f.cells[id]? = some c) (hPlaces : (Access.ofInstruction c.inst).places = []) :
    ∀ site ∈ done, site.id ≠ id := by
  rintro site hSite rfl
  obtain ⟨c', v, hTakes⟩ := hSound site hSite
  obtain rfl : c' = c := by simpa [hTakes.cell] using hc
  exact hTakes.places_ne_nil hPlaces

namespace Intact

variable {s : Sandbox} {f g : Func} {done : List Site} {id : InstId} {c d : Cell} {v : Value}

/-- Nothing has happened to a function at first. -/
theorem refl (hf : f.Consistent) : Intact f [] f where
  consistent := hf
  keeps := .refl f
  sound := by simp
  old id c hc := ⟨c, hc, .inl ⟨rfl, rfl, fun _ _ hv _ => hv⟩⟩

/-- An instruction of which no place was dealt with is as it was, or it was removed. -/
theorem cell_of_untouched (h : Intact f done g) (hc : f.cells[id]? = some c)
    (hUntouched : ∀ site ∈ done, site.id ≠ id) :
    g.cells[id]? = some c ∨ ∃ d, g.cells[id]? = some d ∧ Discarded g id c d := by
  obtain ⟨d, hd, hUpheld | hDiscarded⟩ := h.old id c hc
  · left
    rw [hd, hUpheld.eq_of_untouched h.keeps hc hd hUntouched]
  · exact .inr ⟨d, hd, hDiscarded⟩

/-- What is no access and is still referred to is as it was. -/
theorem cell_of_referenced (h : Intact f done g) (hc : f.cells[id]? = some c)
    (hPlaces : (Access.ofInstruction c.inst).places = [])
    (hReferenced : 0 < references g.cells id) : g.cells[id]? = some c := by
  rcases h.cell_of_untouched hc (untouched_of_no_place h.sound hc hPlaces) with
    hSame | ⟨d, _, hDiscarded⟩
  · exact hSame
  · exact absurd hDiscarded.unreferenced (Nat.ne_of_gt hReferenced)

/-- An access that confinement deals with is still there. -/
theorem upheld_of_takes (h : Intact f done g) {site : Site} (hTakes : f.Takes site c v) :
    ∃ d, g.cells[site.id]? = some d ∧ Upheld done site.id c d := by
  obtain ⟨d, hd, hState⟩ := h.old site.id c hTakes.cell
  exact ⟨d, hd, hState.resolve_right fun hDiscarded => hTakes.places_ne_nil hDiscarded.plain⟩

/-- An address that was not dealt with yet is folded the way it would have been at first. -/
theorem foldable?_of_operand (h : Intact f done g) {fold : Option Foldable}
    (hd : g.cells[id]? = some d) (hv : v ∈ d.inst.operands) (hFold : s.foldable? f v = .ok fold) :
    s.foldable? g v = .ok fold := by
  cases hOption : s.options.fold with
  | false => simpa [Sandbox.foldable?, hOption] using hFold
  | true =>
      simp only [Sandbox.foldable?, hOption] at hFold ⊢
      have hConversion : ∀ (conversion : InstId) (a : Cell), v = .inst conversion →
          f.cells[conversion]? = some a → a.inst.opcode = .cast .intToPtr →
          g.cells[conversion]? = some a := by
        rintro conversion a rfl ha hCast
        exact h.cell_of_referenced ha (Access.places_intToPtr hCast)
          (references_pos_iff.mpr ⟨d, List.mem_of_getElem? hd, hv⟩)
      refine Func.foldable?_transfer h.keeps hFold hConversion
        fun conversion addition a b hEq ha hSource hb hAdd => ?_
      obtain ⟨hCast, rest, hOperands⟩ := Func.opcode_of_pointerSource? hSource
      have ha' := hConversion conversion a hEq ha hCast
      exact h.cell_of_referenced hb (Access.places_add hAdd)
        (references_pos_iff.mpr ⟨a, List.mem_of_getElem? ha', by simp [hOperands]⟩)

section Mention

variable {j : InstId} (h : Intact f done g) (hd : g.cells[id]? = some d) (hv : v ∈ d.inst.operands)
  (hj : j < f.cells.length) (hNone : references g.cells j = 0)

include h hd hv hj hNone

/-- A chain that confines an address mentions nothing that nothing refers to, unless it is the
region base. -/
theorem not_mem_addressChain {base : Value} {ty : Ty} {fold : Option Foldable}
    (hFold : s.foldable? f v = .ok fold) (hBase : base ≠ .inst j) :
    ∀ inst ∈ addressChain g.cells.length base v ty fold, Value.inst j ∉ inst.operands := by
  have hPointer : v ≠ .inst j := by
    rintro rfl
    exact Nat.ne_of_gt (references_pos_iff.mpr ⟨d, List.mem_of_getElem? hd, hv⟩) hNone
  have hStart : j ≠ g.cells.length := Nat.ne_of_lt (Nat.lt_of_lt_of_le hj h.keeps.length_le)
  have hNew : ∀ i, j ≠ g.cells.length + i := fun i =>
    Nat.ne_of_lt (Nat.lt_of_lt_of_le hj (Nat.le_trans h.keeps.length_le (Nat.le_add_right _ i)))
  cases fold with
  | none => simp [addressChain, rebasedChain, hPointer.symm, hBase.symm, hStart, hNew]
  | some address =>
      have hIndex : address.index ≠ .inst j := by
        intro hEq
        obtain ⟨_, b, _, _, _, hb, hStep⟩ := Func.foldable?_some
          (Sandbox.foldable?_eq_some_iff.mp (h.foldable?_of_operand hd hv hFold)).2
        have hOperand := Func.index_mem_of_positiveStep? hStep
        rw [hEq] at hOperand
        exact Nat.ne_of_gt (references_pos_iff.mpr ⟨b, List.mem_of_getElem? hb, hOperand⟩) hNone
      simp [addressChain, foldedChain, Value.ofWord, hIndex.symm, hBase.symm, hStart, hNew]

/-- Neither does a chain that clips a length. -/
theorem not_mem_clippedChain :
    ∀ inst ∈ clippedChain g.cells.length v, Value.inst j ∉ inst.operands := by
  have hLength : v ≠ .inst j := by
    rintro rfl
    exact Nat.ne_of_gt (references_pos_iff.mpr ⟨d, List.mem_of_getElem? hd, hv⟩) hNone
  have hStart : j ≠ g.cells.length := Nat.ne_of_lt (Nat.lt_of_lt_of_le hj h.keeps.length_le)
  simp [clippedChain, hLength.symm, hStart]

end Mention

end Intact

/-- A later state that has the same base and still has every new cell. -/
structure Extends (f : Func) (p q : Pass) : Prop where
  base : ∀ base, p.base = some base → q.base = some base
  cells : ∀ (id : InstId) (d : Cell), f.cells.length ≤ id → p.func.cells[id]? = some d →
    q.func.cells[id]? = some d

section Extension

variable {s : Sandbox} {f : Func} {p q : Pass}

/-- A chain stays the right one when the work goes on. -/
theorem Replacement.mono (hExtends : Extends f p q) {start : InstId} {role : Role} {v : Value}
    {insts : List Instruction} (h : Replacement s f p.base start role v insts) :
    Replacement s f q.base start role v insts := by
  cases h with
  | address known typed folded => exact .address (hExtends.base _ known) typed folded
  | length typed => exact .length typed

theorem Placed.mono (hExtends : Extends f p q) {start : InstId} {role : Role} {v : Value}
    {insts : List Instruction} (h : Placed s f p role v start insts) :
    Placed s f q role v start insts := by
  refine ⟨h.fresh, h.chain.mono hExtends, fun i inst hi => ?_⟩
  obtain ⟨block, hCell⟩ := h.standing i inst hi
  exact ⟨block, hExtends.cells _ _ (Nat.le_trans h.fresh (Nat.le_add_right _ _)) hCell⟩

/-- What has become of an operand stays so as long as the operand is not dealt with again. -/
theorem Became.mono (hExtends : Extends f p q) {done more : List Site} {id : InstId}
    {position : Nat} {v w : Value}
    (hMore : ∀ role, ⟨id, position, role⟩ ∈ more ↔ ⟨id, position, role⟩ ∈ done)
    (h : Became s f done p id position v w) : Became s f more q id position v w := by
  cases h with
  | same untouched => exact .same fun role hMem => untouched role ((hMore role).mp hMem)
  | kept listed typed other => exact .kept ((hMore _).mpr listed) typed other
  | moved listed placed => exact .moved ((hMore _).mpr listed) (placed.mono hExtends)

end Extension

theorem Carried.upheld {s : Sandbox} {f : Func} {done : List Site} {p : Pass} {id : InstId}
    {c d : Cell} (h : Carried s f done p id c d) : Upheld done id c d where
  live := h.live
  length := h.length
  untouched position v hv hUntouched := by
    obtain ⟨w, hw, hBecame⟩ := h.operands position v hv
    cases hBecame with
    | same untouched => exact hw
    | kept listed typed other => exact hw
    | moved listed placed => exact absurd listed (hUntouched _)

/-- What folding has removed is discarded. -/
theorem Dropped.discarded {s : Sandbox} {f : Func} {done : List Site} {p : Pass} {id : InstId}
    {c d : Cell} (h : Dropped s f done p id c d) (hc : f.cells[id]? = some c) :
    Discarded p.func id c d := by
  obtain ⟨_, _, _, _, address, _, _, hFold, hId⟩ := h.folded
  exact ⟨h.live, h.emptied, h.unreferenced, places_of_folded hFold hId hc⟩

namespace Progress

variable {s : Sandbox} {symbol : Symbol} {f : Func} {done : List Site} {p : Pass}

/-- At the start nothing was dealt with and everything is as it is. -/
theorem start (hf : f.Consistent) : Progress s symbol f [] { func := f } where
  consistent := hf
  keeps := .refl f
  blocks := rfl
  sound := by simp
  old id c hc := ⟨c, hc, .inl ⟨rfl, rfl, fun position v hv => ⟨v, hv, .same (by simp)⟩⟩⟩
  fresh id hOld hNew := absurd hNew (Nat.not_lt.mpr hOld)
  base := by simp
  baseLoads := rfl
  addresses := rfl
  instCount := rfl

/-- What still stands was carried over. -/
theorem carried_of_live (h : Progress s symbol f done p) {id : InstId} {c d : Cell}
    (hc : f.cells[id]? = some c) (hd : p.func.cells[id]? = some d) (hLive : d.live = true) :
    Carried s f done p id c d := by
  obtain ⟨d', hd', hCarried | hDropped⟩ := h.old id c hc
  · obtain rfl := Option.some.inj (hd.symm.trans hd')
    exact hCarried
  · obtain rfl := Option.some.inj (hd.symm.trans hd')
    rw [hDropped.emptied] at hLive
    cases hLive

/-- What stood and stands no more was dropped. -/
theorem dropped_of_dead (h : Progress s symbol f done p) {id : InstId} {c : Cell}
    (hc : f.cells[id]? = some c) (hLive : c.live = true) (hDead : p.func.isLive id = .ok false) :
    ∃ d, Dropped s f done p id c d := by
  obtain ⟨d, hd, hCarried | hDropped⟩ := h.old id c hc
  · rw [Func.isLive_of_cell hd, hCarried.live, hLive] at hDead
    cases hDead
  · exact ⟨d, hDropped⟩

/-- The original function is intact at any time of the work. -/
theorem intact (h : Progress s symbol f done p) : Intact f done p.func where
  consistent := h.consistent
  keeps := h.keeps
  sound := h.sound
  old id c hc := by
    obtain ⟨d, hd, hCarried | hDropped⟩ := h.old id c hc
    · exact ⟨d, hd, .inl hCarried.upheld⟩
    · exact ⟨d, hd, .inr (hDropped.discarded hc)⟩

/-- An instruction none of whose operands were dealt with is as it was, unless it was removed. -/
theorem cell_of_untouched (h : Progress s symbol f done p) {id : InstId} {c : Cell}
    (hc : f.cells[id]? = some c) (hUntouched : ∀ site ∈ done, site.id ≠ id) :
    p.func.cells[id]? = some c ∨ ∃ d, p.func.cells[id]? = some d ∧ Dropped s f done p id c d := by
  obtain ⟨d, hd, hCarried | hDropped⟩ := h.old id c hc
  · left
    rw [hd, hCarried.upheld.eq_of_untouched h.keeps hc hd hUntouched]
  · exact .inr ⟨d, hd, hDropped⟩

/-- What is no access is as it was, unless it was removed. -/
theorem cell_of_no_place (h : Progress s symbol f done p) {id : InstId} {c : Cell}
    (hc : f.cells[id]? = some c) (hPlaces : (Access.ofInstruction c.inst).places = []) :
    p.func.cells[id]? = some c ∨ ∃ d, p.func.cells[id]? = some d ∧ Dropped s f done p id c d :=
  h.cell_of_untouched hc (untouched_of_no_place h.sound hc hPlaces)

/-- An access that confinement deals with is still there. -/
theorem carried_of_takes (h : Progress s symbol f done p) {site : Site} {c : Cell} {v : Value}
    (hTakes : f.Takes site c v) :
    ∃ d, p.func.cells[site.id]? = some d ∧ d.inst.opcode = c.inst.opcode ∧
      Carried s f done p site.id c d := by
  obtain ⟨d, hd, hState⟩ := h.old site.id c hTakes.cell
  refine ⟨d, hd, h.keeps.opcode hTakes.cell hd, hState.resolve_right fun hDropped => ?_⟩
  exact hTakes.places_ne_nil (hDropped.discarded hTakes.cell).plain

/-- An instruction calls what it called before: what was dealt with are arguments. -/
theorem callee?_of_carried (h : Progress s symbol f done p) {id : InstId} {c d : Cell}
    (hc : f.cells[id]? = some c) (hOpcode : d.inst.opcode = c.inst.opcode)
    (hCarried : Carried s f done p id c d) : d.inst.callee? = c.inst.callee? := by
  cases hCall : c.inst.opcode with
  | call =>
      simp only [Instruction.callee?, hOpcode, hCall, List.getLast?_eq_getElem?, hCarried.length]
      cases hv : c.inst.operands[c.inst.operands.length - 1]? with
      | none =>
          rw [List.getElem?_eq_none_iff] at hv ⊢
          rw [hCarried.length]
          exact hv
      | some v =>
          obtain ⟨w, hw, hBecame⟩ := hCarried.operands _ v hv
          rw [hw]
          cases hBecame with
          | same untouched => rfl
          | kept listed typed other => rfl
          | moved listed placed =>
              obtain ⟨c', v', hTakes⟩ := h.sound _ listed
              obtain rfl : c' = c := by simpa [hTakes.cell] using hc
              have hArg := hTakes.operand
              simp [Instruction.accessOperand?, Instruction.args, hCall] at hArg
  | _ => simp only [Instruction.callee?, hOpcode, hCall]

/-- An instruction that was carried over accesses memory as it did. -/
theorem access_of_carried (h : Progress s symbol f done p) {id : InstId} {c d : Cell}
    (hc : f.cells[id]? = some c) (hOpcode : d.inst.opcode = c.inst.opcode)
    (hCarried : Carried s f done p id c d) :
    Access.ofInstruction d.inst = Access.ofInstruction c.inst :=
  Access.ofInstruction_congr hOpcode (h.callee?_of_carried hc hOpcode hCarried)

/-- Bringing in the region base changes nothing that is there. -/
theorem opened (h : Progress s symbol f done p) {q : Pass} {base : Value}
    (hOpened : Pass.Opened symbol p q base) (hBody : 0 < f.blocks.length) :
    Progress s symbol f done q := by
  cases hOpened with
  | known base_eq => exact h
  | @loaded g base_eq consistent inserted =>
      have hOld : ∀ {id : InstId} {d : Cell}, p.func.cells[id]? = some d → g.cells[id]? = some d :=
        fun hd => by
        rw [inserted.cells, List.getElem?_append_left (Func.lt_of_cell hd)]
        exact hd
      have hLength : g.cells.length = p.func.cells.length + 1 := by simp [inserted.cells]
      have hExtends : Extends f p ⟨g, some (.inst p.func.cells.length), p.stats.merge
        { baseLoads := 1, inserted := 1 }⟩ :=
        ⟨fun base hBase => by simp [base_eq] at hBase, fun _ _ _ hd => hOld hd⟩
      have hBodyNow : 0 < p.func.blocks.length := by rw [h.blocks]; exact hBody
      exact {
        consistent
        keeps := h.keeps.trans inserted.keeps
        blocks := by rw [inserted.blocks, List.length_modify, h.blocks]
        sound := h.sound
        old := fun id c hc => by
          obtain ⟨d, hd, hCarried | hDropped⟩ := h.old id c hc
          · refine ⟨d, hOld hd, .inl ⟨hCarried.live, hCarried.length, fun position v hv => ?_⟩⟩
            obtain ⟨w, hw, hBecame⟩ := hCarried.operands position v hv
            exact ⟨w, hw, hBecame.mono hExtends fun _ => Iff.rfl⟩
          · refine ⟨d, hOld hd, .inr ⟨hDropped.live, hDropped.emptied, ?_, hDropped.folded⟩⟩
            rw [inserted.cells, references_append, hDropped.unreferenced]
            rfl
        fresh := fun id hFresh hId => by
          rcases Nat.lt_or_ge id p.func.cells.length with hLt | hGe
          · rcases h.fresh id hFresh hLt with
              hBase | ⟨site, hSite, c, v, start, insts, hTakes, hPlaced, hRange⟩
            · simp [base_eq] at hBase
            · exact .inr ⟨site, hSite, c, v, start, insts, hTakes, hPlaced.mono hExtends, hRange⟩
          · rw [hLength] at hId
            obtain rfl : id = p.func.cells.length := Nat.le_antisymm (Nat.lt_succ_iff.mp hId) hGe
            exact .inl rfl
        base := fun base hBase => by
          obtain rfl := Option.some.inj hBase
          refine ⟨p.func.cells.length, 0, rfl, h.keeps.length_le, ?_, inserted.entryHead? hBodyNow⟩
          rw [inserted.cells]
          simp
        baseLoads := by simp [Stats.merge, h.baseLoads, base_eq]
        addresses := by simp [Stats.merge, h.addresses]
        instCount := by
          have hCount := inserted.instCount h.consistent consistent
          have hBefore := h.instCount
          simp only [Stats.merge]
          omega }

/-- Nothing that is removed from the original function is mentioned by a new chain. -/
theorem not_mem_chain (h : Progress s symbol f done p) {id j : InstId} {d : Cell} {v : Value}
    {role : Role} {insts : List Instruction} (hd : p.func.cells[id]? = some d)
    (hv : v ∈ d.inst.operands) (hChain : Replacement s f p.base p.func.cells.length role v insts)
    (hj : j < f.cells.length) (hNone : references p.func.cells j = 0) :
    ∀ inst ∈ insts, Value.inst j ∉ inst.operands := by
  cases hChain with
  | length typed => exact h.intact.not_mem_clippedChain hd hv hj hNone
  | @address _ base ty fold known typed folded =>
      obtain ⟨b, _, rfl, hFresh, _⟩ := h.base base known
      apply h.intact.not_mem_addressChain hd hv hj hNone folded
      rintro ⟨⟩
      exact absurd hj (Nat.not_lt.mpr hFresh)

/-- An operand is an address or a length, not both. -/
theorem role_unique (h : Progress s symbol f done p) {site : Site} {role : Role}
    (hSite : site ∈ done) (hOther : ⟨site.id, site.position, role⟩ ∈ done) : role = site.role := by
  obtain ⟨id, position, own⟩ := site
  obtain ⟨c, v, hTakes⟩ := h.sound _ hSite
  obtain ⟨c', v', hTakes'⟩ := h.sound _ hOther
  obtain rfl : c = c' := by simpa [hTakes.cell] using hTakes'.cell
  have hDisjoint := (List.nodup_append.mp
    (Access.nodup_positions (Access.ofInstruction c.inst))).2.2
  have hLeft := hTakes.listed
  have hRight := hTakes'.listed
  cases own with
  | address =>
      cases role with
      | address => rfl
      | length =>
          rw [Access.mem_places_address] at hLeft
          rw [Access.mem_places_length] at hRight
          exact absurd rfl (hDisjoint position hLeft position (by simp [hRight]))
  | length =>
      cases role with
      | length => rfl
      | address =>
          rw [Access.mem_places_length] at hLeft
          rw [Access.mem_places_address] at hRight
          exact absurd rfl (hDisjoint position hRight position (by simp [hLeft]))

/-- An address that was dealt with is the end of a chain that confines it. -/
theorem address_of_done (h : Progress s symbol f done p) {id : InstId} {position : Nat} {c d : Cell}
    {v : Value} (hSite : ⟨id, position, .address⟩ ∈ done)
    (hTakes : f.Takes ⟨id, position, .address⟩ c v) (hd : p.func.cells[id]? = some d) :
    ∃ start base ty fold, d.inst.operands[position]? = some (.inst (start + 3)) ∧
      f.cells.length ≤ start ∧ p.base = some base ∧ f.typeOf v = .ok ty ∧
      s.foldable? f v = .ok fold ∧ p.func.Standing start (addressChain start base v ty fold) := by
  obtain ⟨d', hd', _, hCarried⟩ := h.carried_of_takes hTakes
  obtain rfl : d = d' := by simpa [hd] using hd'
  obtain ⟨w, hw, hBecame⟩ := hCarried.operands position v
    (Func.operand_of_accessOperand? hTakes.operand)
  cases hBecame with
  | same untouched => exact absurd hSite (untouched _)
  | kept listed typed other => cases h.role_unique hSite listed
  | moved listed placed =>
      obtain rfl := h.role_unique hSite listed
      obtain ⟨hFresh, hChain, hStanding⟩ := placed
      cases hChain with
      | @address _ base ty fold known typed folded =>
          rw [Func.lastOf, length_addressChain] at hw
          exact ⟨_, base, ty, fold, hw, hFresh, known, typed, folded, hStanding⟩

/-- A length that was dealt with is the end of a chain that clips it, or was no machine word and is
what it was. -/
theorem length_of_done (h : Progress s symbol f done p) {id : InstId} {position : Nat} {c d : Cell}
    {v : Value} (hSite : ⟨id, position, .length⟩ ∈ done)
    (hTakes : f.Takes ⟨id, position, .length⟩ c v) (hd : p.func.cells[id]? = some d) :
    (∃ start, d.inst.operands[position]? = some (.inst (start + 1)) ∧ f.cells.length ≤ start ∧
      f.typeOf v = .ok .i64 ∧ p.func.Standing start (clippedChain start v)) ∨
    ∃ ty, f.typeOf v = .ok ty ∧ ty ≠ .i64 ∧ d.inst.operands[position]? = some v := by
  obtain ⟨d', hd', _, hCarried⟩ := h.carried_of_takes hTakes
  obtain rfl : d = d' := by simpa [hd] using hd'
  obtain ⟨w, hw, hBecame⟩ := hCarried.operands position v
    (Func.operand_of_accessOperand? hTakes.operand)
  cases hBecame with
  | same untouched => exact absurd hSite (untouched _)
  | kept listed typed other => exact .inr ⟨_, typed, other, hw⟩
  | moved listed placed =>
      obtain rfl := h.role_unique hSite listed
      obtain ⟨hFresh, hChain, hStanding⟩ := placed
      cases hChain with
      | length typed => exact .inl ⟨_, hw, hFresh, typed, hStanding⟩

/-- The region base is none of the original function. -/
theorem base_fresh (h : Progress s symbol f done p) {id : InstId}
    (hBase : p.base = some (.inst id)) : f.cells.length ≤ id := by
  obtain ⟨b, _, hEq, hFresh, _⟩ := h.base _ hBase
  obtain rfl := Value.inst.inj hEq
  exact hFresh

/-- The region base is loaded from the variable. -/
theorem base_cell (h : Progress s symbol f done p) {id : InstId}
    (hBase : p.base = some (.inst id)) :
    ∃ block, p.func.cells[id]? = some ⟨baseLoad symbol, block, true⟩ := by
  obtain ⟨b, block, hEq, _, hCell, _⟩ := h.base _ hBase
  obtain rfl := Value.inst.inj hEq
  exact ⟨block, hCell⟩

/-- Whatever is new stands in a block, and loads the region base or belongs to a chain. -/
theorem fresh_cell (h : Progress s symbol f done p) {id : InstId} {d : Cell}
    (hFresh : f.cells.length ≤ id) (hd : p.func.cells[id]? = some d) :
    d.live = true ∧ ((p.base = some (.inst id) ∧ d.inst = baseLoad symbol) ∨
      ∃ site ∈ done, ∃ c v start insts i, f.Takes site c v ∧ Placed s f p site.role v start insts ∧
        id = start + i ∧ insts[i]? = some d.inst) := by
  rcases h.fresh id hFresh (Func.lt_of_cell hd) with
    hBase | ⟨site, hSite, c, v, start, insts, hTakes, hPlaced, hGe, hLt⟩
  · obtain ⟨block, hCell⟩ := h.base_cell hBase
    obtain rfl := Option.some.inj (hd.symm.trans hCell)
    exact ⟨rfl, .inl ⟨hBase, rfl⟩⟩
  · obtain ⟨i, rfl⟩ := Nat.exists_eq_add_of_le hGe
    have hLess : i < insts.length := Nat.lt_of_add_lt_add_left hLt
    have hi : insts[i]? = some insts[i] := List.getElem?_eq_getElem hLess
    obtain ⟨block, hCell⟩ := hPlaced.standing i _ hi
    obtain rfl := Option.some.inj (hd.symm.trans hCell)
    exact ⟨rfl, .inr ⟨site, hSite, c, v, start, insts, i, hTakes, hPlaced, rfl, hi⟩⟩

end Progress

theorem Replacement.ne_nil {s : Sandbox} {f : Func} {base? : Option Value} {start : InstId}
    {role : Role} {v : Value} {insts : List Instruction}
    (h : Replacement s f base? start role v insts) : insts ≠ [] := by
  cases h with
  | @address _ base ty fold known typed folded =>
      intro hNil
      have hLength := length_addressChain start base v ty fold
      rw [hNil] at hLength
      cases hLength
  | length typed => simp [clippedChain]

/-- A chain refers to the operand or the offset in it, to the region base, and to its own members in
order. -/
theorem Replacement.refers {s : Sandbox} {f : Func} {base? : Option Value} {start : InstId}
    {role : Role} {v : Value} {insts : List Instruction}
    (h : Replacement s f base? start role v insts) {i : Nat} {inst : Instruction} {j : InstId}
    (hi : insts[i]? = some inst) (hj : .inst j ∈ inst.operands) :
    v = .inst j ∨ (∃ address, s.foldable? f v = .ok (some address) ∧ address.index = .inst j) ∨
      base? = some (.inst j) ∨ ∃ k < i, j = start + k := by
  cases h with
  | length typed =>
      rcases i with _ | _ | i <;> cases hi
      · exact .inl (List.mem_singleton.mp hj).symm
      · exact .inr (.inr (.inr ⟨0, by decide, Value.inst.inj (List.mem_singleton.mp hj)⟩))
  | @address _ base ty fold known typed folded =>
      have hBase : Value.inst j = base → base? = some (.inst j) := fun hb => hb ▸ known
      cases fold with
      | none =>
          rcases i with _ | _ | _ | _ | i <;> cases hi
          · exact .inl (List.mem_singleton.mp hj).symm
          · exact .inr (.inr (.inr ⟨0, by decide, Value.inst.inj (List.mem_singleton.mp hj)⟩))
          · exact .inr (.inr ((List.mem_pair.mp hj).imp hBase fun hk =>
              ⟨1, by decide, Value.inst.inj hk⟩))
          · exact .inr (.inr (.inr ⟨2, by decide, Value.inst.inj (List.mem_singleton.mp hj)⟩))
      | some address =>
          rcases i with _ | _ | _ | _ | i <;> cases hi
          · exact .inr (.inl ⟨address, folded, (List.mem_singleton.mp hj).symm⟩)
          · exact .inr (.inr ((List.mem_pair.mp hj).imp hBase fun hk =>
              ⟨0, by decide, Value.inst.inj hk⟩))
          · rcases List.mem_pair.mp hj with hk | hConstant
            · exact .inr (.inr (.inr ⟨1, by decide, Value.inst.inj hk⟩))
            · cases hConstant
          · exact .inr (.inr (.inr ⟨2, by decide, Value.inst.inj (List.mem_singleton.mp hj)⟩))

/-- A place that was not dealt with yet, and the access that stands there now. -/
structure Pending (s : Sandbox) (f : Func) (done : List Site) (p : Pass) (site : Site) (c d : Cell)
    (v : Value) : Prop where
  takes : f.Takes site c v
  untouched : ∀ role, ⟨site.id, site.position, role⟩ ∉ done
  cell : p.func.cells[site.id]? = some d
  opcode : d.inst.opcode = c.inst.opcode
  carried : Carried s f done p site.id c d

/-- The instructions that nothing may need any more once an operand was dealt with: the two that
made an address, if it is folded. -/
def Sandbox.superfluous (s : Sandbox) (f : Func) : Role → Value → List InstId
  | .address, v => foldedParts ((s.foldable? f v).toOption.getD none)
  | .length, _ => []

/-- A chain takes the place of the operand, and what nothing needs after that is removed. -/
structure Turn (s : Sandbox) (f : Func) (p : Pass) (site : Site) (d : Cell) (v : Value)
    (insts : List Instruction) (gone : List InstId) (removed : Nat) (g : Func) : Prop where
  chain : Replacement s f p.base p.func.cells.length site.role v insts
  superfluous : gone = s.superfluous f site.role v
  rerouted : Func.Rerouted p.func site.id d site.position v insts gone removed g

section Turn

variable {s : Sandbox} {symbol : Symbol} {f g : Func} {done : List Site} {p : Pass}
  {site : Site} {c d : Cell} {v : Value} {insts : List Instruction}
  {gone : List InstId} {removed : Nat}

/-- A place that was not dealt with is still pending. -/
theorem Progress.pending (h : Progress s symbol f done p) (hTakes : f.Takes site c v)
    (hUntouched : ∀ role, ⟨site.id, site.position, role⟩ ∉ done) :
    ∃ d, Pending s f done p site c d v := by
  obtain ⟨d, hd, hOpcode, hCarried⟩ := h.carried_of_takes hTakes
  exact ⟨d, hTakes, hUntouched, hd, hOpcode, hCarried⟩

/-- The operand is still what it was. -/
theorem Pending.accessOperand? (h : Pending s f done p site c d v) :
    d.inst.accessOperand? site.position = some v := by
  have hSame := h.carried.upheld.untouched _ v
    (Func.operand_of_accessOperand? h.takes.operand) h.untouched
  exact Func.accessOperand?_of_operand h.opcode h.carried.length h.takes.operand hSame

theorem Pending.operand (h : Pending s f done p site c d v) :
    d.inst.operands[site.position]? = some v :=
  Func.operand_of_accessOperand? h.accessOperand?

/-- Only folding leaves anything to remove. -/
theorem Turn.parts (h : Turn s f p site d v insts gone removed g) {j : InstId} (hj : j ∈ gone) :
    ∃ address, site.role = .address ∧ s.foldable? f v = .ok (some address) ∧
      (j = address.conversion ∨ j = address.addition) := by
  rw [h.superfluous] at hj
  cases hRole : site.role with
  | length =>
      rw [hRole] at hj
      cases hj
  | address =>
      rw [hRole] at hj
      obtain ⟨address, hSome, hPart⟩ := mem_foldedParts.mp hj
      cases hFold : s.foldable? f v with
      | error cause => simp [hFold, Except.toOption] at hSome
      | ok fold =>
          obtain rfl : fold = some address := by simpa [hFold, Except.toOption] using hSome
          exact ⟨address, rfl, rfl, hPart⟩

/-- What is removed was in the original function and is no access. -/
theorem Turn.gone_cell (h : Turn s f p site d v insts gone removed g) {j : InstId} (hj : j ∈ gone) :
    ∃ c, f.cells[j]? = some c ∧ (Access.ofInstruction c.inst).places = [] := by
  obtain ⟨address, _, hFold, hId⟩ := h.parts hj
  exact exists_plain_of_folded hFold hId

theorem Turn.gone_lt (h : Turn s f p site d v insts gone removed g) {j : InstId} (hj : j ∈ gone) :
    j < f.cells.length := by
  obtain ⟨c, hc, _⟩ := h.gone_cell hj
  exact Func.lt_of_cell hc

theorem Turn.anchor_not_gone (h : Turn s f p site d v insts gone removed g)
    (hTakes : f.Takes site c v) : site.id ∉ gone :=
  hTakes.id_not_mem fun _ => h.gone_cell

/-- The work goes on from what is there. -/
theorem Turn.extends (h : Turn s f p site d v insts gone removed g) (hTakes : f.Takes site c v)
    (stats : Stats) : Extends f p ⟨g, p.base, stats⟩ := by
  refine ⟨fun _ hBase => hBase, fun id e hFresh he => ?_⟩
  have hNe : site.id ≠ id := Nat.ne_of_lt (Nat.lt_of_lt_of_le (Func.lt_of_cell hTakes.cell) hFresh)
  rcases h.rerouted.other_cell hNe he with hSame | ⟨hMem, _⟩
  · exact hSame
  · exact absurd (h.gone_lt hMem) (Nat.not_lt.mpr hFresh)

/-- The chain stands under the next numbers. -/
theorem Turn.placed (h : Turn s f p site d v insts gone removed g)
    (hProgress : Progress s symbol f done p) (hPending : Pending s f done p site c d v)
    (stats : Stats) : Placed s f ⟨g, p.base, stats⟩ site.role v p.func.cells.length insts := by
  refine ⟨hProgress.keeps.length_le, h.chain, fun i inst hi => ⟨d.block, ?_⟩⟩
  exact h.rerouted.new_cell hPending.cell
    (fun j hj => Nat.lt_of_lt_of_le (h.gone_lt hj) hProgress.keeps.length_le) hi

/-- The access of the place has the end of the chain as operand now, and its other operands as
before. -/
theorem Turn.carried (h : Turn s f p site d v insts gone removed g)
    (hProgress : Progress s symbol f done p) (hPending : Pending s f done p site c d v)
    (stats : Stats) :
    Carried s f (done ++ [site]) ⟨g, p.base, stats⟩ site.id c
      (d.setOperand site.position (.inst (Func.lastOf p.func.cells.length insts))) := by
  have hCarried := hPending.carried
  refine ⟨hCarried.live, by simpa [Cell.setOperand] using hCarried.length, fun position w hw => ?_⟩
  by_cases hPosition : site.position = position
  · subst hPosition
    obtain rfl : w = v := by
      simpa [Func.operand_of_accessOperand? hPending.takes.operand] using hw.symm
    refine ⟨_, List.getElem?_set_self ?_, .moved (by simp) (h.placed hProgress hPending stats)⟩
    exact (List.getElem?_eq_some_iff.mp hPending.operand).1
  · obtain ⟨u, hu, hBecame⟩ := hCarried.operands position w hw
    refine ⟨u, ?_, hBecame.mono (h.extends hPending.takes stats) fun role => ?_⟩
    · simpa [Cell.setOperand, List.getElem?_set_ne hPosition] using hu
    · have hNe : (⟨site.id, position, role⟩ : Site) ≠ site :=
        fun hEq => hPosition (congrArg Site.position hEq).symm
      simp [hNe]

/-- Every other instruction is as before, or it was removed now. -/
theorem Turn.old (h : Turn s f p site d v insts gone removed g)
    (hProgress : Progress s symbol f done p) (hPending : Pending s f done p site c d v)
    (stats : Stats) {id : InstId} {e : Cell} (hId : site.id ≠ id) (he : f.cells[id]? = some e) :
    ∃ e', g.cells[id]? = some e' ∧ (Carried s f (done ++ [site]) ⟨g, p.base, stats⟩ id e e' ∨
      Dropped s f (done ++ [site]) ⟨g, p.base, stats⟩ id e e') := by
  obtain ⟨e', he', hState⟩ := hProgress.old id e he
  obtain ⟨e'', he'', hOpcode, hTy, hName, hBlock, _⟩ := hProgress.keeps.cells id e he
  obtain rfl : e' = e'' := by simpa [he'] using he''
  rcases h.rerouted.other_cell hId he' with hSame | ⟨hMem, hLive, hGone, hNone⟩
  · refine ⟨e', hSame, hState.imp (fun hCarried => ?_) fun hDropped => ?_⟩
    · refine ⟨hCarried.live, hCarried.length, fun position w hw => ?_⟩
      obtain ⟨u, hu, hBecame⟩ := hCarried.operands position w hw
      refine ⟨u, hu, hBecame.mono (h.extends hPending.takes stats) fun role => ?_⟩
      have hNe : (⟨id, position, role⟩ : Site) ≠ site := fun hEq => hId (congrArg Site.id hEq).symm
      simp [hNe]
    · refine ⟨hDropped.live, hDropped.emptied, ?_, ?_⟩
      · have hLt := Func.lt_of_cell he
        apply h.rerouted.unreferenced hPending.cell hPending.operand
          (Func.lt_of_cell he') hDropped.unreferenced
        exact hProgress.not_mem_chain hPending.cell
          (List.mem_of_getElem? hPending.operand) h.chain hLt hDropped.unreferenced
      · obtain ⟨other, hOther, hRest⟩ := hDropped.folded
        exact ⟨other, List.mem_append_left _ hOther, hRest⟩
  · refine ⟨e'.emptied, hGone, .inr ?_⟩
    rcases hState with hCarried | hDropped
    · obtain ⟨address, hRole, hFold, hPart⟩ := h.parts hMem
      refine ⟨hCarried.live ▸ hLive, ?_, hNone, site, by simp, c, v, address, hPending.takes,
        hRole, hFold, hPart⟩
      simp only [Cell.emptied, hOpcode, hTy, hName, hBlock]
    · rw [hDropped.emptied] at hLive
      cases hLive

/-- What is new after a turn is the region base, or belongs to this chain or to an earlier one. -/
theorem Turn.fresh (h : Turn s f p site d v insts gone removed g)
    (hProgress : Progress s symbol f done p) (hPending : Pending s f done p site c d v)
    (stats : Stats) {id : InstId} (hFresh : f.cells.length ≤ id) (hId : id < g.cells.length) :
    p.base = some (.inst id) ∨ ∃ other ∈ done ++ [site], ∃ c v start insts, f.Takes other c v ∧
      Placed s f ⟨g, p.base, stats⟩ other.role v start insts ∧ start ≤ id ∧
      id < start + insts.length := by
  rcases Nat.lt_or_ge id p.func.cells.length with hLt | hGe
  · refine (hProgress.fresh id hFresh hLt).imp_right ?_
    rintro ⟨other, hOther, c, v, start, insts, hTakes, hPlaced, hRange⟩
    exact ⟨other, List.mem_append_left _ hOther, c, v, start, insts, hTakes,
      hPlaced.mono (h.extends hPending.takes stats), hRange⟩
  · right
    rw [h.rerouted.length_cells] at hId
    exact ⟨site, by simp, c, v, _, insts, hPending.takes, h.placed hProgress hPending stats, hGe,
      hId⟩

/-- A chain in the place of an operand is progress by one place. -/
theorem Progress.turn (hProgress : Progress s symbol f done p)
    (hPending : Pending s f done p site c d v) (h : Turn s f p site d v insts gone removed g)
    {counts : Stats} (hBaseLoads : counts.baseLoads = 0)
    (hAddresses : counts.addresses = [site].countP (·.role = .address))
    (hInserted : counts.inserted = insts.length) (hRemoved : counts.removed = removed) :
    Progress s symbol f (done ++ [site]) ⟨g, p.base, p.stats.merge counts⟩ where
  consistent := h.rerouted.consistent hPending.cell hPending.operand h.chain.ne_nil
  keeps := hProgress.keeps.trans (h.rerouted.keeps hPending.cell)
  blocks := h.rerouted.blocks_length.trans hProgress.blocks
  sound := hPending.takes.sound_append hProgress.sound
  old id e he := by
    by_cases hId : site.id = id
    · subst hId
      obtain rfl : e = c := by simpa [hPending.takes.cell] using he.symm
      exact ⟨_, h.rerouted.anchor_cell hPending.cell (h.anchor_not_gone hPending.takes),
        .inl (h.carried hProgress hPending _)⟩
    · exact h.old hProgress hPending _ hId he
  fresh _ hFresh hId := h.fresh hProgress hPending _ hFresh hId
  base base hBase := by
    obtain ⟨b, block, rfl, hFresh, hCell, hHead⟩ := hProgress.base base hBase
    have hNe : b ≠ site.id := Nat.ne_of_gt
      (Nat.lt_of_lt_of_le (Func.lt_of_cell hPending.takes.cell) hFresh)
    have hNotGone : b ∉ gone := fun hMem => absurd (h.gone_lt hMem) (Nat.not_lt.mpr hFresh)
    exact ⟨b, block, rfl, hFresh, (h.extends hPending.takes {}).cells b _ hFresh hCell,
      h.rerouted.entryHead? hNe hNotGone hHead⟩
  baseLoads := by simp [Stats.merge, hBaseLoads, hProgress.baseLoads]
  addresses := by
    rw [List.countP_append, ← hAddresses, ← hProgress.addresses]
    rfl
  instCount := by
    have hCount := h.rerouted.instCount hProgress.consistent hPending.cell
      hPending.operand h.chain.ne_nil
    have hBefore := hProgress.instCount
    simp only [Stats.merge]
    omega

/-- A length that is no machine word is dealt with by leaving it. -/
theorem Progress.keep (hProgress : Progress s symbol f done p)
    (hPending : Pending s f done p site c d v) (hRole : site.role = .length) {ty : Ty}
    (hTy : f.typeOf v = .ok ty) (hOther : ty ≠ .i64) : Progress s symbol f (done ++ [site]) p where
  consistent := hProgress.consistent
  keeps := hProgress.keeps
  blocks := hProgress.blocks
  sound := hPending.takes.sound_append hProgress.sound
  old id e he := by
    obtain ⟨e', he', hCarried | hDropped⟩ := hProgress.old id e he
    · refine ⟨e', he', .inl ⟨hCarried.live, hCarried.length, fun position w hw => ?_⟩⟩
      by_cases hHere : site.id = id ∧ site.position = position
      · obtain ⟨rfl, rfl⟩ := hHere
        obtain rfl : e = c := by simpa [hPending.takes.cell] using he.symm
        obtain rfl : e' = d := by simpa [hPending.cell] using he'.symm
        obtain rfl : w = v := by
          simpa [Func.operand_of_accessOperand? hPending.takes.operand] using hw.symm
        refine ⟨w, hPending.operand, .kept ?_ hTy hOther⟩
        rw [← hRole]
        simp
      · obtain ⟨u, hu, hBecame⟩ := hCarried.operands position w hw
        refine ⟨u, hu, hBecame.mono ⟨fun _ hBase => hBase, fun _ _ _ hCell => hCell⟩ fun role => ?_⟩
        have hNe : (⟨id, position, role⟩ : Site) ≠ site := fun hEq =>
          hHere ⟨(congrArg Site.id hEq).symm, (congrArg Site.position hEq).symm⟩
        simp [hNe]
    · obtain ⟨other, hMem, hRest⟩ := hDropped.folded
      exact ⟨e', he', .inr ⟨hDropped.live, hDropped.emptied, hDropped.unreferenced, other,
        List.mem_append_left _ hMem, hRest⟩⟩
  fresh id hFresh hId := by
    refine (hProgress.fresh id hFresh hId).imp_right ?_
    rintro ⟨other, hMem, hRest⟩
    exact ⟨other, List.mem_append_left _ hMem, hRest⟩
  base := hProgress.base
  baseLoads := hProgress.baseLoads
  addresses := by
    rw [List.countP_append, ← hProgress.addresses]
    simp [hRole]
  instCount := hProgress.instCount

end Turn

end FaultIsolation
