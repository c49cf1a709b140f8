import FaultIsolation.Proofs.Step

/-!
What edits do to the layout. New instructions go in at one place, a removed one drops out, and
everything else stays in the order it was in.
-/
namespace FaultIsolation

/-- Without repetition, what stands before something stands before all that follows it. -/
theorem pair_sublist_trans {α : Type} {xs : List α} {a b c : α} (hNodup : xs.Nodup)
    (hLeft : [a, b].Sublist xs) (hRight : [b, c].Sublist xs) : [a, c].Sublist xs := by
  induction xs with
  | nil => cases hLeft
  | cons x rest ih =>
      rw [List.nodup_cons] at hNodup
      cases hRight with
      | cons_cons _ hc =>
          cases hLeft with
          | cons _ hLeft => exact absurd (hLeft.subset (by simp)) hNodup.1
          | cons_cons _ hb => exact absurd (hb.subset (by simp)) hNodup.1
      | cons _ hRight =>
          cases hLeft with
          | cons _ hLeft => exact (ih hNodup.2 hLeft hRight).cons x
          | cons_cons _ hb => exact ((List.sublist_cons_self b [c]).trans hRight).cons_cons a

theorem pair_sublist_append {α : Type} {xs ys : List α} {a b : α} (ha : a ∈ xs) (hb : b ∈ ys) :
    [a, b].Sublist (xs ++ ys) :=
  (List.singleton_sublist.mpr ha).append (List.singleton_sublist.mpr hb)

theorem pair_sublist_range' {start count k i : Nat} (hk : k < i) (hi : i < count) :
    [start + k, start + i].Sublist (List.range' start count) := by
  have hSplit : List.range' start count = List.range' start i ++ List.range' (start + i)
      (count - i) := by
    rw [List.range'_append_1, Nat.add_sub_cancel' (Nat.le_of_lt hi)]
  rw [hSplit]
  apply pair_sublist_append
  · simp [List.mem_range'_1, hk]
  · simp [List.mem_range'_1, Nat.sub_pos_of_lt hi]

/-- Of a list without repetition, a part is known from its members. -/
theorem eq_filter_of_sublist {α : Type} [DecidableEq α] {xs ys : List α} (h : xs.Sublist ys)
    (hNodup : ys.Nodup) : xs = ys.filter (· ∈ xs) := by
  have hSub : xs.Sublist (ys.filter (· ∈ xs)) := by
    have hFilter := h.filter (· ∈ xs)
    rwa [List.filter_eq_self.mpr (by simp)] at hFilter
  have hSubset : ys.filter (· ∈ xs) ⊆ xs := fun x hx => by simpa using (List.mem_filter.mp hx).2
  exact hSub.eq_of_length_le (List.subperm_of_subset (hNodup.filter _) hSubset).length_le

namespace Func

/-- The first instruction of the function is the first of the layout. -/
theorem head?_layout {f : Func} {id : InstId} (h : f.entryHead? = some id) :
    f.layout.head? = some id := by
  obtain ⟨b, hb, hHead⟩ := Option.bind_eq_some_iff.mp h
  obtain ⟨rest, hBlocks⟩ := List.head?_eq_some_iff.mp hb
  obtain ⟨tail, hInsts⟩ := List.head?_eq_some_iff.mp hHead
  rw [layout, hBlocks, List.flatMap_cons, hInsts]
  rfl

/-- A change of the order of one block changes the layout at that block. -/
theorem layout_modify {f g : Func} {block : BlockId} {b : Block}
    {change : List InstId → List InstId} (hb : f.blocks[block]? = some b)
    (hBlocks : g.blocks = f.blocks.modify block fun b => { b with insts := change b.insts }) :
    ∃ front back, f.layout = front ++ b.insts ++ back ∧
      g.layout = front ++ change b.insts ++ back := by
  obtain ⟨hLt, rfl⟩ := List.getElem?_eq_some_iff.mp hb
  obtain ⟨before, b', after, hOld, hLength, hNew⟩ :=
    List.exists_of_modify (fun b : Block => { b with insts := change b.insts }) hLt
  obtain rfl : f.blocks[block] = b' := by
    subst hLength
    simp [hOld]
  refine ⟨before.flatMap Block.insts, after.flatMap Block.insts, ?_, ?_⟩
  · rw [layout]
    conv_lhs => rw [hOld]
    simp
  · rw [layout, hBlocks, hNew]
    simp

/-- Putting elements before another one puts them right before it, in order. -/
theorem spliceAll_append {anchor : InstId} {news front back : List InstId} (hFront : anchor ∉ front)
    (hNews : anchor ∉ news) :
    spliceAll anchor news (front ++ anchor :: back) = front ++ news ++ anchor :: back := by
  induction news generalizing front with
  | nil => simp [spliceAll]
  | cons new rest ih =>
      rw [List.mem_cons, not_or] at hNews
      have hFront' : anchor ∉ front ++ [new] := by simp [hFront, hNews.1]
      have hRest := ih hFront' hNews.2
      rw [spliceAll, List.foldl_cons, spliceBefore_append hFront]
      simpa [spliceAll] using hRest

/-- What goes in at the head of the function comes first. -/
theorem Inserted.layout_head {f g : Func} {inst : Instruction} {new : InstId}
    (h : Inserted f 0 inst (new :: ·) g) (hBody : 0 < f.blocks.length) :
    g.layout = new :: f.layout := by
  obtain ⟨b, rest, hBlocks⟩ := List.exists_cons_of_length_pos hBody
  rw [layout, layout, h.blocks, hBlocks]
  rfl

/-- A chain stands right before its anchor. -/
theorem Emitted.layout {f g : Func} {anchor : InstId} {c : Cell} {insts : List Instruction}
    (h : Emitted f c.block anchor insts g) (hf : f.Consistent) (hc : f.cells[anchor]? = some c)
    (hLive : c.live = true) :
    ∃ front back, f.layout = front ++ anchor :: back ∧
      g.layout = front ++ List.range' f.cells.length insts.length ++ anchor :: back := by
  have hBlock := List.getElem?_eq_getElem (hf.housed c (List.mem_of_getElem? hc))
  have hMem := (hf.placed _ _ hBlock anchor).mpr ⟨c, hc, hLive, rfl⟩
  obtain ⟨left, right, hInsts, hLeft⟩ := List.eq_append_cons_of_mem hMem
  obtain ⟨front, back, hOld, hNew⟩ := layout_modify hBlock h.blocks
  have hNews : anchor ∉ List.range' f.cells.length insts.length := fun hRange =>
    absurd (lt_of_cell hc) (Nat.not_lt.mpr (List.mem_range'_1.mp hRange).1)
  refine ⟨front ++ left, right ++ back, ?_, ?_⟩
  · rw [hOld, hInsts]
    simp
  · rw [hNew, hInsts, spliceAll_append hLeft hNews]
    simp

/-- Replacing an operand leaves the layout alone. -/
theorem Replaced.layout {f g : Func} {id : InstId} {c : Cell} {position : Nat} {old value : Value}
    (h : Replaced f id c position old value g) : g.layout = f.layout := by
  rw [Func.layout, Func.layout, h.blocks]

/-- A removal leaves the others in order. -/
theorem Removed.layout_sublist {f g : Func} {id : InstId} {c : Cell} (h : Removed f id c g)
    (hf : f.Consistent) (hc : f.cells[id]? = some c) : g.layout.Sublist f.layout := by
  have hBlock := List.getElem?_eq_getElem (hf.housed c (List.mem_of_getElem? hc))
  obtain ⟨front, back, hOld, hNew⟩ := layout_modify hBlock h.blocks
  rw [hOld, hNew]
  exact (List.filter_sublist.append_left front).append_right back

/-- Removing instructions keeps the others in order. -/
theorem Sweeps.layout_sublist {f g : Func} {ids : List InstId} {removed : Nat}
    (h : Sweeps ids f removed g) (hf : f.Consistent) : g.layout.Sublist f.layout := by
  induction h with
  | nil f => exact .refl _
  | cons head tail ih =>
      refine (ih (head.consistent hf)).trans ?_
      cases head with
      | gone cell live unused removed => exact removed.layout_sublist hf cell
      | kept cell needed => exact .refl _

/-- In every block, removals leave the others in order. -/
theorem Sweeps.order_sublist {f g : Func} {ids : List InstId} {removed : Nat}
    (h : Sweeps ids f removed g) {block : BlockId} {b b' : Block} (hb : f.blocks[block]? = some b)
    (hb' : g.blocks[block]? = some b') : b'.insts.Sublist b.insts := by
  induction h generalizing b with
  | nil f =>
      obtain rfl := Option.some.inj (hb.symm.trans hb')
      exact .refl _
  | @cons id ids f k g first rest head tail ih =>
      cases head with
      | kept cell needed => exact ih hb hb'
      | gone cell live unused removed =>
          obtain ⟨e, he⟩ : ∃ e, k.blocks[block]? = some e := by
            rw [removed.blocks, List.getElem?_modify, hb]
            exact ⟨_, rfl⟩
          refine (ih he hb').trans ?_
          rw [removed.blocks] at he
          rcases block_of_modify he with ⟨_, e', he', rfl⟩ | ⟨_, he'⟩
          · obtain rfl := Option.some.inj (hb.symm.trans he')
            exact List.filter_sublist
          · obtain rfl := Option.some.inj (hb.symm.trans he')
            exact .refl _

/-- Removing instructions takes them out of their blocks and does nothing else to the order. -/
theorem Sweeps.order {f g : Func} {ids : List InstId} {removed : Nat} (h : Sweeps ids f removed g)
    (hf : f.Consistent) {block : BlockId} {b b' : Block} (hb : f.blocks[block]? = some b)
    (hb' : g.blocks[block]? = some b') : b'.insts = b.insts.filter (· ∈ g.layout) := by
  have hg := h.consistent hf
  rw [eq_filter_of_sublist (h.order_sublist hb hb') (hf.nodup b (List.mem_of_getElem? hb))]
  refine List.filter_congr fun id hId => decide_eq_decide.mpr ⟨fun hMem => ?_, fun hMem => ?_⟩
  · exact List.mem_flatMap.mpr ⟨b', List.mem_of_getElem? hb', hMem⟩
  · -- An instruction that is still there is in the block it was put in.
    obtain ⟨c, hc, _, hHome⟩ := (hf.placed block b hb id).mp hId
    obtain ⟨d, hd, hLive⟩ := hg.mem_layout_iff.mp hMem
    obtain ⟨d', hd', _, _, _, hBlock, _⟩ := h.keeps.cells id c hc
    obtain rfl := Option.some.inj (hd.symm.trans hd')
    exact (hg.placed block b' hb' id).mpr ⟨d, hd, hLive, hBlock.trans hHome⟩

/-- An order with new instructions right before each of the others. -/
def interleave (news : InstId → List InstId) (order : List InstId) : List InstId :=
  order.flatMap fun id => news id ++ [id]

theorem interleave_congr {news more : InstId → List InstId} {order : List InstId}
    (h : ∀ id ∈ order, more id = news id) : interleave more order = interleave news order := by
  rw [interleave, interleave, List.flatMap_def, List.flatMap_def]
  congr 1
  exact List.map_congr_left fun id hId => by rw [h id hId]

theorem interleave_of_nil {news : InstId → List InstId} {order : List InstId}
    (h : ∀ id ∈ order, news id = []) : interleave news order = order := by
  have hSame : interleave news order = interleave (fun _ => []) order := interleave_congr h
  rw [hSame]
  simp [interleave]

/-- What goes in before an anchor goes in after what stands before it already. -/
theorem spliceAll_interleave {news more : InstId → List InstId} {anchor : InstId}
    {chain front order : List InstId} (hNodup : order.Nodup) (hMem : anchor ∈ order)
    (hFront : anchor ∉ front) (hNews : ∀ id ∈ order, anchor ∉ news id) (hChain : anchor ∉ chain)
    (hAnchor : more anchor = news anchor ++ chain)
    (hOther : ∀ id, id ≠ anchor → more id = news id) :
    spliceAll anchor chain (front ++ interleave news order) = front ++ interleave more order := by
  obtain ⟨left, right, rfl, hLeft⟩ := List.eq_append_cons_of_mem hMem
  have hRight : anchor ∉ right := fun hMem => (List.nodup_cons.mp (List.nodup_middle.mp hNodup)).1
    (by simp [hMem])
  have hBefore : anchor ∉ front ++ interleave news left ++ news anchor := by
    simp only [interleave, List.mem_append, List.mem_flatMap, List.mem_singleton, not_or]
    refine ⟨⟨hFront, ?_⟩, hNews anchor hMem⟩
    rintro ⟨id, hId, hNew | rfl⟩
    · exact hNews id (by simp [hId]) hNew
    · exact hLeft hId
  have hSame : ∀ part : List InstId, anchor ∉ part → interleave more part = interleave news part :=
    fun part hPart => interleave_congr fun id hId => hOther id fun hEq => hPart (hEq ▸ hId)
  have hSplit : ∀ news, interleave news (left ++ anchor :: right) =
      interleave news left ++ news anchor ++ anchor :: interleave news right :=
    fun news => by simp [interleave]
  rw [hSplit, hSplit, hSame left hLeft, hSame right hRight, hAnchor]
  have hSplice : spliceAll anchor chain
      (front ++ interleave news left ++ news anchor ++ anchor :: interleave news right) =
      front ++ interleave news left ++ news anchor ++ chain ++ anchor :: interleave news right :=
    spliceAll_append hBefore hChain
  simpa using hSplice

/-- What is taken out of an order is taken out between the new instructions, if those before it are
none. -/
theorem filter_interleave {news : InstId → List InstId} {keep : InstId → Bool} {order : List InstId}
    (hNews : ∀ id ∈ order, ∀ new ∈ news id, keep new = true)
    (hGone : ∀ id ∈ order, keep id = false → news id = []) :
    (interleave news order).filter keep = interleave news (order.filter keep) := by
  induction order with
  | nil => rfl
  | cons id rest ih =>
      have hRest : (interleave news rest).filter keep = interleave news (rest.filter keep) :=
        ih (fun id hId => hNews id (List.mem_cons_of_mem _ hId)) fun id hId =>
          hGone id (List.mem_cons_of_mem _ hId)
      have hHead : (news id).filter keep = news id :=
        List.filter_eq_self.mpr (hNews id List.mem_cons_self)
      have hSplit : ∀ rest, interleave news (id :: rest) = news id ++ id :: interleave news rest :=
        fun rest => by simp [interleave]
      rw [hSplit, List.filter_append, hHead, List.filter_cons, List.filter_cons, hRest]
      cases hKeep : keep id with
      | true => rw [if_pos rfl, if_pos rfl, hSplit]
      | false => rw [if_neg Bool.false_ne_true, if_neg Bool.false_ne_true,
          hGone id List.mem_cons_self hKeep]; rfl

end Func

end FaultIsolation
