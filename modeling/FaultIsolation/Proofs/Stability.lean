import FaultIsolation.Proofs.Layout
import FaultIsolation.Proofs.History

/-!
The layout under edits. An edit puts one new number into the order of one block, takes one out, or
leaves every order as it is, so the instructions that stand before and after any edits stand in the
same order. Numbers are handed out in sequence: none is given twice, and one that was taken out
stays out.
-/
namespace FaultIsolation

namespace Func

def perform (f : Func) : Edit → Except Fault (Func × Option InstId)
  | .addBlock name => .ok (f.addBlock name, none)
  | .append block inst => (f.append block inst).map fun (g, id) => (g, some id)
  | .prepend block inst => (f.prepend block inst).map fun (g, id) => (g, some id)
  | .insertBefore anchor inst => (f.insertBefore anchor inst).map fun (g, id) => (g, some id)
  | .setOperand id position value => (f.setOperand id position value).map fun g => (g, none)
  | .remove id => (f.remove id).map fun g => (g, none)

def performAll (f : Func) : List Edit → Except Fault (Func × List InstId)
  | [] => .ok (f, [])
  | e :: rest => do
    let (g, new) ← f.perform e
    let (h, handles) ← g.performAll rest
    return (h, new.toList ++ handles)

def Reorders (f g : Func) (block : BlockId) (before after : List InstId) : Prop :=
  ∃ name, f.blocks[block]? = some ⟨name, before⟩ ∧ g.blocks = f.blocks.set block ⟨name, after⟩

/-- Where an insertion puts a new number: the block, and the order there before and after. -/
inductive Places (f : Func) (new : InstId) : Edit → BlockId → List InstId → List InstId → Prop where
  | append {block : BlockId} {inst : Instruction} {order : List InstId} :
      Places f new (.append block inst) block order (order ++ [new])
  | prepend {block : BlockId} {inst : Instruction} {order : List InstId} :
      Places f new (.prepend block inst) block order (new :: order)
  /-- The anchor stands in its block, once, and the new number goes right before it. -/
  | before {anchor : InstId} {inst : Instruction} {node : Node} {front back : List InstId}
      (node_eq : f.node anchor = .ok node) (live : node.live = true)
      (once : anchor ∉ front ++ back) :
      Places f new (.insertBefore anchor inst) node.block (front ++ anchor :: back)
        (front ++ new :: anchor :: back)
  /-- The anchor was removed, and the new number goes to the end of the block it was in. -/
  | atEnd {anchor : InstId} {inst : Instruction} {node : Node} {order : List InstId}
      (node_eq : f.node anchor = .ok node) (removed : node.live = false) :
      Places f new (.insertBefore anchor inst) node.block order (order ++ [new])

/-- What an edit that goes through does to the numbers and to their order. -/
inductive Performed (f : Func) (e : Edit) (g : Func) : Option InstId → Prop where
  /-- It puts in the next number. -/
  | insert {block : BlockId} {before after : List InstId}
      (length : g.cells.length = f.cells.length + 1)
      (places : Places f f.cells.length e block before after)
      (reorders : f.Reorders g block before after) : Performed f e g (some f.cells.length)
  /-- It gives no number, and at most takes one out of its place. -/
  | keep (length : g.cells.length = f.cells.length) (sublist : g.layout.Sublist f.layout) :
      Performed f e g none

/-- Wherever an instruction is put, the others stay in order. -/
theorem Places.sublist {f : Func} {new : InstId} {e : Edit} {block : BlockId}
    {before after : List InstId} (h : Places f new e block before after) :
    before.Sublist after := by
  cases h with
  | append => exact List.sublist_append_left _ _
  | prepend => exact List.sublist_cons_self _ _
  | before node_eq live once => exact (List.sublist_cons_self _ _).append_left _
  | atEnd node_eq removed => exact List.sublist_append_left _ _

/-- If the order of one block only grows, so does the layout. -/
theorem Reorders.layout_sublist {f g : Func} {block : BlockId} {before after : List InstId}
    (h : f.Reorders g block before after) (hSublist : before.Sublist after) :
    f.layout.Sublist g.layout := by
  obtain ⟨name, hBlock, hBlocks⟩ := h
  have hModify : g.blocks = f.blocks.modify block fun b => { b with insts := after } := by
    rw [hBlocks, List.modify_eq_set_getElem?, hBlock]
    rfl
  obtain ⟨front, back, hOld, hNew⟩ := @layout_modify f g block _ (fun _ => after) hBlock hModify
  rw [hOld, hNew]
  exact (hSublist.append_left front).append_right back

/-- Every insertion, with the place that it chooses in its block. -/
theorem enter_performed {f g : Func} {e : Edit} {block : BlockId} {inst : Instruction}
    {place : InstId → List InstId → List InstId} {new : InstId}
    (h : f.enter block inst place = .ok (g, new))
    (hPlaces : ∀ b, f.blocks[block]? = some b → Places f f.cells.length e block b.insts
      (place f.cells.length b.insts)) : Performed f e g (some new) := by
  obtain ⟨_, hBlock, rfl, hInserted⟩ := enter_ok h
  have hOrder := List.getElem?_eq_getElem hBlock
  refine .insert (by simp [hInserted.cells]) (hPlaces _ hOrder) ⟨f.blocks[block].name, hOrder, ?_⟩
  rw [hInserted.blocks, List.modify_eq_set_getElem?, hOrder]
  rfl

/-- The search for an anchor finds it if it stands in its block, where it stands once, and only
then. -/
theorem places_spliceBefore {f : Func} (hf : f.Consistent) {anchor new : InstId} {c : Cell}
    {b : Block} (hc : f.cells[anchor]? = some c) (hb : f.blocks[c.block]? = some b)
    (inst : Instruction) :
    Places f new (.insertBefore anchor inst) c.block b.insts (spliceBefore anchor new b.insts) := by
  have hNode := node_of_cell hc
  have hMem := hf.placed c.block b hb anchor
  cases hLive : c.live with
  | true =>
      obtain ⟨front, back, hOrder, hFront⟩ :=
        List.eq_append_cons_of_mem (hMem.mpr ⟨c, hc, hLive, rfl⟩)
      have hNodup := hf.nodup b (List.mem_of_getElem? hb)
      rw [hOrder] at hNodup ⊢
      rw [spliceBefore_append hFront]
      exact .before hNode hLive (List.nodup_cons.mp (List.nodup_middle.mp hNodup)).1
  | false =>
      have hAbsent : anchor ∉ b.insts := by
        rw [hMem]
        rintro ⟨d, hd, hAlive, _⟩
        obtain rfl := Option.some.inj (hc.symm.trans hd)
        rw [hLive] at hAlive
        cases hAlive
      rw [spliceBefore_of_not_mem hAbsent]
      exact .atEnd hNode hLive

/-- An edit that goes through does what it says, and says which number it gives. -/
theorem perform_spec {f g : Func} (hf : f.Consistent) {e : Edit} {new : Option InstId}
    (h : f.perform e = .ok (g, new)) : Applied f e g ∧ Performed f e g new := by
  cases e with
  | addBlock name =>
      obtain ⟨rfl, rfl⟩ := Prod.mk.inj (Except.ok.inj h)
      exact ⟨.addBlock name, .keep rfl (by simp [layout, addBlock])⟩
  | append block inst =>
      obtain ⟨⟨g, id⟩, hAppend, ⟨⟩⟩ := map_eq_ok_iff.mp h
      refine ⟨applied_of_apply hf (map_eq_ok_iff.mpr ⟨_, hAppend, rfl⟩), ?_⟩
      rw [append_eq_enter] at hAppend
      exact enter_performed hAppend fun _ _ => .append
  | prepend block inst =>
      obtain ⟨⟨g, id⟩, hPrepend, ⟨⟩⟩ := map_eq_ok_iff.mp h
      refine ⟨applied_of_apply hf (map_eq_ok_iff.mpr ⟨_, hPrepend, rfl⟩), ?_⟩
      rw [prepend_eq_enter] at hPrepend
      exact enter_performed hPrepend fun _ _ => .prepend
  | insertBefore anchor inst =>
      obtain ⟨⟨g, id⟩, hInsert, ⟨⟩⟩ := map_eq_ok_iff.mp h
      refine ⟨applied_of_apply hf (map_eq_ok_iff.mpr ⟨_, hInsert, rfl⟩), ?_⟩
      obtain ⟨c, hc⟩ := insertBefore_ok hInsert
      rw [insertBefore_eq_enter hc] at hInsert
      exact enter_performed hInsert fun b hb => places_spliceBefore hf hc hb inst
  | setOperand id position value =>
      obtain ⟨g, hSet, ⟨⟩⟩ := map_eq_ok_iff.mp h
      have hApplied : Applied f (.setOperand id position value) g := applied_of_apply hf hSet
      refine ⟨hApplied, ?_⟩
      cases hApplied with
      | insert new => cases new
      | replace cell operand within replaced =>
          exact .keep (by simp [replaced.cells]) (replaced.layout ▸ .refl _)
  | remove id =>
      obtain ⟨g, hRemove, ⟨⟩⟩ := map_eq_ok_iff.mp h
      have hApplied : Applied f (.remove id) g := applied_of_apply hf hRemove
      refine ⟨hApplied, ?_⟩
      cases hApplied with
      | insert new => cases new
      | remove cell live unused removed =>
          exact .keep (by simp [removed.cells]) (removed.layout_sublist hf cell)

/-- What was removed does not come back. -/
theorem Applied.isLive_eq_false {f g : Func} {e : Edit} (h : Applied f e g) {id : InstId}
    (hGone : f.isLive id = .ok false) : g.isLive id = .ok false := by
  cases h with
  | addBlock name => exact hGone
  | insert new within block_lt perm inserted => exact inserted.keeps.isLive_eq_false hGone
  | replace cell operand within replaced => exact (replaced.keeps cell).isLive_eq_false hGone
  | remove cell live unused removed => exact (removed.keeps cell).isLive_eq_false hGone

/-- A later state of a function, with the numbers handed out since. -/
structure Outlives (f : Func) (handles : List InstId) (g : Func) : Prop where
  consistent : g.Consistent
  /-- The numbers follow on those in use before. -/
  handles_eq : handles = List.range' f.cells.length handles.length
  length : g.cells.length = f.cells.length + handles.length
  gone : ∀ id, f.isLive id = .ok false → g.isLive id = .ok false
  order : g.layout.filter (· ∈ f.layout) = f.layout.filter (· ∈ g.layout)

theorem Outlives.refl {f : Func} (hf : f.Consistent) : f.Outlives [] f :=
  ⟨hf, rfl, rfl, fun _ => id, rfl⟩

/-- A single edit keeps the order of what it does not remove. -/
theorem Outlives.of_perform {f g : Func} (hf : f.Consistent) {e : Edit} {new : Option InstId}
    (h : f.perform e = .ok (g, new)) : f.Outlives new.toList g := by
  obtain ⟨hApplied, hPerformed⟩ := perform_spec hf h
  have hg := hApplied.consistent hf
  refine ⟨hg, ?_, ?_, fun id => hApplied.isLive_eq_false, ?_⟩
  · cases hPerformed <;> rfl
  · cases hPerformed with
    | insert length places reorders => exact length
    | keep length sublist => exact length
  · -- Either order is part of the other, so both filters leave the shorter one.
    cases hPerformed with
    | insert length places reorders =>
        have hSublist := reorders.layout_sublist places.sublist
        rw [← eq_filter_of_sublist hSublist hg.nodup_layout]
        exact (List.filter_eq_self.mpr fun id hId => by simpa using hSublist.subset hId).symm
    | keep length sublist =>
        rw [← eq_filter_of_sublist sublist hf.nodup_layout]
        exact List.filter_eq_self.mpr fun id hId => by simpa using sublist.subset hId

/-- What stands now and stood at first stood all the time. -/
theorem Outlives.mem_layout {f g h : Func} {handles more : List InstId}
    (first : f.Outlives handles g) (second : g.Outlives more h) (hf : f.Consistent) {id : InstId}
    (hOld : id ∈ f.layout) (hNow : id ∈ h.layout) : id ∈ g.layout := by
  obtain ⟨c, hc, _⟩ := hf.mem_layout_iff.mp hOld
  obtain ⟨d, hd⟩ := exists_cell (f := g) (Nat.lt_of_lt_of_le (lt_of_cell hc)
    (by rw [first.length]; omega))
  refine first.consistent.mem_layout_iff.mpr ⟨d, hd, ?_⟩
  cases hLive : d.live with
  | true => rfl
  | false =>
      have hGone := second.gone id (by rw [isLive_of_cell hd, hLive])
      rw [isLive_iff.mpr (second.consistent.mem_layout_iff.mp hNow)] at hGone
      cases hGone

/-- What two series of edits leave in order, both together leave in order. -/
theorem Outlives.trans {f g h : Func} {handles more : List InstId} (first : f.Outlives handles g)
    (second : g.Outlives more h) (hf : f.Consistent) : f.Outlives (handles ++ more) h := by
  refine ⟨second.consistent, ?_, ?_, fun id hGone => second.gone id (first.gone id hGone), ?_⟩
  · rw [List.length_append, ← List.range'_append_1, ← first.handles_eq, ← first.length,
      ← second.handles_eq]
  · rw [second.length, first.length, List.length_append, Nat.add_assoc]
  · calc h.layout.filter (· ∈ f.layout)
        = (h.layout.filter (· ∈ g.layout)).filter (· ∈ f.layout) := by
          rw [List.filter_filter]
          refine List.filter_congr fun id hNow => ?_
          have hMiddle := fun hOld => first.mem_layout second hf hOld hNow
          simpa using hMiddle
      _ = (g.layout.filter (· ∈ f.layout)).filter (· ∈ h.layout) := by
          rw [second.order, List.filter_filter, List.filter_filter]
          exact List.filter_congr fun id _ => Bool.and_comm _ _
      _ = f.layout.filter (· ∈ h.layout) := by
          rw [first.order, List.filter_filter]
          refine List.filter_congr fun id hOld => ?_
          have hMiddle := first.mem_layout second hf hOld
          simpa using hMiddle

/-- So does every series of edits. -/
theorem Outlives.of_performAll {f g : Func} (hf : f.Consistent) {edits : List Edit}
    {handles : List InstId} (h : f.performAll edits = .ok (g, handles)) : f.Outlives handles g := by
  induction edits generalizing f handles with
  | nil =>
      obtain ⟨rfl, rfl⟩ := Prod.mk.inj (Except.ok.inj h)
      exact .refl hf
  | cons e rest ih =>
      obtain ⟨⟨k, new⟩, hFirst, h⟩ := bind_eq_ok_iff.mp h
      obtain ⟨⟨g', more⟩, hRest, ⟨⟩⟩ := bind_eq_ok_iff.mp h
      have hHead := Outlives.of_perform hf hFirst
      exact hHead.trans (ih hHead.consistent hRest) hf

/-- What was not removed is what stands in the layout. -/
theorem Consistent.isLive_iff_mem {f : Func} (hf : f.Consistent) {id : InstId} :
    f.isLive id = .ok true ↔ id ∈ f.layout := by
  rw [isLive_iff, hf.mem_layout_iff]

/-- The layouts before and after agree on what stands in both. -/
theorem Outlives.filter_live {f g : Func} {handles : List InstId} (h : f.Outlives handles g)
    (hf : f.Consistent) :
    (g.layout.filter fun id => f.isLive id = .ok true ∧ g.isLive id = .ok true) =
      f.layout.filter fun id => f.isLive id = .ok true ∧ g.isLive id = .ok true := by
  calc (g.layout.filter fun id => f.isLive id = .ok true ∧ g.isLive id = .ok true)
      = g.layout.filter (· ∈ f.layout) :=
        List.filter_congr fun id hId =>
          by simp [hf.isLive_iff_mem, h.consistent.isLive_iff_mem, hId]
    _ = f.layout.filter (· ∈ g.layout) := h.order
    _ = f.layout.filter fun id => f.isLive id = .ok true ∧ g.isLive id = .ok true :=
        List.filter_congr fun id hId =>
          by simp [hf.isLive_iff_mem, h.consistent.isLive_iff_mem, hId]

end Func

/-- After any edits of an empty function and any edits after these, what still stands of the layout
between them stands in the order it had there. All numbers handed out are different, and what was
removed by then stays removed. An insertion at that point gives a number that was never given: it
goes right before an anchor that stands, to the end of the block of an anchor that was removed, or
to the head or the end of the block it names, and nothing else moves. -/
theorem layout_stable_under_edits {name : String} {params : List Ty} {result : Ty}
    {edits further : List Func.Edit} {f g : Func} {handles more : List InstId}
    (hBefore : Func.performAll { name, params, result } edits = .ok (f, handles))
    (hAfter : f.performAll further = .ok (g, more)) :
    (g.layout.filter fun id => f.isLive id = .ok true ∧ g.isLive id = .ok true) =
        (f.layout.filter fun id => f.isLive id = .ok true ∧ g.isLive id = .ok true) ∧
      (handles ++ more).Nodup ∧
      (∀ id, f.isLive id = .ok false → g.isLive id = .ok false) ∧
      ∀ e h new, f.perform e = .ok (h, some new) → new ∉ handles ∧
        ∃ block before after, f.Places new e block before after ∧
          f.Reorders h block before after := by
  have hEmpty := Func.empty_consistent name params result
  have hFirst := Func.Outlives.of_performAll hEmpty hBefore
  have hf := hFirst.consistent
  have hSecond := Func.Outlives.of_performAll hf hAfter
  refine ⟨hSecond.filter_live hf, ?_, hSecond.gone, fun e h new hPerform => ?_⟩
  · rw [(hFirst.trans hSecond hEmpty).handles_eq]
    exact List.nodup_range'
  · obtain ⟨_, hPerformed⟩ := Func.perform_spec hf hPerform
    cases hPerformed with
    | insert length places reorders =>
        refine ⟨fun hMem => ?_, _, _, _, places, reorders⟩
        rw [hFirst.handles_eq, List.mem_range'_1, ← hFirst.length] at hMem
        exact absurd hMem.2 (Nat.lt_irrefl _)

def addThenRemove : List Func.Edit :=
  [ .addBlock "entry",
    .append 0 { opcode := .binary .add, operands := [.arg 0, .ofWord 32 1], ty := .i32 },
    .append 0 { opcode := .binary .add, operands := [.arg 0, .ofWord 32 2], ty := .i32 },
    .append 0 { opcode := .binary .add, operands := [.arg 0, .ofWord 32 3], ty := .i32 },
    .append 0 { opcode := .ret, operands := [], ty := .void },
    .remove 0 ]

def insertThenRemove : List Func.Edit :=
  [ .insertBefore 3 { opcode := .cast .zext, operands := [.inst 1], ty := .i64 },
    .insertBefore 0 { opcode := .unreachable, operands := [], ty := .void },
    .prepend 0 { opcode := .binary .add, operands := [.arg 0, .ofWord 32 4], ty := .i32 },
    .setOperand 4 0 (.inst 6),
    .remove 1 ]

theorem layout_stable_under_edits_insertThenRemove :
    ∃ f g h, Func.performAll { name := "f", params := [.i32], result := .void } addThenRemove =
      .ok (f, [0, 1, 2, 3]) ∧ f.performAll insertThenRemove = .ok (g, [4, 5, 6]) ∧
      f.layout = [1, 2, 3] ∧ g.layout = [6, 2, 4, 3, 5] ∧
      (g.layout.filter fun id => f.isLive id = .ok true ∧ g.isLive id = .ok true) =
        (f.layout.filter fun id => f.isLive id = .ok true ∧ g.isLive id = .ok true) ∧
      ([0, 1, 2, 3] ++ [4, 5, 6]).Nodup ∧ f.isLive 0 = .ok false ∧ g.isLive 0 = .ok false ∧
      f.perform (.insertBefore 0 default) = .ok (h, some 4) ∧ 4 ∉ [0, 1, 2, 3] ∧
      ∃ block before after, f.Places 4 (.insertBefore 0 default) block before after ∧
        f.Reorders h block before after := by
  obtain ⟨f, g, h, hBefore, hAfter, hOld, hNew, hRemoved, hPerform⟩ : ∃ f g h,
      Func.performAll { name := "f", params := [.i32], result := .void } addThenRemove =
      .ok (f, [0, 1, 2, 3]) ∧ f.performAll insertThenRemove = .ok (g, [4, 5, 6]) ∧
      f.layout = [1, 2, 3] ∧ g.layout = [6, 2, 4, 3, 5] ∧ f.isLive 0 = .ok false ∧
      f.perform (.insertBefore 0 default) = .ok (h, some 4) :=
    ⟨_, _, _, rfl, rfl, rfl, rfl, rfl, rfl⟩
  obtain ⟨hOrder, hNodup, hGone, hPlaces⟩ := layout_stable_under_edits hBefore hAfter
  exact ⟨f, g, h, hBefore, hAfter, hOld, hNew, hOrder, hNodup, hRemoved, hGone 0 hRemoved, hPerform,
    hPlaces _ h 4 hPerform⟩

end FaultIsolation
