import FaultIsolation.Region.Editing
import FaultIsolation.Proofs.History

/-!
A refusal leaves no trace. Where all goes well, work in place does the same as a pass whose steps
give a new state each. Where an instruction is refused, the work in place has done nothing to it
either: vetting only reads, and what has passed the vet is never refused later.
-/
namespace FaultIsolation

namespace Editing

variable {α β : Type}

section Bind

variable {work : Editing α} {next : α → Editing β} {p q : Pass} {a : α} {stop : Stop}

/-- Work that went through is followed by the next. -/
theorem bind_ok (h : work p = .ok a q) : (work >>= next) p = next a q := by
  simp only [bind, EStateM.bind, h]

/-- Work that stopped is followed by nothing. -/
theorem bind_stop (h : work p = .error stop q) : (work >>= next) p = .error stop q := by
  simp only [bind, EStateM.bind, h]

end Bind

section Agreement

variable {p q r : Pass} {g : Func} {v : Value} {s : Sandbox} {id : InstId} {position : Nat}

theorem ask_ok {question : Func → Except Stop α} {a : α} (h : question p.func = .ok a) :
    ask question p = .ok a p := by
  simp only [ask, h]

/-- A change that goes through changes the function for good. -/
theorem edit_ok {change : Func → Except Stop (Func × α)} {a : α} (h : change p.func = .ok (g, a)) :
    edit change p = .ok a { p with func := g } := by
  simp only [edit, h]

theorem emit_ok {f : Func} {anchor : InstId} {draft : Draft} {base : Option Value} {stats : Stats}
    (h : f.emitBefore anchor draft = .ok (g, v)) :
    emit anchor draft ⟨f, base, stats⟩ = .ok v ⟨g, base, stats⟩ :=
  edit_ok (by rw [h]; rfl)

theorem get_ok (p : Pass) : (get : Editing Pass) p = .ok p p := rfl

theorem tally_ok (counts : Stats) (p : Pass) : tally counts p = .ok () (p.tally counts) := rfl

/-- Counting around some work is taking over the function that the work leaves. -/
theorem counting_ok {work : Editing Value} (hWork : work p = .ok v { p with func := g })
    (hGrow : (liftM (p.grow g) : Except Stop Pass) = .ok q) : counting work p = .ok v q := by
  have hGrow := lift_eq_ok_iff.mp hGrow
  unfold Pass.grow at hGrow
  split at hGrow
  · cases hGrow
  · next hLe =>
      obtain rfl := Except.ok.inj hGrow
      rw [counting, bind_ok (get_ok p), bind_ok hWork, bind_ok (get_ok _)]
      simp only [if_neg hLe]
      rw [bind_ok (tally_ok _ _)]
      rfl

theorem emitRebased_ok {anchor : InstId} {base pointer : Value} {ty : Ty}
    (h : (liftM (p.func.emitRebased anchor base pointer ty) : Except Stop (Func × Value)) =
      .ok (g, v)) : emitRebased anchor base pointer ty p = .ok v { p with func := g } := by
  obtain ⟨⟨f₁, low⟩, h₁, h⟩ := bind_eq_ok_iff.mp (lift_eq_ok_iff.mp h)
  obtain ⟨⟨f₂, wide⟩, h₂, h⟩ := bind_eq_ok_iff.mp h
  obtain ⟨⟨f₃, sum⟩, h₃, h₄⟩ := bind_eq_ok_iff.mp h
  rw [emitRebased, bind_ok (emit_ok h₁), bind_ok (emit_ok h₂), bind_ok (emit_ok h₃)]
  exact emit_ok h₄

theorem emitFolded_ok {anchor : InstId} {base : Value} {address : Foldable} {ty : Ty}
    (h : (liftM (p.func.emitFolded anchor base address ty) : Except Stop (Func × Value)) =
      .ok (g, v)) : emitFolded anchor base address ty p = .ok v { p with func := g } := by
  obtain ⟨⟨f₁, wide⟩, h₁, h⟩ := bind_eq_ok_iff.mp (lift_eq_ok_iff.mp h)
  obtain ⟨⟨f₂, sum⟩, h₂, h⟩ := bind_eq_ok_iff.mp h
  obtain ⟨⟨f₃, beyond⟩, h₃, h₄⟩ := bind_eq_ok_iff.mp h
  rw [emitFolded, bind_ok (emit_ok h₁), bind_ok (emit_ok h₂), bind_ok (emit_ok h₃)]
  exact emit_ok h₄

theorem emitClipped_ok {anchor : InstId} {length : Value}
    (h : (liftM (p.func.emitClipped anchor length) : Except Stop (Func × Value)) = .ok (g, v)) :
    emitClipped anchor length p = .ok v { p with func := g } := by
  obtain ⟨⟨f₁, low⟩, h₁, h₂⟩ := bind_eq_ok_iff.mp (lift_eq_ok_iff.mp h)
  rw [emitClipped, bind_ok (emit_ok h₁)]
  exact emit_ok h₂

/-- The region base is brought in as it is by the pass. -/
theorem requireBase_ok {source : BaseSource} (h : p.requireBase source = .ok (q, v)) :
    requireBase source p = .ok v q := by
  cases hBase : p.base with
  | some known =>
      simp only [Pass.requireBase, hBase] at h
      cases h
      rw [requireBase, bind_ok (get_ok p), hBase]
      rfl
  | none =>
      simp only [Pass.requireBase, hBase] at h
      obtain ⟨⟨g, base⟩, hBring, h⟩ := bind_eq_ok_iff.mp h
      obtain ⟨grown, hGrow, h⟩ := bind_eq_ok_iff.mp h
      obtain ⟨rfl, _⟩ := Pass.grow_ok (lift_eq_ok_iff.mp hGrow)
      cases h
      rw [requireBase, bind_ok (get_ok p), hBase]
      simp only
      rw [bind_ok (counting_ok (edit_ok hBring) hGrow), bind_ok (get_ok grown)]
      rfl

theorem replace_ok {value : Value} (h : p.replace id position value = .ok q) :
    replace id position value p = .ok () q := by
  obtain ⟨g, hSet, h⟩ := bind_eq_ok_iff.mp h
  cases h
  exact edit_ok (by rw [lift_eq_ok_iff.mp hSet]; rfl)

theorem sweep_ok (h : p.sweep id = .ok q) : sweep id p = .ok () q := by
  obtain ⟨⟨g, removed⟩, hSwept, h⟩ := bind_eq_ok_iff.mp h
  cases h
  rw [sweep, bind_ok (edit_ok (a := removed) (by rw [lift_eq_ok_iff.mp hSwept]; rfl))]
  rfl

/-- An address is confined in place as it is by the pass. -/
theorem confineAddress_ok (h : p.confineAddress s id position = .ok q) :
    confineAddress s id position p = .ok () q := by
  obtain ⟨pointer, hPointer, h⟩ := bind_eq_ok_iff.mp h
  obtain ⟨ty, hTy, h⟩ := bind_eq_ok_iff.mp h
  obtain ⟨⟨opened, base⟩, hRequire, h⟩ := bind_eq_ok_iff.mp h
  obtain ⟨fold, hFold, h⟩ := bind_eq_ok_iff.mp h
  rw [confineAddress, bind_ok (ask_ok hPointer), bind_ok (ask_ok hTy),
    bind_ok (requireBase_ok hRequire), bind_ok (ask_ok hFold)]
  cases fold with
  | none =>
      obtain ⟨⟨g, confined⟩, hEmit, h⟩ := bind_eq_ok_iff.mp h
      obtain ⟨grown, hGrow, h⟩ := bind_eq_ok_iff.mp h
      obtain ⟨r, hReplace, h⟩ := bind_eq_ok_iff.mp h
      cases h
      simp only
      rw [bind_ok (counting_ok (emitRebased_ok hEmit) hGrow), bind_ok (replace_ok hReplace)]
      rfl
  | some address =>
      obtain ⟨⟨g, confined⟩, hEmit, h⟩ := bind_eq_ok_iff.mp h
      obtain ⟨grown, hGrow, h⟩ := bind_eq_ok_iff.mp h
      obtain ⟨r, hReplace, h⟩ := bind_eq_ok_iff.mp h
      obtain ⟨t, hSweep, h⟩ := bind_eq_ok_iff.mp h
      simp only
      rw [bind_ok (counting_ok (emitFolded_ok hEmit) hGrow), bind_ok (replace_ok hReplace),
        bind_ok (tally_ok _ r), bind_ok (sweep_ok hSweep)]
      exact sweep_ok h

theorem clipLength_ok (h : p.clipLength id position = .ok q) :
    clipLength id position p = .ok () q := by
  obtain ⟨length, hLength, h⟩ := bind_eq_ok_iff.mp h
  obtain ⟨ty, hTy, h⟩ := bind_eq_ok_iff.mp h
  rw [clipLength, bind_ok (ask_ok hLength), bind_ok (ask_ok hTy)]
  by_cases hWord : ty = .i64
  · rw [if_pos hWord] at h ⊢
    obtain ⟨⟨g, clipped⟩, hEmit, h⟩ := bind_eq_ok_iff.mp h
    obtain ⟨grown, hGrow, h⟩ := bind_eq_ok_iff.mp h
    obtain ⟨r, hReplace, h⟩ := bind_eq_ok_iff.mp h
    cases h
    rw [bind_ok (counting_ok (emitClipped_ok hEmit) hGrow), bind_ok (replace_ok hReplace)]
    rfl
  · rw [if_neg hWord] at h ⊢
    cases h
    rfl

/-- What goes through one after the other goes through in place. -/
theorem forM_ok {act : Pass → α → Except Stop Pass} {work : α → Editing Unit}
    (hEach : ∀ {p x q}, act p x = .ok q → work x p = .ok () q) {xs : List α}
    (h : xs.foldlM act p = .ok q) : (xs.forM work : Editing Unit) p = .ok () q := by
  induction xs generalizing p with
  | nil =>
      cases h
      rfl
  | cons x rest ih =>
      rw [List.foldlM_cons] at h
      obtain ⟨r, hr, hRest⟩ := bind_eq_ok_iff.mp h
      exact (bind_ok (hEach hr)).trans (ih hRest)

theorem confine_ok (h : p.confine s id = .ok q) : confine s id p = .ok () q := by
  obtain ⟨inst, hInst, h⟩ := bind_eq_ok_iff.mp h
  obtain ⟨r, hAddresses, hLength⟩ := bind_eq_ok_iff.mp h
  rw [confine, bind_ok (ask_ok hInst), bind_ok (forM_ok confineAddress_ok hAddresses)]
  exact forM_ok clipLength_ok hLength

/-- Where a step of the pass goes through, so does the step in place, and both leave the same. -/
theorem step_ok (h : p.step s id = .ok q) : step s id p = .ok () q := by
  obtain ⟨live, hLive, h⟩ := bind_eq_ok_iff.mp h
  rw [step, bind_ok (ask_ok hLive)]
  cases live with
  | false =>
      cases h
      rfl
  | true =>
      obtain ⟨_, hVet, h⟩ := bind_eq_ok_iff.mp h
      simp only [if_true]
      rw [bind_ok (ask_ok hVet)]
      exact confine_ok h

/-- The same holds of a whole walk. -/
theorem walk_ok {ids : List InstId} (h : Pass.walk s ids p = .ok (q, none)) :
    walk s ids p = .ok () q := by
  induction ids generalizing p with
  | nil =>
      cases h
      rfl
  | cons id rest ih =>
      rw [Pass.walk] at h
      cases hStep : p.step s id with
      | ok r =>
          rw [hStep] at h
          exact (bind_ok (step_ok hStep)).trans (ih h)
      | error stop =>
          rw [hStep] at h
          cases stop <;> cases h

/-- Walking over two lists is walking over one and then over the other. -/
theorem walk_append (s : Sandbox) (front back : List InstId) :
    walk s (front ++ back) = walk s front >>= fun _ => walk s back := by
  rw [walk, List.forM_eq_forM, List.forM_append]
  rfl

/-- An instruction that stands in the function and does not pass the vet stops the work before
anything is done. -/
theorem step_refused {stop : Stop} (hLive : p.func.isLive id = .ok true)
    (hVet : p.func.vet id = .error stop) : step s id p = .error stop p := by
  rw [step, bind_ok (ask_ok (a := true) (by rw [hLive]; rfl))]
  simp only [if_true]
  exact bind_stop (by simp only [ask, hVet])

end Agreement

end Editing

/-- A run that is refused stops at an instruction of the original function that still stands. All
those before it were dealt with, and the function is left as they had it. In place, too, nothing is
done to that instruction before it is refused: no base is brought in, no operand, no use and no
count changes. It has its operands, and so has every instruction behind it that is not removed. -/
theorem refusal_leaves_no_trace {s : Sandbox} {symbol : Symbol} {f g : Func} {refusal : Refusal}
    (hBuilt : f.Built) (hBody : f.isDeclaration = false) (hSource : s.source = .ofSymbol symbol)
    (hAudit : s.options.audit = false) (hRun : s.run f = .ok ⟨g, .error refusal⟩) :
    ∃ front id back p, f.layout = front ++ id :: back ∧ p.func = g ∧
      Pass.walk s front { func := f } = .ok (p, none) ∧
      Editing.walk s front { func := f } = .ok () p ∧ g.isLive id = .ok true ∧
      Editing.step s id p = .error (.refused refusal) p ∧
      Editing.walk s f.layout { func := f } = .error (.refused refusal) p ∧
      ∀ other ∈ id :: back, g.isLive other = .ok true → g.inst other = f.inst other := by
  have hf := hBuilt.consistent
  rcases Sandbox.run_ends hSource hf hBody with
    ⟨front, id, back, p, reason, hLayout, hOk, hStopped⟩ | ⟨p, _, ⟨reason, _, hOn⟩ | ⟨hOk, _⟩⟩
  · obtain ⟨rfl, rfl⟩ : g = p.func ∧ refusal = reason := by
      simpa using Except.ok.inj (hRun.symm.trans hOk)
    -- Whatever stands at the instruction or behind it and is not removed is as it was.
    have hSame : ∀ other ∈ id :: back, p.func.isLive other = .ok true →
        ∃ c, f.cells[other]? = some c ∧ p.func.cells[other]? = some c :=
      fun other hOther hLive => by
      obtain ⟨c, hc, _⟩ := hf.mem_layout_iff.mp
        (show other ∈ f.layout by rw [hLayout]; exact List.mem_append_right _ hOther)
      refine ⟨c, hc, (hStopped.cell_of_untouched hc fun _ =>
        hf.untouched hLayout hOther).resolve_right ?_⟩
      rintro ⟨d, hd, hDropped⟩
      rw [Func.isLive_of_cell hd, hDropped.emptied] at hLive
      cases hLive
    obtain ⟨c, hc, hNow⟩ := hSame id List.mem_cons_self hStopped.live
    have hVet : p.func.vet id = .error (.refused refusal) :=
      (hStopped.keeps.vet hf hc hNow).trans hStopped.refused
    have hWalk := Editing.walk_ok hStopped.reached
    have hStep := Editing.step_refused (s := s) hStopped.live hVet
    refine ⟨front, id, back, p, hLayout, rfl, hStopped.reached, hWalk, hStopped.live, hStep, ?_,
      fun other hOther hLive => ?_⟩
    · rw [hLayout, Editing.walk_append, Editing.bind_ok hWalk]
      exact Editing.bind_stop hStep
    · obtain ⟨c, hc, hNow⟩ := hSame other hOther hLive
      rw [Func.inst_of_cell hc, Func.inst_of_cell hNow]
  · rw [hAudit] at hOn
    cases hOn
  · rw [hRun] at hOk
    cases hOk

def readThenMiscopy : List Func.Edit :=
  [ .addBlock "entry",
    .append 0 { opcode := .load, operands := [.arg 1], ty := .i64 },
    .append 0 {
      opcode := .call
      operands := [.arg 1, .arg 0, .inst 0,
        .global (.function "llvm.memcpy.p0i8.p0i8.i64" .void [.ptr (.int 8), .ptr (.int 8), .i64])]
      ty := .void } ]

/-- The first address of the copy could be confined, and is not, since the second one is no
pointer. -/
theorem refusal_leaves_no_trace_readThenMiscopy :
    ∃ f g p, Func.ofEdits "f" [.i32, .ptr .i64] .void readThenMiscopy = .ok f ∧
      defaultSandbox.run f = .ok ⟨g, .error (.notAPointer ⟨"f", .call, 1⟩ .i32)⟩ ∧
      Pass.walk defaultSandbox [0] { func := f } = .ok (p, none) ∧ p.func = g ∧
      p.stats.addresses = 1 ∧ Editing.step defaultSandbox 1 p =
      .error (.refused (.notAPointer ⟨"f", .call, 1⟩ .i32)) p ∧ g.inst 1 = f.inst 1 := by
  obtain ⟨f, g, q, hf, hBody, hRun, hLayout, hWalk, hCount⟩ : ∃ f g q,
      Func.ofEdits "f" [.i32, .ptr .i64] .void readThenMiscopy = .ok f ∧ f.isDeclaration = false ∧
      defaultSandbox.run f = .ok ⟨g, .error (.notAPointer ⟨"f", .call, 1⟩ .i32)⟩ ∧
      f.layout = [0, 1] ∧ Pass.walk defaultSandbox [0] { func := f } = .ok (q, none) ∧
      q.stats.addresses = 1 :=
    ⟨_, _, _, rfl, rfl, rfl, rfl, rfl, rfl⟩
  obtain ⟨front, id, back, p, hSplit, hFunc, hFront, _, hLive, hStep, _, hLater⟩ :=
    refusal_leaves_no_trace (Func.built_ofEdits hf) hBody (s := defaultSandbox) rfl rfl hRun
  rw [hLayout] at hSplit
  match front, hSplit, hFront with
  | [], hSplit, hFront =>
      -- The read goes through, so it is not what was refused.
      obtain ⟨rfl, _⟩ : 0 = id ∧ [1] = back := by simpa using hSplit
      obtain rfl : { func := f } = p := by simpa [Pass.walk] using hFront
      have hGood := Editing.walk_ok hWalk
      rw [Editing.walk, List.forM_eq_forM, List.forM_cons, Editing.bind_stop hStep] at hGood
      cases hGood
  | [_], hSplit, hFront =>
      obtain ⟨rfl, rfl, _⟩ : 0 = _ ∧ 1 = id ∧ [] = back := by simpa using hSplit
      obtain rfl : q = p := by simpa [hWalk] using hFront
      exact ⟨f, g, q, hf, hRun, hWalk, hFunc, hCount, hStep, hLater 1 List.mem_cons_self hLive⟩
  | _ :: _ :: rest, hSplit, _ => simp at hSplit

end FaultIsolation
