import FaultIsolation.Proofs.Guard
import FaultIsolation.Proofs.GuardArea

/-!
When a function is refused, and why. The check of an instruction is said here once more, without the
order in which it is carried out: which operand is at fault, and what the refusal tells about it. In
a function made of drafts, nothing that fails this check can be removed before its turn. A run
therefore succeeds exactly if no instruction of the original function fails, and otherwise it tells
what the original function has at the first one that does.
-/
namespace FaultIsolation

section First

variable {α ε : Type} {check : α → Except ε Unit} {P : α → Prop} {front back : List α} {x : α}

theorem forM_cons_eq {rest : List α} :
    (x :: rest).forM check = (check x >>= fun _ => rest.forM check) :=
  rfl

theorem forM_eq_ok {xs : List α} (h : ∀ x ∈ xs, check x = .ok ()) : xs.forM check = .ok () := by
  induction xs with
  | nil => rfl
  | cons x rest ih =>
      rw [forM_cons_eq, h x (by simp)]
      exact ih fun y hy => h y (List.mem_cons_of_mem _ hy)

theorem forM_eq_error (hFront : ∀ y ∈ front, check y = .ok ()) {cause : ε}
    (hx : check x = .error cause) : (front ++ x :: back).forM check = .error cause := by
  induction front with
  | nil =>
      rw [List.nil_append, forM_cons_eq, hx]
      rfl
  | cons y rest ih =>
      rw [List.cons_append, forM_cons_eq, hFront y (by simp)]
      exact ih fun z hz => hFront z (List.mem_cons_of_mem _ hz)

theorem all_or_first (P : α → Prop) (xs : List α) :
    (∀ x ∈ xs, P x) ∨ ∃ front x back, xs = front ++ x :: back ∧ (∀ y ∈ front, P y) ∧ ¬P x := by
  induction xs with
  | nil => exact .inl (by simp)
  | cons x rest ih =>
      by_cases hx : P x
      · rcases ih with hAll | ⟨front, y, back, rfl, hFront, hy⟩
        · exact .inl (by simpa [hx] using hAll)
        · exact .inr ⟨x :: front, y, back, rfl, by simpa [hx] using hFront, hy⟩
      · exact .inr ⟨[], x, rest, rfl, by simp, hx⟩

theorem first_unique {front' back' : List α} {x' : α}
    (h : front ++ x :: back = front' ++ x' :: back') (hFront : ∀ y ∈ front, P y) (hx : ¬P x)
    (hFront' : ∀ y ∈ front', P y) (hx' : ¬P x') : x = x' := by
  induction front generalizing front' with
  | nil =>
      cases front' with
      | nil => exact (List.cons.inj h).1
      | cons y rest =>
          obtain rfl : x = y := (List.cons.inj h).1
          exact absurd (hFront' x (by simp)) hx
  | cons z front ih =>
      cases front' with
      | nil =>
          obtain rfl : z = x' := (List.cons.inj h).1
          exact absurd (hFront z (by simp)) hx'
      | cons y rest =>
          exact ih (List.cons.inj h).2 (fun w hw => hFront w (List.mem_cons_of_mem _ hw))
            fun w hw => hFront' w (List.mem_cons_of_mem _ hw)

end First

namespace Func

def PointerAt (f : Func) (inst : Instruction) (position : Nat) : Prop :=
  ∃ v, inst.accessOperand? position = some v ∧ f.IsPointer v

/-- The instruction fails the check for this reason. Of several operands at fault the first one
counts: addresses in their order, then the length. -/
inductive Rejects (f : Func) (id : InstId) : Refusal → Prop where
  /-- The access lacks an address. -/
  | noAddress {inst : Instruction} {front back : List Nat} {position : Nat}
      (read : f.inst id = .ok inst)
      (addresses : (Access.ofInstruction inst).addresses = front ++ position :: back)
      (earlier : ∀ before ∈ front, f.PointerAt inst before)
      (missing : inst.accessOperand? position = none) :
      Rejects f id (.missingOperand ⟨f.name, inst.opcode, position⟩)
  /-- The access has an address that is no pointer. -/
  | noPointer {inst : Instruction} {front back : List Nat} {position : Nat} {v : Value} {ty : Ty}
      (read : f.inst id = .ok inst)
      (addresses : (Access.ofInstruction inst).addresses = front ++ position :: back)
      (earlier : ∀ before ∈ front, f.PointerAt inst before)
      (operand : inst.accessOperand? position = some v) (typed : f.typeOf v = .ok ty)
      (other : ty.isPointer = false) :
      Rejects f id (.notAPointer ⟨f.name, inst.opcode, position⟩ ty)
  /-- The access has its addresses and lacks its length. -/
  | noLength {inst : Instruction} {position : Nat} (read : f.inst id = .ok inst)
      (addresses : ∀ address ∈ (Access.ofInstruction inst).addresses, f.PointerAt inst address)
      (length : (Access.ofInstruction inst).length? = some position)
      (missing : inst.accessOperand? position = none) :
      Rejects f id (.missingOperand ⟨f.name, inst.opcode, position⟩)
  /-- A pointer goes where nothing confines it. -/
  | stray {inst : Instruction} {front back : List Value} {v : Value} {text : String}
      (read : f.inst id = .ok inst)
      (unconfined : (Access.ofInstruction inst).unconfined inst = front ++ v :: back)
      (earlier : ∀ w ∈ front, ¬f.IsPointer w) (pointer : f.IsPointer v)
      (written : f.instText id = .ok text) :
      Rejects f id (.strayPointer ⟨f.name, inst.opcode, front.length⟩ text)

/-- What takes values that nothing confines is no access. -/
theorem places_of_unconfined {access : Access} {inst : Instruction} {v : Value}
    (h : v ∈ access.unconfined inst) : access.addresses = [] ∧ access.length? = none := by
  cases access <;> simp [Access.unconfined, Access.addresses, Access.length?] at h ⊢

theorem pointerPosition?_first {f : Func} {front back : List Value} {v : Value}
    (hIn : ∀ w ∈ front, w.Within f.cells.length) (hFront : ∀ w ∈ front, ¬f.IsPointer w)
    (hv : f.IsPointer v) : f.pointerPosition? (front ++ v :: back) = .ok (some front.length) := by
  induction front with
  | nil =>
      obtain ⟨ty, hTy, hPointer⟩ := hv
      rw [List.nil_append, pointerPosition?, hTy]
      simp only [bind, Except.bind, hPointer]
      rfl
  | cons w rest ih =>
      obtain ⟨ty, hTy⟩ := exists_typeOf (hIn w (by simp))
      have hOther : ty.isPointer = false := by
        rw [Bool.eq_false_iff]
        exact fun hPointer => hFront w (by simp) ⟨ty, hTy, hPointer⟩
      rw [List.cons_append, pointerPosition?, hTy,
        ih (fun u hu => hIn u (List.mem_cons_of_mem _ hu)) fun u hu =>
        hFront u (List.mem_cons_of_mem _ hu)]
      simp only [bind, Except.bind, hOther]
      rfl

section Checking

variable {f : Func} {id : InstId} {c : Cell} (hf : f.Consistent)

theorem addressOperand_of_pointerAt (hc : f.cells[id]? = some c) {position : Nat}
    (h : f.PointerAt c.inst position) : discard (f.addressOperand id position) = .ok () := by
  obtain ⟨v, hv, ty, hTy, hPointer⟩ := h
  rw [addressOperand_of_cell hc hv hTy hPointer]
  rfl

/-- The first address at fault decides. -/
theorem vet_of_address (hc : f.cells[id]? = some c) {front back : List Nat} {position : Nat}
    {stop : Stop} (hAddresses : (Access.ofInstruction c.inst).addresses = front ++ position :: back)
    (hEarlier : ∀ before ∈ front, f.PointerAt c.inst before)
    (h : f.addressOperand id position = .error stop) : f.vet id = .error stop := by
  have hAt : discard (f.addressOperand id position) = .error stop := by
    rw [h]
    rfl
  rw [Func.vet, inst_of_cell hc, lift_ok]
  simp only [bind, Except.bind, hAddresses,
    forM_eq_error (fun before hBefore => addressOperand_of_pointerAt hc (hEarlier before hBefore))
    hAt]

include hf

/-- What fails the check is refused for the reason that the check gives. -/
theorem Rejects.vet {refusal : Refusal} (h : f.Rejects id refusal) :
    f.vet id = .error (.refused refusal) := by
  cases h with
  | noAddress read addresses earlier missing =>
      obtain ⟨c, hc, rfl⟩ := cell_of_inst read
      exact vet_of_address hc addresses earlier (addressOperand_missing hc missing)
  | noPointer read addresses earlier operand typed other =>
      obtain ⟨c, hc, rfl⟩ := cell_of_inst read
      exact vet_of_address hc addresses earlier (addressOperand_no_pointer hc operand typed other)
  | noLength read addresses length missing =>
      obtain ⟨c, hc, rfl⟩ := cell_of_inst read
      rw [Func.vet, inst_of_cell hc, lift_ok]
      simp only [bind, Except.bind, length,
        forM_eq_ok fun address hAddress => addressOperand_of_pointerAt hc
        (addresses address hAddress), Option.toList_some, forM_cons_eq,
        accessOperand_missing hc missing]
      rfl
  | @stray inst front back v text read unconfined earlier pointer written =>
      obtain ⟨c, hc, rfl⟩ := cell_of_inst read
      obtain ⟨hAddresses, hLength⟩ := places_of_unconfined
        (show v ∈ (Access.ofInstruction c.inst).unconfined c.inst by simp [unconfined])
      have hIn : ∀ w ∈ front, w.Within f.cells.length := fun w hw =>
        hf.within c (List.mem_of_getElem? hc) w
          (mem_operands_of_unconfined (by simp [unconfined, hw]))
      rw [Func.vet, inst_of_cell hc, lift_ok]
      simp only [bind, Except.bind, hAddresses, hLength, refusePointers, unconfined,
        pointerPosition?_first hIn earlier pointer, inst_of_cell hc, written, lift_ok]
      rfl

/-- What is refused fails the check for that reason. -/
theorem rejects_of_vet (hc : f.cells[id]? = some c) {refusal : Refusal}
    (h : f.vet id = .error (.refused refusal)) : f.Rejects id refusal := by
  have hRead := inst_of_cell hc
  have hSome : ∃ reason, f.Rejects id reason := by
    rcases all_or_first (f.PointerAt c.inst) (Access.ofInstruction c.inst).addresses with
      hAddresses | ⟨front, position, back, hSplit, hFront, hNot⟩
    · by_cases hLength : ∀ position ∈ (Access.ofInstruction c.inst).length?.toList,
          ∃ v, c.inst.accessOperand? position = some v
      · rcases all_or_first (¬f.IsPointer ·) ((Access.ofInstruction c.inst).unconfined c.inst) with
          hAll | ⟨front, v, back, hSplit, hFront, hv⟩
        · rcases vet_decides hf hc with ⟨hOk, _⟩ | ⟨_, _, hNot⟩
          · rw [hOk] at h
            cases h
          · exact absurd ⟨hAddresses, hLength, hAll⟩ hNot
        · obtain ⟨text, hText⟩ := hf.exists_instText hc
          exact ⟨_, .stray hRead hSplit hFront (not_not.mp hv) hText⟩
      · push Not at hLength
        obtain ⟨position, hPosition, hMissing⟩ := hLength
        exact ⟨_, .noLength hRead hAddresses (Option.mem_toList.mp hPosition)
          (Option.eq_none_iff_forall_ne_some.mpr hMissing)⟩
    · cases hv : c.inst.accessOperand? position with
      | none => exact ⟨_, .noAddress hRead hSplit hFront hv⟩
      | some v =>
          obtain ⟨ty, hTy⟩ := exists_typeOf
            (hf.within c (List.mem_of_getElem? hc) v
              (List.mem_of_getElem? (operand_of_accessOperand? hv)))
          have hOther : ty.isPointer = false := by
            rw [Bool.eq_false_iff]
            exact fun hPointer => hNot ⟨v, hv, ty, hTy, hPointer⟩
          exact ⟨_, .noPointer hRead hSplit hFront hv hTy hOther⟩
  obtain ⟨reason, hReason⟩ := hSome
  have hSame : reason = refusal := by simpa [h] using (hReason.vet hf).symm
  exact hSame ▸ hReason

/-- Vetting passes exactly what does not fail the check. -/
theorem vet_eq_ok_iff (hc : f.cells[id]? = some c) :
    f.vet id = .ok () ↔ ∀ refusal, ¬f.Rejects id refusal := by
  constructor
  · intro hOk refusal hRejects
    rw [hRejects.vet hf] at hOk
    cases hOk
  · intro hNone
    rcases vet_decides hf hc with ⟨hOk, _⟩ | ⟨refusal, hRefused, _⟩
    · exact hOk
    · exact absurd (rejects_of_vet hf hc hRefused) (hNone refusal)

end Checking

end Func

def Func.OffsetsPaired (f : Func) : Prop :=
  ∀ id inst, id ∈ f.layout → f.inst id = .ok inst → inst.opcode = .binary .add → inst.ty = .i32 →
    ∃ left right, inst.operands = [left, right] ∧ f.typeOf left = .ok .i32

theorem Func.Drafted.offsetsPaired {f : Func} (h : f.Drafted) : f.OffsetsPaired := by
  intro id inst _ hInst hAdd hTy
  obtain ⟨c, hc, rfl⟩ := cell_of_inst hInst
  obtain ⟨left, right, hOperands, hLeft⟩ := h.binaryTyped id c .add hc hAdd
  exact ⟨left, right, hOperands, hLeft.trans (by rw [hTy])⟩

section Verdict

variable {s : Sandbox} {symbol : Symbol} {f : Func} {id : InstId}

/-- What folding removes would have passed: it is a conversion, or an addition of a constant to an
offset. -/
theorem Sandbox.Skips.vet_eq_ok (h : s.Skips f id) (hSource : s.source = .ofSymbol symbol)
    (hf : f.Consistent) (hPaired : f.OffsetsPaired) : f.vet id = .ok () := by
  obtain ⟨front, back, other, position, v, address, _, _, _, hFold, hPart⟩ := h.folded hSource hf
  obtain ⟨a, b, _, ha, hConversion, hb, hStep⟩ :=
    Func.foldable?_some (Sandbox.foldable?_eq_some_iff.mp hFold).2
  rcases hPart with rfl | rfl
  · have hExempt : Access.ofInstruction a.inst = .exempt := by
      simp only [Access.ofInstruction, (Func.opcode_of_pointerSource? hConversion).1]
    rcases Func.vet_decides hf ha with ⟨hOk, _⟩ | ⟨_, _, hNot⟩
    · exact hOk
    · refine absurd ⟨?_, ?_, ?_⟩ hNot <;> simp [hExempt, Access.addresses, Access.length?,
        Access.unconfined]
  · obtain ⟨hAdd, hTy, bits, rest, hOperands, _⟩ := Func.operands_of_positiveStep? hStep
    have hLayout := hf.mem_layout_of_operand hb (Func.index_mem_of_positiveStep? hStep)
    obtain ⟨left, right, hPair, hLeft⟩ :=
      hPaired address.addition b.inst hLayout (Func.inst_of_cell hb) hAdd hTy
    have hOther : Access.ofInstruction b.inst = .other := by simp only [Access.ofInstruction, hAdd]
    obtain ⟨rfl, rfl⟩ : address.index = left ∧
      Value.const (.int bits address.constant) = right := by
      rw [hOperands] at hPair
      exact ⟨(List.cons.inj hPair).1, (List.cons.inj (List.cons.inj hPair).2).1⟩
    have hNoPointer : ∀ w ∈ b.inst.operands, ¬f.IsPointer w := by
      intro w hw
      rw [hPair] at hw
      rcases List.mem_pair.mp hw with rfl | rfl
      · exact Func.not_isPointer_of_int hLeft
      · exact Func.not_isPointer_of_int rfl
    rcases Func.vet_decides hf hb with ⟨hOk, _⟩ | ⟨_, _, hNot⟩
    · exact hOk
    · refine absurd ⟨?_, ?_, ?_⟩ hNot
      · simp [hOther, Access.addresses]
      · simp [hOther, Access.length?]
      · simpa [hOther, Access.unconfined] using hNoPointer

/-- In a function made of drafts, everything that has had its turn passes the check. -/
theorem Walked.passes {front : List InstId} {p : Pass} (h : Walked s symbol f front p)
    (hSource : s.source = .ofSymbol symbol) (hDrafted : f.Drafted) (hId : id ∈ front)
    (hLayout : id ∈ f.layout) : ∀ refusal, ¬f.Rejects id refusal := by
  have hf := hDrafted.built.consistent
  obtain ⟨c, hc, _⟩ := hf.mem_layout_iff.mp hLayout
  rw [← Func.vet_eq_ok_iff hf hc]
  rcases h.vetted id hId with hVet | ⟨hSkips, _⟩
  · exact hVet
  · exact hSkips.vet_eq_ok hSource hf hDrafted.offsetsPaired

end Verdict

/-- A function made of drafts is confined exactly if no instruction of it fails the check. Otherwise
the first one in the layout that does decides the refusal, with the operand, the type and the text
that it has in the original function. -/
theorem refused_for_first_rejected {s : Sandbox} {symbol : Symbol} {f : Func} (hDrafted : f.Drafted)
    (hBody : f.isDeclaration = false) (hSource : s.source = .ofSymbol symbol)
    (hAudit : s.options.audit = false) :
    ((∃ g stats, s.run f = .ok ⟨g, .ok stats⟩) ↔ ∀ id ∈ f.layout, ∀ refusal,
      ¬f.Rejects id refusal) ∧
    ∀ front id back refusal, f.layout = front ++ id :: back →
      (∀ other ∈ front, ∀ reason, ¬f.Rejects other reason) → f.Rejects id refusal →
        ∃ g, s.run f = .ok ⟨g, .error refusal⟩ := by
  have hf := hDrafted.built.consistent
  rcases Sandbox.run_ends hSource hf hBody with
    ⟨front, id, back, p, refusal, hLayout, hRun, hStopped⟩ | ⟨p, hFinished, ⟨_, _, hOn⟩ | ⟨hRun, _⟩⟩
  · obtain ⟨c, hc, _⟩ := hf.mem_layout_iff.mp (show id ∈ f.layout by simp [hLayout])
    have hRejects := Func.rejects_of_vet hf hc hStopped.refused
    have hFront : ∀ other ∈ front, ∀ reason, ¬f.Rejects other reason := fun other hOther =>
      hStopped.passes hSource hDrafted hOther (by simp [hLayout, hOther])
    refine ⟨iff_of_false ?_ fun hAll => hAll id (by simp [hLayout]) refusal hRejects, ?_⟩
    · rintro ⟨g, stats, hOk⟩
      rw [hRun] at hOk
      cases hOk
    · intro front' id' back' refusal' hLayout' hFront' hRejects'
      obtain rfl : id = id' := first_unique (P := fun i => ∀ reason, ¬f.Rejects i reason)
        (hLayout.symm.trans hLayout') hFront (fun hNone => hNone _ hRejects) hFront' fun hNone =>
        hNone _ hRejects'
      have hSame : refusal = refusal' := by simpa [hStopped.refused] using hRejects'.vet hf
      exact ⟨p.func, hSame ▸ hRun⟩
  · rw [hAudit] at hOn
    cases hOn
  · have hAll : ∀ id ∈ f.layout, ∀ refusal, ¬f.Rejects id refusal := fun id hId =>
      hFinished.passes hSource hDrafted hId hId
    refine ⟨iff_of_true ⟨_, _, hRun⟩ hAll, ?_⟩
    intro front id back refusal hLayout _ hRejects
    exact absurd hRejects (hAll id (by simp [hLayout]) refusal)

/-- Reads through the sum of a parameter and a constant, then compares another parameter, and at
last fills memory without saying where. -/
def readCompareFill : Except Fault Func :=
  [ Draft.binary .add (.arg 0) (.ofWord 32 8),
    .cast .intToPtr (.inst 0) (.ptr .i32),
    .load (.inst 1),
    .icmp .eq (.arg 1) (.const (.null (.ptr .i32))),
    .call (.global (.function "llvm.memset.p0i8.i64" .void [])) [] ].foldlM
      (fun f draft => (f.build (.atEnd 0) draft).map Prod.fst)
      (Func.addBlock { name := "f", params := [.i32, .ptr .i32], result := .void } "entry")

theorem drafted_readCompareFill {f : Func} (h : readCompareFill = .ok f) : f.Drafted := by
  obtain rfl := Except.ok.inj h
  exact .build (.atEnd 0) (.call (.global (.function "llvm.memset.p0i8.i64" .void [])) [])
    (.build (.atEnd 0) (.icmp .eq (.arg 1) (.const (.null (.ptr .i32))))
    (.build (.atEnd 0) (.load (.inst 1))
    (.build (.atEnd 0) (.cast .intToPtr (.inst 0) (.ptr .i32))
    (.build (.atEnd 0) (.binary .add (.arg 0) (.ofWord 32 8))
    (.addBlock "entry" (.empty "f" [.i32, .ptr .i32] .void)) rfl) rfl) rfl) rfl) rfl

/-- Two instructions fail, and the first of them is named, although the read before it has been
folded. -/
theorem refused_for_first_rejected_readCompareFill :
    ∃ f g, readCompareFill = .ok f ∧ f.Drafted ∧ f.isDeclaration = false ∧
      f.Rejects 3 (.strayPointer ⟨"f", .icmp .eq, 0⟩ "%3 = icmp eq i32* %arg1, null") ∧
      f.Rejects 4 (.missingOperand ⟨"f", .call, 0⟩) ∧
      defaultSandbox.run f =
        .ok ⟨g, .error (.strayPointer ⟨"f", .icmp .eq, 0⟩ "%3 = icmp eq i32* %arg1, null")⟩ := by
  obtain ⟨f, hf, hBody, hLayout, hAdd, hConvert, hRead, hCompare, hFill⟩ : ∃ f,
    readCompareFill = .ok f ∧
      f.isDeclaration = false ∧ f.layout = [0, 1, 2] ++ 3 :: [4] ∧
      f.vet 0 = .ok () ∧ f.vet 1 = .ok () ∧ f.vet 2 = .ok () ∧
      f.vet 3 = .error (.refused (.strayPointer ⟨"f", .icmp .eq,
        0⟩ "%3 = icmp eq i32* %arg1, null")) ∧
      f.vet 4 = .error (.refused (.missingOperand ⟨"f", .call, 0⟩)) :=
    ⟨_, rfl, rfl, rfl, rfl, rfl, rfl, rfl, rfl⟩
  have hDrafted := drafted_readCompareFill hf
  have hConsistent := hDrafted.built.consistent
  have hCell : ∀ id ∈ f.layout, ∃ c, f.cells[id]? = some c := fun id hId =>
    (hConsistent.mem_layout_iff.mp hId).imp fun _ hc => hc.1
  have hFront : ∀ other ∈ [0, 1, 2], ∀ reason, ¬f.Rejects other reason := by
    intro other hOther
    obtain ⟨c, hc⟩ := hCell other (by simp only [hLayout, List.mem_append]; exact .inl hOther)
    have hCases : other = 0 ∨ other = 1 ∨ other = 2 := by simpa using hOther
    rw [← Func.vet_eq_ok_iff hConsistent hc]
    rcases hCases with rfl | rfl | rfl
    · exact hAdd
    · exact hConvert
    · exact hRead
  obtain ⟨c, hc⟩ := hCell 3 (by simp [hLayout])
  obtain ⟨d, hd⟩ := hCell 4 (by simp [hLayout])
  have hRejects := Func.rejects_of_vet hConsistent hc hCompare
  obtain ⟨g, hRun⟩ := (refused_for_first_rejected hDrafted hBody (s := defaultSandbox) rfl rfl).2 _
    _ _ _ hLayout hFront hRejects
  exact ⟨f, g, hf, hDrafted, hBody, hRejects, Func.rejects_of_vet hConsistent hd hFill, hRun⟩

end FaultIsolation
