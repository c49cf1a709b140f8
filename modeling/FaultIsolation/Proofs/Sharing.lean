import FaultIsolation.Region.Program
import FaultIsolation.Proofs.Run
import Mathlib.Data.List.Forall2

/-!
Sharing out the work on a program. The functions do not depend on each other, so each has the
outcome that it has alone, whoever works on it and when. What is relied on of a pool is that it
gives the outcomes back in the order of the functions, or, where a refusal ends the work, a refusal
that some function has. Then a pool yields what the work one after the other yields; only if a
refusal ends the work at once, it is up to the pool which of several refusals it is.
-/
namespace FaultIsolation

section Laws

variable {α β ε : Type} {f : α → Except ε β}

theorem mapM_cons_eq (f : α → Except ε β) (x : α) (xs : List α) :
    (x :: xs).mapM f = (f x >>= fun y => xs.mapM f >>= fun ys => .ok (y :: ys)) := by
  rw [List.mapM_cons]
  rfl

/-- The results of all elements are those of each. -/
theorem mapM_eq_ok_iff {xs : List α} {ys : List β} :
    xs.mapM f = .ok ys ↔ List.Forall₂ (fun x y => f x = .ok y) xs ys := by
  induction xs generalizing ys with
  | nil =>
      have hNil : List.mapM f [] = .ok [] := rfl
      rw [hNil, List.forall₂_nil_left_iff]
      exact ⟨fun h => (Except.ok.inj h).symm, fun h => h ▸ rfl⟩
  | cons x rest ih =>
      rw [mapM_cons_eq]
      constructor
      · intro h
        obtain ⟨y, hy, h⟩ := bind_eq_ok_iff.mp h
        obtain ⟨others, hOthers, h⟩ := bind_eq_ok_iff.mp h
        obtain rfl := Except.ok.inj h
        exact .cons hy (ih.mp hOthers)
      · rintro (_ | ⟨hy, hOthers⟩)
        rw [hy, ih.mpr hOthers]
        rfl

/-- Every result is that of some element. -/
theorem exists_of_mem_results {xs : List α} {ys : List β} (h : xs.mapM f = .ok ys) {y : β}
    (hy : y ∈ ys) : ∃ x ∈ xs, f x = .ok y := by
  have hAll := mapM_eq_ok_iff.mp h
  clear h
  induction hAll with
  | nil => cases hy
  | @cons x z xs zs hx _ ih =>
      rcases List.mem_cons.mp hy with rfl | hRest
      · exact ⟨x, List.mem_cons_self, hx⟩
      · obtain ⟨other, hOther, hf⟩ := ih hRest
        exact ⟨other, List.mem_cons_of_mem _ hOther, hf⟩

/-- If all elements have results, none is without. -/
theorem not_error_of_mapM {xs : List α} {ys : List β} (h : xs.mapM f = .ok ys) {x : α} (hx : x ∈ xs)
    {cause : ε} : f x ≠ .error cause := by
  have hAll := mapM_eq_ok_iff.mp h
  clear h
  induction hAll with
  | nil => cases hx
  | cons hFirst _ ih =>
      rcases List.mem_cons.mp hx with rfl | hRest
      · simp [hFirst]
      · exact ih hRest

end Laws

/-- What is relied on of a pool, for work that does not fault. -/
structure Pool.Lawful (pool : Pool) : Prop where
  /-- Every function is worked on, and the results are listed in the order of the functions. -/
  inOrder : ∀ (work : Work) (fs : List Func) (outcomes : List Outcome),
    fs.mapM work = .ok outcomes →
      pool.gather work fs = .ok (outcomes.map (·.func), outcomes.map (·.result))
  /-- With an early end, either no function is refused and all are worked on as before, or the
  refusal is one that some function has. -/
  occurred : ∀ (work : Work) (fs : List Func) (outcomes : List Outcome),
    fs.mapM work = .ok outcomes →
      (∃ counts, outcomes.mapM (·.result) = .ok counts ∧
        pool.gatherUntilRefused work fs = .ok (outcomes.map (·.func), .ok counts)) ∨
      ∃ outcome ∈ outcomes, ∃ refusal functions, outcome.result = .error refusal ∧
        pool.gatherUntilRefused work fs = .ok (functions, .error refusal)

namespace Pool

/-- Listing the results and looking for the first refusal is looking for the first refusal. -/
theorem mapM_result (outcomes : List Outcome) :
    (outcomes.map (·.result)).mapM id = outcomes.mapM (·.result) := by
  induction outcomes with
  | nil => rfl
  | cons outcome rest ih => rw [List.map_cons, mapM_cons_eq, mapM_cons_eq, ih, id]

theorem Lawful.share_all {pool : Pool} (h : pool.Lawful) {work : Work} {fs : List Func}
    {outcomes : List Outcome} (hOutcomes : fs.mapM work = .ok outcomes) :
    pool.share false work fs = .ok (outcomes.map (·.func), outcomes.mapM (·.result)) := by
  simp only [share, h.inOrder work fs outcomes hOutcomes, bind, Except.bind, mapM_result]
  rfl

/-- A single worker that goes on up to a refusal finds no refusal, or one that a function has. -/
theorem workUntilRefused_spec {work : Work} {fs : List Func} {outcomes : List Outcome}
    (h : List.Forall₂ (fun f outcome => work f = .ok outcome) fs outcomes) :
    (∃ counts, outcomes.mapM (·.result) = .ok counts ∧
      workUntilRefused work fs = .ok (outcomes.map (·.func), .ok counts)) ∨
    ∃ outcome ∈ outcomes, ∃ refusal functions, outcome.result = .error refusal ∧
      workUntilRefused work fs = .ok (functions, .error refusal) := by
  induction h with
  | nil => exact .inl ⟨[], rfl, rfl⟩
  | @cons f outcome fs outcomes hWork _ ih =>
      simp only [workUntilRefused, hWork, bind, Except.bind]
      cases hResult : outcome.result with
      | error refusal =>
          exact .inr ⟨outcome, List.mem_cons_self, refusal, _, hResult, rfl⟩
      | ok stats =>
          rcases ih with ⟨counts, hCounts, hRest⟩ | ⟨other, hOther, refusal, gs, hRefused, hRest⟩
          · refine .inl ⟨stats :: counts, ?_, by simp only [hRest]; rfl⟩
            rw [mapM_cons_eq, hResult, hCounts]
            rfl
          · exact .inr ⟨other, List.mem_cons_of_mem _ hOther, refusal, _, hRefused,
              by simp only [hRest]; rfl⟩

/-- Working from the end is lawful. -/
theorem backwards_lawful : backwards.Lawful where
  inOrder work fs outcomes h := by
    have hReverse : fs.reverse.mapM work = .ok outcomes.reverse :=
      mapM_eq_ok_iff.mpr (List.forall₂_reverse_iff.mpr (mapM_eq_ok_iff.mp h))
    simp only [backwards, hReverse, bind, Except.bind, List.reverse_reverse]
    rfl
  occurred work fs outcomes h := by
    have hReverse := List.forall₂_reverse_iff.mpr (mapM_eq_ok_iff.mp h)
    simp only [backwards]
    rcases workUntilRefused_spec hReverse with
      ⟨counts, hCounts, hWork⟩ | ⟨outcome, hOutcome, refusal, functions, hRefused, hWork⟩
    · refine .inl ⟨counts.reverse, ?_, ?_⟩
      · have hForward := List.forall₂_reverse_iff.mpr (mapM_eq_ok_iff.mp hCounts)
        rw [List.reverse_reverse] at hForward
        exact mapM_eq_ok_iff.mpr hForward
      · rw [hWork, List.map_reverse]
        simp only [bind, Except.bind, List.reverse_reverse]
        rfl
    · refine .inr ⟨outcome, List.mem_reverse.mp hOutcome, refusal, functions.reverse, hRefused, ?_⟩
      rw [hWork]
      rfl

end Pool

/-- How every function of a program is confined: from the variable of the region base. -/
def Options.sandbox (options : Options) : Sandbox :=
  ⟨.ofSymbol (.global options.baseSymbol .i64), options⟩

namespace Sandbox

theorem runOrStop_eq {s : Sandbox} {f : Func} {outcome : Outcome} (h : s.run f = .ok outcome) :
    s.runOrStop f = match outcome.result with
      | .ok stats => .ok (outcome.func, stats)
      | .error refusal => .error (.refused refusal) := by
  simp only [runOrStop, h, lift_ok, bind, Except.bind]
  cases outcome.result <;> rfl

/-- The work one after the other ends with the first refusal. Without one it leaves all functions
as each is left alone, and adding up on the way is adding up afterwards. -/
theorem runAll_eq {s : Sandbox} {fs : List Func} {outcomes : List Outcome}
    (h : List.Forall₂ (fun f outcome => s.run f = .ok outcome) fs outcomes) (start : Stats) :
    s.runAll fs start = match outcomes.mapM (·.result) with
      | .ok counts => .ok (outcomes.map (·.func), counts.foldl Stats.merge start)
      | .error refusal => .error (.refused refusal) := by
  induction h generalizing start with
  | nil => rfl
  | @cons f outcome fs outcomes hRun _ ih =>
      rw [mapM_cons_eq, runAll, runOrStop_eq hRun]
      cases outcome.result with
      | error refusal => rfl
      | ok stats =>
          simp only [bind, Except.bind, ih]
          cases outcomes.mapM (·.result) <;> rfl

/-- Either no function is refused, or there is a first one that is. -/
theorem outcomes_cases {s : Sandbox} {fs : List Func} {outcomes : List Outcome}
    (h : List.Forall₂ (fun f outcome => s.run f = .ok outcome) fs outcomes) :
    (∃ results : List (Func × Stats),
      List.Forall₂ (fun f result => s.run f = .ok ⟨result.1, .ok result.2⟩) fs results ∧
      outcomes.map (·.func) = results.map (·.1) ∧
      outcomes.mapM (·.result) = .ok (results.map (·.2))) ∨
    ∃ front f back g refusal, fs = front ++ f :: back ∧
      (∀ other ∈ front, ∃ k stats, s.run other = .ok ⟨k, .ok stats⟩) ∧
      s.run f = .ok ⟨g, .error refusal⟩ ∧ outcomes.mapM (·.result) = .error refusal := by
  induction h with
  | nil => exact .inl ⟨[], .nil, rfl, rfl⟩
  | @cons f outcome fs outcomes hRun _ ih =>
      obtain ⟨g, result⟩ := outcome
      cases result with
      | error refusal =>
          refine .inr ⟨[], f, fs, g, refusal, rfl, by simp, hRun, ?_⟩
          rw [mapM_cons_eq]
          rfl
      | ok stats =>
          rcases ih with ⟨results, hAll, hFuncs, hCounts⟩ |
            ⟨front, other, back, k, refusal, hSplit, hFront, hRefused, hError⟩
          · refine .inl ⟨(g, stats) :: results, .cons hRun hAll, by simp [hFuncs], ?_⟩
            rw [mapM_cons_eq, hCounts]
            rfl
          · refine .inr ⟨f :: front, other, back, k, refusal, by rw [hSplit]; rfl, ?_, hRefused, ?_⟩
            · intro first hFirst
              rcases List.mem_cons.mp hFirst with rfl | hMem
              · exact ⟨g, stats, hRun⟩
              · exact hFront first hMem
            · rw [mapM_cons_eq, hError]
              rfl

end Sandbox

namespace Program

def Mismatched (p : Program) (options : Options) (refusal : Refusal) : Prop :=
  ∃ found, p.global? options.baseSymbol = some found ∧ found.contents ≠ .i64 ∧
    refusal = .globalMismatch options.baseSymbol .i64 found.contents

def withBase (p : Program) (options : Options) : Program :=
  if (p.global? options.baseSymbol).isSome then p else p.addGlobal ⟨options.baseSymbol, .i64⟩

theorem functions_withBase (p : Program) (options : Options) :
    (p.withBase options).functions = p.functions := by
  unfold withBase
  split <;> rfl

/-- The work cannot start for want of the variable, or all functions take the region base from
it. -/
theorem prepare_cases (p : Program) (options : Options) :
    (∃ refusal, p.Mismatched options refusal ∧ p.prepare options = .error (.refused refusal)) ∨
    p.prepare options = .ok (p.withBase options, options.sandbox) := by
  cases hFound : p.global? options.baseSymbol with
  | none =>
      right
      simp only [prepare, requireGlobal, withBase, hFound]
      rfl
  | some found =>
      have hName : found.name = options.baseSymbol := by simpa using List.find?_some hFound
      by_cases hContents : found.contents = .i64
      · right
        simp only [prepare, requireGlobal, withBase, hFound, hContents, Global.symbol, hName]
        rfl
      · refine .inl ⟨_, ⟨found, hFound, hContents, rfl⟩, ?_⟩
        simp only [prepare, requireGlobal, hFound, hContents, if_false]

/-- Every function has an outcome. -/
theorem exists_outcomes {p : Program} (hBuilt : ∀ f ∈ p.functions, f.Built) (options : Options) :
    ∃ outcomes, p.functions.mapM options.sandbox.run = .ok outcomes :=
  mapM_ok fun f hf => Sandbox.exists_run rfl (hBuilt f hf).consistent

variable {p : Program}

/-- The work one after the other, in terms of what becomes of each function alone. -/
theorem sandbox_eq {options : Options} {outcomes : List Outcome}
    (hPrepared : p.prepare options = .ok (p.withBase options, options.sandbox))
    (hOutcomes : p.functions.mapM options.sandbox.run = .ok outcomes) :
    p.sandbox options =
      (p.withBase options).conclude (outcomes.map (·.func)) (outcomes.mapM (·.result)) := by
  simp only [sandbox, hPrepared, functions_withBase, bind, Except.bind,
    Sandbox.runAll_eq (mapM_eq_ok_iff.mp hOutcomes)]
  cases outcomes.mapM (·.result) <;> rfl

/-- How the work one after the other can end. -/
theorem sandbox_cases (hBuilt : ∀ f ∈ p.functions, f.Built) (options : Options) :
    (∃ refusal, p.Mismatched options refusal ∧ p.sandbox options = .error (.refused refusal)) ∨
    (∃ results : List (Func × Stats),
      List.Forall₂ (fun f result => options.sandbox.run f = .ok ⟨result.1, .ok result.2⟩)
        p.functions results ∧
      p.sandbox options = .ok ({ p.withBase options with functions := results.map (·.1) },
        (results.map (·.2)).foldl Stats.merge {})) ∨
    ∃ front f back g refusal, p.functions = front ++ f :: back ∧
      (∀ other ∈ front, ∃ k stats, options.sandbox.run other = .ok ⟨k, .ok stats⟩) ∧
      options.sandbox.run f = .ok ⟨g, .error refusal⟩ ∧
      p.sandbox options = .error (.refused refusal) := by
  rcases p.prepare_cases options with ⟨refusal, hMismatched, hError⟩ | hPrepared
  · refine .inl ⟨refusal, hMismatched, ?_⟩
    simp only [sandbox, hError, bind, Except.bind]
  · right
    obtain ⟨outcomes, hOutcomes⟩ := exists_outcomes hBuilt options
    rw [sandbox_eq hPrepared hOutcomes]
    rcases Sandbox.outcomes_cases (mapM_eq_ok_iff.mp hOutcomes) with
      ⟨results, hRuns, hFuncs, hCounts⟩ |
      ⟨front, f, back, g, refusal, hSplit, hFront, hRefused, hError⟩
    · refine .inl ⟨results, hRuns, ?_⟩
      rw [hFuncs, hCounts]
      rfl
    · refine .inr ⟨front, f, back, g, refusal, hSplit, hFront, hRefused, ?_⟩
      rw [hError]
      rfl

/-- Shared work ends as the work one after the other, or early with a refusal that a function has
alone; then the work one after the other is refused too. -/
theorem sandboxShared_cases {sharing : Sharing} {pools : PoolSource}
    (hBuilt : ∀ f ∈ p.functions, f.Built)
    (hPool : 1 < p.functions.length →
      ∃ pool, pools (min sharing.maxWorkers p.functions.length) = .ok pool ∧ pool.Lawful)
    (options : Options) :
    p.sandboxShared options sharing pools = p.sandbox options ∨
    sharing.failFast = true ∧ (∃ stop, p.sandbox options = .error stop) ∧
      ∃ f ∈ p.functions, ∃ g refusal, options.sandbox.run f = .ok ⟨g, .error refusal⟩ ∧
        p.sandboxShared options sharing pools = .error (.refused refusal) := by
  rcases p.prepare_cases options with ⟨refusal, _, hError⟩ | hPrepared
  · left
    simp only [sandboxShared, sandbox, hError, bind, Except.bind]
  obtain ⟨outcomes, hOutcomes⟩ := exists_outcomes hBuilt options
  rw [sandbox_eq hPrepared hOutcomes]
  simp only [sandboxShared, hPrepared, functions_withBase, bind, Except.bind,
    Sandbox.runAll_eq (mapM_eq_ok_iff.mp hOutcomes)]
  by_cases hFew : p.functions.length ≤ 1
  · left
    rw [if_pos hFew]
    cases outcomes.mapM (·.result) <;> rfl
  · obtain ⟨pool, hBuild, hLawful⟩ := hPool (Nat.lt_of_not_le hFew)
    simp only [if_neg hFew, hBuild]
    cases hFast : sharing.failFast with
    | false =>
        left
        rw [hLawful.share_all hOutcomes]
        rfl
    | true =>
        rw [Pool.share, if_pos rfl]
        rcases hLawful.occurred _ _ _ hOutcomes with
          ⟨counts, hCounts, hGather⟩ | ⟨outcome, hOutcome, refusal, functions, hRefused, hGather⟩
        · left
          rw [hGather, hCounts]
          rfl
        · right
          obtain ⟨f, hf, hRun⟩ := exists_of_mem_results hOutcomes hOutcome
          rw [hGather]
          refine ⟨rfl, ?_, f, hf, outcome.func, refusal, by rw [hRun, ← hRefused], rfl⟩
          cases hCounts : outcomes.mapM (·.result) with
          | ok counts => exact absurd hRefused (not_error_of_mapM hCounts hOutcome)
          | error other => exact ⟨_, rfl⟩

end Program

/-- Whatever the pool, shared work yields the result of the work one after the other: the mismatch
of the variable that keeps the work from starting; or the program of the functions as each is left
alone, with the counts of all; or the refusal of the first function that is refused alone. If a
refusal ends the work at once, success is the same still, and any refusal is the mismatch or the
one of some function alone. -/
theorem shared_eq_sequential {p : Program} {options : Options} {sharing : Sharing}
    {pools : PoolSource} (hBuilt : ∀ f ∈ p.functions, f.Built)
    (hPool : 1 < p.functions.length →
      ∃ pool, pools (min sharing.maxWorkers p.functions.length) = .ok pool ∧ pool.Lawful) :
    (sharing.failFast = false → p.sandboxShared options sharing pools = p.sandbox options) ∧
    ((∃ refusal, p.Mismatched options refusal ∧ p.sandbox options = .error (.refused refusal)) ∨
      (∃ results : List (Func × Stats),
        List.Forall₂ (fun f result => options.sandbox.run f = .ok ⟨result.1, .ok result.2⟩)
          p.functions results ∧
        p.sandbox options = .ok ({ p.withBase options with functions := results.map (·.1) },
          (results.map (·.2)).foldl Stats.merge {})) ∨
      ∃ front f back g refusal, p.functions = front ++ f :: back ∧
        (∀ other ∈ front, ∃ k stats, options.sandbox.run other = .ok ⟨k, .ok stats⟩) ∧
        options.sandbox.run f = .ok ⟨g, .error refusal⟩ ∧
        p.sandbox options = .error (.refused refusal)) ∧
    (sharing.failFast = true →
      (∀ result, p.sandboxShared options sharing pools = .ok result ↔
        p.sandbox options = .ok result) ∧
      ∀ stop, p.sandboxShared options sharing pools = .error stop →
        ∃ refusal, stop = .refused refusal ∧
          (p.Mismatched options refusal ∧ p.sandbox options = .error stop ∨
            ∃ f ∈ p.functions, ∃ g, options.sandbox.run f = .ok ⟨g, .error refusal⟩)) := by
  have hSequential := Program.sandbox_cases hBuilt options
  have hShared := Program.sandboxShared_cases hBuilt hPool options
  refine ⟨fun hAll => ?_, hSequential, fun _ => ⟨fun result => ?_, fun stop hStop => ?_⟩⟩
  · rcases hShared with hSame | ⟨hFast, _⟩
    · exact hSame
    · rw [hAll] at hFast
      cases hFast
  · rcases hShared with hSame | ⟨_, ⟨stop, hStop⟩, f, _, g, refusal, _, hRefused⟩
    · rw [hSame]
    · simp [hStop, hRefused]
  · rcases hShared with hSame | ⟨_, _, f, hf, g, refusal, hRun, hRefused⟩
    · rw [hSame] at hStop
      rcases hSequential with ⟨refusal, hMismatched, hError⟩ | ⟨_, _, hOk⟩ |
        ⟨_, f, _, g, refusal, hSplit, _, hRun, hError⟩
      · exact ⟨refusal, Except.error.inj (hStop.symm.trans hError), .inl ⟨hMismatched, hStop⟩⟩
      · rw [hOk] at hStop
        cases hStop
      · exact ⟨refusal, Except.error.inj (hStop.symm.trans hError),
          .inr ⟨f, by simp [hSplit], g, hRun⟩⟩
    · exact ⟨refusal, Except.error.inj (hStop.symm.trans hRefused), .inr ⟨f, hf, g, hRun⟩⟩

def readOnce : List Func.Edit :=
  [.addBlock "entry", .append 0 { opcode := .load, operands := [.arg 0], ty := .i32 }]

def choosePointer : List Func.Edit :=
  [ .addBlock "entry",
    .append 0 { opcode := .select, operands := [.arg 1, .arg 0, .arg 0], ty := .ptr .i32 } ]

def choiceRefused (function : String) : Refusal :=
  .strayPointer ⟨function, .select, 1⟩ "%0 = select i1 %arg1, i32* %arg0, i32* %arg0"

/-- Two functions of four are refused. All are worked on, from the last to the first, and the
refusal is the one of the function that comes first; with an early end it is the other one. -/
theorem shared_eq_sequential_twoRefused :
    ∃ a b c d p, Func.ofEdits "a" [.ptr .i32] .void readOnce = .ok a ∧
      Func.ofEdits "b" [.ptr .i32, .i1] .void choosePointer = .ok b ∧
      Func.ofEdits "c" [.ptr .i32] .void readOnce = .ok c ∧
      Func.ofEdits "d" [.ptr .i32, .i1] .void choosePointer = .ok d ∧
      p = Program.mk "m" [] [a, b, c, d] ∧ p.sandbox {} = .error (.refused (choiceRefused "b")) ∧
      p.sandboxShared {} ⟨4, false⟩ (fun _ => .ok .backwards) =
        .error (.refused (choiceRefused "b")) ∧
      p.sandboxShared {} ⟨4, true⟩ (fun _ => .ok .backwards) =
        .error (.refused (choiceRefused "d")) ∧
      ∃ f ∈ p.functions, ∃ g, (Options.sandbox {}).run f = .ok ⟨g, .error (choiceRefused "d")⟩ := by
  obtain ⟨a, b, c, d, ha, hb, hc, hd, hSequential, hFast⟩ : ∃ a b c d,
      Func.ofEdits "a" [.ptr .i32] .void readOnce = .ok a ∧
      Func.ofEdits "b" [.ptr .i32, .i1] .void choosePointer = .ok b ∧
      Func.ofEdits "c" [.ptr .i32] .void readOnce = .ok c ∧
      Func.ofEdits "d" [.ptr .i32, .i1] .void choosePointer = .ok d ∧
      (Program.mk "m" [] [a, b, c, d]).sandbox {} = .error (.refused (choiceRefused "b")) ∧
      (Program.mk "m" [] [a, b, c, d]).sandboxShared {} ⟨4, true⟩ (fun _ => .ok .backwards) =
        .error (.refused (choiceRefused "d")) := ⟨_, _, _, _, rfl, rfl, rfl, rfl, rfl, rfl⟩
  have hBuilt : ∀ f ∈ [a, b, c, d], f.Built := by
    simp [Func.built_ofEdits ha, Func.built_ofEdits hb, Func.built_ofEdits hc,
      Func.built_ofEdits hd]
  have hPool : ∃ pool, (.ok .backwards : Except String Pool) = .ok pool ∧ pool.Lawful :=
    ⟨.backwards, rfl, Pool.backwards_lawful⟩
  obtain ⟨hAll, _, _⟩ := @shared_eq_sequential ⟨"m", [], [a, b, c, d]⟩ {} ⟨4, false⟩
    (fun _ => .ok .backwards) hBuilt fun _ => hPool
  obtain ⟨_, _, hEarly⟩ := @shared_eq_sequential ⟨"m", [], [a, b, c, d]⟩ {} ⟨4, true⟩
    (fun _ => .ok .backwards) hBuilt fun _ => hPool
  refine ⟨a, b, c, d, _, ha, hb, hc, hd, rfl, hSequential, (hAll rfl).trans hSequential, hFast, ?_⟩
  obtain ⟨refusal, hStop, ⟨_, hSame⟩ | hAlone⟩ := (hEarly rfl).2 _ hFast
  · simp [hSequential, choiceRefused] at hSame
  · obtain rfl := Stop.refused.inj hStop
    exact hAlone

end FaultIsolation
