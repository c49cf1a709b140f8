import FaultIsolation.Region.Program
import Mathlib.Data.List.Basic

/-!
The written forms of types. A form is taken apart from its end. The last character tells the kind of
type. The brackets of a form match, so the bracket that closes a function type leads back to the one
that opens its parameters, and a comma divides these parameters if it stands inside no further
bracket. Hence no two types are written alike, and a message that tells two types apart shows two
texts.
-/
namespace FaultIsolation

/-- Brackets match: as many close as open, and from no place on do more open than close. -/
structure Matched (cs : List Char) : Prop where
  balanced : cs.count '(' = cs.count ')'
  closes : ∀ front back, cs = front ++ back → back.count '(' ≤ back.count ')'

def Guarded (cs : List Char) : Prop :=
  ∀ front back, cs = front ++ ',' :: back → front.count ')' < front.count '('

namespace Matched

variable {cs ds : List Char}

/-- Up to no place do more brackets close than open. -/
theorem opens (h : Matched cs) {front back : List Char} (hSplit : cs = front ++ back) :
    front.count ')' ≤ front.count '(' := by
  have hBalanced := h.balanced
  have hCloses := h.closes front back hSplit
  rw [hSplit, List.count_append, List.count_append] at hBalanced
  omega

/-- Text without brackets is matched. -/
theorem of_plain (hOpen : '(' ∉ cs) (hClose : ')' ∉ cs) : Matched cs := by
  refine ⟨by rw [List.count_eq_zero_of_not_mem hOpen, List.count_eq_zero_of_not_mem hClose], ?_⟩
  rintro front back rfl
  have hBack : '(' ∉ back := fun h => hOpen (List.mem_append_right front h)
  rw [List.count_eq_zero_of_not_mem hBack]
  exact Nat.zero_le _

/-- Matched texts side by side are matched. -/
theorem append (hc : Matched cs) (hd : Matched ds) : Matched (cs ++ ds) := by
  refine ⟨by rw [List.count_append, List.count_append, hc.balanced, hd.balanced],
    fun front back hSplit => ?_⟩
  rcases List.append_eq_append_iff.mp hSplit with ⟨more, -, hBack⟩ | ⟨more, hFront, rfl⟩
  · exact hd.closes more back hBack
  · have hMore := hc.closes front more hFront
    have hRest := hd.balanced
    rw [List.count_append, List.count_append]
    omega

/-- Around matching brackets a further pair matches. -/
theorem bracketed (h : Matched cs) : Matched ('(' :: cs ++ [')']) := by
  refine ⟨by simp [h.balanced], fun front back hSplit => ?_⟩
  cases front with
  | nil =>
      obtain rfl : '(' :: cs ++ [')'] = back := hSplit
      simp [h.balanced]
  | cons c front =>
      obtain ⟨-, hInner⟩ := List.cons.inj hSplit
      rcases List.append_eq_append_iff.mp hInner with ⟨more, -, hBack⟩ | ⟨more, hFront, rfl⟩
      · rcases List.append_eq_singleton_iff.mp hBack.symm with ⟨-, rfl⟩ | ⟨-, rfl⟩ <;> simp
      · have hMore := h.closes front more hFront
        have hOpen : [')'].count '(' = 0 := rfl
        rw [List.count_append, List.count_append, hOpen]
        exact Nat.le_add_right_of_le hMore

/-- Matching brackets do not end with a bracket that opens and matching brackets after it. -/
theorem ne_append_open {between : List Char} (hc : Matched cs) (hd : Matched ds) :
    cs ≠ between ++ '(' :: ds := by
  intro hEq
  have hCloses := hc.closes between _ hEq
  have hBalanced := hd.balanced
  rw [List.count_cons_self, List.count_cons_of_ne (by decide)] at hCloses
  omega

/-- What matching brackets enclose begins where the bracket before it opens, and that bracket is
found from the end. -/
theorem enclosed_unique {front more : List Char} (hc : Matched cs) (hd : Matched ds)
    (hSame : front ++ '(' :: cs = more ++ '(' :: ds) : front = more ∧ cs = ds := by
  rcases List.append_eq_append_iff.mp hSame with ⟨between, hMore, hRest⟩ | ⟨between, hFront, hRest⟩
  · cases between with
    | nil => exact ⟨by simpa using hMore.symm, (List.cons.inj hRest).2⟩
    | cons c between => exact absurd (List.cons.inj hRest).2 (hc.ne_append_open hd)
  · cases between with
    | nil => exact ⟨by simpa using hFront, (List.cons.inj hRest).2.symm⟩
    | cons c between => exact absurd (List.cons.inj hRest).2 (hd.ne_append_open hc)

/-- A divider right after matching brackets would stand inside no bracket. -/
theorem eq_nil_of_divider {more rest tail : List Char} (hc : Matched cs)
    (hds : Guarded (cs ++ more)) (hRest : rest.head?.all (· = ','))
    (hDivider : rest = more ++ tail) : more = [] := by
  cases more with
  | nil => rfl
  | cons c more =>
      obtain rfl : c = ',' := by simpa [hDivider] using hRest
      have hInside := hds cs more rfl
      rw [hc.balanced] at hInside
      exact absurd hInside (Nat.lt_irrefl _)

/-- A divided list has its first item before the first comma that stands inside no bracket. -/
theorem first_unique {rest tail : List Char} (hc : Matched cs) (hd : Matched ds) (hcs : Guarded cs)
    (hds : Guarded ds) (hRest : rest.head?.all (· = ',')) (hTail : tail.head?.all (· = ','))
    (hSame : cs ++ rest = ds ++ tail) : cs = ds ∧ rest = tail := by
  rcases List.append_eq_append_iff.mp hSame with ⟨more, rfl, hDivider⟩ | ⟨more, rfl, hDivider⟩
  · obtain rfl := hc.eq_nil_of_divider hds hRest hDivider
    exact ⟨(List.append_nil cs).symm, hDivider⟩
  · obtain rfl := hd.eq_nil_of_divider hcs hTail hDivider
    exact ⟨List.append_nil ds, hDivider.symm⟩

end Matched

namespace Guarded

variable {cs ds : List Char}

theorem of_plain (h : ',' ∉ cs) : Guarded cs := by
  rintro front back rfl
  simp at h

/-- Guarded text may follow text that is guarded and matched. -/
theorem append (hcs : Guarded cs) (hc : Matched cs) (hds : Guarded ds) : Guarded (cs ++ ds) := by
  intro front back hSplit
  rcases List.append_eq_append_iff.mp hSplit with ⟨more, rfl, hRest⟩ | ⟨more, hFront, hRest⟩
  · have hMore := hds more back hRest
    have hBalanced := hc.balanced
    rw [List.count_append, List.count_append]
    omega
  · cases more with
    | nil => exact absurd (hds [] back hRest.symm) (Nat.lt_irrefl _)
    | cons c more =>
        obtain ⟨rfl, -⟩ := List.cons.inj hRest
        exact hcs front more hFront

end Guarded

/-- Matching brackets keep the outer pair open up to the end. -/
theorem Matched.guarded {cs : List Char} (h : Matched cs) : Guarded ('(' :: cs ++ [')']) := by
  intro front back hSplit
  cases front with
  | nil => simp at hSplit
  | cons c front =>
      obtain ⟨rfl, hInner⟩ := List.cons.inj hSplit
      rcases List.append_eq_append_iff.mp hInner with ⟨more, -, hRest⟩ | ⟨more, hFront, -⟩
      · have hComma : ',' ∈ [')'] := hRest ▸ by simp
        simp at hComma
      · have hOpens := h.opens hFront
        rw [List.count_cons_self, List.count_cons_of_ne (by decide)]
        omega

namespace Ty

/-- A number is written in digits only. -/
theorem not_mem_toDigits {c : Char} (hc : c.isDigit = false) (bits : Nat) :
    c ∉ Nat.toDigits 10 bits := by
  intro hMem
  rw [Nat.isDigit_of_mem_toDigits (by decide) (by decide) hMem] at hc
  cases hc

mutual

/-- The brackets of a written type are matched. -/
theorem matched_chars : ∀ t : Ty, Matched t.chars
  | .void => .of_plain (by decide) (by decide)
  | .int bits => .of_plain (by simp [chars, not_mem_toDigits]) (by simp [chars, not_mem_toDigits])
  | .ptr target => by
      rw [chars]
      exact (matched_chars target).append (.of_plain (by decide) (by decide))
  | .fn result params => by
      have hBlank : Matched [' '] := .of_plain (by decide) (by decide)
      have hParams : Matched (paramChars params) := matched_paramChars params
      rw [chars]
      simpa using (matched_chars result).append (hBlank.append hParams.bracketed)

theorem matched_paramChars : ∀ ts : List Ty, Matched (paramChars ts)
  | [] => .of_plain (by simp [paramChars]) (by simp [paramChars])
  | t :: ts => by
      rw [paramChars]
      exact (matched_chars t).append (matched_restChars ts)

theorem matched_restChars : ∀ ts : List Ty, Matched (restChars ts)
  | [] => .of_plain (by simp [restChars]) (by simp [restChars])
  | t :: ts => by
      have hDivider : Matched [',', ' '] := .of_plain (by decide) (by decide)
      rw [restChars]
      simpa using hDivider.append ((matched_chars t).append (matched_restChars ts))

end

/-- Every comma of a written type stands inside brackets. -/
theorem guarded_chars : ∀ t : Ty, Guarded t.chars
  | .void => .of_plain (by decide)
  | .int bits => .of_plain (by simp [chars, not_mem_toDigits])
  | .ptr target => by
      rw [chars]
      exact (guarded_chars target).append (matched_chars target) (.of_plain (by decide))
  | .fn result params => by
      have hBlank : Matched [' '] := .of_plain (by decide) (by decide)
      have hOpened : Guarded (' ' :: ('(' :: paramChars params ++ [')'])) :=
        Guarded.append (.of_plain (by decide)) hBlank (matched_paramChars params).guarded
      rw [chars]
      simpa using (guarded_chars result).append (matched_chars result) hOpened

def mark : Ty → Char
  | .void => 'd'
  | .int _ => '0'
  | .ptr _ => '*'
  | .fn _ _ => ')'

/-- The last character of a written type tells its kind. -/
theorem mark_eq (t : Ty) :
    (t.chars.getLast?.map fun c => if c.isDigit then '0' else c) = some t.mark := by
  cases t with
  | void => rfl
  | int bits =>
      obtain ⟨digits, last, hDigits⟩ :=
        (List.eq_nil_or_concat' (Nat.toDigits 10 bits)).resolve_left Nat.toDigits_ne_nil
      have hLast : last.isDigit = true :=
        Nat.isDigit_of_mem_toDigits (b := 10) (n := bits) (by decide) (by decide)
          (by simp [hDigits])
      rw [chars, hDigits, ← List.cons_append, List.getLast?_concat]
      simp [mark, hLast]
  | ptr target =>
      rw [chars, List.getLast?_concat]
      rfl
  | fn result params =>
      rw [chars, List.getLast?_concat]
      rfl

theorem mark_eq_of_chars {t u : Ty} (h : t.chars = u.chars) : t.mark = u.mark := by
  have hMark := mark_eq t
  rw [h, mark_eq u] at hMark
  exact (Option.some.inj hMark).symm

/-- Different numbers are written differently. -/
theorem toDigits_injective {m n : Nat} (h : Nat.toDigits 10 m = Nat.toDigits 10 n) : m = n := by
  rw [← Nat.ofDigitChars_ten_toDigits (n := m), h, Nat.ofDigitChars_ten_toDigits]

/-- The written form of a function type can be cut into its result and its parameters. -/
theorem fn_chars_inj {result other : Ty} {params more : List Ty}
    (h : (fn result params).chars = (fn other more).chars) :
    result.chars = other.chars ∧ paramChars params = paramChars more := by
  rw [chars, chars] at h
  have hOpen : (result.chars ++ [' ']) ++ '(' :: paramChars params = (other.chars ++ [' ']) ++
    '(' :: paramChars more := by
    simpa using List.append_cancel_right h
  obtain ⟨hResult, hParams⟩ := (matched_paramChars params).enclosed_unique
    (matched_paramChars more) hOpen
  exact ⟨List.append_cancel_right hResult, hParams⟩

theorem head?_restChars (ts : List Ty) : (restChars ts).head?.all (· = ',') := by
  cases ts with
  | nil => simp [restChars]
  | cons t ts => simp [restChars]

/-- The first of several parameters ends at the first comma outside of brackets. -/
theorem item_chars_inj {t u : Ty} {ts us : List Ty}
    (h : t.chars ++ restChars ts = u.chars ++ restChars us) :
    t.chars = u.chars ∧ restChars ts = restChars us :=
  (matched_chars t).first_unique (matched_chars u) (guarded_chars t) (guarded_chars u)
    (head?_restChars ts) (head?_restChars us) h

theorem chars_ne_nil (t : Ty) : t.chars ≠ [] := by
  intro hNil
  have hMark := mark_eq t
  rw [hNil] at hMark
  cases hMark

mutual

/-- No two types are written alike. -/
theorem eq_of_chars : ∀ t u : Ty, t.chars = u.chars → t = u
  -- Both types are taken apart at once: a form that ends alike belongs to the same kind, and its
  -- parts are found from the end.
  | .void, .void, _ => rfl
  | .int m, .int n, h => by
      have hDigits : Nat.toDigits 10 m = Nat.toDigits 10 n := by simpa [chars] using h
      rw [toDigits_injective hDigits]
  | .ptr s, .ptr t, h => by
      have hTarget : s.chars = t.chars := by simpa [chars] using h
      rw [eq_of_chars s t hTarget]
  | .fn r ps, .fn q qs, h => by
      obtain ⟨hResult, hParams⟩ := fn_chars_inj h
      rw [eq_of_chars r q hResult, eq_of_paramChars ps qs hParams]
  | .void, .int _, h | .void, .ptr _, h | .void, .fn _ _, h
  | .int _, .void, h | .int _, .ptr _, h | .int _, .fn _ _, h
  | .ptr _, .void, h | .ptr _, .int _, h | .ptr _, .fn _ _, h
  | .fn _ _, .void, h | .fn _ _, .int _, h | .fn _ _, .ptr _, h => by
      simpa [mark] using mark_eq_of_chars h

/-- Different lists of parameters are written differently. -/
theorem eq_of_paramChars : ∀ ts us : List Ty, paramChars ts = paramChars us → ts = us
  | [], [], _ => rfl
  | [], u :: us, h | u :: us, [], h => by simp [paramChars, chars_ne_nil] at h
  | t :: ts, u :: us, h => by
      obtain ⟨hFirst, hRest⟩ := item_chars_inj h
      rw [eq_of_chars t u hFirst, eq_of_restChars ts us hRest]

theorem eq_of_restChars : ∀ ts us : List Ty, restChars ts = restChars us → ts = us
  | [], [], _ => rfl
  | [], u :: us, h | u :: us, [], h => by simp [restChars] at h
  | t :: ts, u :: us, h => by
      obtain ⟨hFirst, hRest⟩ := item_chars_inj (by simpa [restChars] using h)
      rw [eq_of_chars t u hFirst, eq_of_restChars ts us hRest]

end

/-- Types with the same text are the same. -/
theorem text_inj {t u : Ty} : t.text = u.text ↔ t = u :=
  ⟨fun h => eq_of_chars t u (String.ofList_injective h), fun h => h ▸ rfl⟩

end Ty

/-- A variable is refused if the first of its name has other contents, and only then. -/
theorem Program.requireGlobal_error_iff {p : Program} {name : String} {contents : Ty}
    {refusal : Refusal} :
    p.requireGlobal name contents = .error refusal ↔
      ∃ found, p.global? name = some found ∧ found.contents ≠ contents ∧
        refusal = .globalMismatch name contents found.contents := by
  cases hGlobal : p.global? name with
  | none => simp [requireGlobal, hGlobal]
  | some found =>
      by_cases hSame : found.contents = contents
      · simp [requireGlobal, hGlobal, hSame]
      · simp [requireGlobal, hGlobal, hSame, @eq_comm _ refusal]

/-- Types are written alike only if they are the same. So the refusal of a variable that exists with
other contents shows the type asked for and the type found by different texts. -/
theorem type_texts_unambiguous :
    (∀ t u : Ty, t.text = u.text ↔ t = u) ∧
      ∀ (p : Program) (name : String) (contents : Ty) (refusal : Refusal),
        p.requireGlobal name contents = .error refusal →
          ∃ found, refusal = .globalMismatch name contents found ∧ contents.text ≠ found.text ∧
            refusal.message =
            s!"global `{name}` is declared as {found.text}, expected {contents.text}" := by
  refine ⟨fun t u => Ty.text_inj, fun p name contents refusal hRefused => ?_⟩
  obtain ⟨found, _, hOther, rfl⟩ := Program.requireGlobal_error_iff.mp hRefused
  exact ⟨found.contents, rfl, fun hText => hOther (Ty.text_inj.mp hText).symm, rfl⟩

def takesFunction : Program := { name := "m", globals := [⟨"f", .fn .void [.fn .i1 [.i1, .i1]]⟩] }

/-- The type asked for and the type found are written with the same characters; only a bracket
stands elsewhere. -/
theorem type_texts_unambiguous_takesFunction :
    ∃ refusal found, takesFunction.requireGlobal "f" (.fn .void [.fn .i1 [.i1], .i1]) =
      .error refusal ∧ refusal = .globalMismatch "f" (.fn .void [.fn .i1 [.i1], .i1]) found ∧
      (Ty.fn .void [.fn .i1 [.i1], .i1]).text ≠ found.text := by
  have hRefused : takesFunction.requireGlobal "f" (.fn .void [.fn .i1 [.i1], .i1]) =
      .error (.globalMismatch "f" (.fn .void [.fn .i1 [.i1], .i1])
        (.fn .void [.fn .i1 [.i1, .i1]])) := rfl
  obtain ⟨found, hRefusal, hTexts, _⟩ := type_texts_unambiguous.2 _ _ _ _ hRefused
  exact ⟨_, found, hRefused, hRefusal, hTexts⟩

end FaultIsolation
