import FaultIsolation.Memory.Intrinsic
import Mathlib.Data.List.Basic
import Mathlib.Data.List.Nodup

/-!
Which names are recognised. A name belongs to a family if it is the family's name or goes on after
it with a dot, and the longest family that a name belongs to decides what it is. The search cuts off
the last part of the name round after round. Each round takes a dot away, so the search ends for
every text, whatever stands between the dots.
-/
namespace FaultIsolation

namespace Intrinsic

def Belongs (name family : String) : Prop := name = family ∨ ∃ rest, name = family ++ "." ++ rest

/-- The family is the longest that the name belongs to, and this is what stands for it in the
table. -/
structure Decides (name family : String) (found : Intrinsic) : Prop where
  entry : (family, found) ∈ families
  belongs : Belongs name family
  longest : ∀ other ∈ families, Belongs name other.1 → other.1.length ≤ family.length

def Answers (name : String) : Option Intrinsic → Prop
  | some found => ∃ family, Decides name family found
  | none => ¬∃ family ∈ families, Belongs name family.1

/-- The search, round by round. A name that is no family loses its last part and the dot before it,
and the search goes on with what is left. -/
inductive Searches : String → Nat → Option Intrinsic → Prop where
  | found {name : String} {found : Intrinsic} (family : ofFamily? name.toList = some found) :
      Searches name 0 (some found)
  | exhausted {name : String} (unknown : ofFamily? name.toList = none) (plain : '.' ∉ name.toList) :
      Searches name 0 none
  | cut {name front last : String} {rounds : Nat} {answer : Option Intrinsic}
      (unknown : ofFamily? name.toList = none) (split : name = front ++ "." ++ last)
      (plain : '.' ∉ last.toList) (rest : Searches front rounds answer) :
      Searches name (rounds + 1) answer

theorem toList_dotted (front last : String) :
    (front ++ "." ++ last).toList = front.toList ++ '.' :: last.toList := by
  simp

/-- A name belongs to itself and to what the part before its last dot belongs to. -/
theorem belongs_dotted_iff {front last family : String} (hPlain : '.' ∉ last.toList) :
    Belongs (front ++ "." ++ last) family ↔ family = front ++ "." ++ last ∨
      Belongs front family := by
  constructor
  · rintro (hSame | ⟨rest, hRest⟩)
    · exact .inl hSame.symm
    · right
      rw [← String.toList_inj, toList_dotted, toList_dotted, List.append_eq_append_iff] at hRest
      rcases hRest with ⟨more, hFamily, hLast⟩ | ⟨more, hFront, hRest⟩
      · -- The family would end beyond the last dot, where no dot can follow it.
        cases more with
        | nil => exact .inl (String.toList_inj.mp (by simpa using hFamily.symm))
        | cons c more =>
            obtain ⟨-, hLast⟩ := List.cons.inj hLast
            exact absurd (by simp [hLast]) hPlain
      · cases more with
        | nil => exact .inl (String.toList_inj.mp (by simpa using hFront))
        | cons c more =>
            obtain ⟨rfl, -⟩ := List.cons.inj hRest
            refine .inr ⟨String.ofList more, String.toList_inj.mp ?_⟩
            rw [toList_dotted, hFront, String.toList_ofList]
  · rintro (rfl | rfl | ⟨rest, rfl⟩)
    · exact .inl rfl
    · exact .inr ⟨last, rfl⟩
    · exact .inr ⟨rest ++ "." ++ last, by simp only [String.append_assoc]⟩

/-- A name without dots belongs to no family but itself. -/
theorem Belongs.eq_of_plain {name family : String} (h : Belongs name family)
    (hPlain : '.' ∉ name.toList) : name = family := by
  rcases h with hSame | ⟨rest, rfl⟩
  · exact hSame
  · simp at hPlain

theorem Belongs.isPrefix {name family : String} (h : Belongs name family) :
    family.toList <+: name.toList := by
  rcases h with rfl | ⟨rest, rfl⟩
  · exact List.prefix_refl _
  · rw [toList_dotted]
    exact List.prefix_append _ _

/-- A family is no longer than the names that belong to it. -/
theorem Belongs.length_le {name family : String} (h : Belongs name family) :
    family.length ≤ name.length := by
  rw [← String.length_toList, ← String.length_toList]
  exact h.isPrefix.length_le

/-- Of the families of a name, no two are equally long. -/
theorem Belongs.eq_of_length {name family other : String} (h : Belongs name family)
    (hOther : Belongs name other) (hLength : family.length = other.length) : family = other := by
  rw [← String.length_toList, ← String.length_toList] at hLength
  have hPrefix := List.prefix_of_prefix_length_le h.isPrefix hOther.isPrefix (Nat.le_of_eq hLength)
  exact String.toList_inj.mp (hPrefix.eq_of_length hLength)

/-- Where no two entries have one key, looking a key up finds the entry of that key. -/
theorem find?_key_iff {α κ : Type} [DecidableEq κ] {key : α → κ} {entries : List α}
    (hNodup : (entries.map key).Nodup) {k : κ} {entry : α} :
    (entries.find? fun e => key e = k) = some entry ↔ entry ∈ entries ∧ key entry = k := by
  constructor
  · intro hFind
    exact ⟨List.mem_of_find?_eq_some hFind, by simpa using List.find?_some hFind⟩
  · rintro ⟨hMem, rfl⟩
    obtain ⟨found, hFind⟩ : ∃ found, (entries.find? fun e => key e = key entry) = some found :=
      Option.isSome_iff_exists.mp (List.find?_isSome.mpr ⟨entry, hMem, decide_eq_true rfl⟩)
    have hKey : key found = key entry := by simpa using List.find?_some hFind
    rw [hFind, List.inj_on_of_nodup_map hNodup (List.mem_of_find?_eq_some hFind) hMem hKey]

/-- No family is in the table twice. -/
theorem nodup_families : (families.map fun family => family.1.toList).Nodup := by
  have hNames : (families.map Prod.fst).Nodup := by decide +kernel
  have hTexts := hNames.map fun _ _ => String.toList_inj.mp
  rwa [List.map_map] at hTexts

/-- Looking up a family finds what the table has for it. -/
theorem ofFamily?_eq_some_iff {name : String} {found : Intrinsic} :
    ofFamily? name.toList = some found ↔ (name, found) ∈ families := by
  have hFind : ∀ entry, (families.find? fun family => family.1.toList = name.toList) = some entry ↔
      entry ∈ families ∧ entry.1.toList = name.toList := fun entry => find?_key_iff nodup_families
  constructor
  · intro h
    obtain ⟨⟨family, _⟩, hEntry, rfl⟩ := Option.map_eq_some_iff.mp h
    obtain ⟨hMem, hName⟩ := (hFind _).mp hEntry
    obtain rfl : family = name := String.toList_inj.mp hName
    exact hMem
  · intro hMem
    rw [ofFamily?, (hFind (name, found)).mpr ⟨hMem, rfl⟩]
    rfl

/-- Looking up anything else finds nothing. -/
theorem ofFamily?_eq_none_iff {name : String} :
    ofFamily? name.toList = none ↔ ∀ entry ∈ families, entry.1 ≠ name := by
  rw [Option.eq_none_iff_forall_ne_some]
  simp only [ne_eq, ofFamily?_eq_some_iff]
  refine ⟨fun h entry hEntry hName => h entry.2 (hName ▸ hEntry),
    fun h found hFound => h _ hFound rfl⟩

/-- There is one right answer. -/
theorem Answers.unique {name : String} {first second : Option Intrinsic}
    (hFirst : Answers name first) (hSecond : Answers name second) : first = second := by
  cases first with
  | none =>
      cases second with
      | none => rfl
      | some found =>
          obtain ⟨family, h⟩ := hSecond
          exact absurd ⟨_, h.entry, h.belongs⟩ hFirst
  | some found =>
      obtain ⟨family, h⟩ := hFirst
      cases second with
      | none => exact absurd ⟨_, h.entry, h.belongs⟩ hSecond
      | some other =>
          obtain ⟨family', h'⟩ := hSecond
          have hLe : family.length ≤ family'.length := h'.longest (family, found) h.entry h.belongs
          have hGe : family'.length ≤ family.length :=
            h.longest (family', other) h'.entry h'.belongs
          obtain rfl : family = family' :=
            h.belongs.eq_of_length h'.belongs (Nat.le_antisymm hLe hGe)
          rw [← ofFamily?_eq_some_iff.mpr h.entry, ofFamily?_eq_some_iff.mpr h'.entry]

/-- A round that finds no family loses no family: those of the name are those of the part that is
left. -/
theorem answers_of_cut {name front last : String} {answer : Option Intrinsic}
    (hUnknown : ofFamily? name.toList = none) (hSplit : name = front ++ "." ++ last)
    (hPlain : '.' ∉ last.toList) (h : Answers front answer) : Answers name answer := by
  have hBelongs : ∀ entry ∈ families, Belongs name entry.1 ↔ Belongs front entry.1 := by
    intro entry hEntry
    rw [hSplit, belongs_dotted_iff hPlain, or_iff_right]
    exact hSplit ▸ ofFamily?_eq_none_iff.mp hUnknown entry hEntry
  cases answer with
  | none =>
      rintro ⟨entry, hEntry, hName⟩
      exact h ⟨entry, hEntry, (hBelongs entry hEntry).mp hName⟩
  | some found =>
      obtain ⟨family, hDecides⟩ := h
      refine ⟨family, hDecides.entry, (hBelongs _ hDecides.entry).mpr hDecides.belongs,
        fun other hOther hName => ?_⟩
      exact hDecides.longest other hOther ((hBelongs other hOther).mp hName)

/-- A search that ends has the answer. -/
theorem Searches.answers {name : String} {rounds : Nat} {answer : Option Intrinsic}
    (h : Searches name rounds answer) : Answers name answer := by
  induction h with
  | found family => exact ⟨_, ofFamily?_eq_some_iff.mp family, .inl rfl, fun _ _ hOther =>
      hOther.length_le⟩
  | exhausted unknown plain =>
      rintro ⟨entry, hEntry, hName⟩
      exact ofFamily?_eq_none_iff.mp unknown entry hEntry (hName.eq_of_plain plain).symm
  | cut unknown split plain rest ih => exact answers_of_cut unknown split plain ih

/-- Every round takes a dot away. -/
theorem Searches.rounds_le {name : String} {rounds : Nat} {answer : Option Intrinsic}
    (h : Searches name rounds answer) : rounds ≤ name.toList.count '.' := by
  induction h with
  | found family => exact Nat.zero_le _
  | exhausted unknown plain => exact Nat.zero_le _
  | cut unknown split plain rest ih =>
      rw [split, toList_dotted, List.count_append, List.count_cons_self]
      omega

/-- What has no dot holds nothing to find. -/
theorem search_append {tail : List Char} (hPlain : '.' ∉ tail) (rest : List Char) :
    search (tail ++ rest) = search rest := by
  induction tail with
  | nil => rfl
  | cons c tail ih =>
      rw [List.mem_cons, not_or] at hPlain
      rw [List.cons_append, search, if_neg (Ne.symm hPlain.1)]
      exact ih hPlain.2

/-- A family name is its own longest family. -/
theorem longestFamily?_of_family {name : String} {found : Intrinsic}
    (h : ofFamily? name.toList = some found) : longestFamily? name = some found := by
  rw [longestFamily?, h]

theorem longestFamily?_of_plain {name : String} (hUnknown : ofFamily? name.toList = none)
    (hPlain : '.' ∉ name.toList) : longestFamily? name = none := by
  have hSearch : search (name.toList.reverse ++ []) = search [] :=
    search_append (by simpa using hPlain) []
  rw [List.append_nil] at hSearch
  rw [longestFamily?, hUnknown, hSearch]
  rfl

/-- If the whole name is no family, its last part does not matter. -/
theorem longestFamily?_dotted {front last : String}
    (hUnknown : ofFamily? (front ++ "." ++ last).toList = none) (hPlain : '.' ∉ last.toList) :
    longestFamily? (front ++ "." ++ last) = longestFamily? front := by
  have hBackwards : (front ++ "." ++ last).toList.reverse = last.toList.reverse ++ '.' ::
      front.toList.reverse := by
    rw [toList_dotted]
    simp
  rw [longestFamily?, hUnknown, hBackwards, search_append (by simpa using hPlain), search,
    if_pos rfl, List.reverse_reverse]
  rfl

/-- The last dot divides a name that has one. -/
theorem exists_dotted {name : String} (h : '.' ∈ name.toList) :
    ∃ front last, name = front ++ "." ++ last ∧ '.' ∉ last.toList := by
  obtain ⟨back, front, hSplit, hPlain⟩ := List.eq_append_cons_of_mem (List.mem_reverse.mpr h)
  refine ⟨String.ofList front.reverse, String.ofList back.reverse, String.toList_inj.mp ?_,
    by simpa using hPlain⟩
  rw [toList_dotted, ← List.reverse_reverse name.toList, hSplit]
  simp

/-- The search ends, with what the name is recognised as. -/
theorem exists_searches (name : String) : ∃ rounds, Searches name rounds (longestFamily? name) := by
  induction hDots : name.toList.count '.' using Nat.strongRecOn generalizing name with
  | ind dots ih =>
      cases hFamily : ofFamily? name.toList with
      | some found => exact ⟨0, longestFamily?_of_family hFamily ▸ .found hFamily⟩
      | none =>
          by_cases hDot : '.' ∈ name.toList
          · obtain ⟨front, last, rfl, hPlain⟩ := exists_dotted hDot
            have hFewer : front.toList.count '.' < dots := by
              rw [← hDots, toList_dotted, List.count_append, List.count_cons_self]
              omega
            obtain ⟨rounds, hRest⟩ := ih _ hFewer front rfl
            exact ⟨rounds + 1, longestFamily?_dotted hFamily hPlain ▸ .cut hFamily rfl hPlain hRest⟩
          · exact ⟨0, longestFamily?_of_plain hFamily hDot ▸ .exhausted hFamily hDot⟩

/-- The search finds what belongs to the longest family of the name, and nothing if there is
none. -/
theorem longestFamily?_eq_iff {name : String} {answer : Option Intrinsic} :
    longestFamily? name = answer ↔ Answers name answer := by
  obtain ⟨rounds, hSearch⟩ := exists_searches name
  refine ⟨fun h => h ▸ hSearch.answers, hSearch.answers.unique⟩

/-- All families start alike. -/
theorem marker_isPrefix : ∀ family ∈ families, marker.toList <+: family.1.toList := by
  decide +kernel

/-- The look at how a name begins decides nothing: a name that belongs to a family begins as the
family does. -/
theorem ofName?_eq (name : String) : ofName? name = longestFamily? name := by
  unfold ofName?
  split
  · rfl
  · next hOther =>
      refine (longestFamily?_eq_iff.mpr ?_).symm
      rintro ⟨family, hFamily, hBelongs⟩
      have hBegins := (marker_isPrefix family hFamily).trans hBelongs.isPrefix
      exact hOther (List.isPrefixOf_iff_prefix.mpr hBegins)

end Intrinsic

/-- A name is recognised exactly if it belongs to a family, and then as what stands in the table for
the longest family that it belongs to. The search that cuts off part after part comes to an end for
every name, after at most as many rounds as the name has dots, and with that answer alone. -/
theorem names_recognised_exactly (name : String) :
    (∀ found, Intrinsic.ofName? name = some found ↔ ∃ family, Intrinsic.Decides name family found) ∧
      (Intrinsic.ofName? name = none ↔ ¬∃ family ∈ Intrinsic.families,
        Intrinsic.Belongs name family.1) ∧
      ∀ answer, (∃ rounds ≤ name.toList.count '.', Intrinsic.Searches name rounds answer) ↔
        answer = Intrinsic.ofName? name := by
  rw [Intrinsic.ofName?_eq]
  refine ⟨fun found => Intrinsic.longestFamily?_eq_iff, Intrinsic.longestFamily?_eq_iff,
    fun answer => ⟨?_, ?_⟩⟩
  · rintro ⟨rounds, -, hSearch⟩
    exact (Intrinsic.longestFamily?_eq_iff.mpr hSearch.answers).symm
  · rintro rfl
    obtain ⟨rounds, hSearch⟩ := Intrinsic.exists_searches name
    exact ⟨rounds, hSearch.rounds_le, hSearch⟩

-- Dots may stand side by side or at the end, and anything may stand between them; a dot in front
-- makes another name.
example : Intrinsic.ofName? "llvm.nacl.atomic.fence..all.ß." = some (.atomic .fence) ∧
    Intrinsic.ofName? ".llvm.memcpy" = none := by decide +kernel

end FaultIsolation
