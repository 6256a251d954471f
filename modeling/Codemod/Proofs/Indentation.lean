import Codemod.Proofs.Declarations

/-!
The layout of a manifest in which dependencies were declared.

In an object that was written over several lines the first member begins the second line, behind
one unit of indentation and with a quote. So the unit is found again whatever the members are, and
the manifest with the dependencies is written like the old one.
-/
namespace Codemod

namespace Text

/-- What stands in front of the first separator begins the first part. -/
theorem exists_split_append {sep : Char} {front : List Char} (h : sep ∉ front) (cs : List Char) :
    ∃ part parts, split sep (front ++ cs) = (front ++ part) :: parts := by
  induction front with
  | nil => exact List.exists_cons_of_ne_nil (split_ne_nil sep cs)
  | cons c front ih =>
    obtain ⟨hc, hfront⟩ : sep ≠ c ∧ sep ∉ front := by simpa using h
    obtain ⟨part, parts, he⟩ := ih hfront
    exact ⟨part, parts, by rw [List.cons_append, split, if_neg (Ne.symm hc), he, List.cons_append]⟩

end Text

namespace Manifest

open Json

/-- A unit of indentation: spaces and tabs, and at least one of them. -/
structure IsUnit (unit : String) : Prop where
  nonempty : unit.toList ≠ []
  indents : ∀ c ∈ unit.toList, Text.isIndent c = true

section written

variable {unit : String} {members : Table} {tail : String}

/-- The indentation of a line is what stands in front of its first other character. -/
theorem indentOf?_append (hu : IsUnit unit) {c : Char} (hc : Text.isBlank c = false)
    (cs : List Char) : indentOf? (unit.toList ++ c :: cs) = some unit.toList := by
  have hstop : Text.isIndent c = false := by
    rw [Bool.eq_false_iff]
    intro h
    simp only [Text.isIndent, Bool.or_eq_true, beq_iff_eq] at h
    rcases h with rfl | rfl <;> exact absurd hc (by decide)
  have hsays : ¬ (unit.toList ++ c :: cs).all Text.isBlank = true := by
    simp [List.all_append, hc]
  have hindent : (unit.toList ++ c :: cs).takeWhile Text.isIndent = unit.toList := by
    rw [List.takeWhile_append_of_pos hu.indents, List.takeWhile_cons_of_neg (by simp [hstop]),
      List.append_nil]
  rw [indentOf?, if_neg hsays, hindent]
  obtain ⟨d, ds, hd⟩ := List.exists_cons_of_ne_nil hu.nonempty
  rw [hd]

/-- The second line of a written object begins with the unit and a quote. -/
theorem exists_pretty_eq (unit : String) (hne : members ≠ []) :
    ∃ cs, (Json.pretty unit (.object members)).toList =
      '\x7b' :: '\n' :: (unit.toList ++ '\x22' :: cs) := by
  obtain ⟨member, rest, rfl⟩ := List.exists_cons_of_ne_nil hne
  refine ⟨member.1.toList.flatMap escapeChar ++ '\x22' :: ':' :: ' ' ::
    (prettyChars unit.toList 1 member.2 ++ moreMembers unit.toList 0 rest), ?_⟩
  simp [pretty, prettyChars_object, openMembers, memberText, newline, quote]

/-- A written object is closed at its end. -/
theorem exists_pretty_eq_concat (unit : String) (hne : members ≠ []) :
    ∃ cs, (Json.pretty unit (.object members)).toList = cs ++ ['\x7d'] := by
  obtain ⟨member, rest, rfl⟩ := List.exists_cons_of_ne_nil hne
  refine ⟨'\x7b' :: (prettyChars.prettyMembers unit.toList 1 (member :: rest) ++
    newline unit.toList 0), ?_⟩
  simp [pretty, prettyChars]

/-- The unit that an object was written with is found again. -/
theorem detectIndent_pretty (hu : IsUnit unit) (hne : members ≠ []) (tail : String) :
    detectIndent (Json.pretty unit (.object members) ++ tail) = unit := by
  obtain ⟨cs, hcs⟩ := exists_pretty_eq unit hne
  have hline : '\n' ∉ unit.toList ++ ['\x22'] := by
    intro hm
    rcases List.mem_append.1 hm with hm | hm
    · exact absurd (hu.indents _ hm) (by decide)
    · exact absurd hm (by decide)
  obtain ⟨part, parts, hsplit⟩ := Text.exists_split_append hline (cs ++ tail.toList)
  have hlines : Text.split '\n' (Json.pretty unit (.object members) ++ tail).toList =
      ['\x7b'] :: (unit.toList ++ '\x22' :: part) :: parts := by
    have htext : (Json.pretty unit (.object members) ++ tail).toList =
        '\x7b' :: '\n' :: (unit.toList ++ ['\x22'] ++ (cs ++ tail.toList)) := by
      rw [String.toList_append, hcs]
      simp
    rw [htext, Text.split, if_neg (by decide), Text.split, if_pos rfl, hsplit]
    simp
  have hbrace : indentOf? ['\x7b'] = none := by decide
  rw [detectIndent, hlines, List.findSome?_cons, hbrace]
  simp only [List.findSome?_cons, indentOf?_append hu (c := '\x22') (by decide)]
  rw [Option.getD_some, String.ofList_toList]

/-- So a text that was written so is laid out like another one that was. -/
theorem layOutLike_pretty (hu : IsUnit unit) (hne : members ≠ [])
    (ht : tail = "" ∨ tail = "\n") (json : Json) :
    layOutLike (Json.pretty unit (.object members) ++ tail) json = json.pretty unit ++ tail := by
  rw [layOutLike, detectIndent_pretty hu hne]
  congr 1
  rw [String.toList_append]
  rcases ht with rfl | rfl
  · obtain ⟨cs, hcs⟩ := exists_pretty_eq_concat unit hne
    rw [hcs]
    simp
  · simp

/-- A manifest that was written over several lines, if it is edited, is written so again, with the
same unit, and with a line break at its end if there was one. Its numbers have to be read back from
what is written for them. -/
theorem declareIn?_pretty {path : Path} {dependencies : List Dependency} {text' : String}
    (hu : IsUnit unit) (hne : members ≠ []) (ht : tail = "" ∨ tail = "\n")
    (htidy : (Json.object members).Tidy)
    (hx : ∀ x ∈ (Json.object members).numbers, x.ReadsBack)
    (h : declareIn? path (Json.pretty unit (.object members) ++ tail) dependencies =
      .ok (some text')) :
    detectIndent (Json.pretty unit (.object members) ++ tail) = unit ∧
    ∃ members', Updates dependencies members members' ∧
      text' = Json.pretty unit (.object members') ++ tail := by
  refine ⟨detectIndent_pretty hu hne tail, ?_⟩
  obtain ⟨found, table, hm, htable, rfl⟩ := of_declareAll?_eq_some (declareIn?_eq_ok_iff.1 h)
  have hunit : ∀ c ∈ unit.toList, Cursor.isBlank c = true := fun c hc =>
    isBlank_of_isIndent (hu.indents c hc)
  obtain ⟨blanks, hb, rfl⟩ : ∃ blanks : List Char, Blank blanks ∧ tail = String.ofList blanks := by
    rcases ht with rfl | rfl
    · exact ⟨[], nofun, rfl⟩
    · exact ⟨['\n'], List.forall_mem_singleton.2 (by decide), rfl⟩
  have hshape := shape_of_read hunit htidy hb hm
  have hplain : Plain depthLimit (.object members) :=
    plain_of_shape (hshape ▸ plain_shape_of_read hm) hx
  obtain rfl := Json.object.inj (Except.ok.inj ((hplain.read_pretty hunit hb).symm.trans hm))
  exact ⟨_, updates_put htidy htable dependencies, layOutLike_pretty hu hne ht _⟩

end written

def nestedMembers : Table :=
  [(" a", .string "\n  b"), ("empty", .array []),
    ("nested", .object [("items", .array [.number sampleScore, .object []])])]

theorem declareIn?_pretty_nestedMembers :
    IsUnit " \t" ∧ (Json.object nestedMembers).Tidy ∧ sampleScore.ReadsBack ∧
    ∃ text', declareIn? ⟨"package.json"⟩ (Json.pretty " \t" (.object nestedMembers) ++ "\n")
        sampleDependencies = .ok (some text') ∧
      detectIndent (Json.pretty " \t" (.object nestedMembers) ++ "\n") = " \t" ∧
      ∃ members', Updates sampleDependencies nestedMembers members' ∧
        text' = Json.pretty " \t" (.object members') ++ "\n" := by
  have hunit : IsUnit " \t" := ⟨by decide, List.all_eq_true.1 (by decide)⟩
  have htidy : (Json.object nestedMembers).Tidy := by
    simp [nestedMembers, Tidy, Tidy.TidyMembers, Tidy.TidyItems]
  have hscore : sampleScore.ReadsBack := by rfl
  have hnumbers : ∀ x ∈ (Json.object nestedMembers).numbers, x.ReadsBack := by
    intro x hx
    have hx : x = sampleScore := by
      simpa [nestedMembers, numbers, numbers.numbersOfMembers, numbers.numbersOfItems] using hx
    rwa [hx]
  have hwritten : ((declareIn? ⟨"package.json"⟩
      (Json.pretty " \t" (.object nestedMembers) ++ "\n") sampleDependencies).toOption.bind
        id).isSome = true := by
    decide +kernel
  refine ⟨hunit, htidy, hscore, ?_⟩
  cases h : declareIn? ⟨"package.json"⟩ (Json.pretty " \t" (.object nestedMembers) ++ "\n")
      sampleDependencies with
  | error error =>
    rw [h] at hwritten
    cases hwritten
  | ok answer =>
    cases answer with
    | none =>
      rw [h] at hwritten
      cases hwritten
    | some text' =>
      exact ⟨text', rfl, declareIn?_pretty hunit (by decide) (.inr rfl) htidy hnumbers h⟩

end Manifest

end Codemod
