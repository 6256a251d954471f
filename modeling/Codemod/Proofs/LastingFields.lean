import Codemod.Proofs.AppliedOnce
import Codemod.Proofs.Freshness
import Codemod.Proofs.StepFrames

/-!
Fields that are there to stay.

A planned field is put into a file as a text that is looked for when the same field is planned
again. So it is found again whatever the reader makes of the new text, and it stays found as long
as nothing is put into the middle of it: an insertion in front of a piece of text moves it, and one
behind it leaves it where it is.
-/
namespace Codemod

namespace Text

theorem occursIn_iff {piece cs : List Char} :
    Text.occursIn piece cs = true ↔ piece <:+: cs := by
  have hlead : ∀ cs : List Char, (dropLead? piece cs).isSome = true ↔ piece <+: cs := by
    intro cs
    rw [Option.isSome_iff_exists]
    constructor
    · rintro ⟨rest, h⟩
      exact ⟨rest, (dropLead?_eq_some_iff.1 h).symm⟩
    · rintro ⟨rest, h⟩
      exact ⟨rest, dropLead?_eq_some_iff.2 h.symm⟩
  induction cs with
  | nil => simp [occursIn]
  | cons c cs ih =>
    rw [occursIn, Bool.or_eq_true, hlead, List.infix_cons_iff]
    exact or_congr Iff.rfl ih

/-- A piece stands in a text behind a number of bytes. -/
def StandsAt (piece : String) (start : Nat) (s : String) : Prop :=
  ∃ a b, s.toList = a ++ (piece.toList ++ b) ∧ byteLength a = start

namespace StandsAt

variable {piece s t added : String} {start offset : Nat}

theorem occursIn (h : StandsAt piece start s) : occursIn piece.toList s.toList = true := by
  obtain ⟨a, b, hs, -⟩ := h
  exact occursIn_iff.2 ⟨a, b, by rw [hs, List.append_assoc]⟩

/-- What ends an inserted text stands in the new one. -/
theorem of_insertAt? {lead : String} (h : insertAt? s offset (lead ++ piece) = some t) :
    StandsAt piece (offset + size lead) t := by
  obtain ⟨a, b, -, rfl, rfl⟩ := insertAt?_eq_some_iff.1 h
  exact ⟨a ++ lead.toList, b, by simp, by simp [size]⟩

/-- An insertion in front of a piece moves it. -/
theorem insert_before (h : StandsAt piece start s) (hi : insertAt? s offset added = some t)
    (ho : offset ≤ start) : StandsAt piece (start + size added) t := by
  obtain ⟨a, b, hs, rfl⟩ := h
  obtain ⟨c, d, hcut, rfl, rfl⟩ := insertAt?_eq_some_iff.1 hi
  obtain ⟨m, rfl, rfl⟩ := exists_append_of_byteLength_le (hcut.symm.trans hs) ho
  refine ⟨c ++ added.toList ++ m, b, by simp, ?_⟩
  simp only [byteLength_append, size]
  omega

/-- An insertion behind a piece leaves it where it is. -/
theorem insert_behind (h : StandsAt piece start s) (hi : insertAt? s offset added = some t)
    (ho : start + size piece ≤ offset) : StandsAt piece start t := by
  obtain ⟨a, b, hs, rfl⟩ := h
  obtain ⟨c, d, hcut, rfl, rfl⟩ := insertAt?_eq_some_iff.1 hi
  have hparts : (a ++ piece.toList) ++ b = c ++ d := by rw [List.append_assoc, ← hs, hcut]
  obtain ⟨m, rfl, rfl⟩ := exists_append_of_byteLength_le hparts (by simpa [size] using ho)
  exact ⟨a, m ++ (added.toList ++ d), by simp, rfl⟩

end StandsAt

end Text

namespace Tree

variable {project : Project} {tree next last : Tree} {path target : Path} {offset start : Nat}
  {piece added rationale : String} {result : PatchResult}

/-- What an insertion that was carried out has done. -/
theorem apply_insert_eq_ok
    (h : tree.apply project (.insert target offset added rationale) = (.ok result, next)) :
    ∃ file text source, tree.load project target = (.ok file, (tree.load project target).2) ∧
      Text.insertAt? file.text offset added = some text ∧
      analyze project.reader target text = .ok source ∧
      next = ⟨(tree.load project target).2.files.insert target
        (edited file text source [⟨offset, 0, added, rationale⟩])⟩ := by
  cases hl : tree.load project target with
  | mk answer loaded =>
    cases answer with
    | error error => simp [apply, edit, hl] at h
    | ok file =>
      simp only [apply, edit, hl, Buffer.insert] at h
      cases hi : Text.insertAt? file.text offset added with
      | none => simp [hi] at h
      | some text =>
        simp only [hi, commit, List.nil_append, List.isEmpty_cons, Bool.false_eq_true,
          if_false] at h
        cases ha : analyze project.reader target text with
        | error error => simp [ha] at h
        | ok source =>
          simp only [ha, Prod.mk.injEq] at h
          exact ⟨file, text, source, rfl, hi, ha, h.2.symm⟩

/-- A piece stands in the staged text of a file, and the tree kept with it is the one of the text. -/
structure Shows (project : Project) (tree : Tree) (path : Path) (piece : String) (start : Nat)
    (file : StagedFile) : Prop where
  staged : tree.files.find? path = some file
  fresh : file.Fresh project.reader path
  stands : Text.StandsAt piece start file.text

/-- Insertions that are carried out one after another, none of them in the middle of a piece of a
file. The piece has `size` bytes and starts behind `start`, and an insertion in front moves it. -/
inductive Avoids (project : Project) (path : Path) (size : Nat) : Nat → Tree → Tree → Prop
  | done {start : Nat} {tree : Tree} : Avoids project path size start tree tree
  | elsewhere {start offset : Nat} {target : Path} {added rationale : String}
      {result : PatchResult} {tree next last : Tree} : target.same path = false →
      tree.apply project (.insert target offset added rationale) = (.ok result, next) →
      Avoids project path size start next last → Avoids project path size start tree last
  | before {start offset : Nat} {target : Path} {added rationale : String}
      {result : PatchResult} {tree next last : Tree} : target.same path = true → offset ≤ start →
      tree.apply project (.insert target offset added rationale) = (.ok result, next) →
      Avoids project path size (start + Text.size added) next last →
      Avoids project path size start tree last
  | behind {start offset : Nat} {target : Path} {added rationale : String}
      {result : PatchResult} {tree next last : Tree} : target.same path = true →
      start + size ≤ offset →
      tree.apply project (.insert target offset added rationale) = (.ok result, next) →
      Avoids project path size start next last → Avoids project path size start tree last

/-- An insertion into another file leaves a file as it is. -/
theorem find?_apply_other (hs : target.same path = false)
    (h : tree.apply project (.insert target offset added rationale) = (.ok result, next)) :
    next.files.find? path = tree.files.find? path := by
  obtain ⟨file, text, source, -, -, -, rfl⟩ := apply_insert_eq_ok h
  rw [PathMap.find?_insert, if_neg (by simp [hs]), find?_load_other hs]

/-- An insertion into a staged file is one into its text. -/
theorem find?_apply_same {file : StagedFile} (hf : tree.files.find? path = some file)
    (hs : target.same path = true)
    (h : tree.apply project (.insert target offset added rationale) = (.ok result, next)) :
    ∃ later, next.files.find? path = some later ∧ later.Fresh project.reader path ∧
      Text.insertAt? file.text offset added = some later.text := by
  obtain ⟨found, text, source, hload, hi, ha, rfl⟩ := apply_insert_eq_ok h
  have hfound : tree.files.find? target = some file := by rw [PathMap.find?_congr hs, hf]
  obtain rfl : file = found := by simpa [load, hfound] using congrArg Prod.fst hload
  exact ⟨_, by rw [PathMap.find?_insert, if_pos hs], StagedFile.fresh_of_analyze hs ha, hi⟩

/-- A piece that is avoided still stands in its file. -/
theorem Avoids.shows {file : StagedFile}
    (h : Avoids project path (Text.size piece) start tree last)
    (hp : tree.Shows project path piece start file) :
    ∃ start' later, last.Shows project path piece start' later := by
  induction h generalizing file with
  | done => exact ⟨_, _, hp⟩
  | elsewhere hs ha _ ih => exact ih ⟨(find?_apply_other hs ha).trans hp.staged, hp.fresh, hp.stands⟩
  | before hs ho ha _ ih =>
    obtain ⟨later, hf, hfresh, hi⟩ := find?_apply_same hp.staged hs ha
    exact ih ⟨hf, hfresh, hp.stands.insert_before hi ho⟩
  | behind hs ho ha _ ih =>
    obtain ⟨later, hf, hfresh, hi⟩ := find?_apply_same hp.staged hs ha
    exact ih ⟨hf, hfresh, hp.stands.insert_behind hi ho⟩

end Tree

namespace SourceFile

open Source

variable {file : SourceFile} {declarator : Option String} {key : String}
  {entries : List ConfigEntry} {target : Path} {offset : Nat} {piece rationale : String}

/-- A planned field is put there behind a line break, and a comma where one is needed. -/
theorem plan_appendField_eq
    (h : file.plan (.appendField declarator key entries) =
      .ok (.insert target offset piece rationale)) :
    target = file.path ∧ ∃ lead ∈ [",\n", "\n"], piece = lead ++ renderField key entries := by
  refine ⟨plan_target h, ?_⟩
  obtain ⟨-, -, anchor, -, -, ht⟩ := plan_eq_insert h
  unfold insertionText at ht
  simp only at ht
  split at ht
  · obtain rfl := Except.ok.inj ht
    split
    · exact ⟨",\n", by simp, rfl⟩
    · exact ⟨"\n", by simp, rfl⟩
  · cases ht

theorem renderField_ne_empty (key : String) (entries : List ConfigEntry) :
    renderField key entries ≠ "" := by
  intro h
  have hchars : (renderField key entries).toList = _ := String.toList_ofList
  rw [h] at hchars
  cases hchars

/-- A text with a field in it needs no such field, whatever its tree is. -/
theorem plan_of_standsAt {start : Nat} (h : Text.StandsAt (renderField key entries) start file.text) :
    file.plan (.appendField declarator key entries) =
      .ok (file.noOpPlan (.appendField declarator key entries)) := by
  apply plan_of_isPresent
  have hsome : (renderField key entries != "") = true :=
    bne_iff_ne.2 (renderField_ne_empty key entries)
  rw [isPresent, containsText, hsome, h.occursIn]
  simp

/-- A field that was planned and put into a file is planned no more: as long as no later insertion
goes into the middle of it, a plan for it does nothing. The field ends the text that is put in. -/
theorem field_lasts {project : Project} {tree next last : Tree} {result : PatchResult}
    (hplan : file.plan (.appendField declarator key entries) =
      .ok (.insert target offset piece rationale))
    (happly : tree.apply project (.insert target offset piece rationale) = (.ok result, next))
    (havoids : Tree.Avoids project file.path (Text.size (renderField key entries))
      (offset + (Text.size piece - Text.size (renderField key entries))) next last) :
    ∃ text, last.text project file.path = (.ok text, last) ∧
      (∀ later : SourceFile, later.text = text →
        later.plan (.appendField declarator key entries) =
          .ok (later.noOpPlan (.appendField declarator key entries))) ∧
      (Language.ofPath? file.path ≠ none →
        ∃ later, last.source project file.path = (.ok later, last) ∧ later.text = text) := by
  obtain ⟨rfl, lead, -, rfl⟩ := plan_appendField_eq hplan
  obtain ⟨found, text, source, hload, hi, ha, rfl⟩ := Tree.apply_insert_eq_ok happly
  have hsize : Text.size (lead ++ renderField key entries) - Text.size (renderField key entries) =
      Text.size lead := by
    simp [Text.size]
  rw [hsize] at havoids
  obtain ⟨start, later, hlater⟩ := havoids.shows
    ⟨PathMap.find?_insert_self .., StagedFile.fresh_of_analyze (by simp [Path.same]) ha,
      .of_insertAt? hi⟩
  have hstaged : last.load project file.path = (.ok later, last) := by
    simp [Tree.load, hlater.staged]
  refine ⟨later.text, by simp [Tree.text, hstaged], ?_, ?_⟩
  · intro again hagain
    exact plan_of_standsAt (hagain ▸ hlater.stands)
  · intro hlanguage
    cases hs : later.source with
    | none => exact absurd (hlater.fresh.source_eq_none_iff.1 hs) hlanguage
    | some again =>
      exact ⟨again, by simp [Tree.source, hstaged, hs], (hlater.fresh.of_source again hs).1⟩

def emptyObject : SourceFile :=
  let token := fun grammar start stop => Node.ofGrammar grammar start stop []
  let object : Node := .ofGrammar "object" 10 12 [token "\x7b" 10 11, token "\x7d" 11 12]
  ⟨⟨"e.ts"⟩, .typeScript, "const e = \x7b\x7d;\n", .ofGrammar "program" 0 14
    [.ofGrammar "lexical_declaration" 0 13
      [token "const" 0 5,
        .ofGrammar "variable_declarator" 6 12
          [(token "identifier" 6 7).filling "name", token "=" 8 9, object.filling "value"],
        token ";" 12 13]]⟩

def emptyObjectProject : Project where
  view := .ofTexts (PathMap.empty.insert emptyObject.path emptyObject.text)
  reader := fun _ text =>
    if text = emptyObject.text then some emptyObject.root
    else some (.ofGrammar "program" 0 (Text.size text) [])

def quotedField : Change := .appendField (some "e") "it\x27s" [⟨"a", "b"⟩]

def quotedFieldPlan : EditPlan :=
  .insert ⟨"e.ts"⟩ 11 "\n  \x27it\\\x27s\x27: \x7b\n    a: \x27b\x27,\n  \x7d"
    "object field `it\x27s` at ObjectLiteralClose"

def quotedFieldStaged : Tree := (Tree.empty.apply emptyObjectProject quotedFieldPlan).2

def remarkStaged : Tree :=
  (quotedFieldStaged.apply emptyObjectProject (.insert ⟨"e.ts"⟩ 0 "// e\n" "remark")).2

def breakStaged : Tree :=
  (remarkStaged.apply emptyObjectProject (.insert ⟨"e.ts"⟩ 45 "\n" "break")).2

theorem field_lasts_quotedField :
    emptyObject.plan quotedField = .ok quotedFieldPlan ∧
    Tree.Avoids emptyObjectProject ⟨"e.ts"⟩ 28 12 quotedFieldStaged breakStaged ∧
    ∃ later : SourceFile, breakStaged.source emptyObjectProject ⟨"e.ts"⟩ = (.ok later, breakStaged) ∧
      later.text =
        "// e\nconst e = \x7b\n  \x27it\\\x27s\x27: \x7b\n    a: \x27b\x27,\n  \x7d\n\x7d;\n" ∧
      later.objectHasKey (some "e") "it\x27s" = false ∧
      later.plan quotedField = .ok (later.noOpPlan quotedField) := by
  have hdone : ∀ answer : Tree.Result PatchResult, answer.1.toOption.isSome = true →
      ∃ result, answer = (.ok result, answer.2) := by
    rintro ⟨_ | result, tree⟩ h
    · cases h
    · exact ⟨result, rfl⟩
  have hplan : emptyObject.plan quotedField = .ok quotedFieldPlan :=
    eq_ok_of_toOption (by decide +kernel)
  obtain ⟨_, hfield⟩ := hdone (Tree.empty.apply emptyObjectProject quotedFieldPlan)
    (by decide +kernel)
  obtain ⟨_, hremark⟩ := hdone (quotedFieldStaged.apply emptyObjectProject
    (.insert ⟨"e.ts"⟩ 0 "// e\n" "remark")) (by decide +kernel)
  obtain ⟨_, hbreak⟩ := hdone (remarkStaged.apply emptyObjectProject
    (.insert ⟨"e.ts"⟩ 45 "\n" "break")) (by decide +kernel)
  have havoids : Tree.Avoids emptyObjectProject ⟨"e.ts"⟩ 28 12 quotedFieldStaged breakStaged :=
    .before (by decide) (by decide) hremark (.behind (by decide) (by decide) hbreak .done)
  obtain ⟨text, -, hplans, hsource⟩ := field_lasts hplan hfield havoids
  obtain ⟨later, hlater, rfl⟩ := hsource (by decide +kernel)
  change breakStaged.source emptyObjectProject ⟨"e.ts"⟩ = (.ok later, breakStaged) at hlater
  let look := fun file : SourceFile => (file.text, file.objectHasKey (some "e") "it\x27s")
  have hseen : (breakStaged.source emptyObjectProject ⟨"e.ts"⟩).1.toOption.map look = some
      ("// e\nconst e = \x7b\n  \x27it\\\x27s\x27: \x7b\n    a: \x27b\x27,\n  \x7d\n\x7d;\n", false) := by
    decide +kernel
  have hlook : some (look later) = _ :=
    (congrArg (fun answer => answer.1.toOption.map look) hlater).symm.trans hseen
  obtain ⟨htext, hkey⟩ := Prod.mk.inj (Option.some.inj hlook)
  exact ⟨hplan, havoids, later, hlater, htext, hkey, hplans later rfl⟩

end SourceFile

end Codemod
