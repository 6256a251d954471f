import Codemod.Proofs.Collisions
import Codemod.Proofs.ListInsertions
import Codemod.Proofs.Registrations
import Codemod.Proofs.Specifiers
import Codemod.Proofs.StepCourses

/-!
What planning comes to.

`locate_cases` says once where changes attach: at the end of the list that a change goes to, or, for
an import, between the statements. A change lays out its text at every place that is located for it,
and `Planned` lists all outcomes of planning. An import is refused only if its name is taken, and a
list of names that it goes into belongs to a value import of its module.
-/
namespace Codemod

open Source Node

/-- Specifiers that differ at most in the extension of a source file. -/
def SameUpToExtension (a b : String) : Prop :=
  ∃ stem, ∃ ext ∈ "" :: sourceExtensions, ∃ ext' ∈ "" :: sourceExtensions,
    a = stem ++ ext ∧ b = stem ++ ext'

theorem sameUpToExtension_of_sameModule {a b : String} (h : sameModule a b = true) :
    SameUpToExtension a b := by
  have hstem : stripSourceExtension a = stripSourceExtension b := by simpa [sameModule] using h
  obtain ⟨ext, hext, ha⟩ := stripSourceExtension_append a
  obtain ⟨ext', hext', hb⟩ := stripSourceExtension_append b
  exact ⟨stripSourceExtension a, ext, hext, ext', hext', ha, by rw [hstem]; exact hb⟩

/-- Failures that planning a change leaves to others: a place that does not suit the change, a
target that is not there, and a text without a tree. -/
def PlanError.isForeign : PlanError → Bool
  | incompatibleAnchor .. | targetMissing _ | source _ => true
  | _ => false

namespace SourceFile

variable {file : SourceFile} {change : Change} {anchor : Anchor}

/-- Where a change attaches: at the end of the list that it goes to, or between the statements. -/
theorem locate_cases (h : file.locate change = .ok anchor) :
    (∃ container close kind, file.GoesTo change container close kind ∧
      closeAnchor container close kind = some anchor) ∨
    ∃ identifier module, change = .insertImport identifier module ∧ anchor = file.importAnchor := by
  cases change with
  | appendField declarator key entries =>
    obtain ⟨object, ho, ha⟩ := locate_field h
    exact .inl ⟨object, _, _, .field ho, ha⟩
  | insertImport identifier module =>
    rcases locate_import h with ⟨named, hn, ha⟩ | ha
    · exact .inl ⟨named, _, _, .name hn, ha⟩
    · exact .inr ⟨identifier, module, rfl, ha⟩
  | register callee property token =>
    cases property with
    | none =>
      obtain ⟨call, arguments, hc, harguments, ha⟩ := locate_arguments h
      exact .inl ⟨arguments, _, _, .argument hc harguments, ha⟩
    | some property =>
      obtain ⟨call, object, hc, ho, hplace⟩ := locate_registration h
      rcases hplace with ⟨member, array, hm, harray, ha⟩ | ⟨hm, ha⟩
      · exact .inl ⟨array, _, _, .element hc ho hm harray, ha⟩
      · exact .inl ⟨object, _, _, .member hc ho hm, ha⟩

theorem findAnchor_eq_error {pattern : AnchorPattern} {error : PlanError}
    (h : file.findAnchor pattern = .error error) :
    error = .anchorNotFound file.path pattern ∧ pattern ≠ .afterLastImport := by
  unfold findAnchor at h
  split at h
  · cases h
  · rename_i hnone
    refine ⟨(Except.error.inj h).symm, ?_⟩
    rintro rfl
    cases hnone

/-- Only an import always has a place. -/
theorem locate_eq_error {error : PlanError} (h : file.locate change = .error error) :
    (∃ pattern, error = .anchorNotFound file.path pattern) ∧
      ∀ identifier module, change ≠ .insertImport identifier module := by
  cases change with
  | appendField declarator key entries =>
    exact ⟨⟨_, (findAnchor_eq_error h).1⟩, by simp⟩
  | insertImport identifier module =>
    simp only [locate] at h
    split at h
    · cases h
    · exact absurd rfl (findAnchor_eq_error h).2
  | register callee property token =>
    cases property with
    | none => exact ⟨⟨_, (findAnchor_eq_error h).1⟩, by simp⟩
    | some property => exact ⟨⟨_, (findAnchor_eq_error h).1⟩, by simp⟩

theorem elementInsertion_cases (file : SourceFile) (anchor : Anchor) (element : String) :
    (∃ piece, file.elementInsertion anchor element = .ok piece) ∨
    (file.elementInsertion anchor element = .error (.offsetOutsideText file.path anchor.offset) ∧
      Text.isBoundary file.text anchor.offset = false) := by
  unfold elementInsertion Text.isBoundary
  cases Text.cut? file.text.toList anchor.offset with
  | some parts => exact .inl ⟨_, rfl⟩
  | none => exact .inr ⟨rfl, rfl⟩

/-- Only the elements of a list are laid out by the text around them. -/
theorem insertionText_form (h : file.locate change = .ok anchor) :
    (∃ piece, file.insertionText anchor change = .ok piece) ∨
    ∃ element, file.insertionText anchor change = file.elementInsertion anchor element ∧
      ∀ identifier module, change ≠ .insertImport identifier module := by
  rcases locate_cases h with ⟨container, close, kind, hgoes, ha⟩ | ⟨identifier, module, rfl, -⟩
  · have hkind := kind_of_closeAnchor ha
    cases hgoes with
    | field =>
      simp only [insertionText, hkind]
      exact .inl ⟨_, rfl⟩
    | name =>
      simp only [insertionText, hkind]
      exact .inl ⟨_, rfl⟩
    | argument =>
      simp only [insertionText, hkind]
      exact .inr ⟨_, rfl, by simp⟩
    | element =>
      simp only [insertionText, hkind]
      exact .inr ⟨_, rfl, by simp⟩
    | member =>
      simp only [insertionText, hkind]
      exact .inr ⟨_, rfl, by simp⟩
  · obtain ⟨found, piece, hfound, hpiece⟩ := exists_insertion file identifier module
    obtain rfl := Except.ok.inj (h.symm.trans hfound)
    exact .inl ⟨piece, hpiece⟩

/-- The text of a change is laid out wherever it is located, unless that is no place in the text,
which only a registration looks at. -/
theorem insertionText_cases (h : file.locate change = .ok anchor) :
    (∃ piece, file.insertionText anchor change = .ok piece) ∨
    (file.insertionText anchor change = .error (.offsetOutsideText file.path anchor.offset) ∧
      Text.isBoundary file.text anchor.offset = false ∧
      ∀ identifier module, change ≠ .insertImport identifier module) := by
  rcases insertionText_form h with hok | ⟨element, ht, hi⟩
  · exact .inl hok
  · rw [ht]
    rcases elementInsertion_cases file anchor element with hok | ⟨herror, hout⟩
    · exact .inl hok
    · exact .inr ⟨herror, hout, hi⟩

/-- The outcomes of planning a change. -/
inductive Planned (file : SourceFile) (change : Change) : Except PlanError EditPlan → Prop where
  | noOp (hp : file.isPresent change = true) : Planned file change (.ok (file.noOpPlan change))
  | taken {identifier module : String} (hi : change = .insertImport identifier module)
      (hp : file.isPresent change = false) (ht : file.nameTaken identifier = true) :
      Planned file change (.error (.nameTaken file.path identifier module))
  | lost {pattern : AnchorPattern} (hp : file.isPresent change = false)
      (hi : ∀ identifier module, change ≠ .insertImport identifier module) :
      Planned file change (.error (.anchorNotFound file.path pattern))
  | outside {anchor : Anchor} (hp : file.isPresent change = false)
      (hi : ∀ identifier module, change ≠ .insertImport identifier module)
      (hl : file.locate change = .ok anchor)
      (ho : Text.isBoundary file.text anchor.offset = false) :
      Planned file change (.error (.offsetOutsideText file.path anchor.offset))
  | inserted {anchor : Anchor} {piece : String} (hp : file.isPresent change = false)
      (hc : file.collides change = none) (hl : file.locate change = .ok anchor)
      (ht : file.insertionText anchor change = .ok piece) :
      Planned file change (.ok (.insert file.path anchor.offset piece
        (change.describe ++ " at " ++ anchor.kind.label)))

/-- Planning comes to one of these. -/
theorem planned_plan (file : SourceFile) (change : Change) :
    file.Planned change (file.plan change) := by
  have hways := file.plansTo_plan change
  generalize file.plan change = outcome at hways ⊢
  cases hways with
  | present hp => exact .noOp hp
  | taken hp hc =>
    obtain ⟨identifier, module, hi, ht, rfl⟩ := collides_eq_some hc
    exact .taken hi hp ht
  | lost hp _ hl =>
    obtain ⟨⟨pattern, rfl⟩, hi⟩ := locate_eq_error hl
    exact .lost hp hi
  | unfit hp _ hl ht =>
    rcases insertionText_cases hl with ⟨piece, hpiece⟩ | ⟨hout, ho, hi⟩
    · cases ht.symm.trans hpiece
    · obtain rfl := Except.error.inj (ht.symm.trans hout)
      exact .outside hp hi hl ho
  | inserted hp hc hl ht => exact .inserted hp hc hl ht

/-- The places of an import, with the text that is put there: the end of the list of names of a
value import of its module, behind the last import, or the start of a file without imports. -/
inductive ImportPlace (file : SourceFile) (identifier module : String) :
    Nat → String → AnchorKind → Prop where
  | list {statement clause named : Node} {source : String} {anchor : Anchor}
      (hs : statement ∈ file.root.children) (hk : statement.kind = .importDeclaration)
      (hv : isTypeOnly statement = false) (hm : file.importSource statement = some source)
      (he : SameUpToExtension source module) (hc : statement.firstOf .importClause = some clause)
      (hn : clause.firstOf .namedImports = some named)
      (ha : closeAnchor named .closeBrace .namedImportsClose = some anchor) :
      ImportPlace file identifier module anchor.offset
        ((if anchor.needsSeparator then ", " else " ") ++ identifier) .namedImportsClose
  | behind {last : Node} (h : file.imports.getLast? = some last) :
      ImportPlace file identifier module last.stop ("\n" ++ renderImport identifier module)
        .afterLastImport
  | start (h : file.imports = []) :
      ImportPlace file identifier module 0 (renderImport identifier module ++ "\n") .documentStart

/-- An import is laid out at one of these. -/
theorem importPlace_of_locate {identifier module piece : String}
    (hl : file.locate (.insertImport identifier module) = .ok anchor)
    (ht : file.insertionText anchor (.insertImport identifier module) = .ok piece) :
    file.ImportPlace identifier module anchor.offset piece anchor.kind := by
  rcases locate_import hl with ⟨named, hnamed, ha⟩ | rfl
  · obtain ⟨statement, himport, hvalue, hfrom, clause, hc, hn⟩ :=
      exists_of_namedImportsFrom hnamed
    obtain ⟨hs, hkind⟩ := List.mem_filter.1 himport
    have hk : statement.kind = .importDeclaration := by simpa [isKind] using hkind
    unfold importsFrom at hfrom
    split at hfrom
    · rename_i source hm
      have hplace := kind_of_closeAnchor ha
      simp only [insertionText, hplace, Except.ok.injEq] at ht
      rw [← ht, hplace]
      exact .list hs hk hvalue hm (sameUpToExtension_of_sameModule hfrom) hc hn ha
    · cases hfrom
  · unfold importAnchor at ht ⊢
    split at ht
    · rename_i last hlast
      obtain rfl := Except.ok.inj ht
      exact .behind hlast
    · rename_i hnone
      obtain rfl := Except.ok.inj ht
      exact .start (List.getLast?_eq_none_iff.1 hnone)

theorem isNoOp_of_planned {plan : EditPlan} (h : file.Planned change (.ok plan)) :
    plan.isNoOp = file.isPresent change := by
  cases h with
  | noOp hp => rw [hp]; rfl
  | inserted hp => rw [hp]; rfl

theorem isNoOp_iff : (∃ plan, file.plan change = .ok plan ∧ plan.isNoOp = true) ↔
    file.isPresent change = true := by
  constructor
  · rintro ⟨plan, hplan, hno⟩
    rw [← isNoOp_of_planned (hplan ▸ planned_plan file change), hno]
  · intro hp
    exact ⟨file.noOpPlan change, if_pos hp, rfl⟩

theorem isForeign_of_plan {error : PlanError} (h : file.plan change = .error error) :
    error.isForeign = false := by
  have hplanned := planned_plan file change
  rw [h] at hplanned
  cases hplanned <;> rfl

theorem suits_of_locate (h : file.locate change = .ok anchor) (present : Bool) (path : Path)
    (other : Change) (kind : AnchorKind) :
    file.planAt anchor change present ≠ .error (.incompatibleAnchor path other kind) := by
  unfold planAt
  cases present with
  | true => simp
  | false =>
    rcases insertionText_cases h with ⟨piece, ht⟩ | ⟨ht, -, -⟩
    · simp [ht, Except.map]
    · simp [ht, Except.map]

section Imports

variable {identifier module : String}

theorem plan_eq_nameTaken_iff : file.plan (.insertImport identifier module) =
      .error (.nameTaken file.path identifier module) ↔
    file.isPresent (.insertImport identifier module) = false ∧
      file.nameTaken identifier = true := by
  constructor
  · intro h
    have hplanned := planned_plan file (.insertImport identifier module)
    rw [h] at hplanned
    cases hplanned with
    | taken _ hp ht => exact ⟨hp, ht⟩
  · rintro ⟨hp, ht⟩
    simp [plan, hp, collides, ht]

theorem eq_nameTaken_of_plan {error : PlanError}
    (h : file.plan (.insertImport identifier module) = .error error) :
    error = .nameTaken file.path identifier module := by
  have hplanned := planned_plan file (.insertImport identifier module)
  rw [h] at hplanned
  cases hplanned with
  | taken hi =>
    cases hi
    rfl
  | lost _ hi => exact absurd rfl (hi identifier module)
  | outside _ hi => exact absurd rfl (hi identifier module)

/-- An import that is neither there nor kept out by its name is put somewhere. -/
theorem exists_importPlace (hp : file.isPresent (.insertImport identifier module) = false)
    (ht : file.nameTaken identifier = false) :
    ∃ offset piece kind, file.ImportPlace identifier module offset piece kind ∧
      file.plan (.insertImport identifier module) = .ok (.insert file.path offset piece
        ((Change.insertImport identifier module).describe ++ " at " ++ kind.label)) := by
  have hplanned := planned_plan file (.insertImport identifier module)
  generalize hplan : file.plan (.insertImport identifier module) = outcome at hplanned
  cases hplanned with
  | noOp hpresent =>
    rw [hp] at hpresent
    cases hpresent
  | taken hi _ htaken =>
    cases hi
    rw [ht] at htaken
    cases htaken
  | lost _ hi => exact absurd rfl (hi identifier module)
  | outside _ hi => exact absurd rfl (hi identifier module)
  | inserted _ _ hl hpiece => exact ⟨_, _, _, importPlace_of_locate hl hpiece, rfl⟩

end Imports

/-- What planning decides about a change. -/
structure Decides (file : SourceFile) (change : Change) : Prop where
  noOp_iff : (∃ plan, file.plan change = .ok plan ∧ plan.isNoOp = true) ↔
    file.isPresent change = true
  not_foreign : ∀ error, file.plan change = .error error → error.isForeign = false
  /-- Every place that is located for the change suits it. -/
  suits : ∀ anchor, file.locate change = .ok anchor → ∀ present path other kind,
    file.planAt anchor change present ≠ .error (.incompatibleAnchor path other kind)
  /-- An import is refused exactly if its name is taken by something else. -/
  taken_iff : ∀ identifier module, change = .insertImport identifier module →
    (file.plan change = .error (.nameTaken file.path identifier module) ↔
      file.isPresent change = false ∧ file.nameTaken identifier = true)
  refused : ∀ identifier module, change = .insertImport identifier module →
    ∀ error, file.plan change = .error error → error = .nameTaken file.path identifier module
  inserted : ∀ identifier module, change = .insertImport identifier module →
    file.isPresent change = false → file.nameTaken identifier = false →
    ∃ offset piece kind, file.ImportPlace identifier module offset piece kind ∧
      file.plan change = .ok (.insert file.path offset piece
        (change.describe ++ " at " ++ kind.label))

/-- Planning decides every change, and its parts agree: it does nothing exactly for a change that is
there, no located place is refused, and an import that is neither there nor kept out by its name is
always put somewhere, into a list only if that belongs to a value import of the module. -/
theorem plan_decides (file : SourceFile) (change : Change) : file.Decides change where
  noOp_iff := isNoOp_iff
  not_foreign := fun _ => isForeign_of_plan
  suits := fun _ h => suits_of_locate h
  taken_iff := by
    rintro identifier module rfl
    exact plan_eq_nameTaken_iff
  refused := by
    rintro identifier module rfl error
    exact eq_nameTaken_of_plan
  inserted := by
    rintro identifier module rfl
    exact exists_importPlace

end SourceFile

end Codemod
