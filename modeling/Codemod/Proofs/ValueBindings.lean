import Codemod.Proofs.BoundNames
import Codemod.Proofs.Collisions
import Codemod.Proofs.DocumentOrder
import Codemod.Proofs.SecondRuns

/-!
Names that are bound as values.

A name can be imported from a module, be bound as a value, or be taken. Each of the three scans looks
at the statements by itself, yet the first implies the second and the second the third. What is taken
and not bound as a value is restricted to types wherever a scan finds it; a binding in one of the
forms that no scan looks at makes no difference. Which of them hold is settled by the text, so a step
that needs a name finds it bound where an earlier one has found its import.
-/
namespace Codemod

open Source

namespace SourceFile

/-- A statement or a specifier has a word of its own that restricts it to types. -/
def Restricted (node : Node) : Prop :=
  ∃ child ∈ node.children, child.grammar = "type" ∨ child.grammar = "typeof"

theorem isTypeOnly_eq_true_iff {node : Node} : isTypeOnly node = true ↔ Restricted node := by
  simp [isTypeOnly, Restricted]

theorem isTypeOnly_eq_false_iff {node : Node} : isTypeOnly node = false ↔ ¬ Restricted node := by
  rw [← isTypeOnly_eq_true_iff, Bool.not_eq_true]

variable (file : SourceFile) (identifier : String)

/-- A statement imports a name as a value: nothing restricts the statement, nor the specifier if
there is one. -/
inductive ImportsValue (statement : Node) : Prop
  | byDefault : file.Binds identifier statement .defaultImport → ¬ Restricted statement →
    ImportsValue statement
  | byNamespace : file.Binds identifier statement .namespaceImport → ¬ Restricted statement →
    ImportsValue statement
  | byList {specifier : Node} : file.Lists identifier statement specifier →
    ¬ Restricted statement → ¬ Restricted specifier → ImportsValue statement

/-- Whatever a scan finds of a name in a statement is restricted to types. -/
structure OnlyTypes (statement : Node) : Prop where
  declarator : ¬ file.Binds identifier statement .declarator
  byDefault : file.Binds identifier statement .defaultImport → Restricted statement
  byNamespace : file.Binds identifier statement .namespaceImport → Restricted statement
  byList : ∀ specifier, file.Lists identifier statement specifier →
    Restricted statement ∨ Restricted specifier

variable {file : SourceFile} {identifier : String} {statement : Node}

theorem onlyTypes_iff : file.OnlyTypes identifier statement ↔
    ¬ file.ImportsValue identifier statement ∧ ¬ file.Binds identifier statement .declarator := by
  constructor
  · intro h
    refine ⟨?_, h.declarator⟩
    rintro (⟨hb, hfree⟩ | ⟨hb, hfree⟩ | ⟨hl, hfree, hown⟩)
    · exact hfree (h.byDefault hb)
    · exact hfree (h.byNamespace hb)
    · exact (h.byList _ hl).elim hfree hown
  · rintro ⟨himports, hdeclarator⟩
    refine ⟨hdeclarator, ?_, ?_, ?_⟩
    · exact fun hb => by_contra fun hfree => himports (.byDefault hb hfree)
    · exact fun hb => by_contra fun hfree => himports (.byNamespace hb hfree)
    · exact fun specifier hl => or_iff_not_imp_left.2 fun hfree =>
        by_contra fun hown => himports (.byList hl hfree hown)

theorem ImportsValue.kind (h : file.ImportsValue identifier statement) :
    statement.kind = .importDeclaration := by
  rcases h with ⟨hb, -⟩ | ⟨hb, -⟩ | ⟨hl, -, -⟩
  · cases hb
    assumption
  · cases hb
    assumption
  · exact hl.kind

theorem ImportsValue.free (h : file.ImportsValue identifier statement) : ¬ Restricted statement := by
  rcases h with ⟨-, hfree⟩ | ⟨-, hfree⟩ | ⟨-, hfree, -⟩ <;> exact hfree

/-- A name that is imported as a value is bound in a form that is looked at. -/
theorem ImportsValue.exists_binds (h : file.ImportsValue identifier statement) :
    ∃ form, form.isSeen = true ∧ file.Binds identifier statement form := by
  rcases h with ⟨hb, -⟩ | ⟨hb, -⟩ | ⟨hl, -, -⟩
  · exact ⟨_, rfl, hb⟩
  · exact ⟨_, rfl, hb⟩
  · exact ⟨_, rfl, binds_namedImport_iff.2 ⟨_, hl⟩⟩

theorem mem_valueImports : statement ∈ file.valueImports ↔
    statement ∈ file.root.children ∧ statement.kind = .importDeclaration ∧ ¬ Restricted statement := by
  simp only [valueImports, imports, Node.allOf, List.mem_filter, Node.isKind, beq_iff_eq,
    Bool.not_eq_true', isTypeOnly_eq_false_iff, and_assoc]

theorem importsValue_iff : file.ImportsValue identifier statement ↔
    statement.kind = .importDeclaration ∧ ¬ Restricted statement ∧
      file.importIntroduces false identifier statement = true := by
  constructor
  · intro h
    refine ⟨h.kind, h.free, (importIntroduces_eq_true_iff h.kind).2 ?_⟩
    rcases h with ⟨hb, -⟩ | ⟨hb, -⟩ | ⟨hl, -, hown⟩
    · exact .inl hb
    · exact .inr (.inl hb)
    · exact .inr (.inr ⟨_, hl, .inr (isTypeOnly_eq_false_iff.2 hown)⟩)
  · rintro ⟨hk, hfree, hintroduces⟩
    rcases (importIntroduces_eq_true_iff hk).1 hintroduces with hb | hb | ⟨specifier, hl, hown⟩
    · exact .byDefault hb hfree
    · exact .byNamespace hb hfree
    · exact .byList hl hfree (isTypeOnly_eq_false_iff.1 (hown.resolve_left (by simp)))

theorem importBinds_iff {module : String} : file.importBinds identifier module = true ↔
    ∃ statement ∈ file.root.children, file.importsFrom module statement = true ∧
      file.ImportsValue identifier statement := by
  simp only [importBinds, List.any_eq_true, mem_valueImports, Bool.and_eq_true, importsValue_iff]
  constructor
  · rintro ⟨statement, ⟨hmem, hk, hfree⟩, hfrom, hintroduces⟩
    exact ⟨statement, hmem, hfrom, hk, hfree, hintroduces⟩
  · rintro ⟨statement, hmem, hfrom, hk, hfree, hintroduces⟩
    exact ⟨statement, ⟨hmem, hk, hfree⟩, hfrom, hintroduces⟩

theorem bindsValue_iff : file.bindsValue identifier = true ↔
    ∃ statement ∈ file.root.children,
      file.ImportsValue identifier statement ∨ file.Binds identifier statement .declarator := by
  have himports : file.valueImports.any (file.importIntroduces false identifier) = true ↔
      ∃ statement ∈ file.root.children, file.ImportsValue identifier statement := by
    simp only [List.any_eq_true, mem_valueImports, importsValue_iff, and_assoc]
  rw [bindsValue, Bool.or_eq_true, himports, declares_iff]
  simp only [and_or_left, exists_or]

theorem bindsValue_eq_false_iff : file.bindsValue identifier = false ↔
    ∀ statement ∈ file.root.children, file.OnlyTypes identifier statement := by
  rw [← Bool.not_eq_true, bindsValue_iff]
  simp only [not_exists, not_and, not_or, onlyTypes_iff]

/-- The three scans are nested, and what is taken without being a value is restricted to types. -/
structure BindingsNest (file : SourceFile) : Prop where
  importBinds_iff : ∀ identifier module, file.importBinds identifier module = true ↔
    ∃ statement ∈ file.root.children, file.importsFrom module statement = true ∧
      file.ImportsValue identifier statement
  bindsValue_iff : ∀ identifier, file.bindsValue identifier = true ↔
    ∃ statement ∈ file.root.children,
      file.ImportsValue identifier statement ∨ file.Binds identifier statement .declarator
  bindsValue : ∀ identifier module, file.importBinds identifier module = true →
    file.bindsValue identifier = true
  nameTaken : ∀ identifier, file.bindsValue identifier = true → file.nameTaken identifier = true
  /-- The gap between the two: a scan finds the name, and no statement has it but for types. -/
  gap_iff : ∀ identifier,
    (file.nameTaken identifier = true ∧ file.bindsValue identifier = false) ↔
      (∃ statement ∈ file.root.children, ∃ form, form.isSeen = true ∧
        file.Binds identifier statement form) ∧
      ∀ statement ∈ file.root.children, file.OnlyTypes identifier statement

theorem bindingsNest (file : SourceFile) : file.BindingsNest where
  importBinds_iff _ _ := SourceFile.importBinds_iff
  bindsValue_iff _ := SourceFile.bindsValue_iff
  bindsValue _ _ h := bindsValue_of_importBinds h
  nameTaken identifier h := by
    obtain ⟨statement, hmem, himports | hb⟩ := SourceFile.bindsValue_iff.1 h
    · obtain ⟨form, hseen, hb⟩ := himports.exists_binds
      exact nameTaken_iff.2 ⟨statement, hmem, form, hseen, hb⟩
    · exact nameTaken_iff.2 ⟨statement, hmem, .declarator, rfl, hb⟩
  gap_iff _ := by rw [nameTaken_iff, bindsValue_eq_false_iff]

def besideTypes (line : String) (statement : Node) : SourceFile :=
  ⟨⟨"main.ts"⟩, .typeScript, "import type \x7be\x7d from \x27a\x27\n" ++ line,
    .ofGrammar "program" 0 (25 + Text.size line)
      [.ofGrammar "import_statement" 0 24
          [token "import" 0 6, token "type" 7 11,
            .ofGrammar "import_clause" 12 15
              [inBraces "named_imports" 12 15
                [.ofGrammar "import_specifier" 13 14 [(token "identifier" 13 14).filling "name"]]],
            token "from" 16 20, quotedModule 21],
        statement]⟩

def typesAndRequire : SourceFile :=
  besideTypes "import e = require(\x27b\x27)\n" (.ofGrammar "import_statement" 25 48
    [token "import" 25 31,
      .ofGrammar "import_require_clause" 32 48
        [token "identifier" 32 33, token "=" 34 35, token "require" 36 43, token "(" 43 44,
          quotedModule 44, token ")" 47 48]])

def typesAndAmbient : SourceFile :=
  besideTypes "declare let e\n" (.ofGrammar "ambient_declaration" 25 38
    [token "declare" 25 32,
      .ofGrammar "lexical_declaration" 33 38
        [(token "let" 33 36).filling "kind",
          .ofGrammar "variable_declarator" 37 38 [(token "identifier" 37 38).filling "name"]]])

/-- In a form that is overlooked, a name in the gap may be bound as a value all the same. -/
theorem gap_besideTypes :
    (typesAndRequire.nameTaken "e" = true ∧ typesAndRequire.bindsValue "e" = false ∧
      ∃ statement ∈ typesAndRequire.root.children,
        typesAndRequire.Binds "e" statement .requireImport ∧ ¬ Restricted statement) ∧
    typesAndAmbient.nameTaken "e" = true ∧ typesAndAmbient.bindsValue "e" = false ∧
      ∃ statement ∈ typesAndAmbient.root.children,
        typesAndAmbient.Binds "e" statement .ambientName := by
  have hsecond : ∀ {a b : Node} {rest : List Node}, b ∈ a :: b :: rest := by simp
  refine ⟨⟨by decide +kernel, by decide +kernel, _, hsecond, ?_, ?_⟩,
    by decide +kernel, by decide +kernel, _, hsecond, ?_⟩
  · exact .requireImport rfl hsecond rfl rfl (by decide +kernel)
  · rw [← isTypeOnly_eq_false_iff]
    decide
  · exact .ambientName (.inl rfl) rfl hsecond ⟨rfl, _, List.mem_singleton_self _, rfl⟩
      (by decide +kernel)

/-- The scans depend on the text and the tree only. -/
theorem bindsValue_congr {file' : SourceFile} (ht : file'.text = file.text)
    (hr : file'.root = file.root) : file'.bindsValue identifier = file.bindsValue identifier := by
  cases file
  cases file'
  cases ht
  cases hr
  rfl

end SourceFile

/-- Only a file can be missing for a change to be found. -/
theorem ChangeSpec.exists_missing {project : Project} {tree : Tree} {target : Path}
    {spec : ChangeSpec} {error : StepError} (h : spec.resolve project tree target = .error error) :
    ∃ path, error = .missing path := by
  cases spec with
  | fixed change => cases h
  | importFrom identifier file =>
    cases file with
    | none => exact ⟨none, (Except.error.inj h).symm⟩
    | some file =>
      simp only [resolve] at h
      split at h
      · cases h
      · exact ⟨some file, (Except.error.inj h).symm⟩

/-- Only a step that had nothing to do is reported so. -/
theorem Step.exists_of_alreadyPresent {step : Step} {answer : Except StepError StepOutput}
    (h : (step.reportOn answer).outcome = .alreadyPresent) :
    ∃ output, answer = .ok output ∧ output.applied = false := by
  cases answer with
  | ok output =>
    refine ⟨output, rfl, ?_⟩
    cases ha : output.applied with
    | false => rfl
    | true => simp [Step.reportOn, ha] at h
  | error error =>
    simp only [Step.reportOn, Step.failure] at h
    split at h
    · cases h
    · cases hp : step.policy <;> simp [hp, FailurePolicy.outcome] at h

namespace PatchStep

open Codemod.Tree

variable {project : Project} {step : PatchStep} {tree : Tree} {target : Path} {identifier : String}

/-- A step is for the import of a name into a file, and it is reported that the import is there. -/
structure FindsImport (project : Project) (step : PatchStep) (tree : Tree) (target : Path)
    (identifier : String) : Prop where
  found : (step.target.resolve project tree).1 = .ok target
  chosen : ∃ module, step.change.resolve project (step.target.resolve project tree).2 target =
    .ok (.insertImport identifier module)
  present : ((step.toStep project).reportOn (step.run project tree).1).outcome = .alreadyPresent

/-- A step needs a name in a file. -/
structure Needs (project : Project) (step : PatchStep) (tree : Tree) (target : Path)
    (identifier : String) : Prop where
  requires : step.requires = some identifier
  found : ∃ path, (step.target.resolve project tree).1 = .ok path ∧ path.same target = true

/-- A change that was not made is in the file. -/
theorem isPresent_of_patch (h : tree.Fresh project.reader) {change : Change} {output : StepOutput}
    (hanswer : (step.patch project target change tree).1 = .ok output)
    (ha : output.applied = false) :
    ∃ file source, (step.patch project target change tree).2.files.find? target = some file ∧
      file.source = some source ∧ source.isPresent change = true := by
  have hways := patchesTo_patch h step target change
  generalize step.patch project target change tree = result at hways hanswer ⊢
  cases hways with
  | refused => cases hanswer
  | present hf hs hp => exact ⟨_, _, hf, hs, hp⟩
  | inserted =>
    obtain rfl := Except.ok.inj hanswer
    cases ha

/-- Where an import is found, its name is bound as a value. -/
theorem FindsImport.bindsValue (h : tree.Fresh project.reader)
    (hf : step.FindsImport project tree target identifier) :
    ∃ file source, (step.run project tree).2.files.find? target = some file ∧
      file.source = some source ∧ source.bindsValue identifier = true := by
  obtain ⟨module, hchosen⟩ := hf.chosen
  obtain ⟨output, hanswer, ha⟩ := Step.exists_of_alreadyPresent hf.present
  have hfresh := (RecipeStep.moves_resolve project tree step.target).keeps fresh_move h
  have hways := runsTo_run project step tree
  generalize step.run project tree = result at hways hanswer ⊢
  cases hways with
  | unfound ht => cases hf.found.symm.trans ht
  | unchosen ht hc =>
    obtain rfl := Except.ok.inj (hf.found.symm.trans ht)
    cases hchosen.symm.trans hc
  | patched ht hc =>
    obtain rfl := Except.ok.inj (hf.found.symm.trans ht)
    obtain rfl := Except.ok.inj (hchosen.symm.trans hc)
    obtain ⟨file, source, hfile, hsource, hpresent⟩ := isPresent_of_patch hfresh hanswer ha
    exact ⟨file, source, hfile, hsource, SourceFile.bindsValue_of_importBinds hpresent⟩

/-- Where the name that it needs is bound as a value, a step does not miss it. -/
theorem Needs.ne_unbound (h : step.Needs project tree target identifier) {file : StagedFile}
    {source : SourceFile} (hf : tree.files.find? target = some file)
    (hs : file.source = some source) (hb : source.bindsValue identifier = true) (path : Path)
    (name : String) : (step.run project tree).1 ≠ .error (.unbound path name) := by
  obtain ⟨requires, found, hfound, hsame⟩ := h
  have hkept : (step.target.resolve project tree).2.files.find? found = some file := by
    rw [PathMap.find?_congr hsame]
    obtain he | ⟨main, he⟩ := step.target.resolve_tree project tree
    · rw [he, hf]
    · rw [he]
      exact (keeps_load project tree main target).kept file hf
  have hbound : ∀ change, step.lacking source change = none := by
    intro change
    simp [lacking, requires, hb]
  have hways := runsTo_run project step tree
  generalize step.run project tree = result at hways ⊢
  cases hways with
  | unfound ht => cases hfound.symm.trans ht
  | unchosen _ hc =>
    obtain ⟨missing, rfl⟩ := ChangeSpec.exists_missing hc
    simp [StepError.missing]
  | @patched _ change ht _ =>
    obtain rfl := Except.ok.inj (hfound.symm.trans ht)
    simp only [patch, source_of_find? hkept hs, planFor, hbound]
    cases source.plan change with
    | error error => simp
    | ok plan =>
      simp only
      split <;> simp

end PatchStep

namespace RecipeStep

open Codemod.Tree

variable {project : Project} {steps : List RecipeStep} {tree : Tree}

def treeAt (project : Project) (steps : List RecipeStep) (tree : Tree) (n : Nat) : Tree :=
  Step.treeAfter ((steps.take n).map (toStep project)) tree

theorem treeAt_succ {n : Nat} {step : RecipeStep} (h : steps[n]? = some step) :
    treeAt project steps tree (n + 1) =
      ((step.toStep project).run (treeAt project steps tree n)).2 := by
  rw [treeAt, List.take_add_one, h, List.map_append, Step.treeAfter_append]
  rfl

theorem fresh_treeAt (h : tree.Fresh project.reader) (n : Nat) :
    (treeAt project steps tree n).Fresh project.reader :=
  (moves_treeAfter (steps.take n) tree).keeps fresh_move h

/-- A report of a run is one on the step at its place. -/
theorem exists_of_ofRun {σ : Type} {sink : Sink σ} {stamp : RunStamp} {state : σ} {n : Nat}
    {entry : StepReport}
    (h : (Report.ofRun sink stamp (steps.map (toStep project)) tree state).1.steps[n]? = some entry) :
    ∃ step, steps[n]? = some step ∧ entry = (step.toStep project).reportOn
      ((step.toStep project).run (treeAt project steps tree n)).1 := by
  obtain ⟨ran, rest, hs, haccounts⟩ :=
    Report.accounts_ofRun sink stamp (steps.map (toStep project)) tree state
  have hall : (Step.reports (steps.map (toStep project)) tree)[n]? = some entry := by
    rw [haccounts.steps] at h
    obtain ⟨hlt, -⟩ := List.getElem?_eq_some_iff.1 h
    rw [hs, Step.reports_append, List.getElem?_append_left hlt, h]
  rw [Step.getElem?_reports, List.getElem?_map] at hall
  obtain ⟨made, hmade, rfl⟩ := Option.map_eq_some_iff.1 hall
  obtain ⟨step, hstep, rfl⟩ := Option.map_eq_some_iff.1 hmade
  exact ⟨step, hstep, by rw [treeAt, List.map_take]⟩

/-- One step finds the import of a name in a file, and a later one needs the name in that file, the
text of which is still the same. -/
structure Prepared (project : Project) (steps : List RecipeStep) (tree : Tree) (m n : Nat)
    (target : Path) (identifier : String) : Prop where
  order : m < n
  importing : ∃ step : PatchStep, steps[m]? = some (.patch step) ∧
    step.FindsImport project (treeAt project steps tree m) target identifier
  needing : ∃ step : PatchStep, steps[n]? = some (.patch step) ∧
    step.Needs project (treeAt project steps tree n) target identifier
  unchanged : ((treeAt project steps tree n).files.find? target).map StagedFile.text =
    ((treeAt project steps tree (m + 1)).files.find? target).map StagedFile.text

/-- The name is still bound as a value where the later step looks for it. -/
theorem Prepared.bindsValue (h : tree.Fresh project.reader) {m n : Nat} {target : Path}
    {identifier : String} (hp : Prepared project steps tree m n target identifier) :
    ∃ file source, (treeAt project steps tree n).files.find? target = some file ∧
      file.source = some source ∧ source.bindsValue identifier = true := by
  obtain ⟨step, hm, hfinds⟩ := hp.importing
  have hunchanged := hp.unchanged
  obtain ⟨old, given, hold, hgiven, hbinds⟩ := hfinds.bindsValue (fresh_treeAt h m)
  have hafter : (treeAt project steps tree (m + 1)).files.find? target = some old := by
    rw [treeAt_succ hm]
    exact hold
  rw [hafter, Option.map_some] at hunchanged
  obtain ⟨file, hfile, htext⟩ := Option.map_eq_some_iff.1 hunchanged
  have hfresh := (fresh_treeAt h n).find? hfile
  obtain ⟨hgtext, -, hglanguage, hgread⟩ := ((fresh_treeAt h (m + 1)).find? hafter).of_source given hgiven
  cases hs : file.source with
  | none =>
    rw [hfresh.source_eq_none_iff.1 hs] at hglanguage
    cases hglanguage
  | some source =>
    obtain ⟨hstext, -, hslanguage, hsread⟩ := hfresh.of_source source hs
    refine ⟨file, source, hfile, hs, ?_⟩
    have hlanguage : source.language = given.language :=
      Option.some.inj (hslanguage.symm.trans hglanguage)
    rw [hlanguage, htext, hgread] at hsread
    rw [SourceFile.bindsValue_congr (by rw [hstext, htext, hgtext]) (Option.some.inj hsread).symm,
      hbinds]

/-- The scans of a file are nested. So in a run, a step that needs a name in a file where an earlier
step has found its import is not left out for the want of it, as long as the text is the same. -/
theorem bindings_nest {σ : Type} (sink : Sink σ) (stamp : RunStamp) (state : σ) :
    (∀ file : SourceFile, file.BindingsNest) ∧
    ∀ (project : Project) (actions : List Session.Action) (steps : List RecipeStep) (m n : Nat)
      (target : Path) (identifier : String) (entry : StepReport),
      Prepared project steps (Session.start.run project.reader actions).tree m n target identifier →
      (Report.ofRun sink stamp (steps.map (toStep project))
        (Session.start.run project.reader actions).tree state).1.steps[n]? = some entry →
      ∃ step answer, steps[n]? = some step ∧ entry = (step.toStep project).reportOn answer ∧
        answer = ((step.toStep project).run
          (treeAt project steps (Session.start.run project.reader actions).tree n)).1 ∧
        ∀ path name, answer ≠ .error (.unbound path name) := by
  refine ⟨SourceFile.bindingsNest, ?_⟩
  intro project actions steps m n target identifier entry hp hentry
  have hfresh := Session.fresh_run project.reader actions
  obtain ⟨step, hstep, hreport⟩ := exists_of_ofRun hentry
  obtain ⟨needing, hneeding, hneeds⟩ := hp.needing
  obtain rfl : step = .patch needing := Option.some.inj (hstep.symm.trans hneeding)
  obtain ⟨file, source, hfile, hsource, hbinds⟩ := hp.bindsValue hfresh
  exact ⟨_, _, hstep, hreport, rfl, hneeds.ne_unbound hfile hsource hbinds⟩

def importAndCall (call : String) (arguments : List Node) : SourceFile :=
  let stop := 20 + Text.size call
  ⟨⟨"main.ts"⟩, .typeScript, "import \x7ba\x7d from \x27m\x27\n" ++ call ++ "\n",
    .ofGrammar "program" 0 (stop + 1)
      [.ofGrammar "import_statement" 0 19
          [SourceFile.token "import" 0 6,
            .ofGrammar "import_clause" 7 10
              [SourceFile.inBraces "named_imports" 7 10
                [.ofGrammar "import_specifier" 8 9
                  [(SourceFile.token "identifier" 8 9).filling "name"]]],
            SourceFile.token "from" 11 15, SourceFile.quotedModule 16],
        .ofGrammar "expression_statement" 20 stop [SourceFile.callAt 20 stop arguments]]⟩

def importProject : Project where
  view := .ofTexts (PathMap.empty.insert ⟨"main.ts"⟩ "import \x7ba\x7d from \x27m\x27\nf(b)\n")
  reader := SourceFile.readerOf
    [importAndCall "f(b)" [SourceFile.token "identifier" 22 23],
      importAndCall "f(b, a)" [SourceFile.token "identifier" 22 23, SourceFile.token "," 23 24,
        SourceFile.token "identifier" 25 26]]

def importSteps : List RecipeStep :=
  [.patch ⟨"import", .abort, .file (some ⟨"main.ts"⟩), .fixed (.insertImport "a" "m"), none⟩,
    .patch ⟨"call", .abort, .file (some ⟨"main.ts"⟩), .fixed (.register "f" none "a"), some "a"⟩]

theorem bindings_nest_importProject :
    Prepared importProject importSteps (Session.start.run importProject.reader []).tree 0 1
      ⟨"main.ts"⟩ "a" ∧
    ∃ entry, (Report.ofRun (fun n _ => n) SetupOutcome.firstStamp
        (importSteps.map (toStep importProject))
        (Session.start.run importProject.reader []).tree ()).1.steps[1]? = some entry ∧
      entry.outcome = .success ∧
      ∃ step answer, importSteps[1]? = some step ∧
        entry = (step.toStep importProject).reportOn answer ∧
        answer = ((step.toStep importProject).run
          (treeAt importProject importSteps (Session.start.run importProject.reader []).tree 1)).1 ∧
        ∀ path name, answer ≠ .error (.unbound path name) := by
  have hprepared : Prepared importProject importSteps
      (Session.start.run importProject.reader []).tree 0 1 ⟨"main.ts"⟩ "a" := by
    refine ⟨by decide, ⟨_, rfl, rfl, ⟨"m", rfl⟩, ?_⟩, ⟨_, rfl, rfl, _, rfl, ?_⟩, ?_⟩
    · decide +kernel
    · decide
    · decide +kernel
  have houtcome : ((Report.ofRun (fun n _ => n) SetupOutcome.firstStamp
      (importSteps.map (toStep importProject))
      (Session.start.run importProject.reader []).tree ()).1.steps[1]?).map StepReport.outcome =
        some .success := by decide +kernel
  obtain ⟨entry, hentry, hsuccess⟩ := Option.map_eq_some_iff.1 houtcome
  exact ⟨hprepared, entry, hentry, hsuccess,
    (bindings_nest (fun n _ => n) SetupOutcome.firstStamp ()).2 importProject [] importSteps 0 1
      ⟨"main.ts"⟩ "a" entry hprepared hentry⟩

end RecipeStep

end Codemod
