import Codemod.Proofs.Grammars

/-!
Names that an inserted import collides with.

`Binds` lists the forms in which a statement at the top level binds a name. Planning looks at four of
them: the three forms of an import clause, restricted to types or not, and the plain declarator of a
variable, exported or not. An import of a name that is bound in one of these does nothing or is
refused. It is put into any other file, where the name may be bound in one of the overlooked forms.
-/
namespace Codemod.SourceFile

open Source

/-- The forms in which a statement binds a name. -/
inductive BindingForm where
  /-- The name in front of an import clause. -/
  | defaultImport
  /-- The name of all that a module exports. -/
  | namespaceImport
  /-- A name in an import list, or what it is called there. -/
  | namedImport
  /-- An import that is set to what `require` returns. -/
  | requireImport
  | declarator
  /-- A part of the value that a declarator takes apart. -/
  | pattern
  | functionName
  | className
  | enumName
  /-- A variable that is declared to be there. -/
  | ambientName
  deriving DecidableEq, Repr

/-- The forms that planning looks at. -/
def BindingForm.isSeen (form : BindingForm) : Bool :=
  [defaultImport, namespaceImport, namedImport, declarator].contains form

variable (file : SourceFile) (identifier : String)

/-- The statement itself, or what it exports. -/
def IsDeclaration (statement declaration : Node) : Prop :=
  declaration = statement ∨
    (statement.kind = .exportStatement ∧ statement.child? "declaration" = some declaration)

/-- A name that a pattern binds. -/
inductive BindsIn : Node → Prop
  | name {node : Node} :
    node.grammar ∈ ["identifier", "shorthand_property_identifier_pattern"] →
    file.textOf node = identifier → BindsIn node
  /-- A key with a pattern, or a pattern with a default. -/
  | part {node inner : Node} {field : String} :
    (node.grammar, field) ∈ [("pair_pattern", "value"), ("assignment_pattern", "left"),
      ("object_assignment_pattern", "left")] →
    node.child? field = some inner → BindsIn inner → BindsIn node
  | member {node inner : Node} :
    node.grammar ∈ ["object_pattern", "array_pattern", "rest_pattern"] →
    inner ∈ node.children → BindsIn inner → BindsIn node

/-- A declaration with a name of its own. -/
def Names (grammars : List String) (declaration : Node) : Prop :=
  declaration.grammar ∈ grammars ∧
    ∃ name, declaration.child? "name" = some name ∧ file.textOf name = identifier

/-- A declarator of a variable statement, and what stands for its name. -/
def DeclaratorOf (statement : Node) (name : Node) : Prop :=
  statement.kind = .variableStatement ∧
    ∃ declarator ∈ statement.allOf .variableDeclarator, declarator.child? "name" = some name

/-- The forms in which a statement at the top level binds a name. -/
inductive Binds (statement : Node) : BindingForm → Prop
  | defaultImport {clause name : Node} :
    statement.kind = .importDeclaration → statement.firstOf .importClause = some clause →
    name ∈ clause.children → name.kind = .identifier → file.textOf name = identifier →
    Binds statement .defaultImport
  | namespaceImport {clause all name : Node} :
    statement.kind = .importDeclaration → statement.firstOf .importClause = some clause →
    all ∈ clause.children → all.kind = .namespaceImport →
    all.firstOf .identifier = some name → file.textOf name = identifier →
    Binds statement .namespaceImport
  | namedImport {clause list specifier name : Node} :
    statement.kind = .importDeclaration → statement.firstOf .importClause = some clause →
    list ∈ clause.children → list.kind = .namedImports → specifier ∈ list.allOf .importSpecifier →
    boundNode specifier = some name → file.textOf name = identifier →
    Binds statement .namedImport
  | requireImport {clause name : Node} :
    statement.kind = .importDeclaration → clause ∈ statement.children →
    clause.grammar = "import_require_clause" → clause.firstOf .identifier = some name →
    file.textOf name = identifier → Binds statement .requireImport
  | declarator {declaration name : Node} :
    IsDeclaration statement declaration → DeclaratorOf declaration name →
    file.textOf name = identifier → Binds statement .declarator
  | pattern {declaration name : Node} :
    IsDeclaration statement declaration → DeclaratorOf declaration name →
    name.grammar ∈ ["object_pattern", "array_pattern"] → BindsIn file identifier name →
    Binds statement .pattern
  | functionName {declaration : Node} :
    IsDeclaration statement declaration →
    file.Names identifier ["function_declaration", "generator_function_declaration",
      "function_signature"] declaration → Binds statement .functionName
  | className {declaration : Node} :
    IsDeclaration statement declaration →
    file.Names identifier ["class_declaration", "abstract_class_declaration"] declaration →
    Binds statement .className
  | enumName {declaration : Node} :
    IsDeclaration statement declaration → file.Names identifier ["enum_declaration"] declaration →
    Binds statement .enumName
  | ambientName {declaration inner name : Node} :
    IsDeclaration statement declaration → declaration.grammar = "ambient_declaration" →
    inner ∈ declaration.children → DeclaratorOf inner name → file.textOf name = identifier →
    Binds statement .ambientName

/-- A specifier in an import list of a statement, and the name that it binds. -/
structure Lists (statement specifier : Node) : Prop where
  kind : statement.kind = .importDeclaration
  listed : ∃ clause list, statement.firstOf .importClause = some clause ∧ list ∈ clause.children ∧
    list.kind = .namedImports ∧ specifier ∈ list.allOf .importSpecifier
  named : ∃ name, boundNode specifier = some name ∧ file.textOf name = identifier

variable {file : SourceFile} {identifier : String} {statement : Node}

theorem binds_namedImport_iff : file.Binds identifier statement .namedImport ↔
    ∃ specifier, file.Lists identifier statement specifier := by
  constructor
  · rintro (_ | _ | ⟨hk, hc, hmem, hlist, hs, hn, ht⟩)
    exact ⟨_, hk, ⟨_, _, hc, hmem, hlist, hs⟩, _, hn, ht⟩
  · rintro ⟨specifier, hk, ⟨clause, list, hc, hmem, hlist, hs⟩, name, hn, ht⟩
    exact .namedImport hk hc hmem hlist hs hn ht

theorem spells_eq_true_iff {node : Option Node} :
    file.spells identifier node = true ↔ ∃ n, node = some n ∧ file.textOf n = identifier := by
  cases node <;> simp [spells]

/-- The clause of an import introduces a name in one of three forms; a specifier that is restricted
to types counts only if asked for. -/
theorem importIntroduces_eq_true_iff {withTypes : Bool} (h : statement.kind = .importDeclaration) :
    file.importIntroduces withTypes identifier statement = true ↔
      file.Binds identifier statement .defaultImport ∨
        file.Binds identifier statement .namespaceImport ∨
        ∃ specifier, file.Lists identifier statement specifier ∧
          (withTypes = true ∨ isTypeOnly specifier = false) := by
  unfold importIntroduces
  cases hc : statement.firstOf .importClause with
  | none =>
    refine iff_of_false (by simp) ?_
    rintro (hb | hb | ⟨_, ⟨_, ⟨_, _, hf, _⟩, _⟩, _⟩)
    · cases hb
      simp_all
    · cases hb
      simp_all
    · simp_all
  | some clause =>
    simp only [introduces, List.any_eq_true]
    constructor
    · rintro ⟨child, hmem, hchild⟩
      split at hchild
      · exact .inl (.defaultImport h hc hmem ‹_› (by simpa using hchild))
      · obtain ⟨name, hn, ht⟩ := spells_eq_true_iff.1 hchild
        exact .inr (.inl (.namespaceImport h hc hmem ‹_› hn ht))
      · obtain ⟨specifier, hs, hspells⟩ := List.any_eq_true.1 hchild
        obtain ⟨hlisted, hcounts⟩ := List.mem_filter.1 hs
        refine .inr (.inr ⟨specifier, ⟨h, ⟨clause, child, hc, hmem, ‹_›, hlisted⟩, ?_⟩, ?_⟩)
        · exact spells_eq_true_iff.1 hspells
        · simpa using hcounts
      · cases hchild
    · rintro (hb | hb | ⟨specifier, ⟨-, ⟨_, list, hf, hmem, hk, hs⟩, hnamed⟩, hcounts⟩)
      · cases hb with
        | defaultImport _ hf hmem hk ht =>
          obtain rfl := Option.some.inj (hc.symm.trans hf)
          exact ⟨_, hmem, by simp [hk, ht]⟩
      · cases hb with
        | namespaceImport _ hf hmem hk hn ht =>
          obtain rfl := Option.some.inj (hc.symm.trans hf)
          exact ⟨_, hmem, by simp [hk, hn, spells, ht]⟩
      · obtain rfl := Option.some.inj (hc.symm.trans hf)
        refine ⟨list, hmem, ?_⟩
        simp only [hk, List.any_eq_true]
        exact ⟨specifier, List.mem_filter.2 ⟨hs, by simpa using hcounts⟩,
          spells_eq_true_iff.2 hnamed⟩

theorem importIntroduces_iff (h : statement.kind = .importDeclaration) :
    file.importIntroduces true identifier statement = true ↔
      file.Binds identifier statement .defaultImport ∨ file.Binds identifier statement .namespaceImport ∨
        file.Binds identifier statement .namedImport := by
  rw [importIntroduces_eq_true_iff h, binds_namedImport_iff]
  simp

/-- The variable statement of a statement is the statement itself or what it exports. -/
theorem variableStatementOf_eq_some_iff {declaration : Node} :
    variableStatementOf statement = some declaration ↔
      IsDeclaration statement declaration ∧ declaration.kind = .variableStatement := by
  unfold variableStatementOf IsDeclaration
  split
  · rename_i hk
    rw [Option.filter_eq_some_iff]
    constructor
    · rintro ⟨hd, hkind⟩
      exact ⟨.inr ⟨hk, hd⟩, by simpa [Node.isKind] using hkind⟩
    · rintro ⟨rfl | ⟨-, hd⟩, hkind⟩
      · simp [hk] at hkind
      · exact ⟨hd, by simp [Node.isKind, hkind]⟩
  · rename_i hk
    simp only [Option.some.injEq]
    constructor
    · rintro rfl
      exact ⟨.inl rfl, hk⟩
    · rintro ⟨rfl | ⟨he, -⟩, -⟩
      · rfl
      · simp [hk] at he
  · rename_i he hv
    refine iff_of_false (by simp) ?_
    rintro ⟨rfl | ⟨hk, -⟩, hkind⟩
    · exact hv hkind
    · exact he hk

/-- A variable is declared by one of the statements. -/
theorem declares_iff : file.declares identifier = true ↔
    ∃ statement ∈ file.root.children, file.Binds identifier statement .declarator := by
  simp only [declares, declarators, List.any_eq_true, List.mem_flatMap, List.mem_filterMap,
    spells_eq_true_iff, variableStatementOf_eq_some_iff]
  constructor
  · rintro ⟨declarator, ⟨declaration, ⟨statement, hmem, hd, hk⟩, hdeclarator⟩, name, hn, ht⟩
    exact ⟨statement, hmem, .declarator hd ⟨hk, declarator, hdeclarator, hn⟩ ht⟩
  · rintro ⟨statement, hmem, hb⟩
    cases hb with
    | declarator hd hn ht =>
      obtain ⟨hk, declarator, hdeclarator, hname⟩ := hn
      exact ⟨declarator, ⟨_, ⟨statement, hmem, hd, hk⟩, hdeclarator⟩, _, hname, ht⟩

/-- The names that are taken are those bound in a form that planning looks at. -/
theorem nameTaken_iff : file.nameTaken identifier = true ↔
    ∃ statement ∈ file.root.children, ∃ form, form.isSeen = true ∧
      file.Binds identifier statement form := by
  rw [nameTaken, Bool.or_eq_true, declares_iff, List.any_eq_true]
  constructor
  · rintro (⟨statement, hmem, hintroduces⟩ | ⟨statement, hmem, hb⟩)
    · obtain ⟨hchild, hkind⟩ := List.mem_filter.1 hmem
      have hk : statement.kind = .importDeclaration := by simpa [Node.isKind] using hkind
      rcases (importIntroduces_iff hk).1 hintroduces with hb | hb | hb
      · exact ⟨statement, hchild, .defaultImport, rfl, hb⟩
      · exact ⟨statement, hchild, .namespaceImport, rfl, hb⟩
      · exact ⟨statement, hchild, .namedImport, rfl, hb⟩
    · exact ⟨statement, hmem, .declarator, rfl, hb⟩
  · rintro ⟨statement, hmem, form, hseen, hb⟩
    have himport : ∀ {form}, file.Binds identifier statement form →
        (form = .defaultImport ∨ form = .namespaceImport ∨ form = .namedImport) →
        ∃ node ∈ file.imports, file.importIntroduces true identifier node = true := by
      intro form hb hform
      have hk : statement.kind = .importDeclaration := by
        rcases hform with rfl | rfl | rfl <;> cases hb <;> assumption
      refine ⟨statement, List.mem_filter.2 ⟨hmem, by simp [Node.isKind, hk]⟩, ?_⟩
      rw [importIntroduces_iff hk]
      rcases hform with rfl | rfl | rfl
      · exact .inl hb
      · exact .inr (.inl hb)
      · exact .inr (.inr hb)
    cases form with
    | defaultImport => exact .inl (himport hb (.inl rfl))
    | namespaceImport => exact .inl (himport hb (.inr (.inl rfl)))
    | namedImport => exact .inl (himport hb (.inr (.inr rfl)))
    | declarator => exact .inr ⟨statement, hmem, hb⟩
    | _ => cases hseen

/-- There is a place for an import in every file, and the import is laid out there. -/
theorem exists_insertion (file : SourceFile) (identifier module : String) :
    ∃ anchor piece, file.locate (.insertImport identifier module) = .ok anchor ∧
      file.insertionText anchor (.insertImport identifier module) = .ok piece := by
  have hplace : ∃ anchor, file.locate (.insertImport identifier module) = .ok anchor := by
    simp only [locate, findAnchor, anchor?]
    split
    · exact ⟨_, rfl⟩
    · exact ⟨_, rfl⟩
  obtain ⟨anchor, hlocate⟩ := hplace
  have hkind : anchor.kind = .namedImportsClose ∨ anchor.kind = .afterLastImport ∨
      anchor.kind = .documentStart := by
    rcases locate_import hlocate with ⟨named, -, hclose⟩ | rfl
    · exact .inl (kind_of_closeAnchor hclose)
    · unfold importAnchor
      split <;> simp
  have htext : ∃ piece, file.insertionText anchor (.insertImport identifier module) = .ok piece := by
    rcases hkind with hk | hk | hk <;> simp only [insertionText, hk] <;> exact ⟨_, rfl⟩
  obtain ⟨piece, hpiece⟩ := htext
  exact ⟨anchor, piece, hlocate, hpiece⟩

/-- An import is put into every file that neither has it nor has its name taken. -/
theorem plan_of_free {module : String} (hp : file.importBinds identifier module = false)
    (hf : file.nameTaken identifier = false) : ∃ offset piece rationale,
      file.plan (.insertImport identifier module) =
        .ok (.insert file.path offset piece rationale) := by
  obtain ⟨anchor, piece, hlocate, hpiece⟩ := exists_insertion file identifier module
  refine ⟨anchor.offset, piece,
    (Change.insertImport identifier module).describe ++ " at " ++ anchor.kind.label, ?_⟩
  simp only [plan, isPresent, hp, collides, hf, Bool.false_eq_true, if_false, hlocate, planAt, bind,
    Except.bind, hpiece, Except.map]

/-- The clause of a value import introduces the name in one of the forms that planning looks at. -/
theorem importIntroduces_of_value
    (h : file.importIntroduces false identifier statement = true) :
    file.importIntroduces true identifier statement = true := by
  unfold importIntroduces at h ⊢
  split at h
  · simp only [introduces, List.any_eq_true] at h ⊢
    obtain ⟨child, hmem, hchild⟩ := h
    refine ⟨child, hmem, ?_⟩
    split at hchild
    · exact hchild
    · exact hchild
    · obtain ⟨specifier, hs, hspells⟩ := List.any_eq_true.1 hchild
      exact List.any_eq_true.2
        ⟨specifier, List.mem_filter.2 ⟨(List.mem_filter.1 hs).1, rfl⟩, hspells⟩
    · exact hchild
  · exact h

/-- What comes of the plan for an import. It does nothing where a value import of the module binds
the name. Otherwise it is refused where the name is bound in a form that planning looks at; and it
is put into any other file. -/
theorem plan_insertImport_cases (file : SourceFile) (identifier module : String) :
    ((∃ statement ∈ file.root.children, isTypeOnly statement = false ∧
        file.importsFrom module statement = true ∧
        ∃ form, form.isSeen = true ∧ file.Binds identifier statement form) ∧
      file.plan (.insertImport identifier module) =
        .ok (file.noOpPlan (.insertImport identifier module))) ∨
    ((∃ statement ∈ file.root.children, ∃ form, form.isSeen = true ∧
        file.Binds identifier statement form) ∧
      file.plan (.insertImport identifier module) =
        .error (.nameTaken file.path identifier module)) ∨
    ((∀ statement ∈ file.root.children, ∀ form, file.Binds identifier statement form →
        form.isSeen = false) ∧
      ∃ offset piece rationale, file.plan (.insertImport identifier module) =
        .ok (.insert file.path offset piece rationale)) := by
  by_cases hp : file.importBinds identifier module = true
  · refine .inl ⟨?_, by rw [plan, isPresent, if_pos hp]⟩
    obtain ⟨statement, hmem, hb⟩ := List.any_eq_true.1 hp
    obtain ⟨hfrom, hintroduces⟩ := Bool.and_eq_true_iff.1 hb
    obtain ⟨himport, hvalue⟩ := List.mem_filter.1 hmem
    obtain ⟨hchild, hkind⟩ := List.mem_filter.1 himport
    refine ⟨statement, hchild, by simpa using hvalue, hfrom, ?_⟩
    rcases (importIntroduces_iff (by simpa [Node.isKind] using hkind)).1
      (importIntroduces_of_value hintroduces) with hb | hb | hb
    · exact ⟨_, rfl, hb⟩
    · exact ⟨_, rfl, hb⟩
    · exact ⟨_, rfl, hb⟩
  · rw [Bool.not_eq_true] at hp
    by_cases ht : file.nameTaken identifier = true
    · refine .inr (.inl ⟨nameTaken_iff.1 ht, ?_⟩)
      simp only [plan, isPresent, hp, collides, ht, Bool.false_eq_true, if_false, if_true]
    · refine .inr (.inr ⟨?_, plan_of_free hp (by simpa using ht)⟩)
      intro statement hmem form hb
      cases hs : form.isSeen with
      | false => rfl
      | true => exact absurd (nameTaken_iff.2 ⟨statement, hmem, form, hs, hb⟩) ht

def soleStatement (text grammar : String) (children : List Node) : SourceFile :=
  ⟨⟨"main.ts"⟩, .typeScript, text, .ofGrammar "program" 0 (Text.size text)
    [.ofGrammar grammar 0 (Text.size text - 1) children]⟩

def token (grammar : String) (start stop : Nat) : Node := .ofGrammar grammar start stop []

def inBraces (grammar : String) (start stop : Nat) (inner : List Node) : Node :=
  .ofGrammar grammar start stop
    (token "\x7b" start (start + 1) :: inner ++ [token "\x7d" (stop - 1) stop])

def quotedModule (start : Nat) : Node :=
  (Node.ofGrammar "string" start (start + 3)
    [token "\x27" start (start + 1), token "string_fragment" (start + 1) (start + 2),
      token "\x27" (start + 2) (start + 3)]).filling "source"

def BindingForm.sample : BindingForm → SourceFile
  | defaultImport =>
    soleStatement "import e from \x27m\x27\n" "import_statement"
      [token "import" 0 6, .ofGrammar "import_clause" 7 8 [token "identifier" 7 8],
        token "from" 9 13, quotedModule 14]
  | namespaceImport =>
    soleStatement "import * as e from \x27m\x27\n" "import_statement"
      [token "import" 0 6,
        .ofGrammar "import_clause" 7 13
          [.ofGrammar "namespace_import" 7 13
            [token "*" 7 8, token "as" 9 11, token "identifier" 12 13]],
        token "from" 14 18, quotedModule 19]
  | namedImport =>
    soleStatement "import type \x7be\x7d from \x27m\x27\n" "import_statement"
      [token "import" 0 6, token "type" 7 11,
        .ofGrammar "import_clause" 12 15
          [inBraces "named_imports" 12 15
            [.ofGrammar "import_specifier" 13 14 [(token "identifier" 13 14).filling "name"]]],
        token "from" 16 20, quotedModule 21]
  | requireImport =>
    soleStatement "import e = require(\x27m\x27)\n" "import_statement"
      [token "import" 0 6,
        .ofGrammar "import_require_clause" 7 23
          [token "identifier" 7 8, token "=" 9 10, token "require" 11 18, token "(" 18 19,
            quotedModule 19, token ")" 22 23]]
  | declarator =>
    soleStatement "let e\n" "lexical_declaration"
      [(token "let" 0 3).filling "kind",
        .ofGrammar "variable_declarator" 4 5 [(token "identifier" 4 5).filling "name"]]
  | pattern =>
    soleStatement "let \x7be\x7d = a\n" "lexical_declaration"
      [(token "let" 0 3).filling "kind",
        .ofGrammar "variable_declarator" 4 11
          [(inBraces "object_pattern" 4 7
              [token "shorthand_property_identifier_pattern" 5 6]).filling "name",
            token "=" 8 9, (token "identifier" 10 11).filling "value"]]
  | functionName =>
    soleStatement "function e() \x7b\x7d\n" "function_declaration"
      [token "function" 0 8, (token "identifier" 9 10).filling "name",
        (Node.ofGrammar "formal_parameters" 10 12
          [token "(" 10 11, token ")" 11 12]).filling "parameters",
        (inBraces "statement_block" 13 15 []).filling "body"]
  | className =>
    soleStatement "class e \x7b\x7d\n" "class_declaration"
      [token "class" 0 5, (token "type_identifier" 6 7).filling "name",
        (inBraces "class_body" 8 10 []).filling "body"]
  | enumName =>
    soleStatement "enum e \x7b\x7d\n" "enum_declaration"
      [token "enum" 0 4, (token "identifier" 5 6).filling "name",
        (inBraces "enum_body" 7 9 []).filling "body"]
  | ambientName =>
    soleStatement "declare let e\n" "ambient_declaration"
      [token "declare" 0 7,
        .ofGrammar "lexical_declaration" 8 13
          [(token "let" 8 11).filling "kind",
            .ofGrammar "variable_declarator" 12 13 [(token "identifier" 12 13).filling "name"]]]

theorem binds_sample (form : BindingForm) :
    ∃ statement ∈ form.sample.root.children, form.sample.Binds "e" statement form := by
  have hsecond : ∀ {a b : Node} {rest : List Node}, b ∈ a :: b :: rest := by simp
  cases form with
  | defaultImport =>
    exact ⟨_, List.mem_singleton_self _,
      .defaultImport rfl rfl (List.mem_singleton_self _) rfl (by decide +kernel)⟩
  | namespaceImport =>
    exact ⟨_, List.mem_singleton_self _,
      .namespaceImport rfl rfl (List.mem_singleton_self _) rfl rfl (by decide +kernel)⟩
  | namedImport =>
    exact ⟨_, List.mem_singleton_self _,
      .namedImport rfl rfl (List.mem_singleton_self _) rfl (List.mem_singleton_self _) rfl
        (by decide +kernel)⟩
  | requireImport =>
    exact ⟨_, List.mem_singleton_self _, .requireImport rfl hsecond rfl rfl (by decide +kernel)⟩
  | declarator =>
    exact ⟨_, List.mem_singleton_self _,
      .declarator (.inl rfl) ⟨rfl, _, List.mem_singleton_self _, rfl⟩ (by decide +kernel)⟩
  | pattern =>
    refine ⟨_, List.mem_singleton_self _,
      .pattern (.inl rfl) ⟨rfl, _, List.mem_singleton_self _, rfl⟩ (by decide) ?_⟩
    exact .member (by decide) hsecond (.name (by decide) (by decide +kernel))
  | functionName =>
    exact ⟨_, List.mem_singleton_self _,
      .functionName (.inl rfl) ⟨by decide, _, rfl, by decide +kernel⟩⟩
  | className =>
    exact ⟨_, List.mem_singleton_self _,
      .className (.inl rfl) ⟨by decide, _, rfl, by decide +kernel⟩⟩
  | enumName =>
    exact ⟨_, List.mem_singleton_self _,
      .enumName (.inl rfl) ⟨by decide, _, rfl, by decide +kernel⟩⟩
  | ambientName =>
    exact ⟨_, List.mem_singleton_self _,
      .ambientName (.inl rfl) rfl hsecond ⟨rfl, _, List.mem_singleton_self _, rfl⟩
        (by decide +kernel)⟩

theorem free_sample (form : BindingForm) (h : form.isSeen = false) :
    form.sample.importBinds "e" "n" = false ∧ form.sample.nameTaken "e" = false := by
  revert h
  cases form <;> decide +kernel

/-- The forms that planning looks at are those over which it never puts an import. -/
theorem BindingForm.isSeen_iff (form : BindingForm) : form.isSeen = true ↔
    ∀ (file : SourceFile) (identifier module : String), ∀ statement ∈ file.root.children,
      file.Binds identifier statement form → ∀ target offset piece rationale,
        file.plan (.insertImport identifier module) ≠
          .ok (.insert target offset piece rationale) := by
  constructor
  · intro hs file identifier module statement hmem hb target offset piece rationale hplan
    have htaken : file.nameTaken identifier = true := nameTaken_iff.2 ⟨statement, hmem, form, hs, hb⟩
    unfold plan at hplan
    split at hplan
    · cases hplan
    · simp [collides, htaken] at hplan
  · intro h
    cases hs : form.isSeen with
    | true => rfl
    | false =>
      obtain ⟨statement, hmem, hb⟩ := binds_sample form
      obtain ⟨hp, hf⟩ := free_sample form hs
      obtain ⟨offset, piece, rationale, hplan⟩ := plan_of_free hp hf
      exact absurd hplan (h _ _ _ statement hmem hb _ _ _ _)

end Codemod.SourceFile
