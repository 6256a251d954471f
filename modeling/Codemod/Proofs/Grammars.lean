import Codemod.Change.Planning
import Codemod.Proofs.Insertions
import Codemod.Proofs.ProjectTexts
import Codemod.Setup.Settings

/-!
What grammars make sure of.

A reader of source texts is a parameter. `TreeReader.Grammatical` says what setups rely on: trees
are regular, a text of data has no imports, variables and calls, and the text of a change, put where
the change attaches, comes out as the nodes that the change is about, with the tree around them
grown and otherwise as it was.
-/
namespace Codemod

open Source Node

namespace SourceFile

/-- An imported name in a list, not restricted to types. -/
structure IsSpecifier (file : SourceFile) (identifier : String) (node : Node) : Prop where
  kind : node.kind = .importSpecifier
  plain : isTypeOnly node = false
  bound : ∃ name, boundNode node = some name ∧ file.textOf name = identifier

/-- An import of one name. -/
structure IsImport (file : SourceFile) (identifier module : String) (node : Node) : Prop where
  kind : node.kind = .importDeclaration
  plain : isTypeOnly node = false
  source : ∃ source, node.child? "source" = some source ∧
    file.textOf source = String.ofList (Text.singleQuoted module)
  clause : ∃ clause named specifier, node.firstOf .importClause = some clause ∧
    clause.children = [named] ∧ named.kind = .namedImports ∧
    named.allOf .importSpecifier = [specifier] ∧ file.IsSpecifier identifier specifier

structure IsMember (file : SourceFile) (key : String) (node : Node) : Prop where
  kind : node.kind = .property
  key : ∃ k, node.child? "key" = some k ∧ unquote (file.textOf k) = key

structure IsElement (file : SourceFile) (token : String) (node : Node) : Prop where
  kind : node.kind = .call
  text : file.textOf node = token

structure IsListMember (file : SourceFile) (key token : String) (node : Node) : Prop
    extends file.IsMember key node where
  value : ∃ array, node.child? "value" = some array ∧ array.kind = .arrayLiteral ∧
    ∃ element ∈ array.children, file.IsElement token element

/-- The node that a change brings at an anchor. -/
def IsItem (file : SourceFile) : Change → AnchorKind → Node → Prop
  | .appendField _ key _, _, node => file.IsMember key node
  | .insertImport identifier _, .namedImportsClose, node => file.IsSpecifier identifier node
  | .insertImport identifier module, _, node => file.IsImport identifier module node
  | .register _ (some property) token, .objectLiteralClose, node =>
    file.IsListMember property token node
  | .register _ _ token, _, node => file.IsElement token node

/-- A call of `AngularFireModule.initializeApp`. -/
structure Initializes (file : SourceFile) (call : Node) : Prop where
  callee : ∃ f, call.child? "function" = some f ∧
    file.textOf f = "AngularFireModule.initializeApp" ∧
    ∃ name, f.child? "property" = some name ∧ file.textOf name = "initializeApp"

/-- The nodes that a change brings at an anchor: its item, behind a comma where one is needed. -/
structure Gains (file : SourceFile) (change : Change) (kind : AnchorKind) (new : List Node) :
    Prop where
  items : ∃ commas item, new = commas ++ [item] ∧
    (∀ comma ∈ commas, comma.kind = .comma ∧ comma.children = []) ∧ file.IsItem change kind item
  calls : ∀ inner ∈ within new, inner.kind = .call → file.Initializes inner

end SourceFile

/-- The changes that setups make. -/
inductive SetupChange : Change → Prop where
  | field (options : FirebaseOptions) :
    SetupChange (.appendField (some "environment") "firebase" options.entries)
  | environment (module : String) : SetupChange (.insertImport "environment" module)
  | package : SetupChange (.insertImport "AngularFireModule" "@angular/fire")
  | registration : SetupChange (.register "NgModule" (some "imports")
    "AngularFireModule.initializeApp(environment.firebase)")

/-- A file with the tree that a reader gives its text. -/
def SourceFile.IsRead (reader : TreeReader) (file : SourceFile) : Prop :=
  reader file.language file.text = some file.root

/-- A file becomes another one by a change: its text gets a piece where the change attaches. -/
structure SourceFile.Brings (reader : TreeReader) (change : Change) (anchor : Anchor)
    (piece : String) (file file' : SourceFile) : Prop where
  place : file.locate change = .ok anchor
  layout : file.insertionText anchor change = .ok piece
  text : Text.insertAt? file.text anchor.offset piece = some file'.text
  path : file'.path = file.path
  language : file'.language = file.language
  read : file'.IsRead reader

/-- What readers of a grammar make sure of. -/
structure TreeReader.Grammatical (reader : TreeReader) : Prop where
  regular : ∀ {file : SourceFile}, file.IsRead reader → file.Regular
  /-- Data has no imports, no variables and no calls. -/
  data : ∀ {file : SourceFile} {json : Json}, file.IsRead reader → Json.read file.text = .ok json →
    ∀ node ∈ file.nodes, node.kind ≠ .importDeclaration ∧ node.kind ≠ .variableDeclarator ∧
      node.kind ≠ .call
  /-- The tree grows by the nodes of a change. -/
  grows : ∀ {change : Change} {anchor : Anchor} {piece : String} {file file' : SourceFile},
    SetupChange change → file.IsRead reader → file.Brings reader change anchor piece file' →
    ∃ new, file.Grows file' anchor.offset piece new ∧ file'.Gains change anchor.kind new

/-- The part of that which concerns one change. -/
structure TreeReader.GrowsBy (reader : TreeReader) (change : Change) : Prop where
  regular : ∀ {file : SourceFile}, file.IsRead reader → file.Regular
  grows : ∀ {anchor : Anchor} {piece : String} {file file' : SourceFile}, file.IsRead reader →
    file.Brings reader change anchor piece file' →
    ∃ new, file.Grows file' anchor.offset piece new ∧ file'.Gains change anchor.kind new

theorem TreeReader.Grammatical.growsBy {reader : TreeReader} (h : reader.Grammatical)
    {change : Change} (hs : SetupChange change) : reader.GrowsBy change :=
  ⟨h.regular, h.grows hs⟩

namespace SourceFile

variable {file file' : SourceFile} {anchor : Anchor}

theorem kind_of_closeAnchor {container : Node} {close : Kind} {kind : AnchorKind}
    (h : closeAnchor container close kind = some anchor) : anchor.kind = kind := by
  obtain ⟨mark, last, -, -, rfl⟩ := exists_of_closeAnchor h
  rfl

theorem findAnchor_eq_ok {pattern : AnchorPattern} (h : file.findAnchor pattern = .ok anchor) :
    file.anchor? pattern = some anchor := by
  unfold findAnchor at h
  split at h
  · rename_i found hf
    rw [hf, Except.ok.inj h]
  · cases h

/-- A field goes into the object of its declarator. -/
theorem locate_field {declarator : Option String} {key : String} {entries : List ConfigEntry}
    (h : file.locate (.appendField declarator key entries) = .ok anchor) :
    ∃ object, file.declaredObject declarator = some object ∧
      closeAnchor object .closeBrace .objectLiteralClose = some anchor :=
  Option.bind_eq_some_iff.1 (findAnchor_eq_ok h)

/-- An import goes into a list of names, or between the statements. -/
theorem locate_import {identifier module : String}
    (h : file.locate (.insertImport identifier module) = .ok anchor) :
    (∃ named, file.namedImportsFrom module = some named ∧
      closeAnchor named .closeBrace .namedImportsClose = some anchor) ∨
    anchor = file.importAnchor := by
  simp only [locate] at h
  split at h
  · rename_i found hf
    obtain rfl := Except.ok.inj h
    exact .inl (Option.bind_eq_some_iff.1 hf)
  · exact .inr (Option.some.inj (findAnchor_eq_ok h)).symm

/-- An element goes into the array of a call's object, or into the object with an array. -/
theorem locate_registration {callee property token : String}
    (h : file.locate (.register callee (some property) token) = .ok anchor) :
    ∃ call object, file.findCall callee = some call ∧ objectArgument call = some object ∧
      ((∃ member array, file.property? object property = some member ∧
        arrayValue member = some array ∧
        closeAnchor array .closeBracket .arrayLiteralClose = some anchor) ∨
      (file.property? object property = none ∧
        closeAnchor object .closeBrace .objectLiteralClose = some anchor)) := by
  obtain ⟨object, ho, h⟩ := Option.bind_eq_some_iff.1 (findAnchor_eq_ok h)
  obtain ⟨call, hc, ho⟩ := Option.bind_eq_some_iff.1 ho
  refine ⟨call, object, hc, ho, ?_⟩
  cases hm : file.property? object property with
  | none =>
    rw [hm] at h
    exact .inr ⟨rfl, h⟩
  | some member =>
    rw [hm] at h
    obtain ⟨array, ha, h⟩ := Option.bind_eq_some_iff.1 h
    exact .inl ⟨member, array, rfl, ha, h⟩

theorem kind_importAnchor : file.importAnchor.kind ≠ .namedImportsClose := by
  unfold importAnchor
  split <;> simp

/-- The anchor of an import is inside no node. -/
theorem around_importAnchor (hr : file.Regular) {top : Node} (ht : top ∈ file.root.children) :
    top.around file.importAnchor.offset = false := by
  rw [around_eq_false_iff]
  unfold importAnchor
  split
  · rename_i last hl
    have hlast : last ∈ file.root.children :=
      (List.mem_filter.1 (List.mem_of_getLast? hl)).1
    have hne := (hr.laid last hlast).fits.nonempty
    rcases ordered_cases hr.ordered ht hlast with rfl | h | h
    · exact .inr (Nat.le_refl _)
    · simp only
      omega
    · exact .inl h
  · exact .inl (Nat.zero_le _)

/-- The list of names of an import of a module. -/
theorem exists_of_namedImportsFrom {module : String} {named : Node}
    (h : file.namedImportsFrom module = some named) :
    ∃ node ∈ file.imports, isTypeOnly node = false ∧ file.importsFrom module node = true ∧
      ∃ clause, node.firstOf .importClause = some clause ∧
        clause.firstOf .namedImports = some named := by
  obtain ⟨node, hn, h⟩ := List.exists_of_findSome?_eq_some h
  obtain ⟨hvalue, hfrom⟩ := List.mem_filter.1 hn
  obtain ⟨himport, hplain⟩ := List.mem_filter.1 hvalue
  obtain ⟨clause, hc, hnamed⟩ := Option.bind_eq_some_iff.1 h
  exact ⟨node, himport, by simpa using hplain, hfrom, clause, hc, hnamed⟩

theorem mem_objectArgument (hr : file.Regular) {callee : String} {call object : Node}
    (hc : file.findCall callee = some call) (ho : objectArgument call = some object) :
    call ∈ file.nodes ∧ call.kind = .call ∧ object ∈ file.nodes ∧ object.kind = .objectLiteral := by
  have hkind : ∀ m, file.isCallOf callee m = true → m.kind = .call := by
    intro m hm
    rw [isCallOf, Bool.and_eq_true] at hm
    simpa [isKind] using hm.1
  obtain ⟨hn, hk⟩ := Growth.Carries.mem_nodes_of_find? hr hkind hc
  obtain ⟨arguments, ha, ho⟩ := Option.bind_eq_some_iff.1 ho
  have hmem := mem_nodes_of_child hn (Growth.Carries.mem_of_child? ha)
  have hobject := List.mem_of_find?_eq_some ho
  refine ⟨hn, hk, mem_nodes_of_child hmem (List.mem_filter.1 hobject).1, ?_⟩
  simpa [isKind] using List.find?_some ho

theorem mem_arrayValue {member array : Node} (hn : member ∈ file.nodes)
    (ha : arrayValue member = some array) : array ∈ file.nodes ∧ array.kind = .arrayLiteral := by
  obtain ⟨hv, hk⟩ := Option.filter_eq_some_iff.1 ha
  exact ⟨mem_nodes_of_child hn (Growth.Carries.mem_of_child? hv), by simpa [isKind] using hk⟩

end SourceFile

end Codemod
