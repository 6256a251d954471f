import Codemod.Change.Presence
import Codemod.Module.Root
import Codemod.Proofs.NodeTexts

/-!
What a file knows after it has grown.

After an insertion every node of a file has an image, of the same kind and with the images of its
children, but for one node that has gained some. Whatever encloses the place has a closing mark in
its text, before and after, and so is never taken for a name. Hence the answers to structural
questions carry over from a file to the file it grows to.
-/
namespace Codemod

open Source Node

namespace SourceFile

def nodes (file : SourceFile) : List Node := within file.root.children

theorem mem_nodes_of_child {file : SourceFile} {node child : Node} (h : node ∈ file.nodes)
    (hc : child ∈ node.children) : child ∈ file.nodes := mem_within_of_child h hc

theorem mem_nodes_of_top {file : SourceFile} {node : Node} (h : node ∈ file.root.children) :
    node ∈ file.nodes := mem_within_of_mem h

end SourceFile

theorem any_congr_of_mem {α : Type} {items : List α} {p q : α → Bool}
    (h : ∀ a ∈ items, p a = q a) : items.any p = items.any q := by
  induction items with
  | nil => rfl
  | cons a rest ih =>
    obtain ⟨ha, hrest⟩ := List.forall_mem_cons.1 h
    rw [List.any_cons, List.any_cons, ha, ih hrest]

theorem findSome?_congr_of_mem {α β : Type} {items : List α} {f g : α → Option β}
    (h : ∀ a ∈ items, f a = g a) : items.findSome? f = items.findSome? g := by
  induction items with
  | nil => rfl
  | cons a rest ih =>
    obtain ⟨ha, hrest⟩ := List.forall_mem_cons.1 h
    rw [List.findSome?_cons, List.findSome?_cons, ha, ih hrest]

theorem Text.mem_dropWhile_isBlank {c : Char} (hb : isBlank c = false) {cs : List Char}
    (h : c ∈ cs) : c ∈ cs.dropWhile isBlank := by
  induction cs with
  | nil => cases h
  | cons d cs ih =>
    by_cases hd : isBlank d
    · rcases List.mem_cons.1 h with rfl | h
      · rw [hb] at hd
        cases hd
      · simpa [hd] using ih h
    · simpa [hd] using h

theorem Text.mem_trim {c : Char} (hb : isBlank c = false) {cs : List Char} (h : c ∈ cs) :
    c ∈ trim cs := by
  have hstart := mem_dropWhile_isBlank hb h
  rw [trim, trimEnd, List.mem_reverse]
  exact mem_dropWhile_isBlank hb (List.mem_reverse.2 hstart)

/-- Without its quotes a text keeps all characters but blanks and quotes. -/
theorem SourceFile.mem_unquote {c : Char} (hb : Text.isBlank c = false)
    (hq : c ≠ '\x27' ∧ c ≠ '\x22' ∧ c ≠ '\x60') {s : String} (h : c ∈ s.toList) :
    c ∈ (unquote s).toList := by
  have ht := Text.mem_trim hb h
  unfold unquote
  cases he : Text.trim s.toList with
  | nil =>
    rw [he] at ht
    cases ht
  | cons q inner =>
    rw [he] at ht
    simp only
    split
    · rename_i hquoted
      simp only [Bool.and_eq_true, Bool.or_eq_true, beq_iff_eq] at hquoted
      obtain ⟨hkind, hlast⟩ := hquoted
      have hne : c ≠ q := by
        rintro rfl
        rcases hkind with (hk | hk) | hk
        · exact hq.1 hk
        · exact hq.2.1 hk
        · exact hq.2.2 hk
      have hinner : c ∈ inner := by
        rcases List.mem_cons.1 ht with hc | hc
        · exact absurd hc hne
        · exact hc
      obtain ⟨front, rfl⟩ := List.getLast?_eq_some_iff.1 hlast
      rw [List.dropLast_concat, String.toList_ofList]
      rcases List.mem_append.1 hinner with hc | hc
      · exact hc
      · exact absurd (List.mem_singleton.1 hc) hne
    · simpa using ht

/-- A list of imported names has one of a name. -/
def SourceFile.lists (file : SourceFile) (withTypes : Bool) (identifier : String) (named : Node) :
    Bool :=
  named.children.any fun s => s.isKind .importSpecifier &&
    ((withTypes || !isTypeOnly s) && file.spells identifier (boundNode s))

theorem SourceFile.introduces_eq (file : SourceFile) (withTypes : Bool) (identifier : String)
    (clause : Node) : file.introduces withTypes identifier clause =
      clause.children.any fun child =>
        match child.kind with
        | .identifier => file.textOf child == identifier
        | .namespaceImport => file.spells identifier (child.firstOf .identifier)
        | .namedImports => file.lists withTypes identifier child
        | _ => false := by
  unfold introduces
  congr 1
  funext child
  cases child.kind with
  | namedImports => simp only [lists, allOf, List.any_filter]
  | _ => rfl

def Source.Node.IsLeaf (node : Node) : Prop :=
  node.kind = .identifier ∨ node.kind = .stringLiteral ∨ node.children = []

/-- What a grammar makes sure of: every node has a place of its own, names and strings hold nothing
but tokens, closing marks are spelled as they are, and the parts of imports and calls are what they
have to be. -/
structure SourceFile.Regular (file : SourceFile) : Prop where
  root : file.root.kind = .program
  laid : ∀ top ∈ file.root.children, top.Laid file.text
  ordered : Ordered file.root.children
  plain : ∀ node ∈ file.nodes, node.kind = .identifier ∨ node.kind = .stringLiteral →
    ∀ inner ∈ within node.children, inner.kind = .other
  closeBrace : ∀ node ∈ file.nodes, node.kind = .closeBrace → file.textOf node = "\x7d"
  closeBracket : ∀ node ∈ file.nodes, node.kind = .closeBracket → file.textOf node = "]"
  source : ∀ node ∈ file.nodes, node.kind = .importDeclaration →
    ∀ source, node.child? "source" = some source → source.kind = .stringLiteral
  names : ∀ node ∈ file.nodes, node.kind = .importSpecifier →
    ∀ name, SourceFile.boundNode node = some name → name.IsLeaf
  arguments : ∀ node ∈ file.nodes, node.kind = .call →
    ∀ arguments, node.child? "arguments" = some arguments →
      arguments.kind = .argumentList ∨ arguments.kind = .other

instance (node : Node) : Decidable node.IsLeaf :=
  inferInstanceAs (Decidable
    (node.kind = .identifier ∨ node.kind = .stringLiteral ∨ node.children = []))

instance (file : SourceFile) : Decidable file.Regular :=
  decidable_of_iff (file.root.kind = .program ∧
      (∀ top ∈ file.root.children, top.Laid file.text) ∧
      Ordered file.root.children ∧
      (∀ node ∈ file.nodes, node.kind = .identifier ∨ node.kind = .stringLiteral →
        ∀ inner ∈ within node.children, inner.kind = .other) ∧
      (∀ node ∈ file.nodes, node.kind = .closeBrace → file.textOf node = "\x7d") ∧
      (∀ node ∈ file.nodes, node.kind = .closeBracket → file.textOf node = "]") ∧
      (∀ node ∈ file.nodes, node.kind = .importDeclaration →
        ∀ source ∈ node.child? "source", source.kind = .stringLiteral) ∧
      (∀ node ∈ file.nodes, node.kind = .importSpecifier →
        ∀ name ∈ SourceFile.boundNode node, name.IsLeaf) ∧
      (∀ node ∈ file.nodes, node.kind = .call → ∀ arguments ∈ node.child? "arguments",
        arguments.kind = .argumentList ∨ arguments.kind = .other))
    ⟨fun ⟨h1, h2, h3, h4, h5, h6, h7, h8, h9⟩ => ⟨h1, h2, h3, h4, h5, h6, h7, h8, h9⟩,
      fun h => ⟨h.root, h.laid, h.ordered, h.plain, h.closeBrace, h.closeBracket, h.source, h.names,
        h.arguments⟩⟩

/-- It depends on the text and the tree alone. -/
theorem SourceFile.Regular.congr {file file' : SourceFile} (h : file.Regular)
    (ht : file'.text = file.text) (hr : file'.root = file.root) : file'.Regular := by
  obtain ⟨path, language, text, root⟩ := file'
  cases ht
  cases hr
  exact ⟨h.root, h.laid, h.ordered, h.plain, h.closeBrace, h.closeBracket, h.source, h.names,
    h.arguments⟩

/-- How a file grows. -/
structure Growth where
  /-- What becomes of a node. -/
  image : Node → Node
  /-- The node that gains children. -/
  hole : Node → Prop
  /-- A character in the text of every node around the place. -/
  mark : Char
  /-- The nodes that it gains. -/
  new : List Node
  /-- The nodes that the root gains. -/
  top : List Node

namespace Growth

/-- A file grows to another one. -/
structure Carries (g : Growth) (file file' : SourceFile) : Prop where
  kind : ∀ node, (g.image node).kind = node.kind
  grammar : ∀ node, (g.image node).grammar = node.grammar
  field : ∀ node, (g.image node).field = node.field
  children : ∀ node ∈ file.nodes, ¬ g.hole node →
    (g.image node).children = node.children.map g.image
  gains : ∀ node ∈ file.nodes, g.hole node → ∃ front back, node.children = front ++ back ∧
    (g.image node).children = front.map g.image ++ g.new ++ back.map g.image
  text : ∀ node ∈ file.nodes, file'.textOf (g.image node) = file.textOf node ∨
    (g.mark ∈ (file.textOf node).toList ∧ g.mark ∈ (file'.textOf (g.image node)).toList)
  leaf : ∀ node ∈ file.nodes, node.IsLeaf → file'.textOf (g.image node) = file.textOf node
  /-- The children that are gained stand in a list. -/
  hole : ∀ node ∈ file.nodes, g.hole node →
    node.kind = .namedImports ∨ node.kind = .objectLiteral ∨ node.kind = .arrayLiteral
  mark : g.mark = '\x7d' ∨ g.mark = ']'
  rootKind : file'.root.kind = file.root.kind
  root : ∃ front back, file.root.children = front ++ back ∧
    file'.root.children = front.map g.image ++ g.top ++ back.map g.image

/-- No node that is gained in a list of names brings a name. -/
def Quiet (g : Growth) (file' : SourceFile) (name : String) : Prop :=
  ∀ s ∈ g.new, s.kind = .importSpecifier → file'.spells name (SourceFile.boundNode s) = false

/-- The nodes that are gained bring no import of a name. -/
structure Silent (g : Growth) (file' : SourceFile) (name : String) : Prop where
  new : g.Quiet file' name
  top : ∀ d ∈ g.top, d.kind = .importDeclaration →
    ∀ withTypes, file'.importIntroduces withTypes name d = false

namespace Carries

variable {g : Growth} {file file' : SourceFile} (h : g.Carries file file')

include h

@[simp] theorem isKind_image (node : Node) (kind : Kind) :
    (g.image node).isKind kind = node.isKind kind := by
  simp [isKind, h.kind]

/-- A node of another kind than lists have does not gain children. -/
theorem not_hole {node : Node} (hn : node ∈ file.nodes)
    (hk : node.kind ≠ .namedImports ∧ node.kind ≠ .objectLiteral ∧ node.kind ≠ .arrayLiteral) :
    ¬ g.hole node := by
  intro hh
  rcases h.hole node hn hh with he | he | he
  · exact hk.1 he
  · exact hk.2.1 he
  · exact hk.2.2 he

theorem child?_image {node : Node} (hn : node ∈ file.nodes) (hh : ¬ g.hole node)
    (field : String) : (g.image node).child? field = (node.child? field).map g.image := by
  rw [child?, child?, h.children node hn hh, List.find?_map]
  congr 2
  funext child
  simp [h.field]

theorem firstOf_image {node : Node} (hn : node ∈ file.nodes) (hh : ¬ g.hole node) (kind : Kind) :
    (g.image node).firstOf kind = (node.firstOf kind).map g.image := by
  rw [firstOf, firstOf, h.children node hn hh, List.find?_map]
  congr 2
  funext child
  simp [h.isKind_image]

theorem allOf_image {node : Node} (hn : node ∈ file.nodes) (hh : ¬ g.hole node) (kind : Kind) :
    (g.image node).allOf kind = (node.allOf kind).map g.image := by
  rw [allOf, allOf, h.children node hn hh, List.filter_map]
  congr 2
  funext child
  simp [h.isKind_image]

theorem significant_image {node : Node} (hn : node ∈ file.nodes) (hh : ¬ g.hole node) :
    (g.image node).significant = node.significant.map g.image := by
  rw [significant, significant, h.children node hn hh, List.filter_map]
  congr 2
  funext child
  simp [h.kind]

/-- A node has the text of a name exactly if its image has. -/
theorem textOf_beq_image {node : Node} (hn : node ∈ file.nodes) {name : String}
    (hm : g.mark ∉ name.toList) :
    (file'.textOf (g.image node) == name) = (file.textOf node == name) := by
  rcases h.text node hn with he | ⟨h1, h2⟩
  · rw [he]
  · have hne : ∀ s : String, g.mark ∈ s.toList → (s == name) = false := by
      intro s hs
      rw [beq_eq_false_iff_ne]
      rintro rfl
      exact hm hs
    rw [hne _ h1, hne _ h2]

theorem spells_image {node : Option Node} (hn : ∀ n, node = some n → n ∈ file.nodes)
    {name : String} (hm : g.mark ∉ name.toList) :
    file'.spells name (node.map g.image) = file.spells name node := by
  cases node with
  | none => rfl
  | some node => exact h.textOf_beq_image (hn node rfl) hm

theorem mark_not_blank : Text.isBlank g.mark = false := by
  rcases h.mark with he | he <;> rw [he] <;> decide

theorem unquote_beq_image {node : Node} (hn : node ∈ file.nodes) {name : String}
    (hm : g.mark ∉ name.toList) :
    (SourceFile.unquote (file'.textOf (g.image node)) == name) =
      (SourceFile.unquote (file.textOf node) == name) := by
  rcases h.text node hn with he | ⟨h1, h2⟩
  · rw [he]
  · have hquote : g.mark ≠ '\x27' ∧ g.mark ≠ '\x22' ∧ g.mark ≠ '\x60' := by
      rcases h.mark with he | he <;> rw [he] <;> decide
    have hne : ∀ s : String, g.mark ∈ s.toList → (SourceFile.unquote s == name) = false := by
      intro s hs
      rw [beq_eq_false_iff_ne]
      rintro rfl
      exact hm (SourceFile.mem_unquote h.mark_not_blank hquote hs)
    rw [hne _ h1, hne _ h2]

omit h in
theorem mem_of_child? {node child : Node} {field : String} (hc : node.child? field = some child) :
    child ∈ node.children := List.mem_of_find?_eq_some hc

omit h in
theorem mem_of_firstOf {node child : Node} {kind : Kind} (hc : node.firstOf kind = some child) :
    child ∈ node.children ∧ child.kind = kind :=
  ⟨List.mem_of_find?_eq_some hc, by simpa [isKind] using List.find?_some hc⟩

/-- Nodes with children of another sort than those of lists. -/
theorem isTypeOnly_image {node : Node} (hn : node ∈ file.nodes) (hh : ¬ g.hole node) :
    SourceFile.isTypeOnly (g.image node) = SourceFile.isTypeOnly node := by
  rw [SourceFile.isTypeOnly, SourceFile.isTypeOnly, h.children node hn hh, List.any_map]
  congr 1
  funext child
  simp [h.grammar]

theorem boundNode_image {node : Node} (hn : node ∈ file.nodes) (hh : ¬ g.hole node) :
    SourceFile.boundNode (g.image node) = (SourceFile.boundNode node).map g.image := by
  rw [SourceFile.boundNode, SourceFile.boundNode, h.child?_image hn hh, h.child?_image hn hh]
  cases node.child? "alias" <;> rfl

/-- A name in an import list is bound by the image as by the node. -/
theorem spells_boundNode_image (hr : file.Regular) {node : Node} (hn : node ∈ file.nodes)
    (hk : node.kind = .importSpecifier) (name : String) :
    file'.spells name (SourceFile.boundNode (g.image node)) =
      file.spells name (SourceFile.boundNode node) := by
  rw [h.boundNode_image hn (h.not_hole hn (by simp [hk]))]
  cases hb : SourceFile.boundNode node with
  | none => rfl
  | some bound =>
    have hmem : bound ∈ file.nodes := by
      refine SourceFile.mem_nodes_of_child hn ?_
      rcases Option.or_eq_some_iff.1 hb with hb | ⟨-, hb⟩
      · exact mem_of_child? hb
      · exact mem_of_child? hb
    simp only [Option.map_some, SourceFile.spells, h.leaf bound hmem (hr.names node hn hk bound hb)]

theorem lists_image (hr : file.Regular) {node : Node} (hn : node ∈ file.nodes)
    {withTypes : Bool} {name : String} (hs : g.hole node → g.Quiet file' name) :
    file'.lists withTypes name (g.image node) = file.lists withTypes name node := by
  have hold : ∀ {part : List Node}, (∀ child ∈ part, child ∈ node.children) →
      (part.map g.image).any (fun s => s.isKind .importSpecifier &&
        ((withTypes || !SourceFile.isTypeOnly s) &&
          file'.spells name (SourceFile.boundNode s))) =
      part.any (fun s => s.isKind .importSpecifier &&
        ((withTypes || !SourceFile.isTypeOnly s) && file.spells name (SourceFile.boundNode s))) := by
    intro part hpart
    rw [List.any_map]
    apply any_congr_of_mem
    intro child hc
    have hmem := SourceFile.mem_nodes_of_child hn (hpart child hc)
    by_cases hk : child.kind = .importSpecifier
    · have hh := h.not_hole hmem (by simp [hk])
      simp only [Function.comp_apply, h.isKind_image, h.isTypeOnly_image hmem hh,
        h.spells_boundNode_image hr hmem hk]
    · have hb : child.isKind .importSpecifier = false := by simpa [isKind] using hk
      simp [h.isKind_image, hb]
  by_cases hh : g.hole node
  · obtain ⟨front, back, he, hi⟩ := h.gains node hn hh
    have hnew : g.new.any (fun s => s.isKind .importSpecifier &&
        ((withTypes || !SourceFile.isTypeOnly s) &&
          file'.spells name (SourceFile.boundNode s))) = false := by
      rw [List.any_eq_false]
      intro s hmem
      by_cases hk : s.kind = .importSpecifier
      · rw [hs hh s hmem hk]
        simp
      · simp [isKind, hk]
    rw [SourceFile.lists, SourceFile.lists, hi, he]
    simp only [List.any_append, hnew, Bool.or_false]
    rw [hold fun child hc => by simp [he, hc], hold fun child hc => by simp [he, hc]]
  · rw [SourceFile.lists, SourceFile.lists, h.children node hn hh]
    exact hold fun child hc => hc

/-- An import clause introduces the names that its image introduces. -/
theorem introduces_image (hr : file.Regular) {clause : Node} (hn : clause ∈ file.nodes)
    (hk : clause.kind = .importClause) {withTypes : Bool} {name : String}
    (hs : ∀ child ∈ clause.children, g.hole child → g.Quiet file' name) :
    file'.introduces withTypes name (g.image clause) = file.introduces withTypes name clause := by
  rw [SourceFile.introduces_eq, SourceFile.introduces_eq,
    h.children clause hn (h.not_hole hn (by simp [hk])), List.any_map]
  apply any_congr_of_mem
  intro child hc
  have hmem := SourceFile.mem_nodes_of_child hn hc
  simp only [Function.comp_apply, h.kind]
  cases hck : child.kind with
  | identifier => simp only [h.leaf child hmem (.inl hck)]
  | namespaceImport =>
    simp only [h.firstOf_image hmem (h.not_hole hmem (by simp [hck]))]
    cases hf : child.firstOf .identifier with
    | none => rfl
    | some bound =>
      obtain ⟨hb, hbk⟩ := mem_of_firstOf hf
      simp only [Option.map_some, SourceFile.spells,
        h.leaf bound (SourceFile.mem_nodes_of_child hmem hb) (.inl hbk)]
  | namedImports => exact h.lists_image hr hmem (hs child hc)
  | _ => rfl

/-- An import introduces what its image introduces, but for a name that it gains. -/
theorem importIntroduces_image (hr : file.Regular) {node : Node} (hn : node ∈ file.nodes)
    (hk : node.kind = .importDeclaration) {withTypes : Bool} {name : String}
    (hs : ∀ inner ∈ node.preorder, g.hole inner → g.Quiet file' name) :
    file'.importIntroduces withTypes name (g.image node) =
      file.importIntroduces withTypes name node := by
  rw [SourceFile.importIntroduces, SourceFile.importIntroduces,
    h.firstOf_image hn (h.not_hole hn (by simp [hk]))]
  cases hf : node.firstOf .importClause with
  | none => rfl
  | some clause =>
    obtain ⟨hmem, hkind⟩ := mem_of_firstOf hf
    refine h.introduces_image hr (SourceFile.mem_nodes_of_child hn hmem) hkind ?_
    intro child hc
    exact hs child (mem_preorder_of_below hmem (mem_preorder_of_child hc))

/-- The imports of a file that has grown. -/
theorem imports_image : ∃ front back, file.imports = front ++ back ∧
    file'.imports = front.map g.image ++ g.top.filter (fun d => d.isKind .importDeclaration)
      ++ back.map g.image := by
  obtain ⟨front, back, he, hi⟩ := h.root
  have hkind : (fun d : Node => (g.image d).isKind .importDeclaration) =
      fun d => d.isKind .importDeclaration := by
    funext d
    rw [h.isKind_image]
  refine ⟨front.filter fun d => d.isKind .importDeclaration,
    back.filter fun d => d.isKind .importDeclaration, ?_, ?_⟩
  · rw [SourceFile.imports, allOf, he, List.filter_append]
  · rw [SourceFile.imports, allOf, hi, List.filter_append, List.filter_append, List.filter_map,
      List.filter_map]
    simp only [Function.comp_def, hkind]

omit h in
theorem mem_imports {node : Node} (hn : node ∈ file.imports) :
    node ∈ file.nodes ∧ node.kind = .importDeclaration := by
  obtain ⟨hmem, hk⟩ := List.mem_filter.1 hn
  exact ⟨SourceFile.mem_nodes_of_top hmem, by simpa [isKind] using hk⟩

/-- A question about imports is answered by those that were there or by those gained. -/
theorem any_imports_image {p p' : Node → Bool} (hp : ∀ d ∈ file.imports, p' (g.image d) = p d) :
    file'.imports.any p' = (file.imports.any p ||
      (g.top.filter fun d => d.isKind .importDeclaration).any p') := by
  obtain ⟨front, back, he, hi⟩ := h.imports_image
  have hold : ∀ {part : List Node}, (∀ d ∈ part, d ∈ file.imports) →
      (part.map g.image).any p' = part.any p := by
    intro part hpart
    rw [List.any_map]
    exact any_congr_of_mem fun d hd => hp d (hpart d hd)
  rw [hi, he]
  simp only [List.any_append]
  rw [hold fun d hd => by simp [he, hd], hold fun d hd => by simp [he, hd], Bool.or_assoc,
    Bool.or_assoc, Bool.or_comm (List.any back p)]

/-- A question about imports that the gained ones do not answer. -/
theorem any_imports_of_top {p p' : Node → Bool} (hp : ∀ d ∈ file.imports, p' (g.image d) = p d)
    (ht : ∀ d ∈ g.top, d.kind = .importDeclaration → p' d = false) :
    file'.imports.any p' = file.imports.any p := by
  have htop : (g.top.filter fun d => d.isKind .importDeclaration).any p' = false := by
    rw [List.any_eq_false]
    intro d hd
    obtain ⟨hmem, hk⟩ := List.mem_filter.1 hd
    simp [ht d hmem (by simpa [isKind] using hk)]
  rw [h.any_imports_image hp, htop, Bool.or_false]

theorem importSource_image (hr : file.Regular) {node : Node} (hn : node ∈ file.nodes)
    (hk : node.kind = .importDeclaration) :
    file'.importSource (g.image node) = file.importSource node := by
  rw [SourceFile.importSource, SourceFile.importSource,
    h.child?_image hn (h.not_hole hn (by simp [hk])), Option.map_map]
  apply Option.map_congr
  intro source hs
  have hkind := hr.source node hn hk source hs
  have hmem := SourceFile.mem_nodes_of_child hn (mem_of_child? hs)
  rw [Function.comp_apply, h.leaf source hmem (.inr (.inl hkind))]

/-- The names that imports bind stay bound, and no others come. -/
theorem importBinds_image (hr : file.Regular) {name : String} (hs : g.Silent file' name)
    (module : String) : file'.importBinds name module = file.importBinds name module := by
  simp only [SourceFile.importBinds, SourceFile.valueImports, List.any_filter]
  apply h.any_imports_of_top
  · intro d hd
    obtain ⟨hmem, hk⟩ := mem_imports hd
    rw [h.isTypeOnly_image hmem (h.not_hole hmem (by simp [hk])), SourceFile.importsFrom,
      SourceFile.importsFrom, h.importSource_image hr hmem hk,
      h.importIntroduces_image hr hmem hk fun _ _ _ => hs.new]
  · intro d hd hk
    simp [hs.top d hd hk]

/-- The import that binds a name first stays the same. -/
theorem originOf_image (hr : file.Regular) {name : String} (hs : g.Silent file' name) :
    file'.originOf name = file.originOf name := by
  obtain ⟨front, back, he, hi⟩ := h.imports_image
  have htop : (g.top.filter fun d => d.isKind .importDeclaration).findSome? (fun d =>
      if file'.importIntroduces false name d then file'.importSource d else none) = none := by
    rw [List.findSome?_eq_none_iff]
    intro d hd
    obtain ⟨hmem, hk⟩ := List.mem_filter.1 hd
    simp [hs.top d hmem (by simpa [isKind] using hk) false]
  have hold : ∀ {part : List Node}, (∀ d ∈ part, d ∈ file.imports) →
      (part.map g.image).findSome? (fun d =>
        if file'.importIntroduces false name d then file'.importSource d else none) =
      part.findSome? (fun d =>
        if file.importIntroduces false name d then file.importSource d else none) := by
    intro part hpart
    rw [List.findSome?_map]
    apply findSome?_congr_of_mem
    intro d hd
    obtain ⟨hmem, hk⟩ := mem_imports (hpart d hd)
    rw [Function.comp_apply, h.importIntroduces_image hr hmem hk fun _ _ _ => hs.new,
      h.importSource_image hr hmem hk]
  rw [SourceFile.originOf, SourceFile.originOf, hi, he]
  simp only [List.findSome?_append, htop, Option.or_none]
  rw [hold fun d hd => by simp [he, hd], hold fun d hd => by simp [he, hd]]

omit h in
theorem within_append (a b : List Node) : within (a ++ b) = within a ++ within b :=
  preorderAll_append a b

omit h in
theorem within_cons (node : Node) (rest : List Node) :
    within (node :: rest) = node.preorder ++ within rest := rfl

omit h in
theorem filter_within_map {image : Node → Node} {p p' : Node → Bool} {nodes : List Node}
    (ih : ∀ node ∈ nodes,
      (image node).preorder.filter p' = (node.preorder.filter p).map image) :
    (within (nodes.map image)).filter p' = ((within nodes).filter p).map image := by
  induction nodes with
  | nil => rfl
  | cons node rest ihr =>
    obtain ⟨hnode, hrest⟩ := List.forall_mem_cons.1 ih
    rw [List.map_cons, within_cons, within_cons, List.filter_append, List.filter_append, hnode,
      ihr hrest, List.map_append]

omit h in
theorem filter_within_eq_nil {p : Node → Bool} {nodes : List Node}
    (hp : ∀ m ∈ within nodes, p m = false) : (within nodes).filter p = [] := by
  rw [List.filter_eq_nil_iff]
  intro m hm
  simp [hp m hm]

/-- The nodes of a sort in a tree that has grown are the images of those that were there. -/
theorem filter_preorder_image {p p' : Node → Bool}
    (hp : ∀ m ∈ file.nodes, p' (g.image m) = p m) (hnew : ∀ m ∈ within g.new, p' m = false)
    {node : Node} (hn : node ∈ file.nodes) :
    (g.image node).preorder.filter p' = (node.preorder.filter p).map g.image := by
  induction node using induction_on with
  | step node ih =>
    have hih := fun child hc => ih child hc (SourceFile.mem_nodes_of_child hn hc)
    have hchildren : (within (g.image node).children).filter p' =
        ((within node.children).filter p).map g.image := by
      by_cases hh : g.hole node
      · obtain ⟨front, back, he, hi⟩ := h.gains node hn hh
        have hfront := filter_within_map fun child (hc : child ∈ front) => hih child (by simp [he, hc])
        have hback := filter_within_map fun child (hc : child ∈ back) => hih child (by simp [he, hc])
        rw [hi, he]
        simp only [within_append, List.filter_append, List.map_append, hfront, hback,
          filter_within_eq_nil hnew, List.append_nil]
      · rw [h.children node hn hh]
        exact filter_within_map hih
    rw [preorder_eq_within, preorder_eq_within, List.filter_cons, List.filter_cons, hp node hn,
      hchildren]
    split <;> rfl

/-- The first node of a sort is the image of the first one that was there. -/
theorem find?_descendants_image {p p' : Node → Bool}
    (hp : ∀ m ∈ file.nodes, p' (g.image m) = p m) (hnew : ∀ m ∈ within g.new, p' m = false)
    (htop : ∀ m ∈ within g.top, p' m = false) (hroot : p file.root = false)
    (hroot' : p' file'.root = false) :
    file'.root.descendants.find? p' = (file.root.descendants.find? p).map g.image := by
  obtain ⟨front, back, he, hi⟩ := h.root
  have hold : ∀ {part : List Node}, (∀ d ∈ part, d ∈ file.root.children) →
      (within (part.map g.image)).filter p' = ((within part).filter p).map g.image :=
    fun hpart => filter_within_map fun child hc =>
      h.filter_preorder_image hp hnew (SourceFile.mem_nodes_of_top (hpart child hc))
  have hall : (within file'.root.children).filter p' =
      ((within file.root.children).filter p).map g.image := by
    rw [hi, he]
    simp only [within_append, List.filter_append, List.map_append, filter_within_eq_nil htop,
      List.append_nil]
    rw [hold fun d hd => by simp [he, hd], hold fun d hd => by simp [he, hd]]
  rw [descendants_eq, descendants_eq, ← List.head?_filter, ← List.head?_filter, List.filter_cons, List.filter_cons,
    hroot, hroot', hall]
  simp

end Carries

end Growth

end Codemod
