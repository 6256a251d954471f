import Codemod.Proofs.Grammars
import Codemod.Proofs.ListForms
import Codemod.Proofs.ObjectLiterals

/-!
Insertions into lists.

What a change puts at the end of a list is a comma where one is needed, blanks, and an item: a name
or a token, or a property that is read with the key and the entries of the change. With the tokens
of that text the list is a list of one item more.
-/
namespace Codemod

open Source Node

/-- The marks around a list with an anchor of a kind at its end. -/
inductive Brackets : AnchorKind → Kind → Kind → Prop where
  | object : Brackets .objectLiteralClose .openBrace .closeBrace
  | names : Brackets .namedImportsClose .openBrace .closeBrace
  | array : Brackets .arrayLiteralClose .openBracket .closeBracket
  | arguments : Brackets .callArgumentListClose .openParen .closeParen

def Source.Kind.mark? : Kind → Option Char
  | .openBrace => some '\x7b'
  | .closeBrace => some '\x7d'
  | .openBracket => some '['
  | .closeBracket => some ']'
  | .openParen => some '('
  | .closeParen => some ')'
  | .comma => some ','
  | _ => none

section Brackets

variable {kind : AnchorKind} {opening close : Kind}

theorem Brackets.opens (h : Brackets kind opening close) : opening.opensOrSeparates = true := by
  cases h <;> rfl

theorem Brackets.exists_mark (h : Brackets kind opening close) :
    ∃ mark, opening.mark? = some mark ∧ mark ≠ ',' := by
  cases h with
  | object | names => exact ⟨'\x7b', rfl, by decide⟩
  | array => exact ⟨'[', rfl, by decide⟩
  | arguments => exact ⟨'(', rfl, by decide⟩

end Brackets

/-- A change adds an item to a list with an anchor of a kind at its end. -/
def Change.addsTo : Change → AnchorKind → Bool
  | .appendField .., .objectLiteralClose => true
  | .insertImport .., .namedImportsClose => true
  | .register .., .arrayLiteralClose => true
  | .register .., .callArgumentListClose => true
  | .register _ (some _) _, .objectLiteralClose => true
  | _, _ => false

/-- The texts of the item. A field is any text from a key to a closing brace that is read as the
property with the key and the entries of the change. -/
inductive Change.Item : Change → AnchorKind → String → Prop where
  | field {declarator : Option String} {key : String} {entries : List ConfigEntry} {item : String}
      (hread : ObjectLiteral.read item = some (ObjectLiteral.units key,
        .object (entries.map ObjectLiteral.propertyOf)))
      (hstart : ObjectLiteral.skipBlanks item.toList = item.toList)
      (hend : item.toList.getLast? = some '\x7d') :
      Item (.appendField declarator key entries) .objectLiteralClose item
  | name {identifier module : String} :
      Item (.insertImport identifier module) .namedImportsClose identifier
  | element {callee token : String} {property : Option String} :
      Item (.register callee property token) .arrayLiteralClose token
  | argument {callee token : String} {property : Option String} :
      Item (.register callee property token) .callArgumentListClose token
  | member {callee token property : String} :
      Item (.register callee (some property) token) .objectLiteralClose
        (property ++ ": [" ++ token ++ "]")

/-- The name or token that a change adds. -/
def Change.word? : Change → Option String
  | .appendField .. => none
  | .insertImport identifier _ => some identifier
  | .register _ _ token => some token

/-- An item is empty only as an empty name or token. -/
theorem Change.Item.ne_empty {change : Change} {kind : AnchorKind} {item : String}
    (h : change.Item kind item) (hw : change.word? ≠ some "") : item ≠ "" := by
  intro he
  cases h with
  | field _ _ hend =>
    rw [he] at hend
    cases hend
  | name | element | argument => exact hw (congrArg some he)
  | member => simp at he

/-- The texts that a change puts at the end of a list: a comma where one is needed, blanks, and an
item. -/
structure Addition where
  offset : Nat
  comma : Bool
  blanks : List Char
  item : String

namespace Addition

def anchor (added : Addition) (kind : AnchorKind) : Anchor :=
  ⟨added.offset, kind, added.comma⟩

def lead (added : Addition) : List Char :=
  (if added.comma then [','] else []) ++ added.blanks

def text (added : Addition) : String := String.ofList (added.lead ++ added.item.toList)

def plan (added : Addition) (file : SourceFile) (change : Change) (kind : AnchorKind) : EditPlan :=
  .insert file.path added.offset added.text (change.describe ++ " at " ++ kind.label)

def commas (added : Addition) : List Node :=
  if added.comma then [⟨.comma, ",", none, added.offset, added.offset + 1, []⟩] else []

/-- A node of the item. -/
structure IsItem (added : Addition) (node : Node) : Prop where
  listable : node.Listable
  nonempty : node.start < node.stop
  start : node.start = added.offset + Text.byteLength added.lead
  stop : node.stop = node.start + Text.size added.item

theorem exists_isItem (added : Addition) (h : added.item ≠ "") :
    ∃ node, added.IsItem node := by
  have hsize : 0 < Text.size added.item :=
    Nat.pos_of_ne_zero fun hs => h (String.toList_injective (Text.byteLength_eq_zero hs))
  refine ⟨⟨.identifier, "identifier", none, added.offset + Text.byteLength added.lead,
    added.offset + Text.byteLength added.lead + Text.size added.item, []⟩, rfl, ?_, rfl, rfl⟩
  show added.offset + Text.byteLength added.lead < _ + Text.size added.item
  omega

def children (added : Addition) (container node : Node) : List Node :=
  weave added.offset (Text.size added.text) (added.commas ++ [node]) container.children

def move (added : Addition) (node : Node) : Node → Node :=
  grow added.offset (Text.size added.text) (added.commas ++ [node])

variable {added : Addition}

theorem kind_of_mem_commas {comma : Node} (h : comma ∈ added.commas) : comma.kind = .comma := by
  unfold commas at h
  split at h
  · rw [List.mem_singleton.1 h]
  · cases h

theorem length_commas : added.commas.length = if added.comma then 1 else 0 := by
  unfold commas
  split <;> rfl

theorem size_text : Text.size added.text =
    Text.byteLength added.lead + Text.size added.item := by
  simp [text, Text.size]

/-- The nodes fill the place of the text. -/
theorem fill {node : Node} (h : added.IsItem node) :
    Fill added.offset (Text.size added.text) (added.commas ++ [node]) := by
  have hstart := h.start
  have hstop := h.stop
  have hnode := h.nonempty
  have hcommas : ∀ comma ∈ added.commas,
      comma.start = added.offset ∧ comma.stop = added.offset + 1 ∧ comma.stop ≤ node.start := by
    intro comma hm
    unfold commas at hm
    split at hm
    · rename_i hc
      have hlead : Text.byteLength added.lead = 1 + Text.byteLength added.blanks := by
        rw [lead, if_pos hc]
        rfl
      rw [List.mem_singleton.1 hm]
      refine ⟨rfl, rfl, ?_⟩
      show added.offset + 1 ≤ node.start
      omega
    · cases hm
  have hordered : Ordered added.commas := by
    unfold commas
    split <;> simp [Ordered]
  rw [size_text]
  refine ⟨?_, List.pairwise_append.2 ⟨hordered, by simp, ?_⟩, ?_⟩
  · intro child hm
    rcases List.mem_append.1 hm with hm | hm
    · have := hcommas child hm
      omega
    · rw [List.mem_singleton.1 hm]
      exact hnode
  · intro comma hm child hc
    rw [List.mem_singleton.1 hc]
    exact (hcommas comma hm).2.2
  · intro child hm
    rcases List.mem_append.1 hm with hm | hm
    · have := hcommas child hm
      omega
    · rw [List.mem_singleton.1 hm]
      omega

theorem kind_new {node : Node} (h : added.IsItem node) :
    ∀ child ∈ added.commas ++ [node], child.isKind .comment = false := by
  intro child hm
  rcases List.mem_append.1 hm with hm | hm
  · simp [isKind, kind_of_mem_commas hm]
  · rw [List.mem_singleton.1 hm]
    exact h.listable.not_comment

/-- What the nodes cover when the text stands at its place. -/
theorem texts {source source' : String}
    (h : Text.insertAt? source added.offset added.text = some source') :
    (∀ comma ∈ added.commas, comma.text source' = ",") ∧
      ∀ node, added.IsItem node → node.text source' = added.item := by
  obtain ⟨front, back, -, hfront, rfl⟩ := Text.insertAt?_eq_some_iff.1 h
  constructor
  · intro comma hm
    unfold commas at hm
    split at hm
    · rename_i hc
      have hparts : (String.ofList (front ++ added.text.toList ++ back)).toList =
          front ++ [','] ++ (added.blanks ++ added.item.toList ++ back) := by
        simp [text, lead, hc]
      rw [List.mem_singleton.1 hm, Node.text, ← hfront]
      exact Text.slice_append hparts
    · cases hm
  · intro node hnode
    have hparts : (String.ofList (front ++ added.text.toList ++ back)).toList =
        (front ++ added.lead) ++ added.item.toList ++ back := by
      simp [text]
    have hstart : node.start = Text.byteLength (front ++ added.lead) := by
      rw [hnode.start, Text.byteLength_append, hfront]
    rw [Node.text, hnode.stop, hstart, Text.size, Text.slice_append hparts, String.ofList_toList]

/-- A node that the place is not inside of keeps its text. -/
theorem text_move {source source' : String}
    (h : Text.insertAt? source added.offset added.text = some source') (node : Node) {child : Node}
    (hs : Text.isBoundary source child.start = true)
    (ht : Text.isBoundary source child.stop = true) (hlt : child.start < child.stop)
    (ha : child.around added.offset = false) :
    (added.move node child).text source' = child.text source := by
  -- What stands below the node does not matter for its text.
  obtain ⟨bare, hbare⟩ : ∃ bare : Node, bare = { child with children := [] } := ⟨_, rfl⟩
  have hstart : bare.start = child.start := by rw [hbare]
  have hstop : bare.stop = child.stop := by rw [hbare]
  have hfits : bare.Fits source := by
    rw [hbare]
    exact ⟨hlt, hs, ht, by simp, .nil⟩
  have habare : bare.around added.offset = false := by rwa [around, hstart, hstop]
  have htext : (added.move node bare).text source' = child.text source := by
    rw [move, text_grow_of_not_around hfits habare h, Node.text, Node.text, hstart, hstop]
  rw [← htext, Node.text, Node.text]
  rcases around_eq_false_iff.1 ha with hge | hle
  · rw [move, grow_of_ge hge (by omega), grow_of_ge (by omega) (by omega)]
    simp only [shift_start, shift_stop, hstart, hstop]
  · rw [move, grow_of_le hle, grow_of_le (by omega), hstart, hstop]

end Addition

theorem Layout.isBlank_of_mem_indent {front back : List Char} {c : Char}
    (h : c ∈ (Layout.between front back).indent) : Text.isBlank c = true := by
  have hindent : ∀ cs : List Char, ∀ c ∈ cs.takeWhile Text.isIndent, Text.isBlank c = true := by
    intro cs c hc
    have h := List.all_eq_true.1 List.all_takeWhile c hc
    rw [Text.isIndent, Bool.or_eq_true, beq_iff_eq, beq_iff_eq] at h
    rcases h with rfl | rfl <;> decide
  rw [Layout.between] at h
  simp only at h
  split at h
  · rcases List.mem_append.1 h with h | h
    · exact hindent _ _ h
    · have : c = ' ' := by simpa using h
      rw [this]
      decide
  · exact hindent _ _ h

namespace SourceFile

/-- An element is put behind a comma where one is needed, and blanks. -/
theorem exists_elementText (front back : List Char) (needs : Bool) (offset : Nat)
    (element : String) : ∃ blanks : List Char, (∀ c ∈ blanks, Text.isBlank c = true) ∧
      elementText front back needs element = Addition.text ⟨offset, needs, blanks, element⟩ := by
  have hblank : Text.isBlank ' ' = true := by decide
  unfold elementText
  by_cases hm : (Layout.between front back).multiline = true
  · refine ⟨'\n' :: (Layout.between front back).indent, ?_, ?_⟩
    · intro c hc
      rcases List.mem_cons.1 hc with rfl | hc
      · decide
      · exact Layout.isBlank_of_mem_indent hc
    · simp only [hm, if_true]
      rfl
  · simp only [hm]
    cases needs with
    | true => exact ⟨[' '], List.forall_mem_singleton.2 hblank, rfl⟩
    | false =>
      by_cases hc : (front.getLast? == some ',') = true
      · refine ⟨[' '], List.forall_mem_singleton.2 hblank, ?_⟩
        simp only [hc]
        rfl
      · refine ⟨[], by simp, ?_⟩
        simp only [hc]
        rfl

theorem exists_elementInsertion {file : SourceFile} {offset : Nat}
    (ho : Text.isBoundary file.text offset = true) (kind : AnchorKind) (needs : Bool)
    (element : String) : ∃ blanks : List Char, (∀ c ∈ blanks, Text.isBlank c = true) ∧
      file.elementInsertion ⟨offset, kind, needs⟩ element =
        .ok (Addition.text ⟨offset, needs, blanks, element⟩) := by
  obtain ⟨⟨front, back⟩, hcut⟩ := Option.isSome_iff_exists.1 ho
  obtain ⟨blanks, hblanks, htext⟩ := exists_elementText front back needs offset element
  exact ⟨blanks, hblanks, by simp only [elementInsertion, hcut, htext]⟩

/-- A change puts an item behind a comma where one is needed, and blanks. -/
theorem exists_insertionText {file : SourceFile} {change : Change} {kind : AnchorKind}
    (ha : change.addsTo kind = true) {offset : Nat} (ho : Text.isBoundary file.text offset = true)
    (needs : Bool) : ∃ (blanks : List Char) (item : String),
      (∀ c ∈ blanks, Text.isBlank c = true) ∧ change.Item kind item ∧
      file.insertionText ⟨offset, kind, needs⟩ change =
        .ok (Addition.text ⟨offset, needs, blanks, item⟩) := by
  have hspace : Text.isBlank ' ' = true := by decide
  unfold Change.addsTo at ha
  split at ha
  · rename_i declarator key entries
    refine ⟨['\n', ' ', ' '], String.ofList (ObjectLiteral.fieldChars key entries),
      List.all_eq_true.1 (by decide), ?_, congrArg Except.ok (String.toList_inj.1 ?_)⟩
    · refine .field (ObjectLiteral.read_fieldChars key entries) ?_ ?_
      · rw [String.toList_ofList, ObjectLiteral.skipBlanks_fieldChars]
      · rw [String.toList_ofList, ObjectLiteral.getLast?_fieldChars]
    · rw [String.toList_append, ObjectLiteral.toList_renderField]
      cases needs <;> simp [Addition.text, Addition.lead]
  · rename_i identifier module
    refine ⟨[' '], identifier, List.forall_mem_singleton.2 hspace, .name,
      congrArg Except.ok (String.toList_inj.1 ?_)⟩
    cases needs <;> simp [Addition.text, Addition.lead]
  · rename_i callee property token
    obtain ⟨blanks, hblanks, htext⟩ := exists_elementInsertion ho .arrayLiteralClose needs token
    exact ⟨blanks, token, hblanks, .element, htext⟩
  · rename_i callee property token
    obtain ⟨blanks, hblanks, htext⟩ :=
      exists_elementInsertion ho .callArgumentListClose needs token
    exact ⟨blanks, token, hblanks, .argument, htext⟩
  · rename_i callee property token
    obtain ⟨blanks, hblanks, htext⟩ := exists_elementInsertion ho .objectLiteralClose needs
      (property ++ ": [" ++ token ++ "]")
    exact ⟨blanks, _, hblanks, .member, htext⟩
  · cases ha

/-- Any other change is refused at the end of a list. -/
theorem insertionText_of_addsTo_eq_false {file : SourceFile} {change : Change} {kind : AnchorKind}
    {opening close : Kind} (hb : Brackets kind opening close) (ha : change.addsTo kind = false)
    (offset : Nat) (needs : Bool) :
    file.insertionText ⟨offset, kind, needs⟩ change =
      .error (.incompatibleAnchor file.path change kind) := by
  cases change with
  | appendField declarator key entries =>
    cases hb with
    | object => cases ha
    | names | array | arguments => rfl
  | insertImport identifier module =>
    cases hb with
    | names => cases ha
    | object | array | arguments => rfl
  | register callee property token =>
    cases hb with
    | names => rfl
    | array | arguments => cases ha
    | object =>
      cases property with
      | none => rfl
      | some property => cases ha

/-- The list that a change goes to, with its closing mark and the kind of its anchor. -/
inductive GoesTo (file : SourceFile) : Change → Node → Kind → AnchorKind → Prop where
  | field {declarator : Option String} {key : String} {entries : List ConfigEntry} {object : Node}
      (h : file.declaredObject declarator = some object) :
      GoesTo file (.appendField declarator key entries) object .closeBrace .objectLiteralClose
  | name {identifier module : String} {named : Node}
      (h : file.namedImportsFrom module = some named) :
      GoesTo file (.insertImport identifier module) named .closeBrace .namedImportsClose
  | argument {callee token : String} {call arguments : Node} (hc : file.findCall callee = some call)
      (ha : call.child? "arguments" = some arguments) :
      GoesTo file (.register callee none token) arguments .closeParen .callArgumentListClose
  | element {callee property token : String} {call object member array : Node}
      (hc : file.findCall callee = some call) (ho : objectArgument call = some object)
      (hm : file.property? object property = some member) (ha : arrayValue member = some array) :
      GoesTo file (.register callee (some property) token) array .closeBracket .arrayLiteralClose
  | member {callee property token : String} {call object : Node}
      (hc : file.findCall callee = some call) (ho : objectArgument call = some object)
      (hm : file.property? object property = none) :
      GoesTo file (.register callee (some property) token) object .closeBrace .objectLiteralClose

theorem GoesTo.addsTo {file : SourceFile} {change : Change} {container : Node} {close : Kind}
    {kind : AnchorKind} (h : file.GoesTo change container close kind) :
    change.addsTo kind = true := by
  cases h <;> rfl

/-- A change attaches at the end of the list that it goes to. -/
theorem GoesTo.locate {file : SourceFile} {change : Change} {container : Node} {close : Kind}
    {kind : AnchorKind} (h : file.GoesTo change container close kind) {anchor : Anchor}
    (ha : closeAnchor container close kind = some anchor) : file.locate change = .ok anchor := by
  cases h with
  | field h => simp only [SourceFile.locate, findAnchor, anchor?, h, Option.bind_some, ha]
  | name h => simp only [SourceFile.locate, anchor?, h, Option.bind_some, ha]
  | argument hc harg =>
    simp only [SourceFile.locate, findAnchor, anchor?, hc, Option.bind_some, harg, ha]
  | element hc ho hm harray =>
    simp only [SourceFile.locate, findAnchor, anchor?, hc, Option.bind_some, ho, hm, harray, ha]
  | member hc ho hm =>
    simp only [SourceFile.locate, findAnchor, anchor?, hc, Option.bind_some, ho, hm, ha]

/-- The marks of a list are spelled as they should be. -/
def Spells (file : SourceFile) (container : Node) : Prop :=
  ∀ child ∈ container.children, ∀ mark, child.kind.mark? = some mark →
    file.textOf child = String.ofList [mark]

/-- A change adds an item at the end of a list. -/
structure Adds (file : SourceFile) (change : Change) (container : Node) (opening close : Kind)
    (kind : AnchorKind) (items : List Node) (trailing : Bool) (added : Addition) : Prop where
  anchor : closeAnchor container close kind = some (added.anchor kind)
  planned : file.planAt (added.anchor kind) change false = .ok (added.plan file change kind)
  /-- That is the plan of a change that is still missing and goes to this list. -/
  plan : file.GoesTo change container close kind → file.isPresent change = false →
    file.collides change = none → file.plan change = .ok (added.plan file change kind)
  blanks : ∀ c ∈ added.blanks, Text.isBlank c = true
  comma : added.comma = true ↔ items ≠ [] ∧ trailing = false
  /-- Where no comma is needed, the text in front tells whether there is one. -/
  front : file.Spells container → added.comma = false →
    ((Text.before file.text added.offset).toList.getLast? = some ',' ↔ trailing = true)
  /-- The place is neither inside a comment nor directly behind one. -/
  apart : ∀ child ∈ container.children, child.isKind .comment = true →
    child.stop < added.offset ∨ added.offset ≤ child.start
  isList : ∀ node, added.IsItem node →
    IsList opening close (added.children container node) (items ++ [node]) false
  comments : ∀ node, added.IsItem node → comments (added.children container node) =
    (comments container.children).map (added.move node)
  texts : ∃ source, Text.insertAt? file.text added.offset added.text = some source ∧
    (∀ comma ∈ added.commas, comma.text source = ",") ∧ ∀ node, added.IsItem node →
      node.text source = added.item ∧
      ∀ child ∈ container.children, (added.move node child).text source = file.textOf child

/-- The text in front of the end of a node ends as the node does. -/
theorem getLast?_before {file : SourceFile} {node : Node}
    (hs : Text.isBoundary file.text node.start = true)
    (ht : Text.isBoundary file.text node.stop = true) (hle : node.start ≤ node.stop) {c : Char}
    (h : file.textOf node = String.ofList [c]) :
    (Text.before file.text node.stop).toList.getLast? = some c := by
  obtain ⟨a, b, d, hparts, hstart, hstop⟩ := Text.exists_parts hs ht hle
  have hb : String.ofList b = String.ofList [c] := by
    rw [← h, textOf, Node.text, ← hstart, ← hstop]
    exact (Text.slice_append hparts).symm
  obtain rfl : b = [c] := by simpa using congrArg String.toList hb
  have hcut : Text.cut? file.text.toList node.stop = some (a ++ [c], d) :=
    Text.cut?_eq_some_iff.2 ⟨hparts, by rw [← hstop, Text.byteLength_append]⟩
  simp [Text.before, hcut]

/-- Where an item may follow without a comma, the text ends with one unless the list is empty. -/
theorem getLast?_before_listEnd {file : SourceFile} {kind : AnchorKind} {opening close : Kind}
    {items : List Node} {trailing : Bool} {last : Node} (h : ListEnd opening items trailing last)
    (hb : Brackets kind opening close) (hn : ¬ (items ≠ [] ∧ trailing = false))
    (hs : ∀ mark, last.kind.mark? = some mark → file.textOf last = String.ofList [mark])
    (hstart : Text.isBoundary file.text last.start = true)
    (hstop : Text.isBoundary file.text last.stop = true) (hlt : last.start < last.stop) :
    (Text.before file.text last.stop).toList.getLast? = some ',' ↔ trailing = true := by
  have hends : ∀ mark, last.kind.mark? = some mark →
      (Text.before file.text last.stop).toList.getLast? = some mark :=
    fun mark hm => getLast?_before hstart hstop (Nat.le_of_lt hlt) (hs mark hm)
  cases h with
  | mark h =>
    obtain ⟨mark, hmark, hne⟩ := hb.exists_mark
    rw [hends mark (h ▸ hmark)]
    simp [hne]
  | comma hi h =>
    rw [hends ',' (by rw [h]; rfl)]
    simp
  | item hi h => exact absurd ⟨hi, rfl⟩ hn

end SourceFile

/-- What is added goes to the end of a list, with a comma behind an item that has none. -/
structure Addition.Follows {opening close : Kind} {items : List Node} {trailing : Bool}
    (added : Addition) (parts : ListParts opening close items trailing) : Prop where
  offset : added.offset = parts.last.stop
  comma : added.comma = decide (items ≠ [] ∧ trailing = false)

namespace Addition.Follows

variable {opening close : Kind} {items : List Node} {trailing : Bool} {added : Addition}
  {parts : ListParts opening close items trailing} {container : Node}

theorem closeAnchor_eq (h : added.Follows parts) (hc : container.children = parts.children)
    (kind : AnchorKind) :
    SourceFile.closeAnchor container close kind = some (added.anchor kind) := by
  rw [parts.closeAnchor_eq hc, Addition.anchor, h.offset, h.comma]

theorem not_needed (h : added.Follows parts) (hc : added.comma = false) :
    ¬ (items ≠ [] ∧ trailing = false) := by
  have hcomma := h.comma
  rw [hc] at hcomma
  exact of_decide_eq_false hcomma.symm

theorem apart (h : added.Follows parts) {child : Node} (hc : child ∈ parts.children)
    (hk : child.isKind .comment = true) :
    child.stop < added.offset ∨ added.offset ≤ child.start := by
  rw [h.offset]
  exact parts.apart hc hk

theorem around_eq_false (h : added.Follows parts) {child : Node} (hc : child ∈ parts.children) :
    child.around added.offset = false := by
  rw [h.offset]
  exact parts.around_eq_false hc

theorem isList (h : added.Follows parts) (hc : container.children = parts.children) {node : Node}
    (hn : added.IsItem node) :
    IsList opening close (added.children container node) (items ++ [node]) false := by
  have hfill := added.fill hn
  have hone : added.commas.length = if items ≠ [] ∧ trailing = false then 1 else 0 := by
    rw [length_commas, h.comma]
    simp only [decide_eq_true_eq]
  rw [h.offset] at hfill
  rw [Addition.children, hc, h.offset]
  exact parts.isList_weave hn.listable (fun _ => kind_of_mem_commas) hone hfill

theorem comments (h : added.Follows parts) (hc : container.children = parts.children) {node : Node}
    (hn : added.IsItem node) : Node.comments (added.children container node) =
      (Node.comments container.children).map (added.move node) := by
  rw [Addition.children, Addition.move, hc, h.offset]
  exact parts.comments_weave (kind_new hn)

end Addition.Follows

namespace SourceFile

variable {file : SourceFile} {change : Change} {container : Node} {opening close : Kind}
  {kind : AnchorKind} {items : List Node} {trailing : Bool}

/-- The texts of all nodes when a text was put at a place that is inside of none of them. -/
theorem exists_insertAt? {added : Addition} (hl : ∀ child ∈ container.children,
      child.start < child.stop ∧ child.around added.offset = false)
    (hp : ∀ child ∈ container.children, Text.isBoundary file.text child.start = true ∧
      Text.isBoundary file.text child.stop = true)
    (ho : Text.isBoundary file.text added.offset = true) :
    ∃ source, Text.insertAt? file.text added.offset added.text = some source ∧
      (∀ comma ∈ added.commas, comma.text source = ",") ∧ ∀ node, added.IsItem node →
        node.text source = added.item ∧
        ∀ child ∈ container.children, (added.move node child).text source = file.textOf child := by
  obtain ⟨source, hinsert⟩ := Text.insertAt?_of_isBoundary ho added.text
  obtain ⟨hcommas, hitem⟩ := added.texts hinsert
  refine ⟨source, hinsert, hcommas, fun node hnode => ⟨hitem node hnode, fun child hc => ?_⟩⟩
  exact Addition.text_move hinsert node (hp child hc).1 (hp child hc).2 (hl child hc).1
    (hl child hc).2

theorem planAt_anchor {added : Addition}
    (h : file.insertionText (added.anchor kind) change = .ok added.text) :
    file.planAt (added.anchor kind) change false = .ok (added.plan file change kind) := by
  rw [planAt, if_neg Bool.false_ne_true, h]
  rfl

/-- A change adds an item at the end of a list. -/
theorem exists_adds (ha : change.addsTo kind = true) (hb : Brackets kind opening close)
    (hl : IsList opening close container.children items trailing)
    (hp : ∀ child ∈ container.children, Text.isBoundary file.text child.start = true ∧
      Text.isBoundary file.text child.stop = true) :
    ∃ added : Addition, change.Item kind added.item ∧
      file.Adds change container opening close kind items trailing added := by
  obtain ⟨parts, hchildren⟩ := hl.exists_parts hb.opens
  have hlast : parts.last ∈ container.children := by
    rw [hchildren]
    exact parts.mem_front parts.last_mem
  obtain ⟨blanks, item, hblanks, hitem, htext⟩ := exists_insertionText ha (hp _ hlast).2
    (decide (items ≠ [] ∧ trailing = false))
  obtain ⟨added, hadded⟩ : ∃ added : Addition, added = ⟨parts.last.stop,
      decide (items ≠ [] ∧ trailing = false), blanks, item⟩ := ⟨_, rfl⟩
  have hfollows : added.Follows parts := by
    rw [hadded]
    exact ⟨rfl, rfl⟩
  have hanchor := hfollows.closeAnchor_eq hchildren kind
  have hplanned : file.planAt (added.anchor kind) change false =
      .ok (added.plan file change kind) := by
    rw [hadded]
    exact planAt_anchor htext
  refine ⟨added, by rwa [hadded], ?_⟩
  exact {
    anchor := hanchor
    planned := hplanned
    plan := fun hg hpresent hcollides => by
      simp only [SourceFile.plan, hpresent, hcollides, hg.locate hanchor]
      exact hplanned
    blanks := by
      rw [hadded]
      exact hblanks
    comma := by rw [hfollows.comma, decide_eq_true_eq]
    front := fun hs hc => by
      rw [hfollows.offset]
      exact getLast?_before_listEnd parts.listEnd hb (hfollows.not_needed hc) (hs _ hlast)
        (hp _ hlast).1 (hp _ hlast).2 (hl.nonempty _ hlast)
    apart := fun child hc hk => hfollows.apart (hchildren ▸ hc) hk
    isList := fun node hn => hfollows.isList hchildren hn
    comments := fun node hn => hfollows.comments hchildren hn
    texts := exists_insertAt? (fun child hc => ⟨hl.nonempty child hc,
      hfollows.around_eq_false (hchildren ▸ hc)⟩) hp (hfollows.offset ▸ (hp _ hlast).2) }

/-- What changes do at the end of a list. -/
structure TakesItems (file : SourceFile) (container : Node) (opening close : Kind)
    (kind : AnchorKind) (items : List Node) (trailing : Bool) : Prop where
  /-- A change that adds to such a list adds its item, which is a node unless it is an empty name or
  token. -/
  adds : ∀ change, change.addsTo kind = true → ∃ added : Addition,
    change.Item kind added.item ∧ (change.word? ≠ some "" → ∃ node, added.IsItem node) ∧
    file.Adds change container opening close kind items trailing added
  /-- Any other change is refused. -/
  refuses : ∀ change anchor, change.addsTo kind = false →
    closeAnchor container close kind = some anchor →
    file.planAt anchor change false = .error (.incompatibleAnchor file.path change kind)
  /-- A change that goes to the list adds to it. -/
  goesTo : ∀ change, file.GoesTo change container close kind → change.addsTo kind = true

/-- A list takes items: a change adds a comma if the last item has none, blanks and a new item, and
with these the list is a list of the old items and the new one. -/
theorem takesItems (hb : Brackets kind opening close)
    (hl : IsList opening close container.children items trailing)
    (hp : ∀ child ∈ container.children, Text.isBoundary file.text child.start = true ∧
      Text.isBoundary file.text child.stop = true) :
    file.TakesItems container opening close kind items trailing where
  adds change ha := by
    obtain ⟨added, hitem, hadds⟩ := exists_adds ha hb hl hp
    exact ⟨added, hitem, fun hw => added.exists_isItem (hitem.ne_empty hw), hadds⟩
  refuses change anchor hi ha := by
    obtain ⟨offset, kind', needs⟩ := anchor
    obtain rfl : kind' = kind := kind_of_closeAnchor ha
    rw [planAt, if_neg Bool.false_ne_true, insertionText_of_addsTo_eq_false hb hi]
    rfl
  goesTo _ h := h.addsTo

def sampleImports : Node := .ofGrammar "named_imports" 7 12
  [.ofGrammar "\x7b" 7 8 [], .ofGrammar "import_specifier" 9 10 [], .ofGrammar "\x7d" 11 12 []]

def sampleArguments : Node := .ofGrammar "arguments" 24 33
  [.ofGrammar "(" 24 25 [], .ofGrammar "identifier" 25 26 [], .ofGrammar "comment" 27 32 [],
    .ofGrammar ")" 32 33 []]

def sampleObject : Node := .ofGrammar "object" 45 54
  [.ofGrammar "\x7b" 45 46 [], .ofGrammar "pair" 47 51 [], .ofGrammar "," 51 52 [],
    .ofGrammar "\x7d" 53 54 []]

/-- A file with a list of imports, a comment behind an argument, and an object with a comma at its
end. -/
def sampleLists : SourceFile where
  path := ⟨"main.ts"⟩
  language := .typeScript
  text := "import \x7b A \x7d from \x27m\x27;\nf(a /*x*/);\nconst e = \x7b b: 1, \x7d;"
  root := .ofGrammar "program" 0 55
    [.ofGrammar "import_statement" 0 22 [.ofGrammar "import_clause" 7 12 [sampleImports],
        (Node.ofGrammar "string" 18 21 []).filling "source"],
      .ofGrammar "expression_statement" 23 34 [.ofGrammar "call_expression" 23 33
        [(Node.ofGrammar "identifier" 23 24 []).filling "function",
          sampleArguments.filling "arguments"]],
      .ofGrammar "lexical_declaration" 35 55 [.ofGrammar "variable_declarator" 41 54
        [(Node.ofGrammar "identifier" 41 42 []).filling "name", sampleObject.filling "value"]]]

theorem takesItems_sampleLists :
    ((Change.insertImport "B" "m").addsTo .namedImportsClose = true ∧
      sampleLists.TakesItems sampleImports .openBrace .closeBrace .namedImportsClose
        [.ofGrammar "import_specifier" 9 10 []] false) ∧
    ((Change.register "f" none "b").addsTo .callArgumentListClose = true ∧
      sampleLists.TakesItems sampleArguments .openParen .closeParen .callArgumentListClose
        [.ofGrammar "identifier" 25 26 []] false) ∧
    (Change.appendField (some "e") "c" [⟨"k", "v"⟩]).addsTo .objectLiteralClose = true ∧
      sampleLists.TakesItems sampleObject .openBrace .closeBrace .objectLiteralClose
        [.ofGrammar "pair" 47 51 []] true := by
  have himports : IsList .openBrace .closeBrace sampleImports.children
      [.ofGrammar "import_specifier" 9 10 []] false :=
    ⟨⟨_, [.ofGrammar "import_specifier" 9 10 []], _, rfl, rfl, rfl, .items (.one rfl)⟩,
      by decide, by decide⟩
  have harguments : IsList .openParen .closeParen sampleArguments.children
      [.ofGrammar "identifier" 25 26 []] false :=
    ⟨⟨_, [.ofGrammar "identifier" 25 26 [], .ofGrammar "comment" 27 32 []], _, rfl, rfl, rfl,
      .items (.one rfl)⟩, by decide, by decide⟩
  have hlisted : Listed ([.ofGrammar "pair" 47 51 []] ++ [.ofGrammar "," 51 52 []])
      [.ofGrammar "pair" 47 51 []] true :=
    .trailing (.one rfl) rfl
  have hobject : IsList .openBrace .closeBrace sampleObject.children
      [.ofGrammar "pair" 47 51 []] true :=
    ⟨⟨_, [.ofGrammar "pair" 47 51 [], .ofGrammar "," 51 52 []], _, rfl, rfl, rfl, hlisted⟩,
      by decide, by decide⟩
  exact ⟨⟨rfl, takesItems .names himports (by decide)⟩,
    ⟨rfl, takesItems .arguments harguments (by decide)⟩,
    rfl, takesItems .object hobject (by decide)⟩

end SourceFile

end Codemod
