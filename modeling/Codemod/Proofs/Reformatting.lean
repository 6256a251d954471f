import Codemod.Change.Planning
import Codemod.Proofs.AppliedOnce
import Mathlib.Data.List.Forall2

/-!
Structural questions and blanks.

Two files are the same but for blanks if their trees have one shape, with the same tokens and string
literals, and what stands between the tokens differs in blanks only. Every node may then be
somewhere else. Two nodes that correspond have the same text apart from blanks, and the same text
where they are tokens; the questions about imports, variables, objects and calls come to the same
answers, and a change attaches at places of one kind.
-/
namespace Codemod

open Source Node

section lists

variable {α β : Type} {R S : α → β → Prop} {l : List α} {l' : List β}

theorem forall₂_of_mem (h : List.Forall₂ R l l') (hs : ∀ a ∈ l, ∀ b ∈ l', R a b → S a b) :
    List.Forall₂ S l l' := by
  induction h with
  | nil => exact .nil
  | cons hab _ ih =>
    refine .cons (hs _ List.mem_cons_self _ List.mem_cons_self hab) (ih ?_)
    exact fun a ha b hb => hs a (List.mem_cons_of_mem _ ha) b (List.mem_cons_of_mem _ hb)

theorem ne_nil_of_forall₂ (h : List.Forall₂ R l l') (hne : l ≠ []) : l' ≠ [] := by
  rintro rfl
  exact hne (List.forall₂_nil_right_iff.1 h)

theorem exists_ends (hne : l ≠ []) : ∃ first last, l.head? = some first ∧ l.getLast? = some last :=
  ⟨l.head hne, l.getLast hne, List.head?_eq_some_head hne, List.getLast?_eq_some_getLast hne⟩

theorem any_eq_of_forall₂ {p : α → Bool} {q : β → Bool} (h : List.Forall₂ R l l')
    (hpq : ∀ a b, R a b → p a = q b) : l.any p = l'.any q := by
  induction h with
  | nil => rfl
  | cons hab _ ih => rw [List.any_cons, List.any_cons, hpq _ _ hab, ih]

theorem filter_of_forall₂ {p : α → Bool} {q : β → Bool} (h : List.Forall₂ R l l')
    (hpq : ∀ a b, R a b → p a = q b) : List.Forall₂ R (l.filter p) (l'.filter q) :=
  List.rel_filter (fun a b hab => by simp only [hpq a b hab]) h

/-- Of two lists that correspond, the items that are found correspond, and the lists in front of
them and behind them do. -/
theorem find?_of_forall₂ {p : α → Bool} {q : β → Bool} (h : List.Forall₂ R l l')
    (hpq : ∀ a b, R a b → p a = q b) :
    (l.find? p = none ∧ l'.find? q = none) ∨
    ∃ front a back front' a' back', l = front ++ a :: back ∧ l' = front' ++ a' :: back' ∧
      R a a' ∧ l.find? p = some a ∧ l'.find? q = some a' ∧ List.Forall₂ R front front' ∧
      List.Forall₂ R back back' := by
  induction h with
  | nil => exact .inl ⟨rfl, rfl⟩
  | @cons a b rest rest' hab hrest ih =>
    cases hp : p a with
    | true =>
      have hq := (hpq a b hab).symm.trans hp
      exact .inr ⟨[], a, rest, [], b, rest', rfl, rfl, hab, by simp [hp], by simp [hq], .nil, hrest⟩
    | false =>
      have hq := (hpq a b hab).symm.trans hp
      obtain ⟨hnone, hnone'⟩ | ⟨front, c, back, front', c', back', rfl, rfl, hc, hf, hf', hfront,
        hback⟩ := ih
      · exact .inl ⟨by simp [hp, hnone], by simp [hq, hnone']⟩
      · exact .inr ⟨a :: front, c, back, b :: front', c', back', rfl, rfl, hc, by simp [hp, hf],
          by simp [hq, hf'], .cons hab hfront, hback⟩

theorem rel_find? {p : α → Bool} {q : β → Bool} (h : List.Forall₂ R l l')
    (hpq : ∀ a b, R a b → p a = q b) : Option.Rel R (l.find? p) (l'.find? q) := by
  obtain ⟨hnone, hnone'⟩ | ⟨-, a, -, -, a', -, -, -, hr, hf, hf', -⟩ := find?_of_forall₂ h hpq
  · rw [hnone, hnone']
    exact .none
  · rw [hf, hf']
    exact .some hr

theorem rel_getLast? (h : List.Forall₂ R l l') : Option.Rel R l.getLast? l'.getLast? := by
  induction h with
  | nil => exact .none
  | @cons a b rest rest' hab hrest ih =>
    cases hrest with
    | nil => exact .some hab
    | cons => exact ih

theorem isSome_of_rel {o : Option α} {o' : Option β} (h : Option.Rel R o o') :
    o.isSome = o'.isSome := by
  cases h <;> rfl

theorem map_bind_eq {γ δ : Type} {o : Option α} {o' : Option β} {f : α → Option γ}
    {g : β → Option γ} {k : γ → δ} (h : Option.Rel R o o')
    (hfg : ∀ a b, R a b → (f a).map k = (g b).map k) : (o.bind f).map k = (o'.bind g).map k := by
  cases h with
  | none => rfl
  | some hab => exact hfg _ _ hab

variable {γ δ : Type} {T : γ → δ → Prop}

theorem rel_findSome? {f : α → Option γ} {g : β → Option δ} (h : List.Forall₂ R l l')
    (hfg : ∀ a b, R a b → Option.Rel T (f a) (g b)) :
    Option.Rel T (l.findSome? f) (l'.findSome? g) := by
  induction h with
  | nil => exact .none
  | @cons a b _ _ hab _ ih =>
    rw [List.findSome?_cons, List.findSome?_cons]
    have hhead := hfg a b hab
    generalize f a = x at hhead
    generalize g b = y at hhead
    cases hhead with
    | none => exact ih
    | some ht => exact .some ht

theorem rel_bind {o : Option α} {o' : Option β} {f : α → Option γ} {g : β → Option δ}
    (h : Option.Rel R o o') (hfg : ∀ a b, R a b → Option.Rel T (f a) (g b)) :
    Option.Rel T (o.bind f) (o'.bind g) := by
  cases h with
  | none => exact .none
  | some hab => exact hfg _ _ hab

theorem rel_filter {o : Option α} {o' : Option β} {p : α → Bool} {q : β → Bool}
    (h : Option.Rel R o o') (hpq : ∀ a b, R a b → p a = q b) :
    Option.Rel R (o.filter p) (o'.filter q) := by
  cases h with
  | none => exact .none
  | @some a b hab =>
    rw [Option.filter_some, Option.filter_some, hpq a b hab]
    split
    · exact .some hab
    · exact .none

end lists

namespace Text

theorem squash_append (s t : String) : squash (s ++ t) = squash s ++ squash t := by
  rw [← String.toList_inj]
  simp

/-- A slice is made up of two shorter ones. -/
theorem slice_split {s : String} {i j k : Nat} (hi : isBoundary s i = true)
    (hj : isBoundary s j = true) (hk : isBoundary s k = true) (hij : i ≤ j) (hjk : j ≤ k) :
    slice s i k = slice s i j ++ slice s j k := by
  obtain ⟨a, b, z, hs, rfl, rfl⟩ := exists_parts hi hj hij
  obtain ⟨a', c, y, hs', ha', rfl⟩ := exists_parts hj hk hjk
  obtain ⟨d, hd, hy⟩ := exists_append_of_byteLength_le (a := a ++ b) (b := a') (r := z)
    (s := c ++ y) (by rw [← hs, hs', List.append_assoc]) (by simp [ha'])
  have hnil : d = [] := by
    apply byteLength_eq_zero
    have := congrArg byteLength hd
    simp only [byteLength_append] at this
    omega
  subst hnil
  rw [List.append_nil] at hd
  subst hd
  have hall : s.toList = a ++ (b ++ c) ++ y := by simpa using hs'
  have hlong := slice_append hall
  have hfront : slice s (byteLength a) (byteLength a + byteLength b) = String.ofList b :=
    slice_append (c := c ++ y) (by simpa using hs')
  have hback := slice_append hs'
  simp only [byteLength_append, ← Nat.add_assoc] at hlong hback ⊢
  rw [hlong, hfront, hback, ← String.toList_inj]
  simp

end Text

namespace Source.Node

def gaps (source : String) : List Node → List String
  | first :: next :: rest =>
    Text.slice source first.stop next.start :: gaps source (next :: rest)
  | _ => []

/-- Two nodes that are the same but for blanks: their trees have one shape, with the same texts of
tokens and of string literals, and between the tokens there are the same texts, blanks aside. -/
inductive Alike (source source' : String) : Node → Node → Prop
  | intro {node node' : Node} : node.kind = node'.kind → node.grammar = node'.grammar →
    node.field = node'.field →
    (node.children = [] ∨ node.kind = .stringLiteral → node.text source = node'.text source') →
    (node.kind ≠ .stringLiteral →
      (gaps source node.children).map Text.squash = (gaps source' node'.children).map Text.squash) →
    List.Forall₂ (Alike source source') node.children node'.children →
    Alike source source' node node'

/-- A node with a place of its own that its children cover from the first to the last. -/
structure Tight (source : String) (node : Node) : Prop extends node.Fits source where
  first : ∀ child, node.children.head? = some child → child.start = node.start
  last : ∀ child, node.children.getLast? = some child → child.stop = node.stop

instance (source : String) (node : Node) : Decidable (node.Tight source) :=
  decidable_of_iff (node.Fits source ∧ (∀ child ∈ node.children.head?, child.start = node.start) ∧
      ∀ child ∈ node.children.getLast?, child.stop = node.stop)
    ⟨fun ⟨h1, h2, h3⟩ => ⟨h1, h2, h3⟩, fun h => ⟨h.toFits, h.first, h.last⟩⟩

/-- A token or a string literal, or a node that holds nothing else. -/
inductive Atom : Node → Prop
  | token {node : Node} : node.children = [] → Atom node
  | literal {node : Node} : node.kind = .stringLiteral → Atom node
  | only {node child : Node} : node.children = [child] → Atom child → Atom node

variable {source source' : String} {node node' : Node}

/-- What nodes cover that follow one another: the first one, what is behind it, and the others. -/
theorem slice_cons {first next last : Node} {rest : List Node}
    (hfits : ∀ node ∈ first :: next :: rest, node.Fits source)
    (hordered : Ordered (first :: next :: rest)) (hlast : (next :: rest).getLast? = some last) :
    Text.slice source first.start last.stop = first.text source ++
      (Text.slice source first.stop next.start ++ Text.slice source next.start last.stop) := by
  have hmem := List.mem_of_getLast? hlast
  have hfirst := hfits first List.mem_cons_self
  have hnext := hfits next (List.mem_cons_of_mem _ List.mem_cons_self)
  have hend := hfits last (List.mem_cons_of_mem _ hmem)
  obtain ⟨hafter, hothers⟩ := List.pairwise_cons.1 hordered
  have hgap := hafter next List.mem_cons_self
  have hreach : next.start ≤ last.stop := by
    have := hnext.nonempty
    rcases List.mem_cons.1 hmem with rfl | hlater
    · omega
    · have hle := (List.pairwise_cons.1 hothers).1 last hlater
      have := hend.nonempty
      omega
  have hlong : first.stop ≤ last.stop := Nat.le_trans hgap hreach
  rw [Text.slice_split hfirst.start hfirst.stop hend.stop (Nat.le_of_lt hfirst.nonempty) hlong,
    Text.slice_split hfirst.stop hnext.start hend.stop hgap hreach]
  rfl

/-- Nodes that follow one another cover the same text, blanks aside, if the nodes and the gaps
between them do. -/
theorem squash_span {nodes nodes' : List Node} (hfits : ∀ node ∈ nodes, node.Fits source)
    (hordered : Ordered nodes) (hfits' : ∀ node ∈ nodes', node.Fits source')
    (hordered' : Ordered nodes')
    (htexts : List.Forall₂
      (fun a b => Text.squash (a.text source) = Text.squash (b.text source')) nodes nodes')
    (hgaps : (gaps source nodes).map Text.squash = (gaps source' nodes').map Text.squash)
    {first last first' last' : Node} (hf : nodes.head? = some first)
    (hl : nodes.getLast? = some last) (hf' : nodes'.head? = some first')
    (hl' : nodes'.getLast? = some last') :
    Text.squash (Text.slice source first.start last.stop) =
      Text.squash (Text.slice source' first'.start last'.stop) := by
  induction htexts generalizing first first' with
  | nil => cases hf
  | @cons a b rest rest' htext hrest ih =>
    obtain rfl := Option.some.inj hf
    obtain rfl := Option.some.inj hf'
    cases hrest with
    | nil =>
      obtain rfl := Option.some.inj hl
      obtain rfl := Option.some.inj hl'
      exact htext
    | @cons c d more more' hnext hmore =>
      rw [List.getLast?_cons_cons] at hl hl'
      simp only [gaps, List.map_cons, List.cons.injEq] at hgaps
      have hothers := ih (List.forall_mem_cons.1 hfits).2 (List.pairwise_cons.1 hordered).2
        (List.forall_mem_cons.1 hfits').2 (List.pairwise_cons.1 hordered').2 hgaps.2 rfl hl rfl hl'
      rw [slice_cons hfits hordered hl, slice_cons hfits' hordered' hl']
      simp only [Text.squash_append]
      rw [htext, hgaps.1, hothers]

theorem Tight.text_eq (h : node.Tight source) {first last : Node}
    (hf : node.children.head? = some first) (hl : node.children.getLast? = some last) :
    node.text source = Text.slice source first.start last.stop := by
  rw [text, h.first first hf, h.last last hl]

theorem Alike.kind_eq (h : Alike source source' node node') : node.kind = node'.kind := by
  cases h
  assumption

theorem Alike.grammar_eq (h : Alike source source' node node') : node.grammar = node'.grammar := by
  cases h
  assumption

theorem Alike.field_eq (h : Alike source source' node node') : node.field = node'.field := by
  cases h
  assumption

theorem Alike.children (h : Alike source source' node node') :
    List.Forall₂ (Alike source source') node.children node'.children := by
  cases h
  assumption

/-- A corresponding node has the same text but for blanks. -/
theorem Alike.squash_eq (h : Alike source source' node node')
    (ht : ∀ inner ∈ node.preorder, inner.Tight source)
    (ht' : ∀ inner ∈ node'.preorder, inner.Tight source') :
    Text.squash (node.text source) = Text.squash (node'.text source') := by
  induction node using induction_on generalizing node' with
  | step node ih =>
    cases h with
    | intro _ _ _ htext hgaps hchildren =>
      by_cases hatom : node.children = [] ∨ node.kind = .stringLiteral
      · rw [htext hatom]
      · rw [not_or] at hatom
        have hself := ht node (mem_preorder_self node)
        have hself' := ht' node' (mem_preorder_self node')
        have htexts : List.Forall₂
            (fun a b => Text.squash (a.text source) = Text.squash (b.text source'))
            node.children node'.children :=
          forall₂_of_mem hchildren fun child hc child' hc' halike => ih child hc halike
            (fun inner hi => ht inner (mem_preorder_of_below hc hi))
            (fun inner hi => ht' inner (mem_preorder_of_below hc' hi))
        obtain ⟨first, last, hf, hl⟩ := exists_ends hatom.1
        obtain ⟨first', last', hf', hl'⟩ := exists_ends (ne_nil_of_forall₂ hchildren hatom.1)
        rw [hself.text_eq hf hl, hself'.text_eq hf' hl']
        exact squash_span (fun child hc => (ht child (mem_preorder_of_child hc)).toFits)
          hself.ordered (fun child hc => (ht' child (mem_preorder_of_child hc)).toFits)
          hself'.ordered htexts (hgaps hatom.2) hf hl hf' hl'

/-- A token or a string literal has the very same text. -/
theorem Alike.text_eq (h : Alike source source' node node') (ha : node.Atom)
    (ht : ∀ inner ∈ node.preorder, inner.Tight source)
    (ht' : ∀ inner ∈ node'.preorder, inner.Tight source') :
    node.text source = node'.text source' := by
  induction ha generalizing node' with
  | token hnil =>
    cases h with
    | intro _ _ _ htext _ _ => exact htext (.inl hnil)
  | literal hk =>
    cases h with
    | intro _ _ _ htext _ _ => exact htext (.inr hk)
  | @only node child hone hatom ih =>
    have hchildren := h.children
    rw [hone] at hchildren
    cases hother : node'.children with
    | nil => rw [hother] at hchildren; cases hchildren
    | cons child' rest =>
      rw [hother] at hchildren
      obtain ⟨hchild, hrest⟩ := List.forall₂_cons.1 hchildren
      obtain rfl := List.forall₂_nil_left_iff.1 hrest
      have hmem : child ∈ node.children := by simp [hone]
      have hmem' : child' ∈ node'.children := by simp [hother]
      have hall : node.text source = child.text source :=
        (ht node (mem_preorder_self node)).text_eq (by rw [hone]; rfl) (by rw [hone]; rfl)
      have hall' : node'.text source' = child'.text source' :=
        (ht' node' (mem_preorder_self node')).text_eq (by rw [hother]; rfl) (by rw [hother]; rfl)
      rw [hall, hall']
      exact ih hchild (fun inner hi => ht inner (mem_preorder_of_below hmem hi))
        (fun inner hi => ht' inner (mem_preorder_of_below hmem' hi))

theorem Alike.symm (h : Alike source source' node node') : Alike source' source node' node := by
  induction node using induction_on generalizing node' with
  | step node ih =>
    cases h with
    | intro hk hgrammar hf htext hgaps hchildren =>
      have hback : List.Forall₂ (Alike source' source) node'.children node.children :=
        (forall₂_of_mem hchildren fun child hc child' _ halike => ih child hc halike).flip
      refine .intro hk.symm hgrammar.symm hf.symm ?_ ?_ hback
      · intro hatom
        refine (htext (hatom.imp (fun hnil => ?_) fun hl => hk.trans hl)).symm
        rw [hnil] at hchildren
        exact List.forall₂_nil_right_iff.1 hchildren
      · intro hl
        exact (hgaps fun hl' => hl (hk.symm.trans hl')).symm

end Source.Node

/-- What a place is, wherever it is. -/
def Anchor.sort (anchor : Anchor) : AnchorKind × Bool := (anchor.kind, anchor.needsSeparator)

/-- A pattern with plain names for variables and members. -/
def AnchorPattern.IsPlain : AnchorPattern → Prop
  | objectLiteralOf declarator =>
    ∀ name, declarator = some name → Text.isPlainName name.toList = true
  | callObjectProperty _ property => Text.isPlainName property.toList = true
  | afterLastImport | namedImportsOf _ | callArgumentList _ => True

/-- A change with plain names for variables and members. -/
def Change.IsPlain : Change → Prop
  | appendField declarator _ _ =>
    ∀ name, declarator = some name → Text.isPlainName name.toList = true
  | insertImport _ _ => True
  | register _ property _ => ∀ key, property = some key → Text.isPlainName key.toList = true

theorem Source.Node.within_of_forall₂ {R : Node → Node → Prop} {nodes nodes' : List Node}
    (h : List.Forall₂ (fun a b => List.Forall₂ R a.preorder b.preorder) nodes nodes') :
    List.Forall₂ R (within nodes) (within nodes') := by
  induction h with
  | nil => exact .nil
  | cons hab _ ih => exact List.rel_append hab ih

namespace SourceFile

theorem findCall_eq {file : SourceFile} (hr : file.root.kind = .program) (callee : String) :
    file.findCall callee = file.nodes.find? (file.isCallOf callee) := by
  rw [findCall, descendants_eq, List.find?_cons_of_neg]
  · rfl
  · simp [isCallOf, isKind, hr]

/-- What a parser makes sure of: a node covers its tokens, from the first to the last, and no two
tokens run together into one name. -/
structure Lexed (file : SourceFile) : Prop where
  root : file.root.kind = .program
  tight : ∀ node ∈ file.nodes, node.Tight file.text
  /-- What reads as a name is one token. -/
  words : ∀ node ∈ file.nodes, Text.isPlainName (file.textOf node).toList = true → node.Atom
  /-- A name in quotes, as a key, is one string literal. -/
  keys : ∀ node ∈ file.nodes, node.field = some "key" →
    Text.isPlainName (unquote (file.textOf node)).toList = true → node.Atom
  /-- An import names its module by a string literal. -/
  sources : ∀ node ∈ file.imports, ∀ source, node.child? "source" = some source →
    source.kind = .stringLiteral

/-- Two files with the same tokens that differ only in the blanks between them. -/
structure Reformats (file file' : SourceFile) : Prop where
  lexed : file.Lexed
  lexed' : file'.Lexed
  alike : List.Forall₂ (Alike file.text file'.text) file.root.children file'.root.children

/-- Nodes that correspond in two files. -/
structure Twin (file file' : SourceFile) (node node' : Node) : Prop where
  mem : node ∈ file.nodes
  mem' : node' ∈ file'.nodes
  alike : Alike file.text file'.text node node'

variable {file file' : SourceFile} {node node' : Node}

theorem Reformats.symm (h : file.Reformats file') : file'.Reformats file :=
  ⟨h.lexed', h.lexed, (h.alike.imp fun _ _ halike => halike.symm).flip⟩

theorem Twin.symm (h : Twin file file' node node') : Twin file' file node' node :=
  ⟨h.mem', h.mem, h.alike.symm⟩

/-- The statements correspond. -/
theorem Reformats.statements (h : file.Reformats file') :
    List.Forall₂ (Twin file file') file.root.children file'.root.children :=
  forall₂_of_mem h.alike fun _ ht _ ht' halike =>
    ⟨mem_nodes_of_top ht, mem_nodes_of_top ht', halike⟩

namespace Twin

variable (h : Twin file file' node node')

include h

theorem isKind (kind : Kind) : node.isKind kind = node'.isKind kind := by
  rw [Node.isKind, h.alike.kind_eq, Node.isKind]

theorem children : List.Forall₂ (Twin file file') node.children node'.children :=
  forall₂_of_mem h.alike.children fun _ hc _ hc' halike =>
    ⟨mem_nodes_of_child h.mem hc, mem_nodes_of_child h.mem' hc', halike⟩

theorem child? (field : String) :
    Option.Rel (Twin file file') (node.child? field) (node'.child? field) :=
  rel_find? h.children fun _ _ hc => by rw [hc.alike.field_eq]

theorem firstOf (kind : Kind) :
    Option.Rel (Twin file file') (node.firstOf kind) (node'.firstOf kind) :=
  rel_find? h.children fun _ _ hc => hc.isKind kind

theorem allOf (kind : Kind) :
    List.Forall₂ (Twin file file') (node.allOf kind) (node'.allOf kind) :=
  filter_of_forall₂ h.children fun _ _ hc => hc.isKind kind

theorem significant : List.Forall₂ (Twin file file') node.significant node'.significant :=
  filter_of_forall₂ h.children fun _ _ hc => by rw [hc.alike.kind_eq]

theorem isTypeOnly_eq : isTypeOnly node = isTypeOnly node' :=
  any_eq_of_forall₂ h.children fun _ _ hc => by rw [hc.alike.grammar_eq]

/-- Trees that correspond have nodes that correspond, in document order. -/
theorem preorder : List.Forall₂ (Twin file file') node.preorder node'.preorder := by
  induction node using induction_on generalizing node' with
  | step node ih =>
    rw [preorder_eq_within, preorder_eq_within]
    refine .cons h (within_of_forall₂ ?_)
    exact forall₂_of_mem h.children fun child hc child' _ htwin => ih child hc htwin

theorem boundNode : Option.Rel (Twin file file') (SourceFile.boundNode node)
    (SourceFile.boundNode node') := by
  have halias := h.child? "alias"
  unfold SourceFile.boundNode
  generalize node.child? "alias" = found at halias
  generalize node'.child? "alias" = found' at halias
  cases halias with
  | none => exact h.child? "name"
  | some htwin => exact .some htwin

theorem variableStatementOf : Option.Rel (Twin file file') (SourceFile.variableStatementOf node)
    (SourceFile.variableStatementOf node') := by
  unfold SourceFile.variableStatementOf
  rw [← h.alike.kind_eq]
  cases node.kind with
  | exportStatement => exact rel_filter (h.child? "declaration") fun _ _ hd => hd.isKind _
  | variableStatement => exact .some h
  | _ => exact .none

theorem count_eq : node.count = node'.count := by
  induction node using induction_on generalizing node' with
  | step node ih =>
    have hall : ∀ {nodes nodes' : List Node},
        List.Forall₂ (fun a b => a.count = b.count) nodes nodes' →
        count.countAll nodes = count.countAll nodes' := by
      intro nodes nodes' hcounts
      induction hcounts with
      | nil => rfl
      | cons hab _ ih => rw [count.countAll, count.countAll, hab, ih]
    rw [Node.count_eq, Node.count_eq,
      hall (forall₂_of_mem h.children fun child hc child' _ htwin => ih child hc htwin)]

theorem unwrapObject (fuel : Nat) : Option.Rel (Twin file file')
    (SourceFile.unwrapObject fuel node) (SourceFile.unwrapObject fuel node') := by
  induction fuel generalizing node node' with
  | zero => exact .none
  | succ fuel ih =>
    unfold SourceFile.unwrapObject
    rw [← h.alike.kind_eq, ← h.alike.grammar_eq]
    cases node.kind with
    | objectLiteral => exact .some h
    | other =>
      have hinner := h.significant
      generalize node.significant = items at hinner
      generalize node'.significant = items' at hinner
      simp only
      split
      · cases hinner with
        | nil => exact .none
        | cons hfirst _ => exact ih hfirst
      · exact .none
    | _ => exact .none

theorem objectOf : Option.Rel (Twin file file') (SourceFile.objectOf node)
    (SourceFile.objectOf node') :=
  rel_bind (h.child? "value") fun value value' hv => by
    rw [hv.count_eq]
    exact hv.unwrapObject value'.count

theorem arrayValue : Option.Rel (Twin file file') (SourceFile.arrayValue node)
    (SourceFile.arrayValue node') :=
  rel_filter (h.child? "value") fun _ _ hv => hv.isKind _

theorem objectArgument : Option.Rel (Twin file file') (SourceFile.objectArgument node)
    (SourceFile.objectArgument node') :=
  rel_bind (h.child? "arguments") fun _ _ ha => rel_find? ha.significant fun _ _ hi => hi.isKind _

end Twin

namespace Reformats

variable (h : file.Reformats file') (ht : Twin file file' node node')

include h

/-- All nodes correspond, in document order. -/
theorem nodes : List.Forall₂ (Twin file file') file.nodes file'.nodes :=
  within_of_forall₂ (h.statements.imp fun _ _ htwin => htwin.preorder)

include ht

/-- Nodes that correspond have the same text but for blanks. -/
theorem squash_eq : Text.squash (file.textOf node) = Text.squash (file'.textOf node') :=
  ht.alike.squash_eq (fun inner hi => h.lexed.tight inner (mem_within_trans ht.mem hi))
    (fun inner hi => h.lexed'.tight inner (mem_within_trans ht.mem' hi))

/-- Tokens and string literals have the very same text. -/
theorem textOf_eq (ha : node.Atom) : file.textOf node = file'.textOf node' :=
  ht.alike.text_eq ha (fun inner hi => h.lexed.tight inner (mem_within_trans ht.mem hi))
    (fun inner hi => h.lexed'.tight inner (mem_within_trans ht.mem' hi))

/-- A name that the one node reads as is the text of the other. -/
theorem textOf_of_name {name : String} (hp : Text.isPlainName name.toList = true)
    (hn : file.textOf node = name) : file'.textOf node' = name := by
  rw [← h.textOf_eq ht (h.lexed.words node ht.mem (by rwa [hn])), hn]

/-- So is a key, in quotes or without. -/
theorem unquote_of_name {name : String} (hp : Text.isPlainName name.toList = true)
    (hk : node.field = some "key") (hn : unquote (file.textOf node) = name) :
    unquote (file'.textOf node') = name := by
  rw [← h.textOf_eq ht (h.lexed.keys node ht.mem hk (by rwa [hn])), hn]

end Reformats

namespace Reformats

variable (h : file.Reformats file')

include h

theorem textOf_beq (ht : Twin file file' node node') {name : String}
    (hp : Text.isPlainName name.toList = true) :
    (file.textOf node == name) = (file'.textOf node' == name) := by
  rw [Bool.eq_iff_iff, beq_iff_eq, beq_iff_eq]
  exact ⟨h.textOf_of_name ht hp, h.symm.textOf_of_name ht.symm hp⟩

theorem unquote_beq (ht : Twin file file' node node') (hk : node.field = some "key")
    {name : String} (hp : Text.isPlainName name.toList = true) :
    (unquote (file.textOf node) == name) = (unquote (file'.textOf node') == name) := by
  rw [Bool.eq_iff_iff, beq_iff_eq, beq_iff_eq]
  exact ⟨h.unquote_of_name ht hp hk,
    h.symm.unquote_of_name ht.symm hp (ht.alike.field_eq ▸ hk)⟩

theorem spells_eq {found found' : Option Node} (hf : Option.Rel (Twin file file') found found')
    {name : String} (hp : Text.isPlainName name.toList = true) :
    file.spells name found = file'.spells name found' := by
  cases hf with
  | none => rfl
  | some ht => exact h.textOf_beq ht hp

theorem imports : List.Forall₂ (Twin file file') file.imports file'.imports :=
  filter_of_forall₂ h.statements fun _ _ ht => ht.isKind _

theorem valueImports : List.Forall₂ (fun a b => Twin file file' a b ∧ a ∈ file.imports)
    file.valueImports file'.valueImports := by
  have hvalue : List.Forall₂ (Twin file file') file.valueImports file'.valueImports :=
    filter_of_forall₂ h.imports fun _ _ ht => by rw [ht.isTypeOnly_eq]
  exact forall₂_of_mem hvalue fun a ha _ _ ht => ⟨ht, (List.mem_filter.1 ha).1⟩

/-- An import names its module by a string literal. -/
theorem importSource_eq (ht : Twin file file' node node') (hmem : node ∈ file.imports) :
    file.importSource node = file'.importSource node' := by
  have hsource := ht.child? "source"
  have hliteral := h.lexed.sources node hmem
  unfold importSource
  generalize node.child? "source" = found at hsource hliteral
  generalize node'.child? "source" = found' at hsource
  cases hsource with
  | none => rfl
  | some htwin =>
    rw [Option.map_some, Option.map_some, h.textOf_eq htwin (.literal (hliteral _ rfl))]

theorem importsFrom_eq (ht : Twin file file' node node') (hmem : node ∈ file.imports)
    (module : String) : file.importsFrom module node = file'.importsFrom module node' := by
  rw [importsFrom, importsFrom, h.importSource_eq ht hmem]

theorem introduces_eq (ht : Twin file file' node node') (withTypes : Bool) {identifier : String}
    (hp : Text.isPlainName identifier.toList = true) :
    file.introduces withTypes identifier node = file'.introduces withTypes identifier node' := by
  refine any_eq_of_forall₂ ht.children fun child child' hc => ?_
  rw [← hc.alike.kind_eq]
  cases child.kind with
  | identifier => exact h.textOf_beq hc hp
  | namespaceImport => exact h.spells_eq (hc.firstOf .identifier) hp
  | namedImports =>
    refine any_eq_of_forall₂ (filter_of_forall₂ (hc.allOf .importSpecifier) ?_) ?_
    · exact fun _ _ hs => by rw [hs.isTypeOnly_eq]
    · exact fun _ _ hs => h.spells_eq hs.boundNode hp
  | _ => rfl

theorem importIntroduces_eq (ht : Twin file file' node node') (withTypes : Bool)
    {identifier : String} (hp : Text.isPlainName identifier.toList = true) :
    file.importIntroduces withTypes identifier node =
      file'.importIntroduces withTypes identifier node' := by
  have hclause := ht.firstOf .importClause
  unfold importIntroduces
  generalize node.firstOf .importClause = found at hclause
  generalize node'.firstOf .importClause = found' at hclause
  cases hclause with
  | none => rfl
  | some htwin => exact h.introduces_eq htwin withTypes hp

/-- The lists of names of the imports of a module correspond. -/
theorem namedImportsFrom (module : String) : Option.Rel (Twin file file')
    (file.namedImportsFrom module) (file'.namedImportsFrom module) := by
  have hfrom := filter_of_forall₂ h.valueImports fun _ _ hd => h.importsFrom_eq hd.1 hd.2 module
  exact rel_findSome? hfrom fun _ _ hd =>
    rel_bind (hd.1.firstOf .importClause) fun _ _ hc => hc.firstOf .namedImports

theorem declarators : List.Forall₂ (Twin file file') file.declarators file'.declarators :=
  List.rel_flatMap (List.rel_filterMap (fun _ _ ht => ht.variableStatementOf) h.statements)
    fun _ _ ht => ht.allOf _

theorem declares_eq {identifier : String} (hp : Text.isPlainName identifier.toList = true) :
    file.declares identifier = file'.declares identifier :=
  any_eq_of_forall₂ h.declarators fun _ _ ht => h.spells_eq (ht.child? "name") hp

theorem declaredObject {declarator : Option String}
    (hp : ∀ name, declarator = some name → Text.isPlainName name.toList = true) :
    Option.Rel (Twin file file') (file.declaredObject declarator)
      (file'.declaredObject declarator) := by
  refine rel_findSome? (filter_of_forall₂ h.declarators ?_) fun _ _ ht => ht.objectOf
  intro d d' ht
  cases declarator with
  | none => rfl
  | some name => exact h.spells_eq (ht.child? "name") (hp name rfl)

/-- Of objects that correspond, the members with a key correspond. -/
theorem property? (ht : Twin file file' node node') {key : String}
    (hp : Text.isPlainName key.toList = true) :
    Option.Rel (Twin file file') (file.property? node key) (file'.property? node' key) := by
  refine rel_find? ht.children fun member member' hm => ?_
  rw [← hm.alike.kind_eq]
  cases member.kind with
  | property =>
    have hkey := hm.child? "key"
    have hfield : ∀ k, member.child? "key" = some k → k.field = some "key" := fun k hk => by
      simpa using List.find?_some hk
    simp only
    generalize member.child? "key" = found at hkey hfield
    generalize member'.child? "key" = found' at hkey
    cases hkey with
    | none => rfl
    | some htwin => exact h.unquote_beq htwin (hfield _ rfl) hp
  | shorthandProperty => exact h.textOf_beq hm hp
  | _ => rfl

theorem isCallOf_eq (ht : Twin file file' node node') (callee : String) :
    file.isCallOf callee node = file'.isCallOf callee node' := by
  have hfunction := ht.child? "function"
  rw [isCallOf, isCallOf, ht.isKind]
  generalize node.child? "function" = found at hfunction
  generalize node'.child? "function" = found' at hfunction
  cases hfunction with
  | none => rfl
  | some htwin => simp only [h.squash_eq htwin]

theorem findCall (callee : String) :
    Option.Rel (Twin file file') (file.findCall callee) (file'.findCall callee) := by
  rw [findCall_eq h.lexed.root, findCall_eq h.lexed'.root]
  exact rel_find? h.nodes fun _ _ ht => h.isCallOf_eq ht callee

theorem registry (ht : Twin file file' node node') {property : Option String}
    (hp : ∀ key, property = some key → Text.isPlainName key.toList = true) :
    Option.Rel (Twin file file') (file.registry property node) (file'.registry property node') := by
  cases property with
  | none => exact ht.child? "arguments"
  | some key =>
    exact rel_bind (rel_bind ht.objectArgument fun _ _ ho => h.property? ho (hp key rfl))
      fun _ _ hm => hm.arrayValue

omit h in
/-- The children in front of a mark start before it, and no others do. -/
theorem lastBefore_of_split {mark : Node} {front back : List Node}
    (hfits : ∀ child ∈ node.children, child.Fits file.text) (hordered : Ordered node.children)
    (hsplit : node.children = front ++ mark :: back) :
    lastBefore node mark = (front.filter fun child => !child.isKind .comment).getLast? := by
  rw [hsplit] at hfits hordered
  have hfront : ∀ child ∈ front, decide (child.start < mark.start) = true := by
    intro child hc
    have hle := (List.pairwise_append.1 hordered).2.2 child hc mark List.mem_cons_self
    have hne := (hfits child (List.mem_append_left _ hc)).nonempty
    simp only [decide_eq_true_eq]
    omega
  rw [lastBefore, hsplit, List.takeWhile_append_of_pos hfront]
  simp

/-- Of lists that correspond, the ends are of one sort. -/
theorem sort_closeAnchor (ht : Twin file file' node node') (close : Kind) (kind : AnchorKind) :
    (closeAnchor node close kind).map Anchor.sort =
      (closeAnchor node' close kind).map Anchor.sort := by
  have htight := h.lexed.tight node ht.mem
  have htight' := h.lexed'.tight node' ht.mem'
  have hfits := fun child hc => (h.lexed.tight child (mem_nodes_of_child ht.mem hc)).toFits
  have hfits' := fun child hc => (h.lexed'.tight child (mem_nodes_of_child ht.mem' hc)).toFits
  unfold closeAnchor lastOf
  have hfind := find?_of_forall₂ (List.forall₂_reverse_iff.2 ht.children)
    fun _ _ hc => hc.isKind close
  -- The search is from the back: what it does not reach stands in front of the mark.
  obtain ⟨hnone, hnone'⟩ |
    ⟨back, mark, front, back', mark', front', hsplit, hsplit', -, hf, hf', -, hfront⟩ := hfind
  · rw [hnone, hnone']
    rfl
  · have hchildren : node.children = front.reverse ++ mark :: back.reverse := by
      rw [← List.reverse_reverse node.children, hsplit]
      simp
    have hchildren' : node'.children = front'.reverse ++ mark' :: back'.reverse := by
      rw [← List.reverse_reverse node'.children, hsplit']
      simp
    have hlast : Option.Rel (Twin file file') (lastBefore node mark) (lastBefore node' mark') := by
      rw [lastBefore_of_split hfits htight.ordered hchildren,
        lastBefore_of_split hfits' htight'.ordered hchildren']
      exact rel_getLast? (filter_of_forall₂ (List.forall₂_reverse_iff.2 hfront)
        fun _ _ hc => by rw [hc.isKind])
    rw [hf, hf']
    simp only [Option.bind_some]
    generalize lastBefore node mark = last at hlast
    generalize lastBefore node' mark' = last' at hlast
    cases hlast with
    | none => rfl
    | some htwin => simp [Anchor.sort, htwin.alike.kind_eq]

theorem sort_importAnchor : file.importAnchor.sort = file'.importAnchor.sort := by
  have hlast := rel_getLast? h.imports
  unfold importAnchor
  generalize file.imports.getLast? = last at hlast
  generalize file'.imports.getLast? = last' at hlast
  cases hlast <;> rfl

/-- A pattern finds places of one sort. -/
theorem sort_anchor? (pattern : AnchorPattern) (hp : pattern.IsPlain) :
    (file.anchor? pattern).map Anchor.sort = (file'.anchor? pattern).map Anchor.sort := by
  cases pattern with
  | objectLiteralOf declarator =>
    exact map_bind_eq (h.declaredObject hp) fun _ _ ho => h.sort_closeAnchor ho _ _
  | afterLastImport => exact congrArg some h.sort_importAnchor
  | namedImportsOf module =>
    exact map_bind_eq (h.namedImportsFrom module) fun _ _ hn => h.sort_closeAnchor hn _ _
  | callArgumentList callee =>
    exact map_bind_eq (rel_bind (h.findCall callee) fun _ _ hc => hc.child? "arguments")
      fun _ _ ha => h.sort_closeAnchor ha _ _
  | callObjectProperty callee property =>
    refine map_bind_eq (rel_bind (h.findCall callee) fun _ _ hc => hc.objectArgument) ?_
    intro object object' ho
    have hmember := h.property? ho hp
    generalize file.property? object property = found at hmember
    generalize file'.property? object' property = found' at hmember
    cases hmember with
    | none => exact h.sort_closeAnchor ho _ _
    | some hm => exact map_bind_eq hm.arrayValue fun _ _ ha => h.sort_closeAnchor ha _ _

theorem sort_findAnchor (pattern : AnchorPattern) (hp : pattern.IsPlain) :
    (file.findAnchor pattern).toOption.map Anchor.sort =
      (file'.findAnchor pattern).toOption.map Anchor.sort := by
  have hoption : ∀ f : SourceFile, (f.findAnchor pattern).toOption = f.anchor? pattern := by
    intro f
    unfold findAnchor
    cases f.anchor? pattern <;> rfl
  rw [hoption, hoption]
  exact h.sort_anchor? pattern hp

/-- A change attaches at places of one sort. -/
theorem sort_locate {change : Change} (hp : change.IsPlain) :
    (file.locate change).toOption.map Anchor.sort =
      (file'.locate change).toOption.map Anchor.sort := by
  cases change with
  | appendField declarator key entries =>
    exact h.sort_findAnchor (.objectLiteralOf declarator) hp
  | register callee property token =>
    cases property with
    | none => exact h.sort_findAnchor (.callArgumentList callee) trivial
    | some key => exact h.sort_findAnchor (.callObjectProperty callee key) (hp key rfl)
  | insertImport identifier module =>
    have hlist := h.sort_anchor? (.namedImportsOf module) trivial
    have hbehind := h.sort_findAnchor .afterLastImport trivial
    simp only [locate]
    generalize file.anchor? (.namedImportsOf module) = found at hlist
    generalize file'.anchor? (.namedImportsOf module) = found' at hlist
    cases found with
    | none =>
      cases found' with
      | none => exact hbehind
      | some anchor => cases hlist
    | some anchor =>
      cases found' with
      | none => cases hlist
      | some anchor' => exact hlist

end Reformats

/-- Two files of which all structural questions get the same answers. -/
structure SameAnswers (file file' : SourceFile) : Prop where
  importBinds : ∀ identifier module, Text.isPlainName identifier.toList = true →
    file.importBinds identifier module = file'.importBinds identifier module
  bindsValue : ∀ identifier, Text.isPlainName identifier.toList = true →
    file.bindsValue identifier = file'.bindsValue identifier
  nameTaken : ∀ identifier, Text.isPlainName identifier.toList = true →
    file.nameTaken identifier = file'.nameTaken identifier
  objectHasKey : ∀ declarator key,
    (∀ name, declarator = some name → Text.isPlainName name.toList = true) →
    Text.isPlainName key.toList = true →
    file.objectHasKey declarator key = file'.objectHasKey declarator key
  callRegisters : ∀ callee property token,
    (∀ key, property = some key → Text.isPlainName key.toList = true) →
    file.callRegisters callee property token = file'.callRegisters callee property token
  /-- A change has a place in the one file if it has one in the other, and of the same sort. -/
  locate : ∀ change : Change, change.IsPlain →
    (file.locate change).toOption.map Anchor.sort = (file'.locate change).toOption.map Anchor.sort

/-- Blanks between the tokens change no answer. -/
theorem Reformats.sameAnswers (h : file.Reformats file') : file.SameAnswers file' := by
  refine ⟨?_, ?_, ?_, ?_, ?_, fun change hp => h.sort_locate hp⟩
  · intro identifier module hp
    exact any_eq_of_forall₂ h.valueImports fun _ _ hd => by
      rw [h.importsFrom_eq hd.1 hd.2, h.importIntroduces_eq hd.1 false hp]
  · intro identifier hp
    have himports := any_eq_of_forall₂ h.valueImports
      fun _ _ hd => h.importIntroduces_eq hd.1 false hp
    rw [SourceFile.bindsValue, SourceFile.bindsValue, himports, h.declares_eq hp]
  · intro identifier hp
    have himports := any_eq_of_forall₂ h.imports fun _ _ ht => h.importIntroduces_eq ht true hp
    rw [SourceFile.nameTaken, SourceFile.nameTaken, himports, h.declares_eq hp]
  · intro declarator key hd hk
    have hobject := h.declaredObject hd
    unfold SourceFile.objectHasKey
    generalize file.declaredObject declarator = found at hobject
    generalize file'.declaredObject declarator = found' at hobject
    cases hobject with
    | none => rfl
    | some ho => exact isSome_of_rel (h.property? ho hk)
  · intro callee property token hp
    have hlist := rel_bind (h.findCall callee) fun _ _ hc => h.registry hc hp
    unfold SourceFile.callRegisters
    generalize (file.findCall callee).bind (file.registry property) = found at hlist
    generalize (file'.findCall callee).bind (file'.registry property) = found' at hlist
    cases hlist with
    | none => rfl
    | some hl =>
      exact any_eq_of_forall₂ hl.significant fun _ _ he => by rw [h.squash_eq he]

def spreadArguments : SourceFile :=
  let token := fun grammar start stop => Node.ofGrammar grammar start stop []
  let arguments : Node := .ofGrammar "arguments" 2 11
    [token "(" 2 3, token "identifier" 6 7, token "," 8 9, token "identifier" 9 10, token ")" 10 11]
  ⟨⟨"main.ts"⟩, .typeScript, "f (\n  a ,b) ;\n", .ofGrammar "program" 0 14
    [.ofGrammar "expression_statement" 0 13
      [.ofGrammar "call_expression" 0 11
        [(token "identifier" 0 1).filling "function", arguments.filling "arguments"],
        token ";" 12 13]]⟩

theorem sameAnswers_spreadArguments : twoArguments.Reformats spreadArguments ∧
    twoArguments.SameAnswers spreadArguments ∧
    spreadArguments.callRegisters "f" none "b" = true := by
  have hlexed : ∀ file ∈ [twoArguments, spreadArguments], file.Lexed := by
    have hroot : ∀ file ∈ [twoArguments, spreadArguments], file.root.kind = .program := by decide
    have htight : ∀ file ∈ [twoArguments, spreadArguments], ∀ node ∈ file.nodes,
        node.Tight file.text := by decide +kernel
    have hwords : ∀ file ∈ [twoArguments, spreadArguments], ∀ node ∈ file.nodes,
        Text.isPlainName (file.textOf node).toList = true → node.children = [] := by
      decide +kernel
    have hkeys : ∀ file ∈ [twoArguments, spreadArguments], ∀ node ∈ file.nodes,
        node.field ≠ some "key" := by decide +kernel
    have himports : ∀ file ∈ [twoArguments, spreadArguments], ∀ node ∈ file.imports,
        node.kind = .other := by decide
    intro file hf
    refine ⟨hroot file hf, htight file hf, fun node hn hw => .token (hwords file hf node hn hw),
      fun node hn hk => absurd hk (hkeys file hf node hn), fun node hn => ?_⟩
    have himport := (Growth.Carries.mem_imports hn).2
    exact absurd ((himports file hf node hn).symm.trans himport) (by decide)
  have halike : List.Forall₂ (Alike twoArguments.text spreadArguments.text)
      twoArguments.root.children spreadArguments.root.children := by
    repeat' constructor
    all_goals decide +kernel
  have h : twoArguments.Reformats spreadArguments :=
    ⟨hlexed _ (by simp), hlexed _ (by simp), halike⟩
  exact ⟨h, h.sameAnswers, by decide +kernel⟩

end SourceFile

end Codemod
