import Codemod.Proofs.Freshness
import Codemod.Proofs.PlanOutcomes

/-!
Places of located anchors.

In a tree whose nodes are placed in the text, some of them perhaps empty, an anchor is a boundary of
the text. At the end of a list it is in the list and in front of the closing mark, and only blanks
and comments stand between the two. What a change puts there can always be laid out and inserted.
-/
namespace Codemod

open Source Node

def Text.HasAt (source : String) (offset : Nat) (c : Char) : Prop :=
  ∃ front back, source.toList = front ++ c :: back ∧ byteLength front = offset

namespace Source.Node

/-- A node with a place in a text, perhaps an empty one, and its children with theirs in it. -/
structure Spans (source : String) (node : Node) : Prop where
  start : Text.isBoundary source node.start = true
  stop : Text.isBoundary source node.stop = true
  start_le_stop : node.start ≤ node.stop
  inside : ∀ child ∈ node.children, node.start ≤ child.start ∧ child.stop ≤ node.stop
  ordered : Ordered node.children

/-- A tree of nodes with such places. -/
def Placed (source : String) (node : Node) : Prop := ∀ inner ∈ node.preorder, inner.Spans source

instance (source : String) (node : Node) : Decidable (node.Spans source) :=
  decidable_of_iff (Text.isBoundary source node.start = true ∧
      Text.isBoundary source node.stop = true ∧ node.start ≤ node.stop ∧
      (∀ child ∈ node.children, node.start ≤ child.start ∧ child.stop ≤ node.stop) ∧
      Ordered node.children)
    ⟨fun ⟨h1, h2, h3, h4, h5⟩ => ⟨h1, h2, h3, h4, h5⟩,
      fun h => ⟨h.start, h.stop, h.start_le_stop, h.inside, h.ordered⟩⟩

instance (source : String) (node : Node) : Decidable (node.Placed source) :=
  inferInstanceAs (Decidable (∀ inner ∈ node.preorder, inner.Spans source))

/-- A byte of the node is at the offset. -/
def Covers (node : Node) (offset : Nat) : Prop := node.start ≤ offset ∧ offset < node.stop

/-- The children cover all characters of the node that are not blank. -/
def Filled (source : String) (node : Node) : Prop :=
  ∀ offset c, Text.HasAt source offset c → Text.isBlank c = false → node.Covers offset →
    ∃ child ∈ node.children, child.Covers offset

variable {source : String} {node : Node}

theorem Placed.spans (h : node.Placed source) : node.Spans source := h node (mem_preorder_self node)

theorem Placed.inner (h : node.Placed source) {inner : Node} (hi : inner ∈ node.preorder) :
    inner.Placed source :=
  fun _ hm => h _ (mem_preorder_trans hi hm)

theorem Placed.child (h : node.Placed source) {child : Node} (hc : child ∈ node.children) :
    child.Spans source :=
  h child (mem_preorder_of_child hc)

/-- Nodes start one after another. -/
theorem Placed.pairwise_start (h : node.Placed source) :
    node.children.Pairwise fun a b => a.start ≤ b.start := by
  apply h.spans.ordered.imp_of_mem
  intro a b ha _ hle
  have := (h.child ha).start_le_stop
  omega

/-- What starts in front of a limit is in the part that does. -/
theorem mem_takeWhile_start {nodes : List Node} (ho : nodes.Pairwise fun a b => a.start ≤ b.start)
    {limit : Nat} {child : Node} (hc : child ∈ nodes) (hlt : child.start < limit) :
    child ∈ nodes.takeWhile fun c => c.start < limit := by
  induction nodes with
  | nil => cases hc
  | cons first rest ih =>
    obtain ⟨hfirst, hrest⟩ := List.pairwise_cons.1 ho
    rcases List.mem_cons.1 hc with rfl | hc
    · simp [hlt]
    · have := hfirst child hc
      have hlimit : first.start < limit := by omega
      rw [List.takeWhile_cons_of_pos (by simpa using hlimit)]
      exact List.mem_cons_of_mem _ (ih hrest hc)

/-- A place in a node, in front of a mark and behind all else that is there but blanks and
comments. -/
structure EndsAt (source : String) (container mark : Node) (offset : Nat) : Prop where
  start_le : container.start ≤ offset
  le_mark : offset ≤ mark.start
  mark_le : mark.stop ≤ container.stop
  /-- A child that starts in front of the mark and ends behind the place is a comment. -/
  comment : ∀ child ∈ container.children, child.start < mark.start → offset < child.stop →
    child.kind = .comment
  /-- If the children leave only blanks out, then only comments and blanks are between the two. -/
  blank : container.Filled source → ∀ place c, Text.HasAt source place c → offset ≤ place →
    place < mark.start → Text.isBlank c = true ∨ ∃ child ∈ container.children,
      child.kind = .comment ∧ child.Covers place ∧ offset ≤ child.start ∧ child.stop ≤ mark.start

end Source.Node

namespace SourceFile

/-- The last child in front of a mark is behind all others there that are no comments. -/
theorem eq_or_stop_le_of_lastBefore {source : String} {container mark last : Node}
    (hp : container.Placed source) (hlast : lastBefore container mark = some last) {child : Node}
    (hc : child ∈ container.children) (hlt : child.start < mark.start)
    (hk : child.kind ≠ .comment) : child = last ∨ child.stop ≤ last.start := by
  obtain ⟨front, hfront⟩ := List.getLast?_eq_some_iff.1 hlast
  have hmem : child ∈ front ++ [last] := by
    rw [← hfront]
    exact List.mem_filter.2
      ⟨mem_takeWhile_start hp.pairwise_start hc hlt, by simpa [isKind] using hk⟩
  have hordered : Ordered (front ++ [last]) := by
    rw [← hfront]
    exact (hp.spans.ordered.sublist (List.takeWhile_sublist _)).sublist List.filter_sublist
  rcases List.mem_append.1 hmem with hm | hm
  · exact .inr ((List.pairwise_append.1 hordered).2.2 child hm last (List.mem_singleton_self last))
  · exact .inl (List.mem_singleton.1 hm)

/-- What reaches behind the last child in front of a mark is a comment. -/
theorem kind_of_stop_lt {source : String} {container mark last : Node}
    (hp : container.Placed source) (hlast : lastBefore container mark = some last) {child : Node}
    (hc : child ∈ container.children) (hlt : child.start < mark.start)
    (hover : last.stop < child.stop) : child.kind = .comment := by
  have hle := (hp.child (mem_of_lastBefore hlast).1).start_le_stop
  by_cases hk : child.kind = .comment
  · exact hk
  · rcases eq_or_stop_le_of_lastBefore hp hlast hc hlt hk with rfl | h <;> omega

theorem endsAt_of_lastBefore {source : String} {container mark last : Node}
    (hp : container.Placed source) (hmark : mark ∈ container.children)
    (hlast : lastBefore container mark = some last) :
    container.EndsAt source mark last.stop := by
  obtain ⟨hmem, hlt, hnot⟩ := mem_of_lastBefore hlast
  have hlastle := (hp.child hmem).start_le_stop
  have hmarkle := (hp.child hmark).start_le_stop
  have hlastin := hp.spans.inside last hmem
  have hmarkin := hp.spans.inside mark hmark
  have hstop : last.stop ≤ mark.start := by
    rcases ordered_cases hp.spans.ordered hmem hmark with rfl | h | h <;> omega
  refine ⟨by omega, hstop, hmarkin.2, fun child => kind_of_stop_lt hp hlast, ?_⟩
  intro hfilled place c hhas hle hbefore
  by_cases hb : Text.isBlank c = true
  · exact .inl hb
  · obtain ⟨child, hc, hstart, hover⟩ := hfilled place c hhas (by simpa using hb)
      ⟨by omega, by omega⟩
    have hk := kind_of_stop_lt hp hlast hc (by omega) (by omega)
    refine .inr ⟨child, hc, hk, ⟨hstart, hover⟩, ?_, ?_⟩
    · rcases ordered_cases hp.spans.ordered hmem hc with rfl | h | h
      · exact absurd hk hnot
      · exact h
      · omega
    · rcases ordered_cases hp.spans.ordered hc hmark with rfl | h | h <;> omega

/-- The anchor of a list ends it. -/
theorem endsAt_of_closeAnchor {source : String} {container : Node} (hp : container.Placed source)
    {close : Kind} {kind : AnchorKind} {anchor : Anchor}
    (ha : closeAnchor container close kind = some anchor) :
    Text.isBoundary source anchor.offset = true ∧
      ∃ mark, container.lastOf close = some mark ∧
        container.EndsAt source mark anchor.offset := by
  obtain ⟨mark, last, hm, hlast, rfl⟩ := exists_of_closeAnchor ha
  exact ⟨(hp.child (mem_of_lastBefore hlast).1).stop, mark, hm,
    endsAt_of_lastBefore hp (mem_of_lastOf hm).1 hlast⟩

variable {file : SourceFile} {change : Change} {anchor : Anchor}

theorem mem_preorder_of_mem_nodes {node : Node} (h : node ∈ file.nodes) :
    node ∈ file.root.preorder := by
  rw [preorder_eq_within]
  exact List.mem_cons_of_mem _ h

theorem mem_preorder_of_findCall {callee : String} {call : Node}
    (h : file.findCall callee = some call) : call ∈ file.root.preorder := by
  rw [preorder_eq_within, ← descendants_eq]
  exact List.mem_of_find?_eq_some h

/-- The list that a change goes to is in the tree. -/
theorem GoesTo.mem_preorder {container : Node} {close : Kind} {kind : AnchorKind}
    (h : file.GoesTo change container close kind) : container ∈ file.root.preorder := by
  have hchild : ∀ {node child : Node} {field : String}, node ∈ file.root.preorder →
      node.child? field = some child → child ∈ file.root.preorder := fun hn hc =>
    mem_preorder_trans hn (mem_preorder_of_child (Growth.Carries.mem_of_child? hc))
  have hobject : ∀ {callee : String} {call object : Node}, file.findCall callee = some call →
      objectArgument call = some object → object ∈ file.root.preorder := by
    intro callee call object hc ho
    obtain ⟨arguments, ha, ho⟩ := Option.bind_eq_some_iff.1 ho
    have hmem := (List.mem_filter.1 (List.mem_of_find?_eq_some ho)).1
    exact mem_preorder_trans (hchild (mem_preorder_of_findCall hc) ha) (mem_preorder_of_child hmem)
  cases h with
  | field h => exact mem_preorder_of_mem_nodes (Growth.Carries.mem_declaredObject h).1
  | name h =>
    obtain ⟨statement, hs, -, -, clause, hc, hn⟩ := exists_of_namedImportsFrom h
    have htop : statement ∈ file.nodes := mem_nodes_of_top (List.mem_filter.1 hs).1
    have hclause := mem_nodes_of_child htop (Growth.Carries.mem_of_firstOf hc).1
    exact mem_preorder_of_mem_nodes
      (mem_nodes_of_child hclause (Growth.Carries.mem_of_firstOf hn).1)
  | argument hc ha => exact hchild (mem_preorder_of_findCall hc) ha
  | element hc ho hm ha =>
    have hmember := mem_preorder_trans (hobject hc ho)
      (mem_preorder_of_child (List.mem_of_find?_eq_some hm))
    exact hchild hmember (Option.filter_eq_some_iff.1 ha).1
  | member hc ho => exact hobject hc ho

theorem isBoundary_importAnchor (hp : file.root.Placed file.text) :
    Text.isBoundary file.text file.importAnchor.offset = true := by
  unfold importAnchor
  split
  · rename_i last hlast
    exact (hp.child (List.mem_filter.1 (List.mem_of_getLast? hlast)).1).stop
  · exact Text.isBoundary_zero file.text

/-- Every place that is located is a boundary of the text. -/
theorem isBoundary_of_locate (hp : file.root.Placed file.text)
    (hl : file.locate change = .ok anchor) : Text.isBoundary file.text anchor.offset = true := by
  rcases locate_cases hl with ⟨container, close, kind, hgoes, ha⟩ | ⟨identifier, module, -, rfl⟩
  · exact (endsAt_of_closeAnchor (hp.inner hgoes.mem_preorder) ha).1
  · exact isBoundary_importAnchor hp

/-- A text is laid out at every place that is located. -/
theorem exists_insertionText_of_locate (hp : file.root.Placed file.text)
    (hl : file.locate change = .ok anchor) :
    ∃ piece, file.insertionText anchor change = .ok piece := by
  rcases insertionText_cases hl with hpiece | ⟨-, hout, -⟩
  · exact hpiece
  · rw [isBoundary_of_locate hp hl] at hout
    cases hout

theorem planAt_eq_ok {present : Bool} {plan : EditPlan}
    (h : file.planAt anchor change present = .ok plan) :
    plan = file.noOpPlan change ∨ ∃ piece, plan = .insert file.path anchor.offset piece
      (change.describe ++ " at " ++ anchor.kind.label) := by
  unfold planAt at h
  cases present with
  | true => exact .inl (Except.ok.inj h).symm
  | false =>
    cases ht : file.insertionText anchor change with
    | error error => simp [ht, Except.map] at h
    | ok piece =>
      simp only [ht, Except.map, Bool.false_eq_true, if_false, Except.ok.injEq] at h
      exact .inr ⟨piece, h.symm⟩

/-- A plan for a change is one for its located place. -/
theorem exists_planAt_of_plan {plan : EditPlan} (hl : file.locate change = .ok anchor)
    (h : file.plan change = .ok plan) :
    ∃ present, file.planAt anchor change present = .ok plan := by
  have hplanned := planned_plan file change
  rw [h] at hplanned
  cases hplanned with
  | noOp hp => exact ⟨true, rfl⟩
  | inserted _ _ hl' ht =>
    obtain rfl := Except.ok.inj (hl.symm.trans hl')
    exact ⟨false, by simp [planAt, ht, Except.map]⟩

end SourceFile

def Tree.Stages (tree : Tree) (file : SourceFile) : Prop :=
  ∃ path staged, tree.files.find? path = some staged ∧ staged.source = some file

/-- What comes of a plan for a staged file. An insertion is made, or refused for what the text would
be with it. -/
inductive SourceFile.Applied (file : SourceFile) :
    EditPlan → Except EditError PatchResult → Prop where
  | noOp (rationale : String) :
      Applied file (.noOp file.path rationale) (.ok ⟨file.path, false, file.text⟩)
  | inserted {offset : Nat} {piece rationale text : String}
      (h : Text.insertAt? file.text offset piece = some text) :
      Applied file (.insert file.path offset piece rationale) (.ok ⟨file.path, true, text⟩)
  | refused {offset : Nat} {piece rationale text : String} (error : SourceError)
      (h : Text.insertAt? file.text offset piece = some text) :
      Applied file (.insert file.path offset piece rationale)
        (.error (.wouldCorrupt file.path error))

namespace Tree

variable {tree : Tree} {file : SourceFile}

theorem Fresh.exists_find? {reader : TreeReader} (hf : tree.Fresh reader) (hs : tree.Stages file) :
    ∃ staged, tree.files.find? file.path = some staged ∧ staged.text = file.text := by
  obtain ⟨path, staged, hfind, hsource⟩ := hs
  obtain ⟨htext, hsame, -, -⟩ := (hf.find? hfind).of_source file hsource
  exact ⟨staged, (PathMap.find?_congr hsame tree.files).trans hfind, htext.symm⟩

theorem applied_noOp {staged : StagedFile} (hf : tree.files.find? file.path = some staged)
    (ht : staged.text = file.text) (project : Project) (rationale : String) :
    file.Applied (.noOp file.path rationale)
      (tree.apply project (.noOp file.path rationale)).1 := by
  rw [apply_noOp hf, ht]
  exact .noOp rationale

theorem applied_insert {staged : StagedFile} (hf : tree.files.find? file.path = some staged)
    (ht : staged.text = file.text) {offset : Nat} (ho : Text.isBoundary file.text offset = true)
    (project : Project) (piece rationale : String) :
    file.Applied (.insert file.path offset piece rationale)
      (tree.apply project (.insert file.path offset piece rationale)).1 := by
  obtain ⟨text, hinsert⟩ := Text.insertAt?_of_isBoundary ho piece
  simp only [apply_insert hf, ht, hinsert]
  cases analyze project.reader file.path text with
  | error error => exact .refused error hinsert
  | ok source => exact .inserted hinsert

end Tree

/-- The place is the end of a list. -/
def AnchorKind.endsList : AnchorKind → Bool
  | .afterLastImport | .documentStart => false
  | _ => true

namespace SourceFile

/-- A place where a change can be made. -/
structure IsPlaceFor (file : SourceFile) (change : Change) (anchor : Anchor) : Prop where
  le_size : anchor.offset ≤ Text.size file.text
  boundary : Text.isBoundary file.text anchor.offset = true
  /-- At the end of a list it is in front of the last closing mark, and only blanks and comments are
  between the two. -/
  list : anchor.kind.endsList = true → ∃ container close, container ∈ file.root.preorder ∧
    file.GoesTo change container close anchor.kind ∧
    ∃ mark, container.lastOf close = some mark ∧
      container.EndsAt file.text mark anchor.offset
  laidOut : ∃ piece, file.insertionText anchor change = .ok piece
  planned : ∀ path offset, file.plan change ≠ .error (.offsetOutsideText path offset)
  /-- In a staging area with the file, the offset of a plan is never a fault. -/
  applied : ∀ plan, (file.plan change = .ok plan ∨
      ∃ present, file.planAt anchor change present = .ok plan) →
    ∀ reader actions, (Session.start.run reader actions).tree.Stages file →
    ∀ project, file.Applied plan ((Session.start.run reader actions).tree.apply project plan).1

variable {file : SourceFile} {change : Change} {anchor : Anchor}

/-- If the nodes of a file are placed in its text, then a change can be made wherever it is
located. -/
theorem isPlaceFor_of_locate (hp : file.root.Placed file.text)
    (hl : file.locate change = .ok anchor) : file.IsPlaceFor change anchor where
  le_size := Text.le_size_of_isBoundary (isBoundary_of_locate hp hl)
  boundary := isBoundary_of_locate hp hl
  list := by
    intro hends
    rcases locate_cases hl with ⟨container, close, kind, hgoes, ha⟩ | ⟨identifier, module, -, rfl⟩
    · obtain rfl := kind_of_closeAnchor ha
      have hmem := hgoes.mem_preorder
      exact ⟨container, close, hmem, hgoes, (endsAt_of_closeAnchor (hp.inner hmem) ha).2⟩
    · unfold importAnchor at hends
      split at hends <;> cases hends
  laidOut := exists_insertionText_of_locate hp hl
  planned := by
    intro path offset h
    have hplanned := planned_plan file change
    rw [h] at hplanned
    cases hplanned with
    | outside _ _ hl' hout =>
      rw [isBoundary_of_locate hp hl'] at hout
      cases hout
  applied := by
    intro plan hplan reader actions hs project
    obtain ⟨staged, hf, ht⟩ := (Session.fresh_run reader actions).exists_find? hs
    obtain ⟨present, hat⟩ : ∃ present, file.planAt anchor change present = .ok plan := by
      rcases hplan with hplan | hplan
      · exact exists_planAt_of_plan hl hplan
      · exact hplan
    rcases planAt_eq_ok hat with rfl | ⟨piece, rfl⟩
    · exact Tree.applied_noOp hf ht project _
    · exact Tree.applied_insert hf ht (isBoundary_of_locate hp hl) project piece _

def commentObject : Node :=
  .ofGrammar "object" 10 18 [.ofGrammar "\x7b" 10 11 [], .ofGrammar "comment" 11 17 [],
    .ofGrammar "\x7d" 17 18 []]

def commentFile : SourceFile where
  path := ⟨"main.ts"⟩
  language := .typeScript
  text := "const o = \x7b/*é*/\x7d;"
  root := .ofGrammar "program" 0 19 [.ofGrammar "lexical_declaration" 0 19
    [.ofGrammar "const" 0 5 [], .ofGrammar "variable_declarator" 6 18
      [(Node.ofGrammar "identifier" 6 7 []).filling "name", .ofGrammar "=" 8 9 [],
        commentObject.filling "value"], .ofGrammar ";" 18 19 []]]

theorem isPlaceFor_commentFile : commentFile.root.Placed commentFile.text ∧
    commentFile.locate (.appendField none "k" []) = .ok ⟨11, .objectLiteralClose, false⟩ ∧
    commentFile.IsPlaceFor (.appendField none "k" []) ⟨11, .objectLiteralClose, false⟩ ∧
    commentObject.Filled commentFile.text ∧
    ∃ reader actions, (Session.start.run reader actions).tree.Stages commentFile := by
  have hp : commentFile.root.Placed commentFile.text := by decide
  have hl : commentFile.locate (.appendField none "k" []) =
      .ok ⟨11, .objectLiteralClose, false⟩ := by rfl
  refine ⟨hp, hl, isPlaceFor_of_locate hp hl, ?_, ?_⟩
  · intro offset c _ _ hcovers
    have hstart : 10 ≤ offset := hcovers.1
    have hstop : offset < 18 := hcovers.2
    by_cases hopen : offset < 11
    · exact ⟨_, .head _, hstart, hopen⟩
    · by_cases hcomment : offset < 17
      · exact ⟨_, .tail _ (.head _), Nat.le_of_not_lt hopen, hcomment⟩
      · exact ⟨_, .tail _ (.tail _ (.head _)), Nat.le_of_not_lt hcomment, hstop⟩
  · refine ⟨fun _ _ => some commentFile.root,
      [⟨⟨fun _ => .ok (some commentFile.text), fun _ => true⟩, .source commentFile.path⟩], ?_⟩
    have hlanguage : Language.ofPath? commentFile.path = some .typeScript := by decide +kernel
    refine ⟨commentFile.path, ?_⟩
    apply Tree.source_staged
    refine Prod.ext ?_ rfl
    simp only [Tree.source, Tree.load, StagedFile.ofText, analyze, hlanguage]
    rfl

end SourceFile

end Codemod
