import Codemod.Change.Anchoring
import Codemod.Proofs.TreeGrowth

/-!
Lists in source trees.

The children of a list are an opening mark, items with commas between them, maybe one comma more,
and a closing mark, with comments anywhere among them. The place for a further item is behind the
last child in front of the closing mark that is no comment. A list that gets an item there, behind a
comma where one is needed, is a list again, and its comments are still there.
-/
namespace Codemod

open Source Node

namespace Source.Node

/-- A node that may be an item of a list: neither a comment nor a mark. -/
def Listable (node : Node) : Prop := node.kind.isPunctuationOrTrivia = false

def uncommented (nodes : List Node) : List Node := nodes.filter fun c => !c.isKind .comment

def comments (nodes : List Node) : List Node := nodes.filter fun c => c.isKind .comment

/-- Items with one comma between each two. -/
inductive Separated : List Node → List Node → Prop where
  | one {item : Node} (h : item.Listable) : Separated [item] [item]
  | more {item comma : Node} {nodes items : List Node} (h : item.Listable)
      (hc : comma.kind = .comma) (hr : Separated nodes items) :
      Separated (item :: comma :: nodes) (item :: items)

/-- What stands between the marks of a list, and whether a comma follows the last item. -/
inductive Listed : List Node → List Node → Bool → Prop where
  | empty : Listed [] [] false
  | items {nodes items : List Node} (h : Separated nodes items) : Listed nodes items false
  | trailing {nodes items : List Node} {comma : Node} (h : Separated nodes items)
      (hc : comma.kind = .comma) : Listed (nodes ++ [comma]) items true

/-- Children that make up a list. -/
structure IsList (opening close : Kind) (children items : List Node) (trailing : Bool) : Prop where
  marks : ∃ first inner last, children = first :: (inner ++ [last]) ∧ first.kind = opening ∧
    last.kind = close ∧ Listed (uncommented inner) items trailing
  nonempty : ∀ child ∈ children, child.start < child.stop
  ordered : Ordered children

theorem Listable.not_comment {node : Node} (h : node.Listable) : node.isKind .comment = false := by
  rw [Bool.eq_false_iff]
  intro hk
  have hkind : node.kind = .comment := by simpa [isKind] using hk
  rw [Listable, hkind] at h
  cases h

theorem Listable.not_opens {node : Node} (h : node.Listable) :
    node.kind.opensOrSeparates = false := by
  rw [Listable] at h
  revert h
  cases node.kind <;> simp [Kind.isPunctuationOrTrivia, Kind.opensOrSeparates]

theorem Separated.ne_nil {nodes items : List Node} (h : Separated nodes items) : items ≠ [] := by
  cases h <;> simp

/-- A list ends with an item. -/
theorem Separated.getLast? {nodes items : List Node} (h : Separated nodes items) :
    ∃ last, nodes.getLast? = some last ∧ last.Listable := by
  induction h with
  | one h => exact ⟨_, rfl, h⟩
  | @more item comma nodes items h hc hr ih =>
    obtain ⟨last, hlast, hitem⟩ := ih
    refine ⟨last, ?_, hitem⟩
    rw [List.getLast?_cons, List.getLast?_cons, hlast]
    rfl

/-- An item more, behind a comma. -/
theorem Separated.append {nodes items : List Node} (h : Separated nodes items) {comma item : Node}
    (hc : comma.kind = .comma) (hi : item.Listable) :
    Separated (nodes ++ [comma, item]) (items ++ [item]) := by
  induction h with
  | one h => exact .more h hc (.one hi)
  | more h hc' _ ih => exact .more h hc' ih

/-- An item at the end, behind a comma where the last item has none. -/
theorem Listed.append {nodes items : List Node} {trailing : Bool} (h : Listed nodes items trailing)
    {commas : List Node} {item : Node} (hi : item.Listable)
    (hc : ∀ comma ∈ commas, comma.kind = .comma)
    (hone : commas.length = if items ≠ [] ∧ trailing = false then 1 else 0) :
    Listed (nodes ++ (commas ++ [item])) (items ++ [item]) false := by
  cases h with
  | empty =>
    obtain rfl : commas = [] := List.eq_nil_of_length_eq_zero (by simpa using hone)
    exact .items (.one hi)
  | items h =>
    rw [if_pos ⟨h.ne_nil, rfl⟩] at hone
    obtain ⟨comma, rfl⟩ := List.length_eq_one_iff.1 hone
    exact .items (h.append (hc comma (by simp)) hi)
  | @trailing nodes items comma h hcomma =>
    obtain rfl : commas = [] := List.eq_nil_of_length_eq_zero (by simpa using hone)
    rw [List.append_assoc]
    exact .items (h.append hcomma hi)

/-- The node behind which a list goes on: the opening mark of an empty list, the comma behind the
last item, or the last item. -/
inductive ListEnd (opening : Kind) : List Node → Bool → Node → Prop where
  | mark {last : Node} (h : last.kind = opening) : ListEnd opening [] false last
  | comma {items : List Node} {last : Node} (hi : items ≠ []) (h : last.kind = .comma) :
      ListEnd opening items true last
  | item {items : List Node} {last : Node} (hi : items ≠ []) (h : last.Listable) :
      ListEnd opening items false last

/-- The last node between the marks is an item or the comma behind it. -/
theorem Listed.listEnd {nodes items : List Node} {trailing : Bool} (opening : Kind)
    (h : Listed nodes items trailing) {last : Node} (hl : nodes.getLast? = some last) :
    ListEnd opening items trailing last := by
  cases h with
  | empty => cases hl
  | items h =>
    obtain ⟨last', hlast, hitem⟩ := h.getLast?
    obtain rfl := Option.some.inj (hl.symm.trans hlast)
    exact .item h.ne_nil hitem
  | trailing h hc =>
    rw [List.getLast?_concat] at hl
    obtain rfl := Option.some.inj hl
    exact .comma h.ne_nil hc

theorem Listed.eq_nil {items : List Node} {trailing : Bool} (h : Listed [] items trailing) :
    items = [] ∧ trailing = false := by
  generalize hn : ([] : List Node) = nodes at h
  cases h with
  | empty => exact ⟨rfl, rfl⟩
  | items h => cases h <;> cases hn
  | trailing => simp at hn

section ListEnd

variable {opening : Kind} {items : List Node} {trailing : Bool} {last : Node}

theorem ListEnd.not_comment (h : ListEnd opening items trailing last)
    (ho : opening.opensOrSeparates = true) : last.isKind .comment = false := by
  cases h with
  | mark h =>
    have hne : opening ≠ .comment := by
      rintro rfl
      cases ho
    simp [isKind, h, hne]
  | comma _ h => simp [isKind, h]
  | item _ h => exact h.not_comment

/-- A comma is needed behind an item that has none. -/
theorem ListEnd.needs (h : ListEnd opening items trailing last)
    (ho : opening.opensOrSeparates = true) :
    (!last.kind.opensOrSeparates) = decide (items ≠ [] ∧ trailing = false) := by
  cases h with
  | mark h => simp [h, ho]
  | comma hi h => simp [h, Kind.opensOrSeparates]
  | item hi h => simp [h.not_opens, hi]

end ListEnd

/-- A list of nodes up to its last one that is no comment, and the comments behind that. -/
theorem exists_uncommented_end (nodes : List Node) : ∃ front back, nodes = front ++ back ∧
    (∀ c ∈ back, c.isKind .comment = true) ∧
    (front = [] ∨ ∃ last, front.getLast? = some last ∧ last.isKind .comment = false) := by
  induction nodes with
  | nil => exact ⟨[], [], rfl, by simp, .inl rfl⟩
  | cons node nodes ih =>
    obtain ⟨front, back, rfl, hback, hfront⟩ := ih
    rcases hfront with rfl | ⟨last, hlast, hkind⟩
    · cases hnode : node.isKind .comment with
      | true => exact ⟨[], node :: back, rfl, List.forall_mem_cons.2 ⟨hnode, hback⟩, .inl rfl⟩
      | false => exact ⟨[node], back, rfl, hback, .inr ⟨node, rfl, hnode⟩⟩
    · refine ⟨node :: front, back, rfl, hback, .inr ⟨last, ?_, hkind⟩⟩
      rw [List.getLast?_cons, hlast]
      rfl

theorem uncommented_append (a b : List Node) :
    uncommented (a ++ b) = uncommented a ++ uncommented b := List.filter_append ..

theorem uncommented_eq_nil {nodes : List Node} (h : ∀ c ∈ nodes, c.isKind .comment = true) :
    uncommented nodes = [] := by
  rw [uncommented, List.filter_eq_nil_iff]
  intro c hc
  simp [h c hc]

theorem uncommented_eq_self {nodes : List Node} (h : ∀ c ∈ nodes, c.isKind .comment = false) :
    uncommented nodes = nodes := by
  rw [uncommented, List.filter_eq_self]
  intro c hc
  simp [h c hc]

theorem getLast?_uncommented {nodes : List Node} {last : Node} (h : nodes.getLast? = some last)
    (hl : last.isKind .comment = false) : (uncommented nodes).getLast? = some last := by
  obtain ⟨front, rfl⟩ := List.getLast?_eq_some_iff.1 h
  rw [uncommented_append, uncommented_eq_self (List.forall_mem_singleton.2 hl),
    List.getLast?_concat]

theorem comments_append (a b : List Node) : comments (a ++ b) = comments a ++ comments b :=
  List.filter_append ..

theorem comments_eq_nil {nodes : List Node} (h : ∀ c ∈ nodes, c.isKind .comment = false) :
    comments nodes = [] := by
  rw [comments, List.filter_eq_nil_iff]
  intro c hc
  simp [h c hc]

/-- Nodes that fill a gap, one after another. -/
structure Fill (offset size : Nat) (new : List Node) : Prop where
  nonempty : ∀ node ∈ new, node.start < node.stop
  ordered : Ordered new
  inside : ∀ node ∈ new, offset ≤ node.start ∧ node.stop ≤ offset + size

/-- The parts of a list: the opening mark and what follows it up to the last node that is no
comment, then comments, and the closing mark. -/
structure ListParts (opening close : Kind) (items : List Node) (trailing : Bool) where
  opens : opening.opensOrSeparates = true
  first : Node
  front : List Node
  last : Node
  back : List Node
  mark : Node
  first_kind : first.kind = opening
  mark_kind : mark.kind = close
  back_comments : ∀ c ∈ back, c.isKind .comment = true
  getLast? : (first :: front).getLast? = some last
  listEnd : ListEnd opening items trailing last
  listed : Listed (uncommented front) items trailing
  nonempty : ∀ child ∈ first :: front ++ (back ++ [mark]), child.start < child.stop
  ordered : Ordered (first :: front ++ (back ++ [mark]))

namespace ListParts

variable {opening close : Kind} {items : List Node} {trailing : Bool}
  (parts : ListParts opening close items trailing)

def children : List Node := parts.first :: parts.front ++ (parts.back ++ [parts.mark])

theorem last_mem : parts.last ∈ parts.first :: parts.front := List.mem_of_getLast? parts.getLast?

theorem mem_front {child : Node} (hc : child ∈ parts.first :: parts.front) :
    child ∈ parts.children := List.mem_append_left _ hc

theorem mem_back {child : Node} (hc : child ∈ parts.back ++ [parts.mark]) :
    child ∈ parts.children := List.mem_append_right _ hc

/-- What is behind the end of the list starts behind all that is in front of it. -/
theorem stop_le_start {child other : Node} (hc : child ∈ parts.first :: parts.front)
    (ho : other ∈ parts.back ++ [parts.mark]) : child.stop ≤ other.start :=
  (List.pairwise_append.1 parts.ordered).2.2 _ hc _ ho

/-- What is in front of the end of the list is the last node there, or it stops in front of it. -/
theorem eq_or_stop_le {child : Node} (hc : child ∈ parts.first :: parts.front) :
    child = parts.last ∨ child.stop ≤ parts.last.start := by
  obtain ⟨init, hinit⟩ := List.getLast?_eq_some_iff.1 parts.getLast?
  have hordered := (List.pairwise_append.1 parts.ordered).1
  rw [hinit] at hordered hc
  rcases List.mem_append.1 hc with hc | hc
  · exact .inr ((List.pairwise_append.1 hordered).2.2 _ hc _ (by simp))
  · exact .inl (List.mem_singleton.1 hc)

theorem stop_le_last {child : Node} (hc : child ∈ parts.first :: parts.front) :
    child.stop ≤ parts.last.stop := by
  have hlast := parts.nonempty _ (parts.mem_front parts.last_mem)
  rcases parts.eq_or_stop_le hc with rfl | h
  · exact Nat.le_refl _
  · omega

/-- Text goes behind the last node that is no comment. -/
theorem closeAnchor_eq {container : Node} (hc : container.children = parts.children)
    (kind : AnchorKind) : SourceFile.closeAnchor container close kind =
      some ⟨parts.last.stop, kind, decide (items ≠ [] ∧ trailing = false)⟩ := by
  have hmark : container.lastOf close = some parts.mark := by
    have hkind : parts.mark.isKind close = true := by simp [isKind, parts.mark_kind]
    rw [lastOf, hc, children]
    simp [hkind]
  have hbefore : ∀ child ∈ parts.first :: parts.front ++ parts.back,
      decide (child.start < parts.mark.start) = true := by
    have hordered := parts.ordered
    rw [← List.append_assoc] at hordered
    intro child hm
    have hmem : child ∈ parts.children := by
      rcases List.mem_append.1 hm with hm | hm
      · exact parts.mem_front hm
      · exact parts.mem_back (List.mem_append_left _ hm)
    have hlt := parts.nonempty _ hmem
    have hle := (List.pairwise_append.1 hordered).2.2 _ hm parts.mark (by simp)
    simp only [decide_eq_true_eq]
    omega
  have hlast : SourceFile.lastBefore container parts.mark = some parts.last := by
    have hstop : [parts.mark].takeWhile (fun c => decide (c.start < parts.mark.start)) = [] := by
      simp
    rw [SourceFile.lastBefore, hc, children, ← List.append_assoc,
      List.takeWhile_append_of_pos hbefore, hstop, List.append_nil, ← uncommented,
      uncommented_append, uncommented_eq_nil parts.back_comments, List.append_nil]
    exact getLast?_uncommented parts.getLast? (parts.listEnd.not_comment parts.opens)
  rw [SourceFile.closeAnchor, hmark, Option.bind_some, hlast, Option.map_some,
    parts.listEnd.needs parts.opens]

/-- That place is neither inside a comment nor directly behind one. -/
theorem apart {child : Node} (hc : child ∈ parts.children) (hk : child.isKind .comment = true) :
    child.stop < parts.last.stop ∨ parts.last.stop ≤ child.start := by
  rcases List.mem_append.1 hc with hc | hc
  · have hlast := parts.nonempty _ (parts.mem_front parts.last_mem)
    rcases parts.eq_or_stop_le hc with rfl | h
    · rw [parts.listEnd.not_comment parts.opens] at hk
      cases hk
    · exact .inl (by omega)
  · exact .inr (parts.stop_le_start parts.last_mem hc)

/-- New nodes there stand between the parts. -/
theorem weave_eq (size : Nat) (new : List Node) :
    weave parts.last.stop size new parts.children = parts.first :: parts.front ++ new ++
      (parts.back ++ [parts.mark]).map (shift size) := by
  have hfront : ∀ child ∈ parts.first :: parts.front,
      decide (child.stop ≤ parts.last.stop) = true := fun child hm => by
    simpa using parts.stop_le_last hm
  obtain ⟨next, rest, hnext⟩ : ∃ next rest, parts.back ++ [parts.mark] = next :: rest := by
    cases hback : parts.back with
    | nil => exact ⟨parts.mark, [], rfl⟩
    | cons next rest => exact ⟨next, rest ++ [parts.mark], rfl⟩
  have hstop : decide (next.stop ≤ parts.last.stop) = false := by
    have hmem : next ∈ parts.back ++ [parts.mark] := by simp [hnext]
    have hle := parts.stop_le_start parts.last_mem hmem
    have hlt := parts.nonempty _ (parts.mem_back hmem)
    simp only [decide_eq_false_iff_not]
    omega
  have htake : (next :: rest).takeWhile (fun c => decide (c.stop ≤ parts.last.stop)) = [] := by
    rw [List.takeWhile_cons, hstop]
    rfl
  have hdrop : (next :: rest).dropWhile (fun c => decide (c.stop ≤ parts.last.stop)) =
      next :: rest := by
    rw [List.dropWhile_cons, hstop]
    rfl
  rw [weave, children, hnext, List.takeWhile_append_of_pos hfront, htake, List.append_nil,
    List.dropWhile_append_of_pos hfront, hdrop]

/-- With one item more at its end, a list is a list of that item more. -/
theorem isList_weave {size : Nat} {commas : List Node} {item : Node} (hi : item.Listable)
    (hc : ∀ comma ∈ commas, comma.kind = .comma)
    (hone : commas.length = if items ≠ [] ∧ trailing = false then 1 else 0)
    (hf : Fill parts.last.stop size (commas ++ [item])) :
    IsList opening close (weave parts.last.stop size (commas ++ [item]) parts.children)
      (items ++ [item]) false := by
  have hnew : ∀ node ∈ commas ++ [item], node.isKind .comment = false := by
    intro node hm
    rcases List.mem_append.1 hm with hm | hm
    · simp [isKind, hc node hm]
    · rw [List.mem_singleton.1 hm]
      exact hi.not_comment
  have hback : ∀ node ∈ parts.back.map (shift size), node.isKind .comment = true := by
    intro node hm
    obtain ⟨child, hchild, rfl⟩ := List.mem_map.1 hm
    simpa [isKind] using parts.back_comments child hchild
  have hordered := List.pairwise_append.1 parts.ordered
  rw [parts.weave_eq]
  refine ⟨⟨parts.first, parts.front ++ (commas ++ [item]) ++ parts.back.map (shift size),
    shift size parts.mark, by simp, parts.first_kind, by simp [parts.mark_kind], ?_⟩, ?_, ?_⟩
  · rw [uncommented_append, uncommented_append, uncommented_eq_nil hback,
      uncommented_eq_self hnew, List.append_nil]
    exact parts.listed.append hi hc hone
  · intro child hm
    rcases List.mem_append.1 hm with hm | hm
    · rcases List.mem_append.1 hm with hm | hm
      · exact parts.nonempty _ (parts.mem_front hm)
      · exact hf.nonempty _ hm
    · obtain ⟨old, hold, rfl⟩ := List.mem_map.1 hm
      have := parts.nonempty _ (parts.mem_back hold)
      simpa using this
  · refine List.pairwise_append.2 ⟨List.pairwise_append.2 ⟨hordered.1, hf.ordered, ?_⟩, ?_, ?_⟩
    · intro child hm node hnode
      exact Nat.le_trans (parts.stop_le_last hm) (hf.inside node hnode).1
    · rw [List.pairwise_map]
      exact hordered.2.1.imp fun h => by simpa using h
    · intro child hm node hnode
      obtain ⟨old, hold, rfl⟩ := List.mem_map.1 hnode
      have hplace := parts.stop_le_start parts.last_mem hold
      have hstop : child.stop ≤ parts.last.stop + size := by
        rcases List.mem_append.1 hm with hm | hm
        · exact Nat.le_trans (parts.stop_le_last hm) (Nat.le_add_right ..)
        · exact (hf.inside child hm).2
      rw [shift_start]
      omega

/-- The place is inside no child. -/
theorem around_eq_false {child : Node} (hc : child ∈ parts.children) :
    child.around parts.last.stop = false := by
  rw [around_eq_false_iff]
  rcases List.mem_append.1 hc with hc | hc
  · exact .inr (parts.stop_le_last hc)
  · exact .inl (parts.stop_le_start parts.last_mem hc)

/-- New nodes at the end of a list that are no comments leave its comments as they are. -/
theorem comments_weave {size : Nat} {new : List Node}
    (hnew : ∀ node ∈ new, node.isKind .comment = false) :
    comments (weave parts.last.stop size new parts.children) =
      (comments parts.children).map (grow parts.last.stop size new) := by
  have hfront : ∀ child ∈ comments (parts.first :: parts.front),
      grow parts.last.stop size new child = child :=
    fun child hm => grow_of_le (parts.stop_le_last (List.mem_filter.1 hm).1)
  have hback : ∀ child ∈ comments (parts.back ++ [parts.mark]),
      grow parts.last.stop size new child = shift size child := by
    intro child hm
    have hmem := (List.mem_filter.1 hm).1
    have hplace := parts.stop_le_start parts.last_mem hmem
    have hlt := parts.nonempty _ (parts.mem_back hmem)
    exact grow_of_ge hplace (by omega)
  have hmap : comments ((parts.back ++ [parts.mark]).map (shift size)) =
      (comments (parts.back ++ [parts.mark])).map (shift size) := by
    rw [comments, comments, List.filter_map]
    congr 2
    funext child
    simp [isKind]
  calc comments (weave parts.last.stop size new parts.children)
      = comments (parts.first :: parts.front) ++
          (comments (parts.back ++ [parts.mark])).map (shift size) := by
        rw [parts.weave_eq, comments_append, comments_append, comments_eq_nil hnew,
          List.append_nil, hmap]
    _ = (comments (parts.first :: parts.front)).map (grow parts.last.stop size new) ++
          (comments (parts.back ++ [parts.mark])).map (grow parts.last.stop size new) := by
        rw [List.map_congr_left hfront, List.map_id', List.map_congr_left hback]
    _ = (comments parts.children).map (grow parts.last.stop size new) := by
        rw [← List.map_append, ← comments_append]
        rfl

end ListParts

theorem IsList.exists_parts {opening close : Kind} {children items : List Node} {trailing : Bool}
    (ho : opening.opensOrSeparates = true) (h : IsList opening close children items trailing) :
    ∃ parts : ListParts opening close items trailing, children = parts.children := by
  obtain ⟨first, inner, mark, hchildren, hfirst, hmark, hlisted⟩ := h.marks
  obtain ⟨front, back, rfl, hback, hfront⟩ := exists_uncommented_end inner
  rw [uncommented_append, uncommented_eq_nil hback, List.append_nil] at hlisted
  obtain rfl : children = first :: front ++ (back ++ [mark]) := by
    rw [hchildren, List.append_assoc]
    rfl
  rcases hfront with rfl | ⟨last, hlast, hkind⟩
  · obtain ⟨rfl, rfl⟩ := hlisted.eq_nil
    exact ⟨⟨ho, first, [], first, back, mark, hfirst, hmark, hback, rfl, .mark hfirst, hlisted,
      h.nonempty, h.ordered⟩, rfl⟩
  · have hend : (first :: front).getLast? = some last := by
      rw [List.getLast?_cons, hlast]
      rfl
    have hlistEnd := hlisted.listEnd opening (getLast?_uncommented hlast hkind)
    exact ⟨⟨ho, first, front, last, back, mark, hfirst, hmark, hback, hend, hlistEnd, hlisted,
      h.nonempty, h.ordered⟩, rfl⟩

end Source.Node

end Codemod
