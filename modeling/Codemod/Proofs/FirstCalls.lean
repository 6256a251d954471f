import Codemod.Proofs.Grammars

/-!
The first call of a callee after an insertion into its arguments.

The calls in front of it are as they were, except those around it. Such a call may hold the first
one in what it calls, so the inserted piece changes the text that is compared with the callee. It
comes to no match: what the first call calls is in there already, apart from the piece, and fills
the callee, so that a piece with anything but blanks in it would be too much.
-/
namespace Codemod

open Source Node

namespace Text

/-- The characters of a text that are no blanks. -/
theorem squash_eq_iff {s t : String} : squash s = squash t ↔
    (s.toList.filter fun c => !isBlank c) = t.toList.filter fun c => !isBlank c := by
  rw [← String.toList_inj, toList_squash, toList_squash]

/-- A piece between two parts has only blanks, if the whole is as long as something in one of the
parts. -/
theorem squash_append_of_infix {front piece back inner callee : List Char}
    (h : squash (String.ofList (front ++ piece ++ back)) = squash (String.ofList callee))
    (hi : squash (String.ofList inner) = squash (String.ofList callee))
    (hin : inner <:+: front ∨ inner <:+: back) :
    squash (String.ofList (front ++ back)) = squash (String.ofList callee) := by
  rw [squash_eq_iff] at h hi ⊢
  simp only [String.toList_ofList, List.filter_append] at h hi ⊢
  have hsub : (inner.filter fun c => !isBlank c).length ≤
      ((front.filter fun c => !isBlank c) ++ back.filter fun c => !isBlank c).length := by
    rw [List.length_append]
    rcases hin with hin | hin
    · have := (hin.sublist.filter fun c => !isBlank c).length_le
      omega
    · have := (hin.sublist.filter fun c => !isBlank c).length_le
      omega
  have hlength := congrArg List.length h
  rw [← hi] at hlength
  simp only [List.length_append] at hlength hsub
  have hpiece : (piece.filter fun c => !isBlank c) = [] :=
    List.eq_nil_of_length_eq_zero (by omega)
  simpa [hpiece] using h

end Text

namespace Source.Node

variable {source : String} {offset size : Nat} {new : List Node} {node : Node}

theorem Laid.around_of_mem (h : node.Laid source) {inner : Node} (hi : inner ∈ node.preorder)
    (ha : inner.around offset = true) : node.around offset = true := by
  have hin := h.inside hi
  rw [around_iff] at ha ⊢
  omega

theorem Laid.not_around_of_mem (h : node.Laid source) (ha : node.around offset = false)
    {inner : Node} (hi : inner ∈ node.preorder) : inner.around offset = false := by
  rw [Bool.eq_false_iff]
  intro hinner
  rw [h.around_of_mem hi hinner] at ha
  cases ha

theorem not_innermost_of_not_around (ha : node.around offset = false) :
    ¬ node.Innermost offset := by
  intro hi
  rw [hi.1] at ha
  cases ha

/-- Of the nodes next to one around a place, none is around it. -/
theorem not_around_of_ne {nodes : List Node} (ho : Ordered nodes) {a b : Node} (ha : a ∈ nodes)
    (hb : b ∈ nodes) (hne : a ≠ b) (hbo : b.around offset = true) : a.around offset = false := by
  rw [Bool.eq_false_iff]
  exact fun hao => hne (eq_of_around ho ha hb hao hbo)

/-- A node with a child around a place is not the innermost one. -/
theorem not_innermost_of_child {child : Node} (hc : child ∈ node.children)
    (ha : child.around offset = true) : ¬ node.Innermost offset := by
  intro hi
  have := hi.2 child hc
  rw [ha] at this
  cases this

theorem child?_grow (h : node.Laid source) (hi : ¬ node.Innermost offset) (field : String) :
    (grow offset size new node).child? field = (node.child? field).map (grow offset size new) := by
  rw [child?, child?, children_grow h hi, List.find?_map]
  congr 2
  funext child
  simp

theorem field_of_child? {field : String} {child : Node} (hc : node.child? field = some child) :
    child.field = some field := by
  simpa using List.find?_some hc

/-- Of two fields of a node around a place at most one is around it. -/
theorem not_around_of_child? (h : node.Laid source) {field field' : String} (hne : field ≠ field')
    {child other : Node} (hc : node.child? field = some child)
    (ho : node.child? field' = some other) (ha : other.around offset = true) :
    child.around offset = false := by
  apply not_around_of_ne h.fits.ordered (Growth.Carries.mem_of_child? hc)
    (Growth.Carries.mem_of_child? ho) _ ha
  rintro rfl
  have := (field_of_child? hc).symm.trans (field_of_child? ho)
  exact hne (Option.some.inj this)

@[simp] theorem isKind_grow (node : Node) (kind : Kind) :
    (grow offset size new node).isKind kind = node.isKind kind := by
  simp [isKind]

theorem significant_grow (h : node.Laid source) (hi : ¬ node.Innermost offset) :
    (grow offset size new node).significant = node.significant.map (grow offset size new) := by
  rw [significant, significant, children_grow h hi, List.filter_map]
  congr 2
  funext child
  simp

/-- The innermost node around the place gains the new nodes. -/
theorem mem_children_grow (h : node.Laid source) (hi : node.Innermost offset) {item : Node}
    (hm : item ∈ new) : item ∈ (grow offset size new node).children := by
  obtain ⟨front, back, -, hg⟩ : ∃ front back, node.children = front ++ back ∧
      (grow offset size new node).children =
        front.map (grow offset size new) ++ new ++ back.map (grow offset size new) :=
    children_grow_innermost h hi
  rw [hg]
  simp [hm]

/-- A node that a place is not inside of grows to a tree of the grown nodes. -/
theorem preorder_grow_of_not_around (h : node.Laid source) (ha : node.around offset = false) :
    (grow offset size new node).preorder = node.preorder.map (grow offset size new) := by
  induction node using induction_on with
  | step node ih =>
    have hi := not_innermost_of_not_around ha
    have hall : ∀ {nodes : List Node}, (∀ child ∈ nodes, child ∈ node.children) →
        within (nodes.map (grow offset size new)) = (within nodes).map (grow offset size new) := by
      intro nodes hnodes
      induction nodes with
      | nil => rfl
      | cons first rest ihr =>
        obtain ⟨hfirst, hrest⟩ := List.forall_mem_cons.1 hnodes
        have hout := h.not_around_of_mem ha (mem_preorder_of_child hfirst)
        have htree := ih first hfirst (h.child hfirst) hout
        rw [List.map_cons, Growth.Carries.within_cons, Growth.Carries.within_cons, htree,
          ihr hrest, List.map_append]
    rw [preorder_eq_within, preorder_eq_within, children_grow h hi, hall fun _ hc => hc,
      List.map_cons]

section first

variable {p p' : Node → Bool} {call : Node}

/-- A node that is passed over on the way to a node: it is not around the place, or the node is
below it. -/
def Passes (offset : Nat) (call node : Node) : Prop :=
  node.around offset = false ∨ ∃ child ∈ node.children, call ∈ child.preorder

/-- The first node of a sort among several trees, if each tree has grown to one with the grown node
as its first. -/
theorem find?_within_grow_of_each {nodes : List Node} (hl : ∀ node ∈ nodes, node.Laid source)
    (ho : Ordered nodes) (hc : call.around offset = true)
    (hpass : ∀ node ∈ within nodes, p node = false → Passes offset call node →
      p' (grow offset size new node) = false)
    (each : ∀ node ∈ nodes, node.preorder.find? p = some call →
      (grow offset size new node).preorder.find? p' = some (grow offset size new call))
    (hf : (within nodes).find? p = some call) :
    (within (nodes.map (grow offset size new))).find? p' = some (grow offset size new call) := by
  induction nodes with
  | nil => cases hf
  | cons first rest ih =>
    obtain ⟨hfirst, hrest⟩ := List.forall_mem_cons.1 hl
    obtain ⟨hbefore, horest⟩ := List.pairwise_cons.1 ho
    rw [Growth.Carries.within_cons, List.find?_append] at hf
    rw [List.map_cons, Growth.Carries.within_cons, List.find?_append]
    cases hfound : first.preorder.find? p with
    | some found =>
      rw [hfound] at hf
      obtain rfl : found = call := Option.some.inj hf
      rw [each first (List.mem_cons_self ..) hfound, Option.some_or]
    | none =>
      rw [hfound, Option.none_or] at hf
      obtain ⟨top, ht, hin⟩ := mem_within.1 (List.mem_of_find?_eq_some hf)
      have htop := around_iff.1 ((hrest top ht).around_of_mem hin hc)
      have hafter := hbefore top ht
      have hout : first.around offset = false := around_eq_false_iff.2 (by omega)
      have hnone : (grow offset size new first).preorder.find? p' = none := by
        rw [preorder_grow_of_not_around hfirst hout, List.find?_eq_none]
        intro node hn
        obtain ⟨inner, hinner, rfl⟩ := List.mem_map.1 hn
        have hno : p inner = false := by simpa using List.find?_eq_none.1 hfound inner hinner
        have hmem : inner ∈ within (first :: rest) :=
          mem_within.2 ⟨first, List.mem_cons_self .., hinner⟩
        simp [hpass inner hmem hno (.inl (hfirst.not_around_of_mem hout hinner))]
      rw [hnone, Option.none_or]
      apply ih hrest horest
      · intro node hn
        obtain ⟨tree, htree, hnode⟩ := mem_within.1 hn
        exact hpass node (mem_within.2 ⟨tree, List.mem_cons_of_mem _ htree, hnode⟩)
      · exact fun node hn => each node (List.mem_cons_of_mem _ hn)
      · exact hf

/-- The first node of a sort in a tree, if it is around the place. -/
theorem find?_preorder_grow (h : node.Laid source) (hc : call.around offset = true)
    (hcall : p' (grow offset size new call) = true)
    (hpass : ∀ inner ∈ node.preorder, p inner = false → Passes offset call inner →
      p' (grow offset size new inner) = false)
    (hf : node.preorder.find? p = some call) :
    (grow offset size new node).preorder.find? p' = some (grow offset size new call) := by
  induction node using induction_on with
  | step node ih =>
    rw [preorder_eq_within, List.find?_cons] at hf
    rw [preorder_eq_within, List.find?_cons]
    cases hp : p node with
    | true =>
      rw [hp] at hf
      obtain rfl : node = call := Option.some.inj hf
      rw [hcall]
    | false =>
      rw [hp] at hf
      obtain ⟨child, hchild, hin⟩ := mem_within.1 (List.mem_of_find?_eq_some hf)
      have hchildAround := (h.child hchild).around_of_mem hin hc
      rw [hpass node (mem_preorder_self node) hp (.inr ⟨child, hchild, hin⟩),
        children_grow h (not_innermost_of_child hchild hchildAround)]
      apply find?_within_grow_of_each (fun c hcm => h.child hcm) h.fits.ordered hc _ _ hf
      · intro inner hinner
        obtain ⟨tree, ht, hi⟩ := mem_within.1 hinner
        exact hpass inner (mem_preorder_of_below ht hi)
      · intro tree ht htree
        apply ih tree ht (h.child ht) _ htree
        exact fun inner hi => hpass inner (mem_preorder_of_below ht hi)

/-- The first node of a sort among several trees. -/
theorem find?_within_grow {nodes : List Node} (hl : ∀ node ∈ nodes, node.Laid source)
    (ho : Ordered nodes) (hc : call.around offset = true)
    (hcall : p' (grow offset size new call) = true)
    (hpass : ∀ node ∈ within nodes, p node = false → Passes offset call node →
      p' (grow offset size new node) = false)
    (hf : (within nodes).find? p = some call) :
    (within (nodes.map (grow offset size new))).find? p' = some (grow offset size new call) := by
  apply find?_within_grow_of_each hl ho hc hpass _ hf
  intro tree ht htree
  apply find?_preorder_grow (hl tree ht) hc hcall _ htree
  exact fun inner hi => hpass inner (mem_within.2 ⟨tree, ht, hi⟩)

end first

end Source.Node

namespace SourceFile

variable {file file' : SourceFile} {callee : String} {call : Node}

theorem exists_function_of_isCallOf (h : file.isCallOf callee call = true) :
    call.kind = .call ∧ ∃ f, call.child? "function" = some f ∧
      Text.squash (file.textOf f) = Text.squash callee := by
  rw [isCallOf, Bool.and_eq_true] at h
  obtain ⟨hk, h⟩ := h
  refine ⟨by simpa [isKind] using hk, ?_⟩
  split at h
  · rename_i f hf
    exact ⟨f, hf, by simpa using h⟩
  · cases h

theorem mem_nodes_of_findCall (hr : file.Regular) (h : file.findCall callee = some call) :
    call ∈ file.nodes :=
  (Growth.Carries.mem_nodes_of_find? hr (fun _ hm => (exists_function_of_isCallOf hm).1) h).1

namespace Grows

variable {offset : Nat} {piece : String} {new : List Node}
  (hr : file.Regular) (hg : file.Grows file' offset piece new)

include hr hg

theorem textOf_grow {node : Node} (hn : node ∈ file.nodes) (ha : node.around offset = false) :
    file'.textOf (grow offset (Text.size piece) new node) = file.textOf node :=
  text_grow_of_not_around (hr.laid_of_mem hn).fits ha hg.text

variable {node : Node}

/-- A call is one of a callee as it was, if the place is not in what it calls. -/
theorem isCallOf_grow (hn : node ∈ file.nodes) (hi : ¬ node.Innermost offset)
    (hf : ∀ f, node.child? "function" = some f → f.around offset = false) :
    file'.isCallOf callee (grow offset (Text.size piece) new node) = file.isCallOf callee node := by
  rw [isCallOf, isCallOf, child?_grow (hr.laid_of_mem hn) hi]
  cases hc : node.child? "function" with
  | none => simp [isKind]
  | some f =>
    have hmem := mem_nodes_of_child hn (Growth.Carries.mem_of_child? hc)
    simp [isKind, hg.textOf_grow hr hmem (hf f hc)]

/-- A call that has the place in what it calls, behind another call of the callee there, is none of
the callee unless it was one. -/
theorem isCallOf_grow_outer (hn : node ∈ file.nodes) {f g : Node}
    (hno : file.isCallOf callee node = false) (hf : node.child? "function" = some f)
    (ha : f.around offset = true) (hin : g ∈ f.preorder) (hout : g.around offset = false)
    (hcallee : Text.squash (file.textOf g) = Text.squash callee) :
    file'.isCallOf callee (grow offset (Text.size piece) new node) = false := by
  have hl := hr.laid_of_mem hn
  have hchild := Growth.Carries.mem_of_child? hf
  rw [isCallOf, child?_grow hl (not_innermost_of_child hchild ha), hf]
  rw [isCallOf, hf] at hno
  obtain ⟨front, back, hold, hnew, hinfix⟩ :=
    exists_text_grow_infix new (hl.child hchild) ha hg.text hin hout
  simp only [isKind, grow_kind, Option.map_some, Bool.and_eq_false_iff, beq_eq_false_iff_ne] at hno ⊢
  refine hno.imp id fun hne he => hne ?_
  rw [SourceFile.textOf, hnew, ← String.ofList_toList (s := callee)] at he
  rw [SourceFile.textOf, hold, ← String.ofList_toList (s := callee)]
  apply Text.squash_append_of_infix he _ hinfix
  rw [String.ofList_toList, String.ofList_toList]
  exact hcallee

/-- A call in front of another one that has the place behind what it calls is none of the callee if
it was none: the place is beside it, or it is around the other one. -/
theorem isCallOf_grow_of_passes (hn : node ∈ file.nodes) {g : Node}
    (hc : call.around offset = true) (hf : call.child? "function" = some g)
    (hout : g.around offset = false) (hcallee : Text.squash (file.textOf g) = Text.squash callee)
    (hno : file.isCallOf callee node = false) (hp : Passes offset call node) :
    file'.isCallOf callee (grow offset (Text.size piece) new node) = false := by
  have hl := hr.laid_of_mem hn
  rcases hp with hbeside | ⟨child, hchild, hbelow⟩
  · rw [hg.isCallOf_grow hr hn (not_innermost_of_not_around hbeside), hno]
    intro f hfc
    exact hl.not_around_of_mem hbeside (mem_preorder_of_child (Growth.Carries.mem_of_child? hfc))
  · have hchildAround := (hl.child hchild).around_of_mem hbelow hc
    by_cases hfun : ∃ f, node.child? "function" = some f ∧ f.around offset = true
    · obtain ⟨f, hfun, hfunAround⟩ := hfun
      obtain rfl := eq_of_around hl.fits.ordered (Growth.Carries.mem_of_child? hfun) hchild
        hfunAround hchildAround
      have hmem := mem_preorder_of_child (Growth.Carries.mem_of_child? hf)
      exact hg.isCallOf_grow_outer hr hn hno hfun hfunAround (mem_preorder_trans hbelow hmem) hout
        hcallee
    · rw [hg.isCallOf_grow hr hn (not_innermost_of_child hchild hchildAround), hno]
      intro f hfc
      rw [Bool.eq_false_iff]
      exact fun hfunAround => hfun ⟨f, hfc, hfunAround⟩

/-- The first call of a callee is still the first one after an insertion into its arguments. -/
theorem findCall_grow {arguments : Node} (hcall : file.findCall callee = some call)
    (hargs : call.child? "arguments" = some arguments) (ha : arguments.around offset = true) :
    file'.findCall callee = some (grow offset (Text.size piece) new call) := by
  have hmatch : file.isCallOf callee call = true := List.find?_some hcall
  obtain ⟨-, g, hfun, hsquash⟩ := exists_function_of_isCallOf hmatch
  have hn := mem_nodes_of_findCall hr hcall
  have hl := hr.laid_of_mem hn
  have hmem := Growth.Carries.mem_of_child? hargs
  have hout : g.around offset = false := not_around_of_child? hl (by decide) hfun hargs ha
  have haround : call.around offset = true :=
    hl.around_of_mem (mem_preorder_of_child hmem) ha
  have hmatch' : file'.isCallOf callee (grow offset (Text.size piece) new call) = true := by
    rw [hg.isCallOf_grow hr hn (not_innermost_of_child hmem ha), hmatch]
    intro f hf
    rwa [Option.some.inj (hf.symm.trans hfun)]
  have hroot : ∀ {f : SourceFile}, f.root.kind = .program → f.isCallOf callee f.root = false := by
    intro f hk
    simp [isCallOf, isKind, hk]
  have hany : file.root.children.any (around offset) = true := by
    obtain ⟨top, ht, hm⟩ := mem_within.1 hn
    exact List.any_eq_true.2 ⟨top, ht, (hr.laid top ht).around_of_mem hm haround⟩
  rw [findCall, descendants_eq, List.find?_cons, hroot hr.root] at hcall
  rw [findCall, descendants_eq, List.find?_cons, hroot (hg.kind.trans hr.root), hg.children,
    growChildren, if_pos hany]
  apply find?_within_grow hr.laid hr.ordered haround hmatch' _ hcall
  intro node hnode hno hp
  exact hg.isCallOf_grow_of_passes hr hnode haround hfun hout hsquash hno hp

end Grows

end SourceFile

end Codemod
