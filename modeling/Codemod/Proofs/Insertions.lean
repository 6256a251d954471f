import Codemod.Change.Anchoring
import Codemod.Proofs.CarriedRoots

/-!
Insertions at anchors.

The anchor of a list is behind its last item, so the list is the innermost node around it and its
closing mark stands behind. The anchor of an import is between the nodes at the top. In both cases
a tree that has grown by new nodes there carries over what the tree before knew.
-/
namespace Codemod

open Source Node

namespace SourceFile

/-- A file whose tree has grown by new nodes, where a piece was put into its text. -/
structure Grows (file file' : SourceFile) (offset : Nat) (piece : String) (new : List Node) :
    Prop where
  path : file'.path = file.path
  text : Text.insertAt? file.text offset piece = some file'.text
  kind : file'.root.kind = file.root.kind
  children : file'.root.children =
    growChildren offset (Text.size piece) new file.root.children

theorem Regular.laid_of_mem {file : SourceFile} (hr : file.Regular) {node : Node}
    (hn : node ∈ file.nodes) : node.Laid file.text := by
  obtain ⟨top, ht, hm⟩ := mem_within.1 hn
  exact (hr.laid top ht).inner hm

end SourceFile

namespace Source.Node

theorem ordered_cases {nodes : List Node} (ho : Ordered nodes) {a b : Node} (ha : a ∈ nodes)
    (hb : b ∈ nodes) : a = b ∨ a.stop ≤ b.start ∨ b.stop ≤ a.start := by
  induction nodes with
  | nil => cases ha
  | cons first rest ih =>
    obtain ⟨hbefore, horest⟩ := List.pairwise_cons.1 ho
    rcases List.mem_cons.1 ha with hfa | hra
    · rcases List.mem_cons.1 hb with hfb | hrb
      · exact .inl (hfa.trans hfb.symm)
      · exact .inr (.inl (hfa ▸ hbefore b hrb))
    · rcases List.mem_cons.1 hb with hfb | hrb
      · exact .inr (.inr (hfb ▸ hbefore a hra))
      · exact ih horest hra hrb

theorem mem_of_lastOf {node child : Node} {kind : Kind} (h : node.lastOf kind = some child) :
    child ∈ node.children ∧ child.kind = kind :=
  ⟨by simpa using List.mem_of_find?_eq_some h, by simpa [isKind] using List.find?_some h⟩

end Source.Node

namespace SourceFile

theorem mem_of_lastBefore {container mark last : Node} (h : lastBefore container mark = some last) :
    last ∈ container.children ∧ last.start < mark.start ∧ last.kind ≠ .comment := by
  obtain ⟨htake, hkind⟩ := List.mem_filter.1 (List.mem_of_getLast? h)
  exact ⟨List.takeWhile_subset _ htake,
    by simpa using List.all_eq_true.1 List.all_takeWhile last htake, by simpa [isKind] using hkind⟩

/-- The anchor of a list is where the last child in front of the closing mark ends. -/
theorem exists_of_closeAnchor {container : Node} {close : Kind} {kind : AnchorKind}
    {anchor : Anchor} (h : closeAnchor container close kind = some anchor) :
    ∃ mark last, container.lastOf close = some mark ∧ lastBefore container mark = some last ∧
      anchor = ⟨last.stop, kind, !last.kind.opensOrSeparates⟩ := by
  obtain ⟨mark, hm, h⟩ := Option.bind_eq_some_iff.1 h
  obtain ⟨last, hlast, h⟩ := Option.map_eq_some_iff.1 h
  exact ⟨mark, last, hm, hlast, h.symm⟩

/-- The anchor of a list is in the list, behind all items in front of the closing mark. -/
theorem innermost_of_closeAnchor {source : String} {container : Node} (hl : container.Laid source)
    {close : Kind} {kind : AnchorKind} {anchor : Anchor}
    (ha : closeAnchor container close kind = some anchor) :
    container.Innermost anchor.offset ∧
      ∃ mark ∈ container.children, mark.kind = close ∧ anchor.offset ≤ mark.start := by
  obtain ⟨mark, last, hm, hlast, rfl⟩ := exists_of_closeAnchor ha
  obtain ⟨hmem, hkind⟩ := mem_of_lastOf hm
  have hbefore := mem_of_lastBefore hlast
  have hfits := hl.fits
  have hlastfits := (hl.child hbefore.1).fits
  have hmarkfits := (hl.child hmem).fits
  have hstop : last.stop ≤ mark.start := by
    rcases ordered_cases hfits.ordered hbefore.1 hmem with rfl | h | h
    · omega
    · exact h
    · have := hmarkfits.nonempty
      omega
  have hin := hfits.inside last hbefore.1
  have hin' := hfits.inside mark hmem
  have hlt := hlastfits.nonempty
  have hlt' := hmarkfits.nonempty
  refine ⟨⟨?_, ?_⟩, mark, hmem, hkind, hstop⟩
  · rw [around_iff]
    simp only
    omega
  · intro child hc
    have hne := ((hl.child hc).fits).nonempty
    rw [around_eq_false_iff]
    simp only
    rcases ordered_cases hfits.ordered hc hbefore.1 with rfl | h | h <;> omega

end SourceFile

namespace Growth

def inside (offset size : Nat) (new : List Node) (mark : Char) : Growth where
  image := grow offset size new
  hole node := node.Innermost offset
  mark := mark
  new := new
  top := []

def atTop (offset size : Nat) (new : List Node) : Growth where
  image := grow offset size new
  hole _ := False
  mark := '\x7d'
  new := []
  top := new

variable {file file' : SourceFile} {offset : Nat} {piece : String} {new : List Node}

/-- A file that has grown inside a list carries over what it knew. -/
theorem carries_inside (hr : file.Regular) (hg : file.Grows file' offset piece new)
    {container mark : Node} (hn : container ∈ file.nodes) (hi : container.Innermost offset)
    (hmark : mark ∈ container.children) {c : Char} (hc : c = '\x7d' ∨ c = ']')
    (ht : file.textOf mark = String.ofList [c])
    (hk : container.kind = .namedImports ∨ container.kind = .objectLiteral ∨
      container.kind = .arrayLiteral) :
    (inside offset (Text.size piece) new c).Carries file file' := by
  have hone : ∀ node ∈ file.nodes, node.Innermost offset → node = container :=
    fun node hm hin => hin.unique hr.laid hr.ordered hm hi hn
  have hnested : ∀ node ∈ file.nodes, node.around offset = true → container ∈ node.preorder :=
    fun node hm ha => hi.mem_preorder_of_within hr.laid hr.ordered hn hm ha
  have hleaf : ∀ node ∈ file.nodes, node.IsLeaf → node.around offset = false := by
    intro node hm hl
    rw [Bool.eq_false_iff]
    intro ha
    have hnot : ∀ child ∈ node.children, container ∉ child.preorder := by
      intro child hch hin
      rcases hl with hk' | hk' | hk'
      · have := hr.plain node hm (.inl hk') container (mem_within.2 ⟨child, hch, hin⟩)
        simp [this] at hk
      · have := hr.plain node hm (.inr hk') container (mem_within.2 ⟨child, hch, hin⟩)
        simp [this] at hk
      · rw [hk'] at hch
        cases hch
    rcases mem_preorder.1 (hnested node hm ha) with rfl | ⟨child, hch, hin⟩
    · rcases hl with hk' | hk' | hk'
      · simp [hk'] at hk
      · simp [hk'] at hk
      · rw [hk'] at hmark
        cases hmark
    · exact hnot child hch hin
  refine ⟨grow_kind _ _ _, grow_grammar _ _ _, grow_field _ _ _, ?_, ?_, ?_, ?_, ?_, hc, hg.kind, ?_⟩
  · intro node hm hh
    exact children_grow (hr.laid_of_mem hm) hh
  · intro node hm hh
    exact children_grow_innermost (hr.laid_of_mem hm) hh
  · intro node hm
    cases ha : node.around offset with
    | false => exact .inl (text_grow_of_not_around (hr.laid_of_mem hm).fits ha hg.text)
    | true =>
      have hin : mark ∈ node.preorder :=
        mem_preorder_trans (hnested node hm ha) (mem_preorder_of_child hmark)
      have hmem : c ∈ (node.text file.text).toList := by
        apply mem_text_of_inside (hr.laid_of_mem hm) hin
        have : mark.text file.text = String.ofList [c] := ht
        simp [this]
      exact .inr ⟨hmem, mem_text_grow (hr.laid_of_mem hm).fits ha hg.text hmem⟩
  · intro node hm hl
    exact text_grow_of_not_around (hr.laid_of_mem hm).fits (hleaf node hm hl) hg.text
  · intro node hm hh
    rw [hone node hm hh]
    exact hk
  · refine ⟨file.root.children, [], by simp, ?_⟩
    have hany : file.root.children.any (around offset) = true := by
      obtain ⟨top, htop, hin⟩ := mem_within.1 hn
      have h1 := around_iff.1 hi.1
      have h2 := (hr.laid top htop).inside hin
      rw [List.any_eq_true]
      exact ⟨top, htop, around_iff.2 (by omega)⟩
    rw [hg.children, growChildren, if_pos hany]
    simp [inside]

/-- A file that has grown at the top carries over what it knew. -/
theorem carries_atTop (hr : file.Regular) (hg : file.Grows file' offset piece new)
    (hn : ∀ top ∈ file.root.children, top.around offset = false) :
    (atTop offset (Text.size piece) new).Carries file file' := by
  have hout : ∀ node ∈ file.nodes, node.around offset = false := by
    intro node hm
    obtain ⟨top, ht, hin⟩ := mem_within.1 hm
    have h1 := around_eq_false_iff.1 (hn top ht)
    have h2 := (hr.laid top ht).inside hin
    exact around_eq_false_iff.2 (by omega)
  have htext : ∀ node ∈ file.nodes,
      file'.textOf (grow offset (Text.size piece) new node) = file.textOf node :=
    fun node hm => text_grow_of_not_around (hr.laid_of_mem hm).fits (hout node hm) hg.text
  refine ⟨grow_kind _ _ _, grow_grammar _ _ _, grow_field _ _ _, ?_, ?_, ?_, ?_, ?_, .inl rfl,
    hg.kind, ?_⟩
  · intro node hm _
    apply children_grow (hr.laid_of_mem hm)
    intro hin
    have := hout node hm
    rw [hin.1] at this
    cases this
  · intro node _ hh
    exact hh.elim
  · exact fun node hm => .inl (htext node hm)
  · exact fun node hm _ => htext node hm
  · intro node _ hh
    exact hh.elim
  · have hany : file.root.children.any (around offset) = false := by
      rw [List.any_eq_false]
      intro top ht
      simp [hn top ht]
    obtain ⟨front, back, he, hw⟩ := weave_eq (Text.size piece) new hr.ordered
      (fun top ht => (hr.laid top ht).fits) hn
    refine ⟨front, back, he, ?_⟩
    rw [hg.children, growChildren, if_neg (by simp [hany]), hw]
    rfl

end Growth

end Codemod
