import Codemod.Source.Node
import Codemod.Proofs.Splices

/-!
Trees that grow.

Behind the place of an insertion a tree moves to the right, around it a tree gets longer, and the
new nodes stand in the innermost node around the place. A node that the place is not inside of
keeps its text; one that it is inside of keeps every character of it.
-/
namespace Codemod.Source.Node

def shift (size : Nat) : Node → Node
  | { kind, grammar, field, start, stop, children } =>
    { kind, grammar, field, start := start + size, stop := stop + size,
      children := shiftAll size children }
where
  /-- Several trees further to the right. -/
  shiftAll (size : Nat) : List Node → List Node
    | [] => []
    | node :: rest => shift size node :: shiftAll size rest

/-- A place inside a node. -/
def around (offset : Nat) (node : Node) : Bool := node.start < offset && offset < node.stop

/-- The nodes in front of a place, new nodes, and those behind it. -/
def weave (offset size : Nat) (new children : List Node) : List Node :=
  children.takeWhile (fun c => c.stop ≤ offset) ++ new
    ++ (children.dropWhile fun c => c.stop ≤ offset).map (shift size)

/-- A tree after new nodes of some size were put at a place. -/
def grow (offset size : Nat) (new : List Node) : Node → Node
  | { kind, grammar, field, start, stop, children } =>
    if stop ≤ offset then { kind, grammar, field, start, stop, children }
    else if offset ≤ start then shift size { kind, grammar, field, start, stop, children }
    else
      { kind, grammar, field, start, stop := stop + size,
        children :=
          if children.any (around offset) then growAll offset size new children
          else weave offset size new children }
where
  /-- Several trees after that. -/
  growAll (offset size : Nat) (new : List Node) : List Node → List Node
    | [] => []
    | node :: rest => grow offset size new node :: growAll offset size new rest

def growChildren (offset size : Nat) (new children : List Node) : List Node :=
  if children.any (around offset) then children.map (grow offset size new)
  else weave offset size new children

theorem shiftAll_eq_map (size : Nat) (nodes : List Node) :
    shift.shiftAll size nodes = nodes.map (shift size) := by
  induction nodes with
  | nil => rfl
  | cons node rest ih => rw [shift.shiftAll, ih, List.map_cons]

theorem growAll_eq_map (offset size : Nat) (new nodes : List Node) :
    grow.growAll offset size new nodes = nodes.map (grow offset size new) := by
  induction nodes with
  | nil => rfl
  | cons node rest ih => rw [grow.growAll, ih, List.map_cons]

@[simp] theorem shift_kind (size : Nat) (node : Node) : (shift size node).kind = node.kind := by
  cases node; rfl

@[simp] theorem shift_grammar (size : Nat) (node : Node) :
    (shift size node).grammar = node.grammar := by
  cases node; rfl

@[simp] theorem shift_field (size : Nat) (node : Node) : (shift size node).field = node.field := by
  cases node; rfl

@[simp] theorem shift_start (size : Nat) (node : Node) :
    (shift size node).start = node.start + size := by
  cases node; rfl

@[simp] theorem shift_stop (size : Nat) (node : Node) :
    (shift size node).stop = node.stop + size := by
  cases node; rfl

@[simp] theorem shift_children (size : Nat) (node : Node) :
    (shift size node).children = node.children.map (shift size) := by
  cases node
  exact shiftAll_eq_map ..

section grow

variable {offset size : Nat} {new : List Node} {node : Node}

theorem grow_of_le (h : node.stop ≤ offset) : grow offset size new node = node := by
  cases node
  simp_all [grow]

theorem grow_of_ge (h : offset ≤ node.start) (h' : offset < node.stop) :
    grow offset size new node = shift size node := by
  cases node
  simp_all [grow, Nat.not_le.2 h']

theorem grow_of_around (h : node.around offset = true) :
    grow offset size new node = { node with
      stop := node.stop + size, children := growChildren offset size new node.children } := by
  obtain ⟨h1, h2⟩ : node.start < offset ∧ offset < node.stop := by simpa [around] using h
  cases node
  simp only at h1 h2
  simp [grow, growChildren, Nat.not_le.2 h1, Nat.not_le.2 h2, growAll_eq_map]

@[simp] theorem grow_kind (offset size : Nat) (new : List Node) (node : Node) :
    (grow offset size new node).kind = node.kind := by
  cases node
  unfold grow
  split
  · rfl
  · split <;> simp

@[simp] theorem grow_grammar (offset size : Nat) (new : List Node) (node : Node) :
    (grow offset size new node).grammar = node.grammar := by
  cases node
  unfold grow
  split
  · rfl
  · split <;> simp

@[simp] theorem grow_field (offset size : Nat) (new : List Node) (node : Node) :
    (grow offset size new node).field = node.field := by
  cases node
  unfold grow
  split
  · rfl
  · split <;> simp

end grow

def within (nodes : List Node) : List Node := preorder.preorderAll nodes

theorem mem_within {nodes : List Node} {node : Node} :
    node ∈ within nodes ↔ ∃ top ∈ nodes, node ∈ top.preorder := by
  induction nodes with
  | nil => simp [within, preorder.preorderAll]
  | cons first rest ih =>
    have : within (first :: rest) = first.preorder ++ within rest := rfl
    rw [this, List.mem_append, ih]
    simp

theorem preorder_eq_within (node : Node) : node.preorder = node :: within node.children :=
  preorder_eq node

/-- The nodes of a tree: its root and the nodes below. -/
theorem descendants_eq (node : Node) : node.descendants = node :: within node.children := by
  rw [descendants, walk_eq_preorderAll, preorder.preorderAll, preorder.preorderAll,
    List.append_nil, preorder_eq_within]

theorem mem_preorder_self (node : Node) : node ∈ node.preorder := by
  rw [preorder_eq_within]
  exact List.mem_cons_self ..

theorem mem_preorder {node inner : Node} :
    inner ∈ node.preorder ↔ inner = node ∨ ∃ child ∈ node.children, inner ∈ child.preorder := by
  rw [preorder_eq_within, List.mem_cons, mem_within]

theorem mem_preorder_of_below {node child inner : Node} (hc : child ∈ node.children)
    (hi : inner ∈ child.preorder) : inner ∈ node.preorder :=
  mem_preorder.2 (.inr ⟨child, hc, hi⟩)

theorem mem_preorder_of_child {node child : Node} (hc : child ∈ node.children) :
    child ∈ node.preorder :=
  mem_preorder_of_below hc (mem_preorder_self child)

theorem mem_within_of_mem {nodes : List Node} {node : Node} (h : node ∈ nodes) :
    node ∈ within nodes :=
  mem_within.2 ⟨node, h, mem_preorder_self node⟩

theorem count_lt_of_mem {node child : Node} (h : child ∈ node.children) :
    child.count < node.count := by
  have hle : ∀ {nodes : List Node}, child ∈ nodes → child.count ≤ count.countAll nodes := by
    intro nodes
    induction nodes with
    | nil => simp
    | cons first rest ih =>
      intro hmem
      rw [count.countAll]
      rcases List.mem_cons.1 hmem with rfl | hmem
      · omega
      · have := ih hmem
        omega
  have := hle h
  rw [count_eq node]
  omega

/-- Induction over trees. -/
theorem induction_on {P : Node → Prop} (step : ∀ node, (∀ child ∈ node.children, P child) → P node)
    (node : Node) : P node := by
  induction h : node.count using Nat.strongRecOn generalizing node with
  | _ n ih =>
    subst h
    exact step node fun child hmem => ih child.count (count_lt_of_mem hmem) child rfl

/-- The nodes below the nodes of a tree are nodes of the tree. -/
theorem mem_preorder_trans {node mid inner : Node} (h : mid ∈ node.preorder)
    (h' : inner ∈ mid.preorder) : inner ∈ node.preorder := by
  induction node using induction_on with
  | step node ih =>
    rcases mem_preorder.1 h with rfl | ⟨child, hc, hm⟩
    · exact h'
    · exact mem_preorder_of_below hc (ih child hc hm)

theorem mem_within_trans {nodes : List Node} {mid inner : Node} (h : mid ∈ within nodes)
    (h' : inner ∈ mid.preorder) : inner ∈ within nodes := by
  obtain ⟨top, ht, hm⟩ := mem_within.1 h
  exact mem_within.2 ⟨top, ht, mem_preorder_trans hm h'⟩

theorem mem_within_of_child {nodes : List Node} {node child : Node} (h : node ∈ within nodes)
    (hc : child ∈ node.children) : child ∈ within nodes :=
  mem_within_trans h (mem_preorder_of_child hc)

/-- Nodes that follow one another. -/
def Ordered (nodes : List Node) : Prop := nodes.Pairwise fun a b => a.stop ≤ b.start

/-- A node with a place of its own in a text, and its children with theirs in it. -/
structure Fits (source : String) (node : Node) : Prop where
  nonempty : node.start < node.stop
  start : Text.isBoundary source node.start = true
  stop : Text.isBoundary source node.stop = true
  inside : ∀ child ∈ node.children, node.start ≤ child.start ∧ child.stop ≤ node.stop
  ordered : Ordered node.children

/-- A tree of nodes with such places. -/
def Laid (source : String) (node : Node) : Prop := ∀ inner ∈ node.preorder, inner.Fits source

instance (nodes : List Node) : Decidable (Ordered nodes) :=
  inferInstanceAs (Decidable (nodes.Pairwise fun a b => a.stop ≤ b.start))

instance (source : String) (node : Node) : Decidable (node.Fits source) :=
  decidable_of_iff (node.start < node.stop ∧ Text.isBoundary source node.start = true ∧
      Text.isBoundary source node.stop = true ∧
      (∀ child ∈ node.children, node.start ≤ child.start ∧ child.stop ≤ node.stop) ∧
      Ordered node.children)
    ⟨fun ⟨h1, h2, h3, h4, h5⟩ => ⟨h1, h2, h3, h4, h5⟩,
      fun h => ⟨h.nonempty, h.start, h.stop, h.inside, h.ordered⟩⟩

instance (source : String) (node : Node) : Decidable (node.Laid source) :=
  inferInstanceAs (Decidable (∀ inner ∈ node.preorder, inner.Fits source))

variable {source : String} {node : Node}

theorem Laid.fits (h : node.Laid source) : node.Fits source := h node (mem_preorder_self node)

theorem Laid.child (h : node.Laid source) {child : Node} (hc : child ∈ node.children) :
    child.Laid source :=
  fun _ hi => h _ (mem_preorder_of_below hc hi)

theorem Laid.inner (h : node.Laid source) {inner : Node} (hi : inner ∈ node.preorder) :
    inner.Laid source :=
  fun _ hm => h _ (mem_preorder_trans hi hm)

/-- Every node of a tree lies inside the tree. -/
theorem Laid.inside (h : node.Laid source) {inner : Node} (hi : inner ∈ node.preorder) :
    node.start ≤ inner.start ∧ inner.stop ≤ node.stop := by
  induction node using induction_on with
  | step node ih =>
    rcases mem_preorder.1 hi with rfl | ⟨child, hc, hm⟩
    · exact ⟨Nat.le_refl _, Nat.le_refl _⟩
    · have hchild := h.fits.inside child hc
      have hinner := ih child hc (h.child hc) hm
      omega

/-- A node around a place without a child around it. -/
def Innermost (offset : Nat) (node : Node) : Prop :=
  node.around offset = true ∧ ∀ child ∈ node.children, child.around offset = false

section grow

variable {offset size : Nat} {new : List Node}

theorem around_iff : node.around offset = true ↔ node.start < offset ∧ offset < node.stop := by
  simp [around]

theorem around_eq_false_iff :
    node.around offset = false ↔ offset ≤ node.start ∨ node.stop ≤ offset := by
  rw [Bool.eq_false_iff, ne_eq, around_iff]
  omega

/-- A node that the place is not inside of stays or moves as a whole. -/
theorem grow_of_not_around (size : Nat) (new : List Node) (h : node.Fits source)
    (ha : node.around offset = false) :
    (node.stop ≤ offset ∧ grow offset size new node = node) ∨
    (offset ≤ node.start ∧ grow offset size new node = shift size node) := by
  have := h.nonempty
  rcases around_eq_false_iff.1 ha with hge | hle
  · exact .inr ⟨hge, grow_of_ge hge (by omega)⟩
  · exact .inl ⟨hle, grow_of_le hle⟩

/-- The children of a node grow with it, but for those that stand next to the new nodes. -/
theorem children_grow (h : node.Laid source) (hi : ¬ node.Innermost offset) :
    (grow offset size new node).children = node.children.map (grow offset size new) := by
  cases ha : node.around offset with
  | true =>
    have hany : node.children.any (around offset) = true := by
      rw [List.any_eq_true]
      apply Classical.byContradiction
      intro hn
      apply hi
      refine ⟨ha, ?_⟩
      intro child hc
      rw [Bool.eq_false_iff]
      exact fun hca => hn ⟨child, hc, hca⟩
    rw [grow_of_around ha, growChildren, if_pos hany]
  | false =>
    have hn := h.fits.nonempty
    rcases grow_of_not_around size new h.fits ha with ⟨hle, hg⟩ | ⟨hge, hg⟩
    · rw [hg]
      refine (List.map_congr_left fun child hc => ?_).trans (List.map_id' _) |>.symm
      have := h.fits.inside child hc
      exact grow_of_le (by omega)
    · rw [hg, shift_children]
      refine List.map_congr_left fun child hc => ?_
      have := h.fits.inside child hc
      have := (h.child hc).fits.nonempty
      exact (grow_of_ge (by omega) (by omega)).symm

/-- New nodes stand between nodes that grow. -/
theorem weave_eq (size : Nat) (new : List Node) {nodes : List Node} (ho : Ordered nodes)
    (hf : ∀ child ∈ nodes, child.Fits source)
    (hn : ∀ child ∈ nodes, child.around offset = false) :
    ∃ front back, nodes = front ++ back ∧ weave offset size new nodes =
      front.map (grow offset size new) ++ new ++ back.map (grow offset size new) := by
  induction nodes with
  | nil => exact ⟨[], [], rfl, by simp [weave]⟩
  | cons first rest ih =>
    obtain ⟨hfirst, hrest⟩ := List.forall_mem_cons.1 hf
    obtain ⟨hnfirst, hnrest⟩ := List.forall_mem_cons.1 hn
    obtain ⟨hbefore, horest⟩ := List.pairwise_cons.1 ho
    by_cases hle : first.stop ≤ offset
    · obtain ⟨front, back, he, hw⟩ := ih horest hrest hnrest
      refine ⟨first :: front, back, by simp [he], ?_⟩
      rw [weave] at hw ⊢
      simp only [List.takeWhile_cons, List.dropWhile_cons, hle, decide_true, if_true,
        List.map_cons, grow_of_le, List.cons_append, hw]
    · have hge : offset ≤ first.start := by
        rcases around_eq_false_iff.1 hnfirst with h | h
        · exact h
        · exact absurd h hle
      have hshift : ∀ child ∈ first :: rest, shift size child = grow offset size new child := by
        intro child hc
        have hstop : offset ≤ child.start := by
          rcases List.mem_cons.1 hc with rfl | hc
          · exact hge
          · have := hbefore child hc
            omega
        have := (hf child hc).nonempty
        exact (grow_of_ge hstop (by omega)).symm
      refine ⟨[], first :: rest, rfl, ?_⟩
      simp only [weave, List.takeWhile_cons, List.dropWhile_cons, hle, decide_false,
        Bool.false_eq_true, if_false, List.map_congr_left hshift, List.map_nil]

/-- The children of the innermost node around the place: the new nodes among the old ones. -/
theorem children_grow_innermost (h : node.Laid source) (hi : node.Innermost offset) :
    ∃ front back, node.children = front ++ back ∧ (grow offset size new node).children =
      front.map (grow offset size new) ++ new ++ back.map (grow offset size new) := by
  have hany : node.children.any (around offset) = false := by
    rw [List.any_eq_false]
    intro child hc
    simp [hi.2 child hc]
  rw [grow_of_around hi.1, growChildren, if_neg (by simp [hany])]
  exact weave_eq size new h.fits.ordered (fun child hc => (h.child hc).fits) hi.2

/-- Of nodes that follow one another, at most one is around a place. -/
theorem eq_of_around {nodes : List Node} (ho : Ordered nodes) {a b : Node} (ha : a ∈ nodes)
    (hb : b ∈ nodes) (haa : a.around offset = true) (hba : b.around offset = true) : a = b := by
  induction nodes with
  | nil => cases ha
  | cons first rest ih =>
    obtain ⟨hbefore, horest⟩ := List.pairwise_cons.1 ho
    have h1 := around_iff.1 haa
    have h2 := around_iff.1 hba
    rcases List.mem_cons.1 ha with hfa | hra
    · rcases List.mem_cons.1 hb with hfb | hrb
      · rw [hfa, hfb]
      · have := hbefore b hrb
        rw [← hfa] at this
        omega
    · rcases List.mem_cons.1 hb with hfb | hrb
      · have := hbefore a hra
        rw [← hfb] at this
        omega
      · exact ih horest hra hrb

/-- The innermost node around a place is inside every node around it. -/
theorem Innermost.mem_preorder {inner : Node} (h : node.Laid source) (hi : inner.Innermost offset)
    (hmem : inner ∈ node.preorder) {other : Node} (ho : other ∈ node.preorder)
    (ha : other.around offset = true) : inner ∈ other.preorder := by
  induction node using induction_on with
  | step node ih =>
    rcases Node.mem_preorder.1 ho with rfl | ⟨child, hc, hoc⟩
    · exact hmem
    · have hother := around_iff.1 ha
      have hin := (h.child hc).inside hoc
      have hca : child.around offset = true := around_iff.2 (by omega)
      rcases Node.mem_preorder.1 hmem with rfl | ⟨child', hc', hic⟩
      · have := hi.2 child hc
        rw [hca] at this
        cases this
      · have hinner := around_iff.1 hi.1
        have hin' := (h.child hc').inside hic
        have hca' : child'.around offset = true := around_iff.2 (by omega)
        obtain rfl := eq_of_around h.fits.ordered hc hc' hca hca'
        exact ih child hc (h.child hc) hic hoc

/-- The same among several trees that follow one another. -/
theorem Innermost.mem_preorder_of_within {nodes : List Node} {inner : Node}
    (hl : ∀ top ∈ nodes, top.Laid source) (ho : Ordered nodes) (hi : inner.Innermost offset)
    (hmem : inner ∈ within nodes) {other : Node} (hother : other ∈ within nodes)
    (ha : other.around offset = true) : inner ∈ other.preorder := by
  obtain ⟨top, ht, hm⟩ := mem_within.1 hmem
  obtain ⟨top', ht', hm'⟩ := mem_within.1 hother
  have h1 := around_iff.1 hi.1
  have h2 := around_iff.1 ha
  have hin := (hl top ht).inside hm
  have hin' := (hl top' ht').inside hm'
  have htop : top.around offset = true := around_iff.2 (by omega)
  have htop' : top'.around offset = true := around_iff.2 (by omega)
  obtain rfl := eq_of_around ho ht ht' htop htop'
  exact hi.mem_preorder (hl top ht) hm hm' ha

/-- There is one innermost node around a place. -/
theorem Innermost.unique {nodes : List Node} {a b : Node} (hl : ∀ top ∈ nodes, top.Laid source)
    (ho : Ordered nodes) (ha : a.Innermost offset) (hma : a ∈ within nodes)
    (hb : b.Innermost offset) (hmb : b ∈ within nodes) : a = b := by
  have hin := ha.mem_preorder_of_within hl ho hma hmb hb.1
  rcases Node.mem_preorder.1 hin with rfl | ⟨child, hc, hac⟩
  · rfl
  · obtain ⟨top, ht, hm⟩ := mem_within.1 hmb
    have h1 := around_iff.1 ha.1
    have hin' := (((hl top ht).inner hm).child hc).inside hac
    have := hb.2 child hc
    rw [around_iff.2 (show child.start < offset ∧ offset < child.stop by omega)] at this
    cases this

end grow

end Codemod.Source.Node
