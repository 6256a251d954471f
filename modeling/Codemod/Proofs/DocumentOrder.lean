import Codemod.Module.Root
import Codemod.Proofs.TreeGrowth

/-!
Document order.

A traversal works off a stack of waiting nodes. What it has listed, with what is pending after it,
is the tree in document order at every step, and since nodes run out it ends. Addresses tell equal
nodes apart: a tree is listed by its addresses in order, a node before all that it encloses and all
that it precedes. So a search finds the match that no other one encloses or precedes; where children
lie in their parents, one behind another, the spans say the same.
-/
namespace Codemod

namespace Source.Node

/-- A step of a traversal: the last node of the stack is listed, and its children take its place,
the first of them last. -/
def next? (stack : List Node) : Option (Node × List Node) :=
  stack.getLast?.map fun node => (node, stack.dropLast ++ node.children.reverse)

/-- Steps from one stack to another, and the nodes that they list. -/
inductive Traverses : List Node → List Node → List Node → Prop
  | refl (stack : List Node) : Traverses stack [] stack
  | step {stack stack' last listed : List Node} {node : Node} :
    next? stack = some (node, stack') → Traverses stack' listed last →
    Traverses stack (node :: listed) last

/-- The trees of a stack in document order, one after another. -/
def pending (stack : List Node) : List Node := within stack.reverse

theorem next?_concat (front : List Node) (node : Node) :
    next? (front ++ [node]) = some (node, front ++ node.children.reverse) := by
  simp [next?]

theorem pending_concat (front : List Node) (node : Node) :
    pending (front ++ [node]) = node :: pending (front ++ node.children.reverse) := by
  have hstack : ∀ nodes, within (nodes ++ front.reverse) = within nodes ++ within front.reverse :=
    fun nodes => preorderAll_append nodes front.reverse
  calc pending (front ++ [node])
      = within ([node] ++ front.reverse) := by rw [pending, List.reverse_append]; rfl
    _ = node.preorder ++ within front.reverse := by
        rw [hstack]
        simp [within, preorder.preorderAll]
    _ = node :: within (node.children ++ front.reverse) := by
        rw [preorder_eq_within, hstack, List.cons_append]
    _ = node :: pending (front ++ node.children.reverse) := by
        rw [pending, List.reverse_append, List.reverse_reverse]

/-- A step lists the first of what is pending. -/
theorem pending_of_next? {stack stack' : List Node} {node : Node}
    (h : next? stack = some (node, stack')) : pending stack = node :: pending stack' := by
  rcases List.eq_nil_or_concat stack with rfl | ⟨front, top, rfl⟩
  · cases h
  · rw [List.concat_eq_append] at h ⊢
    rw [next?_concat] at h
    obtain ⟨rfl, rfl⟩ := Prod.mk.inj (Option.some.inj h)
    exact pending_concat front top

/-- What was listed and what is pending then were pending before. -/
theorem Traverses.append_pending {stack listed last : List Node}
    (h : Traverses stack listed last) : listed ++ pending last = pending stack := by
  induction h with
  | refl => rfl
  | step hnext _ ih => rw [pending_of_next? hnext, List.cons_append, ih]

/-- A traversal goes on until all that is pending is listed. -/
theorem traverses_pending (stack : List Node) : Traverses stack (pending stack) [] := by
  -- Each step leaves one node less, whatever the shape of the stack.
  induction h : pending stack generalizing stack with
  | nil =>
    rcases List.eq_nil_or_concat stack with rfl | ⟨front, top, rfl⟩
    · exact .refl []
    · rw [List.concat_eq_append, pending_concat] at h
      cases h
  | cons node listed ih =>
    rcases List.eq_nil_or_concat stack with rfl | ⟨front, top, rfl⟩
    · cases h
    · rw [List.concat_eq_append, pending_concat] at h
      obtain ⟨rfl, hlisted⟩ := List.cons.inj h
      rw [List.concat_eq_append]
      exact .step (next?_concat front top) (ih _ hlisted)

theorem pending_singleton (root : Node) : pending [root] = root.preorder := by
  simp [pending, within, preorder.preorderAll]

theorem traverses_iff {root : Node} {listed : List Node} :
    Traverses [root] listed [] ↔ listed = root.preorder := by
  constructor
  · intro h
    have hall := h.append_pending
    rwa [pending_singleton, show pending [] = [] from rfl, List.append_nil] at hall
  · rintro rfl
    rw [← pending_singleton]
    exact traverses_pending [root]

theorem length_preorder (node : Node) : node.preorder.length = node.count := by
  induction node using induction_on with
  | step node ih =>
    have hall : ∀ {nodes : List Node}, (∀ child ∈ nodes, child.preorder.length = child.count) →
        (within nodes).length = count.countAll nodes := by
      intro nodes hnodes
      induction nodes with
      | nil => rfl
      | cons first rest ihr =>
        obtain ⟨hfirst, hrest⟩ := List.forall_mem_cons.1 hnodes
        rw [count.countAll, ← hfirst, ← ihr hrest, ← List.length_append]
        rfl
    rw [preorder_eq_within, List.length_cons, hall ih, count_eq, Nat.add_comm]

/-- No traversal takes more steps than there are nodes. -/
theorem Traverses.length_le {root : Node} {listed last : List Node}
    (h : Traverses [root] listed last) : listed.length ≤ root.count := by
  rw [← length_preorder, ← pending_singleton, ← h.append_pending, List.length_append]
  omega

/-- The node at an address: from the root on, the places of the children that lead to it. -/
def at? (root : Node) : List Nat → Option Node
  | [] => some root
  | i :: rest => root.children[i]?.bind fun child => child.at? rest

/-- The addresses of a tree in document order. -/
def addresses : Node → List (List Nat)
  | { children, .. } => [] :: addressesFrom 0 children
where
  /-- The addresses of several trees, the first of which has a given place. -/
  addressesFrom : Nat → List Node → List (List Nat)
    | _, [] => []
    | i, node :: rest => (addresses node).map (i :: ·) ++ addressesFrom (i + 1) rest

/-- An address above another one. -/
inductive Encloses : List Nat → List Nat → Prop
  | root (i : Nat) (rest : List Nat) : Encloses [] (i :: rest)
  | within (i : Nat) {a b : List Nat} : Encloses a b → Encloses (i :: a) (i :: b)

/-- An address that parts from another one to the left. -/
inductive Precedes : List Nat → List Nat → Prop
  | left {i j : Nat} (a b : List Nat) : i < j → Precedes (i :: a) (j :: b)
  | within (i : Nat) {a b : List Nat} : Precedes a b → Precedes (i :: a) (i :: b)

/-- The order of addresses. -/
def Before (a b : List Nat) : Prop := Encloses a b ∨ Precedes a b

theorem not_before_nil (a : List Nat) : ¬ Before a [] := by
  rintro (h | h) <;> cases h

theorem before_cons_iff {i j : Nat} {a b : List Nat} :
    Before (i :: a) (j :: b) ↔ i < j ∨ i = j ∧ Before a b := by
  constructor
  · rintro (h | h)
    · cases h with
      | within _ h => exact .inr ⟨rfl, .inl h⟩
    · cases h with
      | left _ _ hlt => exact .inl hlt
      | within _ h => exact .inr ⟨rfl, .inr h⟩
  · rintro (hlt | ⟨rfl, h⟩)
    · exact .inr (.left a b hlt)
    · exact h.imp (.within i) (.within i)

theorem Before.asymm {a b : List Nat} (h : Before a b) : ¬ Before b a := by
  induction a generalizing b with
  | nil => exact not_before_nil b
  | cons i a ih =>
    cases b with
    | nil => exact absurd h (not_before_nil (i :: a))
    | cons j b =>
      intro h'
      rcases before_cons_iff.1 h with hlt | ⟨rfl, hab⟩
      · rcases before_cons_iff.1 h' with hlt' | ⟨he, -⟩ <;> omega
      · rcases before_cons_iff.1 h' with hlt' | ⟨-, hba⟩
        · omega
        · exact ih hab hba

/-- Of two addresses one comes before the other. -/
theorem before_or_before {a b : List Nat} (h : a ≠ b) : Before a b ∨ Before b a := by
  induction a generalizing b with
  | nil =>
    cases b with
    | nil => exact absurd rfl h
    | cons j b => exact .inl (.inl (.root j b))
  | cons i a ih =>
    cases b with
    | nil => exact .inr (.inl (.root i a))
    | cons j b =>
      rcases Nat.lt_trichotomy i j with hlt | rfl | hlt
      · exact .inl (before_cons_iff.2 (.inl hlt))
      · have hrest : a ≠ b := fun hab => h (by rw [hab])
        exact (ih hrest).imp (fun hb => before_cons_iff.2 (.inr ⟨rfl, hb⟩))
          fun hb => before_cons_iff.2 (.inr ⟨rfl, hb⟩)
      · exact .inr (before_cons_iff.2 (.inl hlt))

variable {root : Node}

theorem addresses_eq (node : Node) :
    node.addresses = [] :: addresses.addressesFrom 0 node.children := by
  cases node
  rfl

theorem at?_cons_eq_some_iff {i : Nat} {rest : List Nat} {node : Node} :
    root.at? (i :: rest) = some node ↔
      ∃ child, root.children[i]? = some child ∧ child.at? rest = some node :=
  Option.bind_eq_some_iff

/-- Addresses that start alike are addresses in one child. -/
theorem exists_child_of_at? {i : Nat} {a b : List Nat} {x y : Node}
    (ha : root.at? (i :: a) = some x) (hb : root.at? (i :: b) = some y) :
    ∃ child ∈ root.children, child.at? a = some x ∧ child.at? b = some y := by
  obtain ⟨child, hc, hx⟩ := at?_cons_eq_some_iff.1 ha
  obtain ⟨child', hc', hy⟩ := at?_cons_eq_some_iff.1 hb
  obtain rfl := Option.some.inj (hc.symm.trans hc')
  exact ⟨child, List.mem_of_getElem? hc, hx, hy⟩

/-- The addresses of several trees start with the places of the trees. -/
theorem exists_of_mem_addressesFrom {i : Nat} {nodes : List Node} {address : List Nat}
    (h : address ∈ addresses.addressesFrom i nodes) :
    ∃ j rest, i ≤ j ∧ address = j :: rest := by
  induction nodes generalizing i with
  | nil => cases h
  | cons node nodes ih =>
    rcases List.mem_append.1 h with h | h
    · obtain ⟨rest, -, rfl⟩ := List.mem_map.1 h
      exact ⟨i, rest, Nat.le_refl i, rfl⟩
    · obtain ⟨j, rest, hle, rfl⟩ := ih h
      exact ⟨j, rest, by omega, rfl⟩

/-- The addresses of a tree are in order. -/
theorem pairwise_addresses (root : Node) : root.addresses.Pairwise Before := by
  induction root using induction_on with
  | step root ih =>
    have hall : ∀ {i : Nat} {nodes : List Node},
        (∀ child ∈ nodes, child.addresses.Pairwise Before) →
        (addresses.addressesFrom i nodes).Pairwise Before := by
      intro i nodes hnodes
      induction nodes generalizing i with
      | nil => exact .nil
      | cons first rest ihr =>
        obtain ⟨hfirst, hrest⟩ := List.forall_mem_cons.1 hnodes
        refine List.pairwise_append.2 ⟨?_, ihr hrest, ?_⟩
        · exact hfirst.map _ fun a b hab => before_cons_iff.2 (.inr ⟨rfl, hab⟩)
        · intro a ha b hb
          obtain ⟨inner, -, rfl⟩ := List.mem_map.1 ha
          obtain ⟨j, rest, hle, rfl⟩ := exists_of_mem_addressesFrom hb
          exact before_cons_iff.2 (.inl hle)
    rw [addresses_eq, List.pairwise_cons]
    refine ⟨?_, hall ih⟩
    intro address ha
    obtain ⟨j, rest, -, rfl⟩ := exists_of_mem_addressesFrom ha
    exact .inl (.root j rest)

/-- Address by address, a tree is listed in document order. -/
theorem map_at?_addresses (root : Node) : root.addresses.map root.at? = root.preorder.map some := by
  induction root using induction_on with
  | step root ih =>
    have hall : ∀ {i : Nat} {nodes : List Node}, (∀ j, nodes[j]? = root.children[i + j]?) →
        (∀ child ∈ nodes, child.addresses.map child.at? = child.preorder.map some) →
        (addresses.addressesFrom i nodes).map root.at? = (within nodes).map some := by
      intro i nodes hplace hnodes
      induction nodes generalizing i with
      | nil => rfl
      | cons first rest ihr =>
        obtain ⟨hfirst, hrest⟩ := List.forall_mem_cons.1 hnodes
        have hat : root.at? ∘ (i :: ·) = first.at? := by
          funext address
          have hchild : root.children[i]? = some first := (hplace 0).symm
          simp [at?, hchild]
        have hnext : ∀ j, rest[j]? = root.children[i + 1 + j]? := by
          intro j
          rw [Nat.add_right_comm, Nat.add_assoc]
          exact hplace (j + 1)
        calc (addresses.addressesFrom i (first :: rest)).map root.at?
            = first.addresses.map first.at? ++ (addresses.addressesFrom (i + 1) rest).map root.at? := by
              rw [addresses.addressesFrom, List.map_append, List.map_map, hat]
          _ = (first.preorder ++ within rest).map some := by
              rw [hfirst, ihr hnext hrest, List.map_append]
    rw [addresses_eq, preorder_eq_within, List.map_cons, List.map_cons, at?]
    rw [hall (fun j => by rw [Nat.zero_add]) ih]

theorem mem_addressesFrom {i j : Nat} {nodes : List Node} {child : Node} {rest : List Nat}
    (hc : nodes[j]? = some child) (h : rest ∈ child.addresses) :
    (i + j) :: rest ∈ addresses.addressesFrom i nodes := by
  induction nodes generalizing i j with
  | nil => cases hc
  | cons first nodes ih =>
    cases j with
    | zero =>
      obtain rfl := Option.some.inj hc
      exact List.mem_append_left _ (List.mem_map_of_mem h)
    | succ j =>
      have hrest := ih (i := i + 1) (j := j) hc
      rw [Nat.add_right_comm, Nat.add_assoc] at hrest
      exact List.mem_append_right _ hrest

/-- The addresses of a tree are those at which there is a node. -/
theorem mem_addresses {address : List Nat} :
    address ∈ root.addresses ↔ ∃ node, root.at? address = some node := by
  constructor
  · intro h
    have hmem : root.at? address ∈ root.preorder.map some := by
      rw [← map_at?_addresses]
      exact List.mem_map_of_mem h
    obtain ⟨node, -, hnode⟩ := List.mem_map.1 hmem
    exact ⟨node, hnode.symm⟩
  · rintro ⟨node, hnode⟩
    induction address generalizing root with
    | nil =>
      rw [addresses_eq]
      exact List.mem_cons_self ..
    | cons i rest ih =>
      obtain ⟨child, hc, hrest⟩ := at?_cons_eq_some_iff.1 hnode
      rw [addresses_eq, ← Nat.zero_add i]
      exact List.mem_cons_of_mem _ (mem_addressesFrom hc (ih hrest))

theorem mem_preorder_iff_at? {node : Node} :
    node ∈ root.preorder ↔ ∃ address, root.at? address = some node := by
  constructor
  · intro h
    have hmem : some node ∈ root.addresses.map root.at? := by
      rw [map_at?_addresses]
      exact List.mem_map_of_mem h
    obtain ⟨address, -, hat⟩ := List.mem_map.1 hmem
    exact ⟨address, hat⟩
  · rintro ⟨address, hat⟩
    have hmem : root.at? address ∈ root.preorder.map some := by
      rw [← map_at?_addresses]
      exact List.mem_map_of_mem (mem_addresses.2 ⟨node, hat⟩)
    obtain ⟨inner, hinner, he⟩ := List.mem_map.1 hmem
    rw [hat] at he
    obtain rfl := Option.some.inj he
    exact hinner

/-- What holds of all nodes with addresses in order holds along the listing. -/
theorem pairwise_preorder {R : Node → Node → Prop}
    (h : ∀ a b x y, root.at? a = some x → root.at? b = some y → Before a b → R x y) :
    root.preorder.Pairwise R := by
  have hsome : (root.preorder.map some).Pairwise fun u v => ∀ x y, u = some x → v = some y →
      R x y := by
    rw [← map_at?_addresses, List.pairwise_map]
    exact (pairwise_addresses root).imp fun hab x y hx hy => h _ _ x y hx hy hab
  rw [List.pairwise_map] at hsome
  exact hsome.imp fun hxy => hxy _ _ rfl rfl

/-- A match of a search that no other match encloses or precedes. -/
structure IsFirst (root : Node) (p : Node → Bool) (address : List Nat) (found : Node) : Prop where
  place : root.at? address = some found
  fits : p found = true
  first : ∀ other node, other ≠ address → root.at? other = some node → p node = true →
    ¬ Encloses other address ∧ ¬ Precedes other address

section search

variable {p : Node → Bool} {address : List Nat} {found : Node}

/-- All other matches come behind it. -/
theorem IsFirst.before (h : root.IsFirst p address found) {other : List Nat} {node : Node}
    (hne : other ≠ address) (hat : root.at? other = some node) (hp : p node = true) :
    Before address other := by
  obtain ⟨hencloses, hprecedes⟩ := h.first other node hne hat hp
  rcases before_or_before hne with hbefore | hbefore
  · exact absurd hbefore (not_or.2 ⟨hencloses, hprecedes⟩)
  · exact hbefore

theorem IsFirst.unique (h : root.IsFirst p address found) {other : List Nat} {node : Node}
    (h' : root.IsFirst p other node) : node = found := by
  by_cases hne : other = address
  · subst hne
    exact Option.some.inj (h'.place.symm.trans h.place)
  · have hbefore := h.before hne h'.place h'.fits
    exact absurd hbefore (h'.before (Ne.symm hne) h.place h.fits).asymm

/-- A search finds such a match. -/
theorem exists_isFirst_of_find? (h : root.preorder.find? p = some found) :
    ∃ address, root.IsFirst p address found := by
  obtain ⟨hp, front, back, hlisted, hfront⟩ := List.find?_eq_some_iff_append.1 h
  have hmap := map_at?_addresses root
  rw [hlisted, List.map_append, List.map_cons] at hmap
  obtain ⟨before, rest, haddresses, hbefore, hrest⟩ := List.map_eq_append_iff.1 hmap
  obtain ⟨address, after, rfl, hat, -⟩ := List.map_eq_cons_iff.1 hrest
  refine ⟨address, hat, hp, ?_⟩
  intro other node hne hother hpnode
  have hmem : other ∈ before ++ address :: after := by
    rw [← haddresses]
    exact mem_addresses.2 ⟨node, hother⟩
  have horder := pairwise_addresses root
  rw [haddresses] at horder
  rcases List.mem_append.1 hmem with hm | hm
  · have hlead : root.at? other ∈ front.map some := by
      rw [← hbefore]
      exact List.mem_map_of_mem hm
    rw [hother] at hlead
    obtain ⟨inner, hinner, he⟩ := List.mem_map.1 hlead
    obtain rfl := Option.some.inj he
    exact absurd hpnode (by simpa using hfront inner hinner)
  · rcases List.mem_cons.1 hm with rfl | hm
    · exact absurd rfl hne
    · have hb : Before address other :=
        (List.pairwise_cons.1 (List.pairwise_append.1 horder).2.1).1 other hm
      exact not_or.1 hb.asymm

theorem find?_preorder_eq_some_iff :
    root.preorder.find? p = some found ↔ ∃ address, root.IsFirst p address found := by
  refine ⟨exists_isFirst_of_find?, ?_⟩
  rintro ⟨address, h⟩
  cases hf : root.preorder.find? p with
  | none =>
    have hmem := mem_preorder_iff_at?.2 ⟨address, h.place⟩
    exact absurd h.fits (by simpa using List.find?_eq_none.1 hf found hmem)
  | some node =>
    obtain ⟨other, hother⟩ := exists_isFirst_of_find? hf
    rw [h.unique hother]

end search

/-- A node with its children in it, one behind another. -/
structure Nests (node : Node) : Prop where
  start_le_stop : node.start ≤ node.stop
  inside : ∀ child ∈ node.children, node.start ≤ child.start ∧ child.stop ≤ node.stop
  ordered : Ordered node.children

/-- A tree of such nodes. -/
def Nested (root : Node) : Prop := ∀ node ∈ root.preorder, node.Nests

instance (node : Node) : Decidable node.Nests :=
  decidable_of_iff (node.start ≤ node.stop ∧
      (∀ child ∈ node.children, node.start ≤ child.start ∧ child.stop ≤ node.stop) ∧
      Ordered node.children)
    ⟨fun ⟨h1, h2, h3⟩ => ⟨h1, h2, h3⟩, fun h => ⟨h.start_le_stop, h.inside, h.ordered⟩⟩

instance (root : Node) : Decidable root.Nested :=
  inferInstanceAs (Decidable (∀ node ∈ root.preorder, node.Nests))

namespace Nested

variable {a b : List Nat} {x y : Node}

theorem nests (h : root.Nested) : root.Nests := h root (mem_preorder_self root)

theorem child (h : root.Nested) {child : Node} (hc : child ∈ root.children) : child.Nested :=
  fun _ hm => h _ (mem_preorder_of_below hc hm)

theorem inside (h : root.Nested) (ha : root.at? a = some x) :
    root.start ≤ x.start ∧ x.stop ≤ root.stop := by
  induction a generalizing root with
  | nil =>
    obtain rfl := Option.some.inj ha
    exact ⟨Nat.le_refl _, Nat.le_refl _⟩
  | cons i rest ih =>
    obtain ⟨child, hc, hrest⟩ := at?_cons_eq_some_iff.1 ha
    have hmem := List.mem_of_getElem? hc
    have hchild := h.nests.inside child hmem
    have hinner := ih (h.child hmem) hrest
    omega

theorem start_le_stop (h : root.Nested) (ha : root.at? a = some x) : x.start ≤ x.stop :=
  (h x (mem_preorder_iff_at?.2 ⟨a, ha⟩)).start_le_stop

/-- What a node encloses lies in it. -/
theorem inside_of_encloses (h : root.Nested) (he : Encloses a b) (ha : root.at? a = some x)
    (hb : root.at? b = some y) : x.start ≤ y.start ∧ y.stop ≤ x.stop := by
  induction he generalizing root with
  | root i rest =>
    obtain rfl := Option.some.inj ha
    exact h.inside hb
  | within i _ ih =>
    obtain ⟨child, hc, hx, hy⟩ := exists_child_of_at? ha hb
    exact ih (h.child hc) hx hy

/-- What a node precedes starts behind it. -/
theorem stop_le_of_precedes (h : root.Nested) (hp : Precedes a b) (ha : root.at? a = some x)
    (hb : root.at? b = some y) : x.stop ≤ y.start := by
  induction hp generalizing root with
  | left rest rest' hlt =>
    obtain ⟨child, hc, hx⟩ := at?_cons_eq_some_iff.1 ha
    obtain ⟨child', hc', hy⟩ := at?_cons_eq_some_iff.1 hb
    have hx' := (h.child (List.mem_of_getElem? hc)).inside hx
    have hy' := (h.child (List.mem_of_getElem? hc')).inside hy
    obtain ⟨hi, rfl⟩ := List.getElem?_eq_some_iff.1 hc
    obtain ⟨hj, rfl⟩ := List.getElem?_eq_some_iff.1 hc'
    have hchildren := List.pairwise_iff_getElem.1 h.nests.ordered _ _ hi hj hlt
    omega
  | within i _ ih =>
    obtain ⟨child, hc, hx, hy⟩ := exists_child_of_at? ha hb
    exact ih (h.child hc) hx hy

/-- Along a listing, nodes start further and further back. -/
theorem pairwise_start (h : root.Nested) :
    root.preorder.Pairwise fun x y => x.start ≤ y.start := by
  apply pairwise_preorder
  rintro a b x y ha hb (he | hp)
  · exact (h.inside_of_encloses he ha hb).1
  · exact Nat.le_trans (h.start_le_stop ha) (h.stop_le_of_precedes hp ha hb)

end Nested

/-- A tree is traversed in document order. -/
structure Traversed (root : Node) : Prop where
  /-- A traversal ends, and with no other listing than the tree from its root on, a node before its
  children and these from left to right. -/
  traverses_iff : ∀ listed, Traverses [root] listed [] ↔ listed = root.preorder
  /-- On the way it has listed a first part of that, and the stack holds the rest. -/
  append_pending : ∀ listed stack, Traverses [root] listed stack →
    listed ++ pending stack = root.preorder
  length_le : ∀ listed stack, Traverses [root] listed stack → listed.length ≤ root.count
  descendants : root.descendants = root.preorder
  length : root.descendants.length = root.count
  /-- Each address of a node is listed, once and in its order. -/
  mem_addresses : ∀ address, address ∈ root.addresses ↔ ∃ node, root.at? address = some node
  nodup : root.addresses.Nodup
  ordered : root.addresses.Pairwise Before
  listed : root.descendants.map some = root.addresses.map root.at?
  starts : root.Nested → root.descendants.Pairwise fun x y => x.start ≤ y.start

theorem descendants_eq_preorder (root : Node) : root.descendants = root.preorder := by
  rw [descendants_eq, preorder_eq_within]

theorem traversed (root : Node) : root.Traversed where
  traverses_iff _ := Node.traverses_iff
  append_pending _ _ h := by rw [h.append_pending, pending_singleton]
  length_le _ _ h := h.length_le
  descendants := descendants_eq_preorder root
  length := by rw [descendants_eq_preorder, length_preorder]
  mem_addresses _ := Node.mem_addresses
  nodup := (pairwise_addresses root).imp fun hb he => by
    subst he
    exact hb.asymm hb
  ordered := pairwise_addresses root
  listed := by rw [descendants_eq_preorder, map_at?_addresses]
  starts h := by
    rw [descendants_eq_preorder]
    exact h.pairwise_start

end Source.Node

namespace SourceFile

open Source Node

variable {file : SourceFile}

/-- The first argument of a call is a name. -/
def GivenFirst (file : SourceFile) (call : Node) (name : String) : Prop :=
  ∃ arguments first, call.child? "arguments" = some arguments ∧
    arguments.significant.head? = some first ∧ first.kind = .identifier ∧ file.textOf first = name

theorem bootstrappedName_eq_some_iff {name : String} : file.bootstrappedName = some name ↔
    ∃ call, file.root.descendants.find? file.isBootstrap = some call ∧
      file.GivenFirst call name := by
  simp only [bootstrappedName, GivenFirst, Option.bind_eq_bind, Option.bind_eq_some_iff,
    Option.ite_none_right_eq_some, Option.some.injEq, isKind, beq_iff_eq]
  constructor
  · rintro ⟨call, hf, arguments, ha, first, hfirst, hk, ht⟩
    exact ⟨call, hf, arguments, first, ha, hfirst, hk, ht⟩
  · rintro ⟨call, hf, arguments, first, ha, hfirst, hk, ht⟩
    exact ⟨call, hf, arguments, ha, first, hfirst, hk, ht⟩

/-- The calls that are looked for are the first ones in document order. -/
structure FindsFirst (file : SourceFile) : Prop where
  findCall_iff : ∀ callee call, file.findCall callee = some call ↔
    ∃ address, file.root.IsFirst (file.isCallOf callee) address call
  findCall_none_iff : ∀ callee, file.findCall callee = none ↔
    ∀ address node, file.root.at? address = some node → file.isCallOf callee node = false
  bootstrappedName_iff : ∀ name, file.bootstrappedName = some name ↔
    ∃ address call, file.root.IsFirst file.isBootstrap address call ∧ file.GivenFirst call name
  /-- By their spans, all other matches lie in the first one or start behind it. -/
  apart : file.root.Nested → ∀ p address call, file.root.IsFirst p address call →
    ∀ other node, other ≠ address → file.root.at? other = some node → p node = true →
      (Encloses address other ∧ call.start ≤ node.start ∧ node.stop ≤ call.stop) ∨
        (Precedes address other ∧ call.stop ≤ node.start)

theorem findsFirst (file : SourceFile) : file.FindsFirst where
  findCall_iff callee call := by
    rw [findCall, descendants_eq_preorder, find?_preorder_eq_some_iff]
  findCall_none_iff callee := by
    rw [findCall, descendants_eq_preorder, List.find?_eq_none]
    simp only [mem_preorder_iff_at?, Bool.not_eq_true]
    exact ⟨fun h address node hat => h node ⟨address, hat⟩, fun h node ⟨address, hat⟩ =>
      h address node hat⟩
  bootstrappedName_iff name := by
    rw [bootstrappedName_eq_some_iff, descendants_eq_preorder]
    simp only [find?_preorder_eq_some_iff]
    exact ⟨fun ⟨call, ⟨address, hf⟩, hg⟩ => ⟨address, call, hf, hg⟩,
      fun ⟨address, call, hf, hg⟩ => ⟨call, ⟨address, hf⟩, hg⟩⟩
  apart := by
    intro hn p address call hf other node hne hat hp
    refine (hf.before hne hat hp).imp ?_ ?_
    · exact fun he => ⟨he, hn.inside_of_encloses he hf.place hat⟩
    · exact fun hb => ⟨hb, hn.stop_le_of_precedes hb hf.place hat⟩

/-- Traversals go by document order, and searches find what comes first in it. -/
theorem traversed_and_findsFirst (file : SourceFile) :
    file.root.Traversed ∧ file.FindsFirst :=
  ⟨file.root.traversed, file.findsFirst⟩

def callAt (start stop : Nat) (arguments : List Node) : Node :=
  .ofGrammar "call_expression" start stop
    [(Node.ofGrammar "identifier" start (start + 1) []).filling "function",
      (Node.ofGrammar "arguments" (start + 1) stop
        (Node.ofGrammar "(" (start + 1) (start + 2) [] :: arguments ++
          [.ofGrammar ")" (stop - 1) stop []])).filling "arguments"]

def nestedCalls : SourceFile :=
  ⟨⟨"main.ts"⟩, .typeScript, "f(f(x))\nf(y)\n", .ofGrammar "program" 0 13
    [.ofGrammar "expression_statement" 0 7
        [callAt 0 7 [callAt 2 6 [.ofGrammar "identifier" 4 5 []]]],
      .ofGrammar "expression_statement" 8 12 [callAt 8 12 [.ofGrammar "identifier" 10 11 []]]]⟩

/-- The outer call is the first one; the second lies in it, and the third starts behind it. -/
theorem findsFirst_nestedCalls :
    (nestedCalls.root.descendants.filter (nestedCalls.isCallOf "f")).map Node.start = [0, 2, 8] ∧
    nestedCalls.root.descendants.Pairwise (fun x y => x.start ≤ y.start) ∧
    ∃ address call, nestedCalls.findCall "f" = some call ∧ call.start = 0 ∧ call.stop = 7 ∧
      nestedCalls.root.IsFirst (nestedCalls.isCallOf "f") address call ∧
      ∀ other node, other ≠ address → nestedCalls.root.at? other = some node →
        nestedCalls.isCallOf "f" node = true →
        (Encloses address other ∧ call.start ≤ node.start ∧ node.stop ≤ call.stop) ∨
          (Precedes address other ∧ call.stop ≤ node.start) := by
  have hnested : nestedCalls.root.Nested := by decide +kernel
  have hspan : (nestedCalls.findCall "f").map (fun call => (call.start, call.stop)) =
      some (0, 7) := by decide +kernel
  obtain ⟨call, hfound, hcall⟩ := Option.map_eq_some_iff.1 hspan
  obtain ⟨htraversed, hfinds⟩ := traversed_and_findsFirst nestedCalls
  obtain ⟨address, hfirst⟩ := (hfinds.findCall_iff "f" call).1 hfound
  exact ⟨by decide +kernel, htraversed.starts hnested, address, call, hfound,
    congrArg Prod.fst hcall, congrArg Prod.snd hcall, hfirst, hfinds.apart hnested _ _ _ hfirst⟩

end SourceFile

end Codemod
