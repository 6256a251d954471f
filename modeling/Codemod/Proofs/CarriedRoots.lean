import Codemod.Proofs.CarriedTrees
import Codemod.Proofs.Specifiers

/-!
The root module and the objects of a file that has grown.

Unless a gained node is a bootstrapping call or brings another import of the bootstrapped name, the
root module of an entry file is the same after it has grown. The members of a declared object stay
as well.
-/
namespace Codemod

open Source Node

namespace SourceFile

def wraps (grammar : String) : Bool :=
  ["as_expression", "satisfies_expression", "parenthesized_expression"].contains grammar

theorem mem_children_of_significant {node inner : Node} {rest : List Node}
    (h : node.significant = inner :: rest) : inner ∈ node.children := by
  have hmem : inner ∈ node.significant := by simp [h]
  exact (List.mem_filter.1 hmem).1

def unwrapped (expression : Node) : Option Node := unwrapObject expression.count expression

/-- More fuel than there are nodes finds no other object. -/
theorem unwrapObject_of_le (expression : Node) {fuel : Nat} (hf : expression.count ≤ fuel) :
    unwrapObject fuel expression = unwrapped expression := by
  induction expression using induction_on generalizing fuel with
  | step expression ih =>
    have hpos := count_eq expression
    obtain ⟨more, rfl⟩ : ∃ more, fuel = more + 1 := ⟨fuel - 1, by omega⟩
    obtain ⟨least, hl⟩ : ∃ least, expression.count = least + 1 :=
      ⟨expression.count - 1, by omega⟩
    rw [unwrapped, hl, unwrapObject, unwrapObject]
    cases expression.kind with
    | other =>
      cases hs : expression.significant with
      | nil => rfl
      | cons inner rest =>
        have hc := mem_children_of_significant hs
        have hlt := count_lt_of_mem hc
        have hmore : inner.count ≤ more := by omega
        have hleast : inner.count ≤ least := by omega
        simp only [ih inner hc hmore, ih inner hc hleast]
    | _ => rfl

theorem unwrapped_eq (expression : Node) : unwrapped expression =
    match expression.kind with
    | .objectLiteral => some expression
    | .other =>
      if wraps expression.grammar then
        match expression.significant with
        | inner :: _ => unwrapped inner
        | [] => none
      else none
    | _ => none := by
  have hle : expression.count ≤ expression.count + 1 := by omega
  rw [← unwrapObject_of_le expression hle, unwrapObject]
  cases expression.kind with
  | other =>
    cases hs : expression.significant with
    | nil => rfl
    | cons inner rest =>
      have hc := mem_children_of_significant hs
      have hlt := count_lt_of_mem hc
      have hle' : inner.count ≤ expression.count := by omega
      simp only [unwrapObject_of_le inner hle']
      rfl
  | _ => rfl

def hasKey (file : SourceFile) (key : String) (member : Node) : Bool :=
  match member.kind with
  | .property =>
    match member.child? "key" with
    | some k => unquote (file.textOf k) == key
    | none => false
  | .shorthandProperty => file.textOf member == key
  | _ => false

theorem property?_eq (file : SourceFile) (object : Node) (key : String) :
    file.property? object key = object.children.find? (file.hasKey key) := rfl

theorem mem_of_unwrapped {expression object : Node} (ho : unwrapped expression = some object) :
    object ∈ expression.preorder ∧ object.kind = .objectLiteral := by
  induction expression using induction_on with
  | step expression ih =>
    rw [unwrapped_eq] at ho
    split at ho
    · rename_i hk
      obtain rfl := Option.some.inj ho
      exact ⟨mem_preorder_self _, hk⟩
    · split at ho
      · split at ho
        · rename_i inner rest hs
          have hc := mem_children_of_significant hs
          obtain ⟨hmem, hk⟩ := ih inner hc ho
          exact ⟨mem_preorder_of_below hc hmem, hk⟩
        · cases ho
      · cases ho
    · cases ho

end SourceFile

namespace Growth.Carries

variable {g : Growth} {file file' : SourceFile} (h : g.Carries file file')

include h

theorem not_hole_of_call {node : Node} (hn : node ∈ file.nodes) (hk : node.kind = .call) :
    ¬ g.hole node := h.not_hole hn (by simp [hk])

theorem isBootstrap_image (hm : g.mark ∉ "bootstrapModule".toList) {node : Node}
    (hn : node ∈ file.nodes) : file'.isBootstrap (g.image node) = file.isBootstrap node := by
  rw [SourceFile.isBootstrap, SourceFile.isBootstrap, h.isKind_image]
  by_cases hk : node.kind = .call
  · rw [h.child?_image hn (h.not_hole_of_call hn hk)]
    cases hf : node.child? "function" with
    | none => rfl
    | some f =>
      have hmem := SourceFile.mem_nodes_of_child hn (mem_of_child? hf)
      simp only [Option.map_some, h.isKind_image]
      by_cases hfk : f.kind = .memberExpression
      · rw [h.child?_image hmem (h.not_hole hmem (by simp [hfk])), h.spells_image _ hm]
        intro p hp
        exact SourceFile.mem_nodes_of_child hmem (mem_of_child? hp)
      · have hb : f.isKind .memberExpression = false := by simpa [isKind] using hfk
        simp [hb]
  · have hb : node.isKind .call = false := by simpa [isKind] using hk
    simp [hb]

omit h in
/-- The nodes of a file but the root. -/
theorem mem_nodes_of_descendant {node : Node} (hd : node ∈ file.root.descendants)
    (hne : node.kind ≠ file.root.kind) : node ∈ file.nodes := by
  rw [descendants_eq] at hd
  rcases List.mem_cons.1 hd with rfl | hd
  · exact absurd rfl hne
  · exact hd

/-- The first call of a sort is the image of the first one that was there. -/
theorem find?_calls_image (hr : file.Regular) {p p' : Node → Bool}
    (hp : ∀ m ∈ file.nodes, p' (g.image m) = p m)
    (hnew : ∀ m ∈ within g.new, p' m = false) (htop : ∀ m ∈ within g.top, p' m = false)
    (hcall : ∀ m, p m = true → m.kind = .call) (hcall' : ∀ m, p' m = true → m.kind = .call) :
    file'.root.descendants.find? p' = (file.root.descendants.find? p).map g.image := by
  apply h.find?_descendants_image hp hnew htop
  · rw [Bool.eq_false_iff]
    intro hpr
    have := hcall _ hpr
    rw [hr.root] at this
    cases this
  · rw [Bool.eq_false_iff]
    intro hpr
    have := hcall' _ hpr
    rw [h.rootKind, hr.root] at this
    cases this

omit h in
theorem mem_nodes_of_find? (hr : file.Regular) {p : Node → Bool}
    (hcall : ∀ m, p m = true → m.kind = .call) {call : Node}
    (hf : file.root.descendants.find? p = some call) : call ∈ file.nodes ∧ call.kind = .call := by
  have hk := hcall call (List.find?_some hf)
  refine ⟨mem_nodes_of_descendant (List.mem_of_find?_eq_some hf) ?_, hk⟩
  rw [hk, hr.root]
  simp

omit h in
theorem isBootstrap_kind {node : Node} (hb : file.isBootstrap node = true) : node.kind = .call := by
  rw [SourceFile.isBootstrap, Bool.and_eq_true] at hb
  simpa [isKind] using hb.1

theorem significant_arguments_image (hr : file.Regular) {call : Node} (hn : call ∈ file.nodes)
    (hk : call.kind = .call) :
    (g.image call).child? "arguments" = (call.child? "arguments").map g.image ∧
      ∀ arguments, call.child? "arguments" = some arguments → arguments ∈ file.nodes ∧
        (g.image arguments).significant = arguments.significant.map g.image := by
  refine ⟨h.child?_image hn (h.not_hole_of_call hn hk) _, ?_⟩
  intro arguments ha
  have hmem := SourceFile.mem_nodes_of_child hn (mem_of_child? ha)
  refine ⟨hmem, h.significant_image hmem (h.not_hole hmem ?_)⟩
  rcases hr.arguments call hn hk arguments ha with hk | hk <;> simp [hk]

/-- No gained node is a bootstrapping call. -/
theorem bootstrappedName_image (hr : file.Regular) (hm : g.mark ∉ "bootstrapModule".toList)
    (hnew : ∀ m ∈ within g.new, file'.isBootstrap m = false)
    (htop : ∀ m ∈ within g.top, file'.isBootstrap m = false) :
    file'.bootstrappedName = file.bootstrappedName := by
  have hfind := h.find?_calls_image hr (fun m hm' => h.isBootstrap_image hm hm') hnew htop
    (fun _ => isBootstrap_kind) (fun _ => isBootstrap_kind)
  unfold SourceFile.bootstrappedName
  rw [hfind]
  cases hf : file.root.descendants.find? file.isBootstrap with
  | none => rfl
  | some call =>
    obtain ⟨hn, hk⟩ := mem_nodes_of_find? hr (fun _ => isBootstrap_kind) hf
    obtain ⟨hargs, hsig⟩ := h.significant_arguments_image hr hn hk
    simp only [Option.map_some, Option.bind_eq_bind, Option.bind_some, hargs]
    cases ha : call.child? "arguments" with
    | none => rfl
    | some arguments =>
      obtain ⟨hamem, hs⟩ := hsig arguments ha
      simp only [Option.map_some, Option.bind_some, hs, List.head?_map]
      cases hfirst : arguments.significant.head? with
      | none => rfl
      | some first =>
        simp only [Option.map_some, Option.bind_some, h.isKind_image]
        by_cases hid : first.kind = .identifier
        · have hmem : first ∈ file.nodes := by
            refine SourceFile.mem_nodes_of_child hamem ?_
            exact (List.mem_filter.1 (List.mem_of_head? hfirst)).1
          rw [h.leaf first hmem (.inl hid)]
        · have hb : first.isKind .identifier = false := by simpa [isKind] using hid
          simp [hb]

omit h in
/-- The root module, by the origin of the bootstrapped name where that is relative. -/
theorem rootModule_congr (hpath : file'.path = file.path)
    (hname : file'.bootstrappedName = file.bootstrappedName)
    (horigin : ∀ name,
      (file'.originOf name).filter (fun specifier => specifier.toList.head? == some '.') =
        (file.originOf name).filter fun specifier => specifier.toList.head? == some '.') :
    file'.rootModule = file.rootModule := by
  rw [SourceFile.rootModule_eq, SourceFile.rootModule_eq, hname, hpath]
  cases file.bootstrappedName with
  | none => rfl
  | some name => rw [Option.bind_some, Option.bind_some, horigin]

theorem unwrapped_image {expression : Node} (hn : expression ∈ file.nodes) :
    SourceFile.unwrapped (g.image expression) =
      (SourceFile.unwrapped expression).map g.image := by
  induction expression using induction_on with
  | step expression ih =>
    rw [SourceFile.unwrapped_eq, SourceFile.unwrapped_eq, h.kind]
    cases hk : expression.kind with
    | objectLiteral => rfl
    | other =>
      rw [h.grammar, h.significant_image hn (h.not_hole hn (by simp [hk]))]
      by_cases hw : SourceFile.wraps expression.grammar
      · simp only [hw, if_true]
        cases hs : expression.significant with
        | nil => rfl
        | cons inner rest =>
          have hc := SourceFile.mem_children_of_significant hs
          exact ih inner hc (SourceFile.mem_nodes_of_child hn hc)
      · simp [hw]
    | _ => rfl

theorem objectOf_image {declarator : Node} (hn : declarator ∈ file.nodes)
    (hk : declarator.kind = .variableDeclarator) :
    SourceFile.objectOf (g.image declarator) =
      (SourceFile.objectOf declarator).map g.image := by
  rw [SourceFile.objectOf, SourceFile.objectOf,
    h.child?_image hn (h.not_hole hn (by simp [hk]))]
  cases hv : declarator.child? "value" with
  | none => rfl
  | some value => exact h.unwrapped_image (SourceFile.mem_nodes_of_child hn (mem_of_child? hv))

omit h in
theorem mem_variableStatementOf {top statement : Node} (hn : top ∈ file.nodes)
    (hv : SourceFile.variableStatementOf top = some statement) :
    statement ∈ file.nodes ∧ statement.kind = .variableStatement := by
  unfold SourceFile.variableStatementOf at hv
  split at hv
  · obtain ⟨hv, hk⟩ := Option.filter_eq_some_iff.1 hv
    exact ⟨SourceFile.mem_nodes_of_child hn (mem_of_child? hv), by simpa [isKind] using hk⟩
  · rename_i hk
    obtain rfl := Option.some.inj hv
    exact ⟨hn, hk⟩
  · cases hv

omit h in
theorem mem_declarators {declarator : Node} (hd : declarator ∈ file.declarators) :
    declarator ∈ file.nodes ∧ declarator.kind = .variableDeclarator := by
  obtain ⟨statement, hs, hd⟩ := List.mem_flatMap.1 hd
  obtain ⟨top, ht, hv⟩ := List.mem_filterMap.1 hs
  obtain ⟨hmem, hk⟩ := List.mem_filter.1 hd
  obtain ⟨hn, -⟩ := mem_variableStatementOf (SourceFile.mem_nodes_of_top ht) hv
  exact ⟨SourceFile.mem_nodes_of_child hn hmem, by simpa [isKind] using hk⟩

theorem variableStatementOf_image {top : Node} (hn : top ∈ file.nodes) :
    SourceFile.variableStatementOf (g.image top) =
      (SourceFile.variableStatementOf top).map g.image := by
  unfold SourceFile.variableStatementOf
  rw [h.kind]
  cases hk : top.kind with
  | exportStatement =>
    simp only [h.child?_image hn (h.not_hole hn (by simp [hk]))]
    cases top.child? "declaration" with
    | none => rfl
    | some d => by_cases hd : d.isKind .variableStatement <;> simp [Option.filter, h.isKind_image, hd]
  | _ => rfl

/-- The declarators of a file that has gained none. -/
theorem declarators_image
    (ht : ∀ top ∈ g.top, SourceFile.variableStatementOf top = none) :
    file'.declarators = file.declarators.map g.image := by
  obtain ⟨front, back, he, hi⟩ := h.root
  have hold : ∀ {part : List Node}, (∀ d ∈ part, d ∈ file.root.children) →
      ((part.map g.image).filterMap SourceFile.variableStatementOf).flatMap
        (fun d => d.allOf .variableDeclarator) =
      ((part.filterMap SourceFile.variableStatementOf).flatMap
        fun d => d.allOf .variableDeclarator).map g.image := by
    intro part hpart
    induction part with
    | nil => rfl
    | cons top rest ih =>
      obtain ⟨htop, hrest⟩ := List.forall_mem_cons.1 hpart
      have hmem := SourceFile.mem_nodes_of_top htop
      rw [List.map_cons, List.filterMap_cons, List.filterMap_cons,
        h.variableStatementOf_image hmem]
      cases hv : SourceFile.variableStatementOf top with
      | none => exact ih hrest
      | some statement =>
        obtain ⟨hn, hk⟩ := mem_variableStatementOf hmem hv
        simp only [Option.map_some, List.flatMap_cons, List.map_append, ih hrest,
          h.allOf_image hn (h.not_hole hn (by simp [hk]))]
  have htop : g.top.filterMap SourceFile.variableStatementOf = [] := by
    rw [List.filterMap_eq_nil_iff]
    exact ht
  rw [SourceFile.declarators, SourceFile.declarators, hi, he]
  simp only [List.filterMap_append, htop, List.append_nil, List.flatMap_append, List.map_append]
  rw [hold fun d hd => by simp [he, hd], hold fun d hd => by simp [he, hd]]

/-- The variables that are declared at the top level stay declared, and no others come. -/
theorem declares_image (ht : ∀ top ∈ g.top, SourceFile.variableStatementOf top = none)
    {name : String} (hm : g.mark ∉ name.toList) : file'.declares name = file.declares name := by
  rw [SourceFile.declares, SourceFile.declares, h.declarators_image ht, List.any_map]
  apply any_congr_of_mem
  intro d hd
  obtain ⟨hn, hk⟩ := mem_declarators hd
  rw [Function.comp_apply, h.child?_image hn (h.not_hole hn (by simp [hk]))]
  exact h.spells_image (fun n hs => SourceFile.mem_nodes_of_child hn (mem_of_child? hs)) hm

/-- The values that are bound at the top level stay bound, and no others come. -/
theorem bindsValue_image (hr : file.Regular) {name : String} (hs : g.Silent file' name)
    (ht : ∀ top ∈ g.top, SourceFile.variableStatementOf top = none) (hm : g.mark ∉ name.toList) :
    file'.bindsValue name = file.bindsValue name := by
  rw [SourceFile.bindsValue, SourceFile.bindsValue, h.declares_image ht hm]
  congr 1
  simp only [SourceFile.valueImports, List.any_filter]
  apply h.any_imports_of_top
  · intro d hd
    obtain ⟨hmem, hk⟩ := mem_imports hd
    rw [h.isTypeOnly_image hmem (h.not_hole hmem (by simp [hk])),
      h.importIntroduces_image hr hmem hk fun _ _ _ => hs.new]
  · intro d hd hk
    simp [hs.top d hd hk]

/-- The object that a name is declared as. -/
theorem declaredObject_image (ht : ∀ top ∈ g.top, SourceFile.variableStatementOf top = none)
    {name : String} (hm : g.mark ∉ name.toList) :
    file'.declaredObject (some name) = (file.declaredObject (some name)).map g.image := by
  have hspells : ∀ d ∈ file.declarators, file'.spells name ((g.image d).child? "name") =
      file.spells name (d.child? "name") := by
    intro d hd
    obtain ⟨hn, hk⟩ := mem_declarators hd
    rw [h.child?_image hn (h.not_hole hn (by simp [hk]))]
    exact h.spells_image (fun n hc => SourceFile.mem_nodes_of_child hn (mem_of_child? hc)) hm
  have hfilter : file'.declarators.filter (fun d => file'.spells name (d.child? "name")) =
      (file.declarators.filter fun d => file.spells name (d.child? "name")).map g.image := by
    rw [h.declarators_image ht, List.filter_map]
    congr 1
    exact List.filter_congr hspells
  rw [SourceFile.declaredObject, SourceFile.declaredObject]
  simp only [hfilter, List.findSome?_map, List.map_findSome?]
  apply findSome?_congr_of_mem
  intro d hd
  obtain ⟨hn, hk⟩ := mem_declarators (List.mem_filter.1 hd).1
  exact h.objectOf_image hn hk

omit h in
theorem mem_declaredObject {name : Option String} {object : Node}
    (ho : file.declaredObject name = some object) :
    object ∈ file.nodes ∧ object.kind = .objectLiteral := by
  obtain ⟨d, hd, ho⟩ := List.exists_of_findSome?_eq_some ho
  obtain ⟨hn, -⟩ := mem_declarators (List.mem_filter.1 hd).1
  obtain ⟨value, hv, hu⟩ := Option.bind_eq_some_iff.1 ho
  obtain ⟨hmem, hk⟩ := SourceFile.mem_of_unwrapped hu
  exact ⟨mem_within_trans (SourceFile.mem_nodes_of_child hn (mem_of_child? hv)) hmem, hk⟩

/-- A member has a key exactly if its image has. -/
theorem hasKey_image {member : Node} (hn : member ∈ file.nodes) {key : String}
    (hm : g.mark ∉ key.toList) :
    file'.hasKey key (g.image member) = file.hasKey key member := by
  unfold SourceFile.hasKey
  rw [h.kind]
  cases hk : member.kind with
  | property =>
    simp only [h.child?_image hn (h.not_hole hn (by simp [hk]))]
    cases hc : member.child? "key" with
    | none => rfl
    | some k => exact h.unquote_beq_image (SourceFile.mem_nodes_of_child hn (mem_of_child? hc)) hm
  | shorthandProperty => exact h.textOf_beq_image hn hm
  | _ => rfl

theorem property?_image {object : Node} (hn : object ∈ file.nodes) (hh : ¬ g.hole object)
    {key : String} (hm : g.mark ∉ key.toList) :
    file'.property? (g.image object) key = (file.property? object key).map g.image := by
  rw [SourceFile.property?_eq, SourceFile.property?_eq, h.children object hn hh, List.find?_map,
    ← List.head?_filter, ← List.head?_filter]
  congr 2
  apply List.filter_congr
  intro member hc
  exact h.hasKey_image (SourceFile.mem_nodes_of_child hn hc) hm

theorem any_hasKey_image {object : Node} (hn : object ∈ file.nodes) {part : List Node}
    (hp : ∀ child ∈ part, child ∈ object.children) {key : String} (hm : g.mark ∉ key.toList) :
    (part.map g.image).any (file'.hasKey key) = part.any (file.hasKey key) := by
  rw [List.any_map]
  apply any_congr_of_mem
  intro member hc
  exact h.hasKey_image (SourceFile.mem_nodes_of_child hn (hp member hc)) hm

/-- An object that gains no member with a key has the key if it had it. -/
theorem isSome_property?_image {object : Node} (hn : object ∈ file.nodes) {key : String}
    (hm : g.mark ∉ key.toList) (hnew : ∀ member ∈ g.new, file'.hasKey key member = false) :
    (file'.property? (g.image object) key).isSome = (file.property? object key).isSome := by
  by_cases hh : g.hole object
  · obtain ⟨front, back, he, hi⟩ := h.gains object hn hh
    have hgained : g.new.any (file'.hasKey key) = false := by
      rw [List.any_eq_false]
      intro member hmem
      simp [hnew member hmem]
    rw [SourceFile.property?_eq, SourceFile.property?_eq, List.isSome_find?, List.isSome_find?, hi,
      he]
    simp only [List.any_append, hgained, Bool.or_false]
    rw [h.any_hasKey_image hn (fun d hd => by simp [he, hd]) hm,
      h.any_hasKey_image hn (fun d hd => by simp [he, hd]) hm]
  · rw [h.property?_image hn hh hm, Option.isSome_map]

/-- A declared object has a key if it had it, and unless it gains a member with the key. -/
theorem objectHasKey_image (ht : ∀ top ∈ g.top, SourceFile.variableStatementOf top = none)
    {name key : String} (hname : g.mark ∉ name.toList) (hkey : g.mark ∉ key.toList)
    (hnew : ∀ member ∈ g.new, file'.hasKey key member = false) :
    file'.objectHasKey (some name) key = file.objectHasKey (some name) key := by
  unfold SourceFile.objectHasKey
  rw [h.declaredObject_image ht hname]
  cases ho : file.declaredObject (some name) with
  | none => rfl
  | some object => exact h.isSome_property?_image (mem_declaredObject ho).1 hkey hnew

end Growth.Carries

end Codemod
