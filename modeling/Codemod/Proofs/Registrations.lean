import Codemod.Proofs.FirstCalls

/-!
Elements that are put into the lists of calls.

An element goes into the arguments of the first call of a callee, into the array that a property of
its object is set to, or, with the property, into the object. In each case the list that is looked
at afterwards is the one that it was put into: the call is still the first one, the object is still
the first one among the arguments, and the members in front of the property have the keys that they
had.
-/
namespace Codemod

open Source Node

namespace Text

theorem isBlank_of_continuesName {c : Char} (h : continuesName c = true) : isBlank c = false := by
  have hrange : (48 ≤ c.toNat ∧ c.toNat ≤ 57) ∨ (65 ≤ c.toNat ∧ c.toNat ≤ 90) ∨
      (97 ≤ c.toNat ∧ c.toNat ≤ 122) ∨ c.toNat = 95 ∨ c.toNat = 36 := by
    unfold continuesName Char.isAlphanum Char.isAlpha Char.isUpper Char.isLower at h
    simp only [Char.isDigit, Bool.or_eq_true, Bool.and_eq_true, decide_eq_true_eq, beq_iff_eq,
      ge_iff_le, UInt32.le_iff_toNat_le] at h
    rcases h with (h | rfl) | rfl
    · simp only [Char.reduceVal, UInt32.reduceToNat, Char.toNat_val] at h
      omega
    · decide
    · decide
  simp only [isBlank, Bool.or_eq_false_iff, Bool.and_eq_false_iff, decide_eq_false_iff_not,
    beq_eq_false_iff_ne]
  omega

theorem continuesName_of_isPlainName {cs : List Char} (h : isPlainName cs = true) :
    ∀ c ∈ cs, continuesName c = true := by
  cases cs with
  | nil => cases h
  | cons first rest =>
    rw [isPlainName, Bool.and_eq_true] at h
    refine List.forall_mem_cons.2 ⟨?_, List.all_eq_true.1 h.2⟩
    have hfirst := h.1
    simp only [startsName, Bool.or_eq_true] at hfirst
    simp only [continuesName, Char.isAlphanum, Bool.or_eq_true]
    exact hfirst.imp (fun hs => hs.imp .inl id) id

theorem dropWhile_isBlank_of_forall {cs : List Char} (h : ∀ c ∈ cs, isBlank c = false) :
    cs.dropWhile isBlank = cs := by
  cases cs with
  | nil => rfl
  | cons c cs => exact List.dropWhile_cons_of_neg (by simp [h c (List.mem_cons_self ..)])

theorem trim_of_forall {cs : List Char} (h : ∀ c ∈ cs, isBlank c = false) : trim cs = cs := by
  rw [trim, trimStart, dropWhile_isBlank_of_forall h, trimEnd, dropWhile_isBlank_of_forall,
    List.reverse_reverse]
  exact fun c hc => h c (List.mem_reverse.1 hc)

theorem filter_dropWhile_isBlank (cs : List Char) :
    (cs.dropWhile isBlank).filter (fun c => !isBlank c) = cs.filter fun c => !isBlank c := by
  induction cs with
  | nil => rfl
  | cons c cs ih => by_cases hc : isBlank c <;> simp [hc, ih]

/-- Blanks around a text do not count. -/
theorem filter_trim (cs : List Char) :
    (trim cs).filter (fun c => !isBlank c) = cs.filter fun c => !isBlank c := by
  rw [trim, trimEnd, trimStart, List.filter_reverse, filter_dropWhile_isBlank, List.filter_reverse,
    List.reverse_reverse, filter_dropWhile_isBlank]

theorem squash_eq_of_trim {s t : String} (h : trim s.toList = trim t.toList) :
    squash s = squash t := by
  rw [squash_eq_iff, ← filter_trim s.toList, ← filter_trim t.toList, h]

end Text

namespace SourceFile

variable {file file' : SourceFile} {offset : Nat} {piece : String}

/-- An element of a list that is the text of a token, blanks around it aside. -/
structure IsToken (file : SourceFile) (token : String) (node : Node) : Prop where
  significant : node.kind.isPunctuationOrTrivia = false
  text : Text.trim (file.textOf node).toList = Text.trim token.toList

/-- An element that is the text of a token counts among the elements of its list. -/
theorem any_isToken {token : String} {elements element : Node} (he : element ∈ elements.children)
    (hi : file.IsToken token element) :
    elements.significant.any (fun e => Text.squash (file.textOf e) == Text.squash token) = true := by
  rw [List.any_eq_true]
  refine ⟨element, List.mem_filter.2 ⟨he, ?_⟩, ?_⟩
  · rw [hi.significant]
    rfl
  · rw [Text.squash_eq_of_trim hi.text]
    exact beq_self_eq_true _

/-- An element goes into the arguments of the call if no property is named. -/
theorem locate_arguments {callee token : String} {anchor : Anchor}
    (h : file.locate (.register callee none token) = .ok anchor) :
    ∃ call arguments, file.findCall callee = some call ∧ call.child? "arguments" = some arguments ∧
      closeAnchor arguments .closeParen .callArgumentListClose = some anchor := by
  obtain ⟨arguments, ha, hclose⟩ := Option.bind_eq_some_iff.1 (findAnchor_eq_ok h)
  obtain ⟨call, hc, ha⟩ := Option.bind_eq_some_iff.1 ha
  exact ⟨call, arguments, hc, ha, hclose⟩

/-- The first object among the arguments of a call is still the first one if it is around the
place, and then the arguments are around the place as well. -/
theorem objectArgument_grow {source : String} (size : Nat) (new : List Node) {call object : Node}
    (hl : call.Laid source) (ho : objectArgument call = some object)
    (ha : object.around offset = true) :
    objectArgument (grow offset size new call) = some (grow offset size new object) ∧
      ∃ arguments, call.child? "arguments" = some arguments ∧ arguments.around offset = true := by
  obtain ⟨arguments, hargs, ho⟩ := Option.bind_eq_some_iff.1 ho
  have hmem := Growth.Carries.mem_of_child? hargs
  have hobject := (List.mem_filter.1 (List.mem_of_find?_eq_some ho)).1
  have haround := (hl.child hmem).around_of_mem (mem_preorder_of_child hobject) ha
  have hkind : (fun a : Node => a.isKind .objectLiteral) ∘ grow offset size new =
      fun a => a.isKind .objectLiteral := by
    funext a
    exact isKind_grow a .objectLiteral
  refine ⟨?_, arguments, hargs, haround⟩
  rw [objectArgument, child?_grow hl (not_innermost_of_child hmem haround), hargs,
    Option.map_some, Option.bind_some,
    significant_grow (hl.child hmem) (not_innermost_of_child hobject ha), List.find?_map, hkind, ho,
    Option.map_some]

/-- The array of a member is still its array if it is around the place. -/
theorem arrayValue_grow {source : String} {size : Nat} {new : List Node} {member array : Node}
    (hl : member.Laid source) (hv : arrayValue member = some array)
    (ha : array.around offset = true) :
    arrayValue (grow offset size new member) = some (grow offset size new array) := by
  obtain ⟨hvalue, hk⟩ := Option.filter_eq_some_iff.1 hv
  have hi := not_innermost_of_child (Growth.Carries.mem_of_child? hvalue) ha
  rw [arrayValue, child?_grow hl hi, hvalue, Option.map_some, Option.filter, isKind_grow]
  simp [hk]

/-- A member with an array for its value is no shorthand: its text is more than a plain name. -/
theorem kind_of_arrayValue (hr : file.Regular) {key : String}
    (hkey : Text.isPlainName key.toList = true) {member array mark : Node}
    (hn : member ∈ file.nodes) (hm : file.hasKey key member = true)
    (hv : arrayValue member = some array) (hmark : mark ∈ array.children)
    (hk : mark.kind = .closeBracket) : member.kind = .property := by
  obtain ⟨hvalue, -⟩ := Option.filter_eq_some_iff.1 hv
  have hchild := Growth.Carries.mem_of_child? hvalue
  rw [hasKey] at hm
  split at hm
  · assumption
  · have hin : mark ∈ member.preorder :=
      mem_preorder_of_below hchild (mem_preorder_of_child hmark)
    have hmem := mem_nodes_of_child (mem_nodes_of_child hn hchild) hmark
    have hbracket : ']' ∈ (file.textOf mark).toList := by
      rw [hr.closeBracket mark hmem hk]
      decide
    have hkeyText : file.textOf member = key := by simpa using hm
    have hkeyMem : ']' ∈ key.toList :=
      hkeyText ▸ mem_text_of_inside (hr.laid_of_mem hn) hin hbracket
    exact absurd (Text.continuesName_of_isPlainName hkey _ hkeyMem) (by decide)
  · cases hm

namespace Grows

variable {new : List Node} (hr : file.Regular) (hg : file.Grows file' offset piece new)

include hr hg

/-- A member has the key that it had if the place is beside the key: beside the node of the key in
a property, and beside the whole member in any other. -/
theorem hasKey_grow {key : String} {member : Node} (hn : member ∈ file.nodes)
    (hi : ¬ member.Innermost offset)
    (hk : ∀ k, member.child? "key" = some k → k.around offset = false)
    (hm : member.kind = .property ∨ member.around offset = false) :
    file'.hasKey key (grow offset (Text.size piece) new member) = file.hasKey key member := by
  rw [hasKey, hasKey, grow_kind, child?_grow (hr.laid_of_mem hn) hi]
  have hkey : ∀ k, member.child? "key" = some k →
      file'.textOf (grow offset (Text.size piece) new k) = file.textOf k := fun k hc =>
    hg.textOf_grow hr (mem_nodes_of_child hn (Growth.Carries.mem_of_child? hc)) (hk k hc)
  rcases hm with hm | hm
  · rw [hm]
    cases hc : member.child? "key" with
    | none => rfl
    | some k => simp only [Option.map_some, hkey k hc]
  · rw [hg.textOf_grow hr hn hm]
    cases hc : member.child? "key" with
    | none => rfl
    | some k => simp only [Option.map_some, hkey k hc]

/-- Members beside the place have the keys that they had. -/
theorem hasKey_grow_beside {key : String} {member : Node} (hn : member ∈ file.nodes)
    (ha : member.around offset = false) :
    file'.hasKey key (grow offset (Text.size piece) new member) = file.hasKey key member := by
  refine hg.hasKey_grow hr hn (not_innermost_of_not_around ha) ?_ (.inr ha)
  intro k hc
  have hmem := mem_preorder_of_child (Growth.Carries.mem_of_child? hc)
  exact (hr.laid_of_mem hn).not_around_of_mem ha hmem

/-- A property with the place in its value has the key that it had. -/
theorem hasKey_grow_value {key : String} {member value : Node} (hn : member ∈ file.nodes)
    (hk : member.kind = .property) (hv : member.child? "value" = some value)
    (ha : value.around offset = true) :
    file'.hasKey key (grow offset (Text.size piece) new member) = file.hasKey key member := by
  have hi := not_innermost_of_child (Growth.Carries.mem_of_child? hv) ha
  refine hg.hasKey_grow hr hn hi ?_ (.inl hk)
  exact fun k hc => not_around_of_child? (hr.laid_of_mem hn) (by decide) hc hv ha

/-- The member of an object with a key is still the one if the place is in its value. -/
theorem property?_grow {key : String} {object member value : Node} (hn : object ∈ file.nodes)
    (hm : file.property? object key = some member) (hk : member.kind = .property)
    (hv : member.child? "value" = some value) (ha : value.around offset = true) :
    file'.property? (grow offset (Text.size piece) new object) key =
      some (grow offset (Text.size piece) new member) := by
  have hl := hr.laid_of_mem hn
  have hmem : member ∈ object.children := List.mem_of_find?_eq_some hm
  have haround : member.around offset = true := by
    have hvalue := Growth.Carries.mem_of_child? hv
    exact (hl.child hmem).around_of_mem (mem_preorder_of_child hvalue) ha
  have hkeys : object.children.filter (file'.hasKey key ∘ grow offset (Text.size piece) new) =
      object.children.filter (file.hasKey key) := by
    apply List.filter_congr
    intro m hm'
    have hmn := mem_nodes_of_child hn hm'
    by_cases hsame : m = member
    · subst hsame
      exact hg.hasKey_grow_value hr hmn hk hv ha
    · exact hg.hasKey_grow_beside hr hmn (not_around_of_ne hl.fits.ordered hm' hmem hsame haround)
  rw [property?_eq, ← List.head?_filter] at hm
  rw [property?_eq, children_grow hl (not_innermost_of_child hmem haround), List.find?_map,
    ← List.head?_filter, hkeys, hm, Option.map_some]

/-- An object without a member with a key has the one that it gains. -/
theorem property?_grow_gained {key : String} {object : Node} {commas : List Node} {item : Node}
    (hnew : new = commas ++ [item]) (hn : object ∈ file.nodes) (hin : object.Innermost offset)
    (hm : file.property? object key = none)
    (hcommas : ∀ comma ∈ commas, file'.hasKey key comma = false)
    (hitem : file'.hasKey key item = true) :
    file'.property? (grow offset (Text.size piece) new object) key = some item := by
  have hl := hr.laid_of_mem hn
  obtain ⟨front, back, he, hchildren⟩ : ∃ front back, object.children = front ++ back ∧
      (grow offset (Text.size piece) new object).children =
        front.map (grow offset (Text.size piece) new) ++ new ++
          back.map (grow offset (Text.size piece) new) := children_grow_innermost hl hin
  rw [property?_eq, List.find?_eq_none] at hm
  have hfront : (front.map (grow offset (Text.size piece) new)).find? (file'.hasKey key) = none := by
    rw [List.find?_eq_none]
    intro d hd
    obtain ⟨d₀, hd₀, rfl⟩ := List.mem_map.1 hd
    have hc : d₀ ∈ object.children := by simp [he, hd₀]
    rw [hg.hasKey_grow_beside hr (mem_nodes_of_child hn hc) (hin.2 d₀ hc)]
    exact hm d₀ hc
  have hcomma : commas.find? (file'.hasKey key) = none := by
    rw [List.find?_eq_none]
    intro comma hc
    simp [hcommas comma hc]
  rw [property?_eq, hchildren]
  simp only [hnew] at hfront ⊢
  simp only [List.find?_append, hfront, hcomma, List.find?_cons, hitem, Option.none_or,
    Option.some_or]

section registry

variable {callee token : String} {call : Node} (hcall : file.findCall callee = some call)

include hcall

/-- An element put into the arguments of a call is found there. -/
theorem callRegisters_arguments {arguments item : Node}
    (hargs : call.child? "arguments" = some arguments) (hin : arguments.Innermost offset)
    (hitem : item ∈ new) (hi : file'.IsToken token item) :
    file'.callRegisters callee none token = true := by
  have hn := mem_nodes_of_findCall hr hcall
  have hl := hr.laid_of_mem hn
  have hmem := Growth.Carries.mem_of_child? hargs
  rw [callRegisters, hg.findCall_grow hr hcall hargs hin.1, Option.bind_some, registry,
    child?_grow hl (not_innermost_of_child hmem hin.1), hargs, Option.map_some]
  exact any_isToken (mem_children_grow (hl.child hmem) hin hitem) hi

variable {key : String} {object : Node} (ho : objectArgument call = some object)

include ho

/-- The list of a call's object that elements are looked for in, if the object is around the
place. -/
theorem registry_grow (ha : object.around offset = true) :
    (file'.findCall callee).bind (file'.registry (some key)) =
      (file'.property? (grow offset (Text.size piece) new object) key).bind arrayValue := by
  obtain ⟨hn, -⟩ := mem_objectArgument hr hcall ho
  obtain ⟨hobject, arguments, hargs, haround⟩ :=
    objectArgument_grow (Text.size piece) new (hr.laid_of_mem hn) ho ha
  rw [hg.findCall_grow hr hcall hargs haround, Option.bind_some, registry]
  simp only [hobject, Option.bind_some]

/-- An element put into the array of a call's object is found there. -/
theorem callRegisters_array (hkey : Text.isPlainName key.toList = true) {member array mark : Node}
    (hm : file.property? object key = some member) (hv : arrayValue member = some array)
    (hin : array.Innermost offset) (hmark : mark ∈ array.children)
    (hk : mark.kind = .closeBracket) {item : Node} (hitem : item ∈ new)
    (hi : file'.IsToken token item) : file'.callRegisters callee (some key) token = true := by
  obtain ⟨-, -, hobject, -⟩ := mem_objectArgument hr hcall ho
  have hmember := List.mem_of_find?_eq_some hm
  have hn := mem_nodes_of_child hobject hmember
  have hproperty := kind_of_arrayValue hr hkey hn (List.find?_some hm) hv hmark hk
  obtain ⟨hvalue, -⟩ := Option.filter_eq_some_iff.1 hv
  have harray := mem_preorder_of_child (Growth.Carries.mem_of_child? hvalue)
  have haround := (hr.laid_of_mem hobject).around_of_mem
    (mem_preorder_of_below hmember harray) hin.1
  rw [callRegisters, hg.registry_grow hr hcall ho haround,
    hg.property?_grow hr hobject hm hproperty hvalue hin.1, Option.bind_some,
    arrayValue_grow (hr.laid_of_mem hn) hv hin.1]
  have hl := hr.laid_of_mem (mem_arrayValue hn hv).1
  exact any_isToken (mem_children_grow hl hin hitem) hi

/-- A property with an element put into a call's object is found there. -/
theorem callRegisters_object {commas : List Node} {item array element : Node}
    (hnew : new = commas ++ [item]) (hm : file.property? object key = none)
    (hin : object.Innermost offset) (hcommas : ∀ comma ∈ commas, comma.kind = .comma)
    (hitem : file'.hasKey key item = true) (hv : arrayValue item = some array)
    (helement : element ∈ array.children) (hi : file'.IsToken token element) :
    file'.callRegisters callee (some key) token = true := by
  obtain ⟨-, -, hobject, -⟩ := mem_objectArgument hr hcall ho
  have hnone : ∀ comma ∈ commas, file'.hasKey key comma = false := by
    intro comma hc
    simp [hasKey, hcommas comma hc]
  rw [callRegisters, hg.registry_grow hr hcall ho hin.1,
    hg.property?_grow_gained hr hnew hobject hin hm hnone hitem, Option.bind_some, hv]
  exact any_isToken helement hi

end registry

end Grows

/-- An element that is put into a file is found in it, in whichever list it was put: as the item
itself, or in the array that the item sets the property to. -/
theorem callRegisters_of_grows (hr : file.Regular) {callee token : String}
    {property : Option String}
    (hproperty : ∀ key, property = some key → Text.isPlainName key.toList = true)
    {anchor : Anchor} {commas : List Node} {item : Node}
    (hlocate : file.locate (.register callee property token) = .ok anchor)
    (hg : file.Grows file' anchor.offset piece (commas ++ [item]))
    (hcommas : ∀ comma ∈ commas, comma.kind = .comma)
    (hi : anchor.kind ≠ .objectLiteralClose → file'.IsToken token item)
    (hmember : anchor.kind = .objectLiteralClose → ∀ key, property = some key →
      file'.hasKey key item = true ∧ ∃ array, arrayValue item = some array ∧
        ∃ element ∈ array.children, file'.IsToken token element) :
    file'.callRegisters callee property token = true := by
  have hitem : item ∈ commas ++ [item] := by simp
  cases property with
  | none =>
    obtain ⟨call, arguments, hcall, hargs, ha⟩ := locate_arguments hlocate
    have hmem := mem_nodes_of_child (mem_nodes_of_findCall hr hcall)
      (Growth.Carries.mem_of_child? hargs)
    obtain ⟨hin, -⟩ := innermost_of_closeAnchor (hr.laid_of_mem hmem) ha
    exact hg.callRegisters_arguments hr hcall hargs hin hitem
      (hi (by rw [kind_of_closeAnchor ha]; decide))
  | some key =>
    obtain ⟨call, object, hcall, ho, hplace⟩ := locate_registration hlocate
    obtain ⟨-, -, hobject, -⟩ := mem_objectArgument hr hcall ho
    rcases hplace with ⟨member, array, hm, hv, ha⟩ | ⟨hm, ha⟩
    · have hn := mem_nodes_of_child hobject (List.mem_of_find?_eq_some hm)
      obtain ⟨hin, mark, hmark, hk, -⟩ :=
        innermost_of_closeAnchor (hr.laid_of_mem (mem_arrayValue hn hv).1) ha
      exact hg.callRegisters_array hr hcall ho (hproperty key rfl) hm hv hin hmark hk hitem
        (hi (by rw [kind_of_closeAnchor ha]; decide))
    · obtain ⟨hin, -⟩ := innermost_of_closeAnchor (hr.laid_of_mem hobject) ha
      obtain ⟨hkey, array, hv, element, helement, htoken⟩ :=
        hmember (kind_of_closeAnchor ha) key rfl
      exact hg.callRegisters_object hr hcall ho rfl hm hin hcommas hkey hv helement htoken

end SourceFile

end Codemod
