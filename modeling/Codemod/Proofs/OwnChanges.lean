import Codemod.Proofs.Grammars

/-!
What a file knows of a change that it got.

A field, a name in a list of imports and an element are found where they were put. An import that
was put between the statements is found if its specifier is written as it is; with escapes in it
the name is taken, but the module is not recognised.
-/
namespace Codemod

open Source Node

namespace SourceFile

theorem trim_singleQuoted (s : String) : Text.trim (Text.singleQuoted s) = Text.singleQuoted s := by
  have hquote : ¬ Text.isBlank '\x27' = true := by decide
  have hstart : Text.trimStart (Text.singleQuoted s) = Text.singleQuoted s :=
    List.dropWhile_cons_of_neg hquote
  have hreverse : (Text.singleQuoted s).reverse =
      '\x27' :: ((Text.escaped s).reverse ++ ['\x27']) := by simp [Text.singleQuoted]
  rw [Text.trim, hstart, Text.trimEnd, hreverse, List.dropWhile_cons_of_neg hquote, ← hreverse,
    List.reverse_reverse]

/-- Without its quotes a literal is the text in it, escapes and all. -/
theorem unquote_singleQuoted (s : String) :
    unquote (String.ofList (Text.singleQuoted s)) = String.ofList (Text.escaped s) := by
  unfold unquote
  simp only [String.toList_ofList, trim_singleQuoted]
  simp [Text.singleQuoted]

variable {file : SourceFile} {identifier module : String} {node : Node}

theorem IsImport.importSource (h : file.IsImport identifier module node) :
    file.importSource node = some (String.ofList (Text.escaped module)) := by
  obtain ⟨source, hs, ht⟩ := h.source
  rw [SourceFile.importSource, hs, Option.map_some, ht, unquote_singleQuoted]

theorem IsSpecifier.spells (h : file.IsSpecifier identifier node) (name : String) :
    file.spells name (boundNode node) = (identifier == name) := by
  obtain ⟨bound, hb, ht⟩ := h.bound
  rw [hb, SourceFile.spells, ht]

/-- An import of one name introduces this name and no other. -/
theorem IsImport.importIntroduces (h : file.IsImport identifier module node) (withTypes : Bool)
    (name : String) : file.importIntroduces withTypes name node = (identifier == name) := by
  obtain ⟨clause, named, specifier, hc, hchildren, hk, hall, hs⟩ := h.clause
  have hlists : file.lists withTypes name named = (identifier == name) := by
    rw [allOf] at hall
    rw [lists, ← List.any_filter, hall]
    simp [hs.plain, hs.spells]
  rw [SourceFile.importIntroduces, hc]
  simp only [introduces_eq, hchildren, List.any_cons, List.any_nil, Bool.or_false, hk, hlists]

theorem importIntroduces_of_nameTaken {name : String} (hn : file.nameTaken name = false)
    (hd : node ∈ file.imports) (withTypes : Bool) :
    file.importIntroduces withTypes name node = false := by
  rw [nameTaken, Bool.or_eq_false_iff] at hn
  have hall := List.any_eq_false.1 hn.1 node hd
  cases withTypes with
  | true => simpa using hall
  | false =>
    rw [Bool.eq_false_iff]
    intro hv
    apply hall
    unfold importIntroduces at hv ⊢
    split at hv
    · rename_i clause hc
      simp only [introduces_eq, List.any_eq_true] at hv ⊢
      obtain ⟨child, hmem, hchild⟩ := hv
      refine ⟨child, hmem, ?_⟩
      cases hk : child.kind with
      | namedImports =>
        simp only [hk, lists, List.any_eq_true, Bool.and_eq_true] at hchild ⊢
        obtain ⟨s, hs, hkind, -, hspells⟩ := hchild
        exact ⟨s, hs, hkind, by simp, hspells⟩
      | identifier => simpa only [hk] using hchild
      | namespaceImport => simpa only [hk] using hchild
      | _ => simp [hk] at hchild
    · cases hv

end SourceFile

namespace Growth.Carries

variable {g : Growth} {file file' : SourceFile} {commas : List Node} {item : Node}
  {identifier module : String}

/-- A name that a file has from no import but those of a sort has its origin in one of these. -/
theorem originOf_of_introduces {P : String → Prop} {name specifier : String}
    (hd : ∀ d ∈ file'.imports, file'.importIntroduces false name d = true →
      ∃ s, file'.importSource d = some s ∧ P s)
    (ho : file'.originOf name = some specifier) : P specifier := by
  obtain ⟨d, hmem, hs⟩ := List.exists_of_findSome?_eq_some ho
  split at hs
  · rename_i hi
    obtain ⟨s, hsource, hp⟩ := hd d hmem hi
    obtain rfl := Option.some.inj (hsource.symm.trans hs)
    exact hp
  · cases hs

variable (h : g.Carries file file')
  (hcommas : ∀ comma ∈ commas, comma.kind = .comma ∧ comma.children = [])

include h in
/-- Without names gained in lists, an import introduces what it introduced. -/
theorem importIntroduces_statement (hr : file.Regular) (hnew : g.new = []) {d : Node}
    (hd : d ∈ file.imports) (withTypes : Bool) (name : String) :
    file'.importIntroduces withTypes name (g.image d) =
      file.importIntroduces withTypes name d := by
  obtain ⟨hmem, hk⟩ := mem_imports hd
  apply h.importIntroduces_image hr hmem hk
  intro _ _ _ s hs
  rw [hnew] at hs
  cases hs

section statement

variable (hnew : g.new = []) (htop : g.top = commas ++ [item])
  (hi : file'.IsImport identifier module item)

include hcommas htop hi

theorem filter_statement : g.top.filter (fun d => d.isKind .importDeclaration) = [item] := by
  have hnone : commas.filter (fun d => d.isKind .importDeclaration) = [] := by
    rw [List.filter_eq_nil_iff]
    intro comma hc
    simp [isKind, (hcommas comma hc).1]
  rw [htop, List.filter_append, hnone, List.nil_append]
  simp [isKind, hi.kind]

include hnew

/-- Other names are left alone. -/
theorem silent_statement {name : String} (hne : identifier ≠ name) : g.Silent file' name := by
  refine ⟨?_, ?_⟩
  · intro s hs
    rw [hnew] at hs
    cases hs
  · intro d hd hk withTypes
    rw [htop] at hd
    rcases List.mem_append.1 hd with hc | hd
    · rw [(hcommas d hc).1] at hk
      cases hk
    · obtain rfl := List.mem_singleton.1 hd
      rw [hi.importIntroduces, beq_eq_false_iff_ne]
      exact hne

include h

/-- The import binds its name, from the module as it is written. -/
theorem importBinds_statement (hr : file.Regular) (name origin : String) :
    file'.importBinds name origin = (file.importBinds name origin ||
      (sameModule (String.ofList (Text.escaped module)) origin && identifier == name)) := by
  have hold : ∀ d ∈ file.imports,
      (!SourceFile.isTypeOnly (g.image d) &&
        (file'.importsFrom origin (g.image d) && file'.importIntroduces false name (g.image d))) =
      (!SourceFile.isTypeOnly d &&
        (file.importsFrom origin d && file.importIntroduces false name d)) := by
    intro d hd
    obtain ⟨hmem, hk⟩ := mem_imports hd
    rw [h.isTypeOnly_image hmem (h.not_hole hmem (by simp [hk])), SourceFile.importsFrom,
      SourceFile.importsFrom, h.importSource_image hr hmem hk,
      h.importIntroduces_statement hr hnew hd]
  simp only [SourceFile.importBinds, SourceFile.valueImports, List.any_filter]
  rw [h.any_imports_image hold, filter_statement hcommas htop hi]
  simp [hi.plain, SourceFile.importsFrom, hi.importSource, hi.importIntroduces]

/-- If the name was free, the import is its only origin. -/
theorem importSource_statement (hr : file.Regular) (hn : file.nameTaken identifier = false)
    {d : Node} (hd : d ∈ file'.imports) (hb : file'.importIntroduces false identifier d = true) :
    file'.importSource d = some (String.ofList (Text.escaped module)) := by
  obtain ⟨front, back, he, hl⟩ := h.imports_image
  have hold : ∀ d₀ ∈ file.imports,
      file'.importIntroduces false identifier (g.image d₀) = false := by
    intro d₀ hd₀
    rw [h.importIntroduces_statement hr hnew hd₀]
    exact SourceFile.importIntroduces_of_nameTaken hn hd₀ false
  rw [hl, filter_statement hcommas htop hi] at hd
  simp only [List.mem_append, List.mem_map, List.mem_singleton] at hd
  rcases hd with (⟨d₀, hd₀, rfl⟩ | rfl) | ⟨d₀, hd₀, rfl⟩
  · rw [hold d₀ (by simp [he, hd₀])] at hb
    cases hb
  · exact hi.importSource
  · rw [hold d₀ (by simp [he, hd₀])] at hb
    cases hb

end statement

section list

variable (hnew : g.new = commas ++ [item]) (htop : g.top = [])
  (hi : file'.IsSpecifier identifier item)

include hcommas hnew htop hi in
/-- Other names are left alone. -/
theorem silent_list {name : String} (hne : identifier ≠ name) : g.Silent file' name := by
  refine ⟨?_, ?_⟩
  · intro s hs hk
    rw [hnew] at hs
    rcases List.mem_append.1 hs with hc | hs
    · rw [(hcommas s hc).1] at hk
      cases hk
    · obtain rfl := List.mem_singleton.1 hs
      rw [hi.spells, beq_eq_false_iff_ne]
      exact hne
  · intro d hd
    rw [htop] at hd
    cases hd

include h

/-- A list of names that gains one has it. -/
theorem lists_list {named : Node} (hn : named ∈ file.nodes) (hh : g.hole named)
    (hnew : g.new = commas ++ [item]) (hi : file'.IsSpecifier identifier item) :
    file'.lists false identifier (g.image named) = true := by
  obtain ⟨front, back, -, hchildren⟩ := h.gains named hn hh
  rw [SourceFile.lists, List.any_eq_true]
  refine ⟨item, by simp [hchildren, hnew], ?_⟩
  simp [isKind, hi.kind, hi.plain, hi.spells]

/-- An import is among the imports after a file has grown. -/
theorem image_mem_imports {d : Node} (hd : d ∈ file.imports) : g.image d ∈ file'.imports := by
  obtain ⟨front, back, he, hl⟩ := h.imports_image
  rw [he, List.mem_append] at hd
  rw [hl]
  simp only [List.mem_append, List.mem_map]
  rcases hd with hd | hd
  · exact .inl (.inl ⟨d, hd, rfl⟩)
  · exact .inr ⟨d, hd, rfl⟩

include hnew hi

/-- The name is bound from the module that the list belongs to. -/
theorem importBinds_list (hr : file.Regular) {origin : String} {named : Node}
    (hn : file.namedImportsFrom origin = some named) (hh : g.hole named) :
    file'.importBinds identifier origin = true := by
  obtain ⟨d, hd, hplain, hfrom, clause, hc, hnamed⟩ := SourceFile.exists_of_namedImportsFrom hn
  obtain ⟨hmem, hk⟩ := mem_imports hd
  have hno := h.not_hole hmem (by simp [hk])
  obtain ⟨hcmem, hck⟩ := mem_of_firstOf hc
  have hclause := SourceFile.mem_nodes_of_child hmem hcmem
  obtain ⟨hnmem, hnk⟩ := mem_of_firstOf hnamed
  have hlists := h.lists_list (SourceFile.mem_nodes_of_child hclause hnmem) hh hnew hi
  have hintroduces : file'.importIntroduces false identifier (g.image d) = true := by
    rw [SourceFile.importIntroduces, h.firstOf_image hmem hno, hc, Option.map_some]
    simp only
    rw [SourceFile.introduces_eq, h.children clause hclause (h.not_hole hclause (by simp [hck])),
      List.any_eq_true]
    refine ⟨g.image named, List.mem_map_of_mem hnmem, ?_⟩
    simp only [h.kind, hnk, hlists]
  have hsource : file'.importsFrom origin (g.image d) = true := by
    rw [SourceFile.importsFrom, h.importSource_image hr hmem hk]
    exact hfrom
  rw [SourceFile.importBinds, List.any_eq_true]
  refine ⟨g.image d, List.mem_filter.2 ⟨h.image_mem_imports hd, ?_⟩, ?_⟩
  · rw [h.isTypeOnly_image hmem hno, hplain]
    rfl
  · rw [hsource, hintroduces]
    rfl

omit hnew hi in
/-- If the name was free, its only origin is the module that the list belongs to. -/
theorem importSource_list (hr : file.Regular) (htop : g.top = []) {origin : String} {named d : Node}
    (hn : file.namedImportsFrom origin = some named) (hh : g.hole named)
    (hone : ∀ a ∈ file.imports, ∀ b ∈ file.imports, ∀ m ∈ a.preorder, ∀ n ∈ b.preorder,
      g.hole m → g.hole n → a = b)
    (hfree : file.nameTaken identifier = false) (hd : d ∈ file'.imports)
    (hb : file'.importIntroduces false identifier d = true) :
    ∃ s, file'.importSource d = some s ∧ sameModule s origin = true := by
  obtain ⟨front, back, he, hl⟩ := h.imports_image
  obtain ⟨d₀, hd₀, rfl⟩ : ∃ d₀ ∈ file.imports, g.image d₀ = d := by
    rw [hl, htop] at hd
    simp only [List.filter_nil, List.append_nil, List.mem_append, List.mem_map] at hd
    rcases hd with ⟨d₀, hd₀, rfl⟩ | ⟨d₀, hd₀, rfl⟩
    · exact ⟨d₀, by simp [he, hd₀], rfl⟩
    · exact ⟨d₀, by simp [he, hd₀], rfl⟩
  obtain ⟨hmem, hk⟩ := mem_imports hd₀
  obtain ⟨own, hown, -, hfrom, clause, hc, hnamed⟩ := SourceFile.exists_of_namedImportsFrom hn
  have hin : named ∈ own.preorder :=
    mem_preorder_of_below (mem_of_firstOf hc).1 (mem_preorder_of_child (mem_of_firstOf hnamed).1)
  have hsame : d₀ = own := by
    apply Classical.byContradiction
    intro hne
    have hkeep : file'.importIntroduces false identifier (g.image d₀) =
        file.importIntroduces false identifier d₀ := by
      apply h.importIntroduces_image hr hmem hk
      intro inner hinner hhole
      exact absurd (hone d₀ hd₀ own hown inner hinner named hin hhole hh) hne
    rw [hkeep, SourceFile.importIntroduces_of_nameTaken hfree hd₀] at hb
    cases hb
  rw [h.importSource_image hr hmem hk, hsame]
  rw [SourceFile.importsFrom] at hfrom
  split at hfrom
  · rename_i source hs
    exact ⟨source, hs, hfrom⟩
  · cases hfrom

end list

omit h in
theorem hasKey_comma {comma : Node} (hc : comma.kind = .comma) (key : String) :
    file'.hasKey key comma = false := by
  simp [SourceFile.hasKey, hc]

omit h in
theorem hasKey_member {key : String} (hi : file'.IsMember key item) (name : String) :
    file'.hasKey name item = (key == name) := by
  obtain ⟨k, hk, ht⟩ := hi.key
  simp only [SourceFile.hasKey, hi.kind, hk, ht]

include h

/-- A declared object has the field that it gains. -/
theorem objectHasKey_field {name key : String} {object : Node} (hnew : g.new = commas ++ [item])
    (htop : g.top = []) (hi : file'.IsMember key item) (hm : g.mark ∉ name.toList)
    (ho : file.declaredObject (some name) = some object) (hh : g.hole object) :
    file'.objectHasKey (some name) key = true := by
  obtain ⟨front, back, -, hchildren⟩ := h.gains object (mem_declaredObject ho).1 hh
  have hnone : ∀ top ∈ g.top, SourceFile.variableStatementOf top = none := by
    rw [htop]
    nofun
  rw [SourceFile.objectHasKey, h.declaredObject_image hnone hm, ho, Option.map_some]
  simp only
  rw [SourceFile.property?_eq, List.isSome_find?, List.any_eq_true]
  refine ⟨item, by simp [hchildren, hnew], ?_⟩
  rw [hasKey_member hi]
  simp

end Growth.Carries

end Codemod
