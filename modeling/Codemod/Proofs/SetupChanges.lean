import Codemod.Proofs.OwnChanges
import Codemod.Proofs.Registrations

/-!
The changes of a setup.

For each change that a setup makes: what the file that got it knows of it, what the file still knows
of the others, and that the file is a program now and no data.
-/
namespace Codemod

open Source Node

namespace Growth.Carries

variable {g : Growth} {file file' : SourceFile} (h : g.Carries file file')

include h

theorem image_mem_top {top : Node} (ht : top ∈ file.root.children) :
    g.image top ∈ file'.root.children := by
  obtain ⟨front, back, he, hi⟩ := h.root
  rw [he, List.mem_append] at ht
  rw [hi]
  simp only [List.mem_append, List.mem_map]
  rcases ht with ht | ht
  · exact .inl (.inl ⟨top, ht, rfl⟩)
  · exact .inr ⟨top, ht, rfl⟩

theorem image_mem_children {node child : Node} (hn : node ∈ file.nodes)
    (hc : child ∈ node.children) : g.image child ∈ (g.image node).children := by
  by_cases hh : g.hole node
  · obtain ⟨front, back, he, hi⟩ := h.gains node hn hh
    rw [he, List.mem_append] at hc
    rw [hi]
    simp only [List.mem_append, List.mem_map]
    rcases hc with hc | hc
    · exact .inl (.inl ⟨child, hc, rfl⟩)
    · exact .inr ⟨child, hc, rfl⟩
  · rw [h.children node hn hh]
    exact List.mem_map_of_mem hc

/-- Nothing that was there is lost. -/
theorem image_mem_nodes {node : Node} (hn : node ∈ file.nodes) : g.image node ∈ file'.nodes := by
  have hall : ∀ top, top ∈ file.nodes → ∀ inner ∈ top.preorder, g.image inner ∈
      (g.image top).preorder := by
    intro top
    induction top using induction_on with
    | step top ih =>
      intro ht inner hi
      rcases mem_preorder.1 hi with rfl | ⟨child, hc, hi⟩
      · exact mem_preorder_self _
      · have hchild := ih child hc (SourceFile.mem_nodes_of_child ht hc) inner hi
        exact mem_preorder_of_below (h.image_mem_children ht hc) hchild
  obtain ⟨top, ht, hi⟩ := mem_within.1 hn
  have hin := hall top (SourceFile.mem_nodes_of_top ht) node hi
  exact mem_within.2 ⟨_, h.image_mem_top ht, hin⟩

omit h in
/-- Where an import, a variable or a call was or came, there is no data. -/
theorem not_data {reader : TreeReader} (hg : reader.Grammatical) (hr : file'.IsRead reader)
    {node : Node} (hn : node ∈ file'.nodes)
    (hk : node.kind = .importDeclaration ∨ node.kind = .variableDeclarator ∨ node.kind = .call)
    (json : Json) : Json.read file'.text ≠ .ok json := by
  intro hj
  obtain ⟨h1, h2, h3⟩ := hg.data hr hj node hn
  rcases hk with hk | hk | hk
  · exact h1 hk
  · exact h2 hk
  · exact h3 hk

end Growth.Carries

/-- At most one node gains children. -/
structure Growth.Single (g : Growth) (file : SourceFile) : Prop where
  node : ∀ m ∈ file.nodes, ∀ n ∈ file.nodes, g.hole m → g.hole n → m = n
  top : ∀ a ∈ file.root.children, ∀ b ∈ file.root.children, ∀ m ∈ a.preorder, ∀ n ∈ b.preorder,
    g.hole m → g.hole n → a = b

theorem Growth.single_inside {file : SourceFile} (hr : file.Regular) (offset size : Nat)
    (new : List Node) (mark : Char) : (inside offset size new mark).Single file := by
  refine ⟨?_, ?_⟩
  · intro m hm n hn him hin
    exact Innermost.unique hr.laid hr.ordered him hm hin hn
  · intro a ha b hb m hm n hn him hin
    have hma := (hr.laid a ha).inside hm
    have hnb := (hr.laid b hb).inside hn
    have h1 := around_iff.1 him.1
    have h2 := around_iff.1 hin.1
    have haround : a.around offset = true := around_iff.2 (by omega)
    have hbround : b.around offset = true := around_iff.2 (by omega)
    exact eq_of_around hr.ordered ha hb haround hbround

/-- How a file grows by an import: by a name in the list of an import of the module, or by a
statement of its own. -/
inductive ImportGrowth (file file' : SourceFile) (identifier module : String) (kind : AnchorKind)
    (g : Growth) (commas : List Node) (item : Node) : Prop
  | name {named : Node} (hk : kind = .namedImportsClose) (hone : g.Single file)
      (hnew : g.new = commas ++ [item]) (htop : g.top = [])
      (hi : file'.IsSpecifier identifier item)
      (hn : file.namedImportsFrom module = some named) (hh : g.hole named) :
      ImportGrowth file file' identifier module kind g commas item
  | statement (hk : kind ≠ .namedImportsClose) (hnew : g.new = [])
      (htop : g.top = commas ++ [item]) (hi : file'.IsImport identifier module item) :
      ImportGrowth file file' identifier module kind g commas item

namespace ImportGrowth

variable {file file' : SourceFile} {identifier module : String} {kind : AnchorKind} {g : Growth}
  {commas : List Node} {item : Node}
  (h : ImportGrowth file file' identifier module kind g commas item)
  (hcommas : ∀ comma ∈ commas, comma.kind = .comma ∧ comma.children = [])

include h

/-- Whatever holds below the commas and the item holds below what is gained. -/
theorem forall_within {P : Node → Prop} (hp : ∀ m ∈ within (commas ++ [item]), P m) :
    (∀ m ∈ within g.new, P m) ∧ ∀ m ∈ within g.top, P m := by
  have hnil : ∀ m ∈ within ([] : List Node), P m := by nofun
  cases h with
  | name hk hone hnew htop => exact ⟨by rwa [hnew], by rwa [htop]⟩
  | statement hk hnew htop => exact ⟨by rwa [hnew], by rwa [htop]⟩

include hcommas

/-- The import of one name brings no other. -/
theorem silent {name : String} (hne : identifier ≠ name) : g.Silent file' name := by
  cases h with
  | name hk hone hnew htop hi => exact Growth.Carries.silent_list hcommas hnew htop hi hne
  | statement hk hnew htop hi => exact Growth.Carries.silent_statement hcommas hnew htop hi hne

/-- No variable is gained. -/
theorem variableStatementOf : ∀ top ∈ g.top, SourceFile.variableStatementOf top = none := by
  intro top ht
  cases h with
  | name hk hone hnew htop =>
    rw [htop] at ht
    cases ht
  | statement hk hnew htop hi =>
    rw [htop] at ht
    rcases List.mem_append.1 ht with hmem | hmem
    · simp [SourceFile.variableStatementOf, (hcommas top hmem).1]
    · obtain rfl := List.mem_singleton.1 hmem
      simp [SourceFile.variableStatementOf, hi.kind]

/-- No member of an object is gained. -/
theorem hasKey (key : String) : ∀ member ∈ g.new, file'.hasKey key member = false := by
  intro member hm
  cases h with
  | name hk hone hnew htop hi =>
    rw [hnew] at hm
    rcases List.mem_append.1 hm with hmem | hmem
    · exact Growth.Carries.hasKey_comma (hcommas member hmem).1 _
    · obtain rfl := List.mem_singleton.1 hmem
      simp [SourceFile.hasKey, hi.kind]
  | statement hk hnew =>
    rw [hnew] at hm
    cases hm

end ImportGrowth

/-- How a file grows by a registration in the module of an object: by an element of its list, or by
a list for the object. -/
inductive RegistrationGrowth (file file' : SourceFile) (token : String) (object : Node) (g : Growth)
    (item : Node) : Prop
  | element {member array : Node} (hi : file'.IsElement token item)
      (hmember : file.property? object "imports" = some member)
      (harray : SourceFile.arrayValue member = some array) (hh : g.hole array) :
      RegistrationGrowth file file' token object g item
  | list (hi : file'.IsListMember "imports" token item)
      (hnone : file.property? object "imports" = none) (hh : g.hole object) :
      RegistrationGrowth file file' token object g item

namespace SourceFile.Grows

variable {file file' : SourceFile} {anchor : Anchor} {piece : String} {new : List Node}

/-- Growth in a list. -/
theorem exists_inside (hr : file.Regular) (hg : file.Grows file' anchor.offset piece new)
    {container : Node} {close : Kind} {kind : AnchorKind} {c : Char} (hn : container ∈ file.nodes)
    (hk : container.kind = .namedImports ∨ container.kind = .objectLiteral ∨
      container.kind = .arrayLiteral)
    (hc : close = .closeBrace ∧ c = '\x7d' ∨ close = .closeBracket ∧ c = ']')
    (ha : SourceFile.closeAnchor container close kind = some anchor) :
    ∃ g : Growth, g.Carries file file' ∧ g.Single file ∧ g.hole container ∧ g.new = new ∧
      g.top = [] ∧ g.mark = c := by
  obtain ⟨hin, mark, hm, hmk, -⟩ := innermost_of_closeAnchor (hr.laid_of_mem hn) ha
  have hmem := SourceFile.mem_nodes_of_child hn hm
  have htext : file.textOf mark = String.ofList [c] ∧ (c = '\x7d' ∨ c = ']') := by
    rcases hc with ⟨rfl, rfl⟩ | ⟨rfl, rfl⟩
    · exact ⟨hr.closeBrace mark hmem hmk, .inl rfl⟩
    · exact ⟨hr.closeBracket mark hmem hmk, .inr rfl⟩
  exact ⟨_, Growth.carries_inside hr hg hn hin hm htext.2 htext.1 hk,
    Growth.single_inside hr _ _ _ _, hin, rfl, rfl, rfl⟩

/-- Growth between the statements. -/
theorem exists_atTop (hr : file.Regular) (ha : anchor = file.importAnchor)
    (hg : file.Grows file' anchor.offset piece new) :
    ∃ g : Growth, g.Carries file file' ∧ g.new = [] ∧ g.top = new ∧ g.mark = '\x7d' := by
  refine ⟨_, Growth.carries_atTop hr hg ?_, rfl, rfl, rfl⟩
  intro top ht
  rw [ha]
  exact SourceFile.around_importAnchor hr ht

theorem importGrowth (hr : file.Regular) {identifier module : String} {commas : List Node}
    {item : Node} (hlocate : file.locate (.insertImport identifier module) = .ok anchor)
    (hg : file.Grows file' anchor.offset piece (commas ++ [item]))
    (hi : file'.IsItem (.insertImport identifier module) anchor.kind item) :
    ∃ g : Growth, g.Carries file file' ∧ g.mark = '\x7d' ∧
      ImportGrowth file file' identifier module anchor.kind g commas item := by
  rcases locate_import hlocate with ⟨named, hn, ha⟩ | ha
  · obtain ⟨d, hd, -, -, clause, hc, hnamed⟩ := exists_of_namedImportsFrom hn
    obtain ⟨hcmem, -⟩ := Growth.Carries.mem_of_firstOf hc
    obtain ⟨hnmem, hnk⟩ := Growth.Carries.mem_of_firstOf hnamed
    have hclause := mem_nodes_of_child (Growth.Carries.mem_imports hd).1 hcmem
    have hkind := kind_of_closeAnchor ha
    rw [hkind] at hi
    obtain ⟨g, hcar, hsingle, hhole, hnew, htop, hm⟩ := hg.exists_inside hr
      (mem_nodes_of_child hclause hnmem) (.inl hnk) (.inl ⟨rfl, rfl⟩) ha
    exact ⟨g, hcar, hm, .name hkind hsingle hnew htop hi hn hhole⟩
  · have hkind : anchor.kind ≠ .namedImportsClose := ha ▸ kind_importAnchor
    have hitem : file'.IsImport identifier module item := by
      cases hk : anchor.kind <;> rw [hk] at hi <;> first | exact hi | exact absurd hk hkind
    obtain ⟨g, hcar, hnew, htop, hm⟩ := exists_atTop hr ha hg
    exact ⟨g, hcar, hm, .statement hkind hnew htop hitem⟩

end SourceFile.Grows

namespace SourceFile

variable {file : SourceFile} {call : Node}

theorem Initializes.isBootstrap (h : file.Initializes call) : file.isBootstrap call = false := by
  obtain ⟨f, hf, -, name, hn, ht⟩ := h.callee
  simp [SourceFile.isBootstrap, hf, hn, spells, ht]

variable {change : Change} {kind : AnchorKind} {new : List Node} (hg : file.Gains change kind new)

include hg

theorem Gains.isBootstrap {m : Node} (hm : m ∈ within new) : file.isBootstrap m = false := by
  by_cases hk : m.kind = .call
  · exact (hg.calls m hm hk).isBootstrap
  · have hb : m.isKind .call = false := by simpa [isKind] using hk
    simp [SourceFile.isBootstrap, hb]

end SourceFile

namespace SourceFile.Brings

variable {reader : TreeReader} {anchor : Anchor} {piece : String} {file file' : SourceFile}

/-- An object with the configuration is found to have it. -/
theorem of_field (hg : reader.Grammatical) (hread : file.IsRead reader) {options : FirebaseOptions}
    (h : file.Brings reader (.appendField (some "environment") "firebase" options.entries) anchor
      piece file') :
    file'.objectHasKey (some "environment") "firebase" = true ∧
      ∀ json, Json.read file'.text ≠ .ok json := by
  have hr := hg.regular hread
  obtain ⟨new, hgrows, hgains⟩ := hg.grows (.field options) hread h
  obtain ⟨object, ho, ha⟩ := locate_field h.place
  obtain ⟨hmem, hk⟩ := Growth.Carries.mem_declaredObject ho
  obtain ⟨g, hc, -, hhole, hnew, htop, hm⟩ :=
    hgrows.exists_inside hr hmem (.inr (.inl hk)) (.inl ⟨rfl, rfl⟩) ha
  obtain ⟨commas, item, rfl, -, hi⟩ := hgains.items
  refine ⟨hc.objectHasKey_field hnew htop hi (by rw [hm]; decide) ho hhole, ?_⟩
  obtain ⟨d, hd, -⟩ := List.exists_of_findSome?_eq_some ho
  obtain ⟨hdmem, hdk⟩ := Growth.Carries.mem_declarators (List.mem_filter.1 hd).1
  exact Growth.Carries.not_data hg h.read (hc.image_mem_nodes hdmem)
    (.inr (.inl (by rw [hc.kind, hdk])))

variable {identifier module : String}

theorem importGrowth (hg : reader.GrowsBy (.insertImport identifier module))
    (hread : file.IsRead reader)
    (h : file.Brings reader (.insertImport identifier module) anchor piece file') :
    ∃ (g : Growth) (commas : List Node) (item : Node), g.Carries file file' ∧ g.mark = '\x7d' ∧
      (∀ comma ∈ commas, comma.kind = .comma ∧ comma.children = []) ∧
      (∀ m ∈ within (commas ++ [item]), file'.isBootstrap m = false) ∧
      ImportGrowth file file' identifier module anchor.kind g commas item := by
  obtain ⟨new, hgrows, hgains⟩ := hg.grows hread h
  have hboot := fun m (hm : m ∈ within new) => hgains.isBootstrap hm
  obtain ⟨commas, item, rfl, hcommas, hi⟩ := hgains.items
  obtain ⟨g, hcar, hm, himport⟩ := Grows.importGrowth (hg.regular hread) h.place hgrows hi
  exact ⟨g, commas, item, hcar, hm, hcommas, hboot, himport⟩

section insertImport

variable (hg : reader.GrowsBy (.insertImport identifier module)) (hread : file.IsRead reader)
  (h : file.Brings reader (.insertImport identifier module) anchor piece file')

include hg hread h

/-- An import of a name binds no other value. -/
theorem bindsValue_import {name : String} (hne : identifier ≠ name) (hm : '\x7d' ∉ name.toList) :
    file'.bindsValue name = file.bindsValue name := by
  obtain ⟨g, commas, item, hc, hmark, hcommas, -, himport⟩ := h.importGrowth hg hread
  exact hc.bindsValue_image (hg.regular hread) (himport.silent hcommas hne)
    (himport.variableStatementOf hcommas) (hmark ▸ hm)

/-- An import of a package does not change which file is the root module. -/
theorem rootModule_import (hfree : file.nameTaken identifier = false)
    (hmodule : ∀ s, s = String.ofList (Text.escaped module) ∨ sameModule s module = true →
      s.toList.head? ≠ some '.') : file'.rootModule = file.rootModule := by
  obtain ⟨g, commas, item, hc, hm, hcommas, hcalls, himport⟩ := h.importGrowth hg hread
  obtain ⟨hboot, hboot'⟩ := himport.forall_within hcalls
  have hr := hg.regular hread
  have hname := hc.bootstrappedName_image hr (by rw [hm]; decide) hboot hboot'
  apply Growth.Carries.rootModule_congr h.path hname
  intro name
  by_cases hne : identifier = name
  · subst hne
    have hold : file.originOf identifier = none := by
      rw [originOf, List.findSome?_eq_none_iff]
      intro d hd
      rw [importIntroduces_of_nameTaken hfree hd]
      rfl
    have horigin : ∀ s, file'.originOf identifier = some s → s.toList.head? ≠ some '.' := by
      intro s ho
      apply hmodule
      refine Growth.Carries.originOf_of_introduces (P := fun s =>
        s = String.ofList (Text.escaped module) ∨ sameModule s module = true) (fun d hd hb => ?_) ho
      cases himport with
      | name hk hsingle hnew htop hi hn hh =>
        have hone : ∀ a ∈ file.imports, ∀ b ∈ file.imports, ∀ m ∈ a.preorder, ∀ n ∈ b.preorder,
            g.hole m → g.hole n → a = b := fun a ha b hb =>
          hsingle.top a (List.mem_filter.1 ha).1 b (List.mem_filter.1 hb).1
        obtain ⟨s, hsource, hsame⟩ := hc.importSource_list hr htop hn hh hone hfree hd hb
        exact ⟨s, hsource, .inr hsame⟩
      | statement hk hnew htop hi =>
        exact ⟨_, hc.importSource_statement hcommas hnew htop hi hr hfree hd hb, .inl rfl⟩
    rw [hold]
    cases ho : file'.originOf identifier with
    | none => rfl
    | some s =>
      have hdot := horigin s ho
      simp [Option.filter, hdot]
  · rw [hc.originOf_image hr (himport.silent hcommas hne)]

end insertImport

section setupImport

variable (hg : reader.Grammatical) (hread : file.IsRead reader)
  (hs : SetupChange (.insertImport identifier module))
  (h : file.Brings reader (.insertImport identifier module) anchor piece file')

include hg hread hs h

/-- An import does not touch the configuration. -/
theorem objectHasKey_import : file'.objectHasKey (some "environment") "firebase" =
    file.objectHasKey (some "environment") "firebase" := by
  obtain ⟨g, commas, item, hc, hm, hcommas, -, himport⟩ := h.importGrowth (hg.growsBy hs) hread
  apply hc.objectHasKey_image (himport.variableStatementOf hcommas)
  · rw [hm]
    decide
  · rw [hm]
    decide
  · exact himport.hasKey hcommas _

theorem not_data_import (json : Json) : Json.read file'.text ≠ .ok json := by
  obtain ⟨g, commas, item, hc, -, -, -, himport⟩ := h.importGrowth (hg.growsBy hs) hread
  cases himport with
  | name hk hsingle hnew htop hi hn =>
    obtain ⟨d, hd, -⟩ := exists_of_namedImportsFrom hn
    obtain ⟨hmem, hk⟩ := Growth.Carries.mem_imports hd
    have hkind := (hc.kind d).trans hk
    exact Growth.Carries.not_data hg h.read (hc.image_mem_nodes hmem) (.inl hkind) json
  | statement hk hnew htop hi =>
    obtain ⟨front, back, -, hroot⟩ := hc.root
    have hmem : item ∈ file'.root.children := by simp [hroot, htop]
    exact Growth.Carries.not_data hg h.read (mem_nodes_of_top hmem) (.inl hi.kind) json

/-- An import of a name leaves those of other names alone. -/
theorem importBinds_import {name : String} (hne : identifier ≠ name) (origin : String) :
    file'.importBinds name origin = file.importBinds name origin := by
  obtain ⟨g, commas, item, hc, -, hcommas, -, himport⟩ := h.importGrowth (hg.growsBy hs) hread
  exact hc.importBinds_image (hg.regular hread) (himport.silent hcommas hne) origin

/-- Whether an import is recognised: in a list always, and as a statement if the specifier is
written as it is. -/
theorem importBinds_import_self (hp : file.importBinds identifier module = false) :
    file'.importBinds identifier module = true ↔ anchor.kind = .namedImportsClose ∨
      sameModule (String.ofList (Text.escaped module)) module = true := by
  obtain ⟨g, commas, item, hc, -, hcommas, -, himport⟩ := h.importGrowth (hg.growsBy hs) hread
  have hr := hg.regular hread
  cases himport with
  | name hk hsingle hnew htop hi hn hh => simp [hk, hc.importBinds_list hnew hi hr hn hh]
  | statement hk hnew htop hi =>
    rw [hc.importBinds_statement hcommas hnew htop hi hr, hp]
    simp [hk]

end setupImport

theorem registrationGrowth (hg : reader.Grammatical) (hread : file.IsRead reader)
    {token : String} (hs : SetupChange (.register "NgModule" (some "imports") token))
    (h : file.Brings reader (.register "NgModule" (some "imports") token) anchor piece file') :
    ∃ (g : Growth) (commas : List Node) (item call object : Node), g.Carries file file' ∧
      (∀ comma ∈ commas, comma.kind = .comma ∧ comma.children = []) ∧
      (g.mark = '\x7d' ∨ g.mark = ']') ∧ g.Single file ∧
      (∀ m ∈ within g.new, file'.isBootstrap m = false) ∧
      g.new = commas ++ [item] ∧ g.top = [] ∧
      file.findCall "NgModule" = some call ∧ objectArgument call = some object ∧
      RegistrationGrowth file file' token object g item := by
  have hr := hg.regular hread
  obtain ⟨new, hgrows, hgains⟩ := hg.grows hs hread h
  have hcalls : ∀ m ∈ within new, file'.isBootstrap m = false := fun m hm => hgains.isBootstrap hm
  obtain ⟨commas, item, rfl, hcommas, hi⟩ := hgains.items
  obtain ⟨call, object, hcall, hobject, hplace⟩ := locate_registration h.place
  obtain ⟨-, -, ho, hok⟩ := mem_objectArgument hr hcall hobject
  rcases hplace with ⟨member, array, hmember, harray, ha⟩ | ⟨hnone, ha⟩
  · have hmem := mem_nodes_of_child ho (List.mem_of_find?_eq_some hmember)
    obtain ⟨hamem, hak⟩ := mem_arrayValue hmem harray
    rw [kind_of_closeAnchor ha] at hi
    obtain ⟨g, hc, hsingle, hhole, hnew, htop, hm⟩ := hgrows.exists_inside hr hamem
      (.inr (.inr hak)) (.inr ⟨rfl, rfl⟩) ha
    exact ⟨g, commas, item, call, object, hc, hcommas, .inr hm, hsingle, by rwa [hnew], hnew, htop,
      hcall, hobject, .element hi hmember harray hhole⟩
  · rw [kind_of_closeAnchor ha] at hi
    obtain ⟨g, hc, hsingle, hhole, hnew, htop, hm⟩ := hgrows.exists_inside hr ho
      (.inr (.inl hok)) (.inl ⟨rfl, rfl⟩) ha
    exact ⟨g, commas, item, call, object, hc, hcommas, .inl hm, hsingle, by rwa [hnew], hnew, htop,
      hcall, hobject, .list hi hnone hhole⟩

section register

variable {token : String} (hg : reader.Grammatical) (hread : file.IsRead reader)
  (hs : SetupChange (.register "NgModule" (some "imports") token))
  (h : file.Brings reader (.register "NgModule" (some "imports") token) anchor piece file')

include hg hread hs h

/-- A registration does not touch the configuration. -/
theorem objectHasKey_registration : file'.objectHasKey (some "environment") "firebase" =
    file.objectHasKey (some "environment") "firebase" := by
  obtain ⟨g, commas, item, call, object, hc, hcommas, hm, -, -, hnew, htop, -, -, hgrowth⟩ :=
    h.registrationGrowth hg hread hs
  apply hc.objectHasKey_image
  · rw [htop]
    nofun
  · rcases hm with hm | hm <;> rw [hm] <;> decide
  · rcases hm with hm | hm <;> rw [hm] <;> decide
  · intro member hmem
    rw [hnew] at hmem
    rcases List.mem_append.1 hmem with hmem | hmem
    · exact Growth.Carries.hasKey_comma (hcommas member hmem).1 _
    · obtain rfl := List.mem_singleton.1 hmem
      cases hgrowth with
      | element hi => simp [hasKey, hi.kind]
      | list hi =>
        rw [Growth.Carries.hasKey_member hi.toIsMember]
        decide

theorem not_data_registration (json : Json) : Json.read file'.text ≠ .ok json := by
  obtain ⟨g, commas, item, call, object, hc, -, -, -, -, -, -, hcall, hobject, -⟩ :=
    h.registrationGrowth hg hread hs
  obtain ⟨hmem, hk, -⟩ := mem_objectArgument (hg.regular hread) hcall hobject
  exact Growth.Carries.not_data hg h.read (hc.image_mem_nodes hmem)
    (.inr (.inr (by rw [hc.kind, hk]))) json

/-- A registration gains no import of any name. -/
theorem silent_registration : ∃ g : Growth, g.Carries file file' ∧
    (g.mark = '\x7d' ∨ g.mark = ']') ∧ (∀ name, g.Silent file' name) ∧
    (∀ m ∈ within g.new, file'.isBootstrap m = false) ∧
    ∀ m ∈ within g.top, file'.isBootstrap m = false := by
  obtain ⟨g, commas, item, call, object, hc, hcommas, hm, -, hcalls, hnew, htop, -, -, hgrowth⟩ :=
    h.registrationGrowth hg hread hs
  refine ⟨g, hc, hm, ?_, hcalls, by rw [htop]; nofun⟩
  intro name
  refine ⟨?_, by rw [htop]; nofun⟩
  intro s hmem hk
  rw [hnew] at hmem
  rcases List.mem_append.1 hmem with hmem | hmem
  · rw [(hcommas s hmem).1] at hk
    cases hk
  · obtain rfl := List.mem_singleton.1 hmem
    cases hgrowth with
    | element hi =>
      rw [hi.kind] at hk
      cases hk
    | list hi =>
      rw [hi.toIsMember.kind] at hk
      cases hk

theorem importBinds_registration (name origin : String) :
    file'.importBinds name origin = file.importBinds name origin := by
  obtain ⟨g, hc, -, hsilent, -⟩ := h.silent_registration hg hread hs
  exact hc.importBinds_image (hg.regular hread) (hsilent name) origin

/-- A registration does not change which file is the root module. -/
theorem rootModule_registration : file'.rootModule = file.rootModule := by
  obtain ⟨g, hc, hm, hsilent, hboot, hboot'⟩ := h.silent_registration hg hread hs
  have hr := hg.regular hread
  have hmark : g.mark ∉ "bootstrapModule".toList := by
    rcases hm with hm | hm <;> rw [hm] <;> decide
  apply Growth.Carries.rootModule_congr h.path (hc.bootstrappedName_image hr hmark hboot hboot')
  intro name
  rw [hc.originOf_image hr (hsilent name)]

/-- What was registered is found. -/
theorem callRegisters_registration :
    file'.callRegisters "NgModule" (some "imports") token = true := by
  obtain ⟨new, hgrows, hgains⟩ := hg.grows hs hread h
  obtain ⟨commas, item, rfl, hcommas, hi⟩ := hgains.items
  have htoken : ∀ {element : Node}, file'.IsElement token element →
      file'.IsToken token element := by
    intro element he
    exact ⟨by rw [he.kind]; decide, by rw [he.text]⟩
  apply callRegisters_of_grows (hg.regular hread) _ h.place hgrows
    fun comma hc => (hcommas comma hc).1
  · intro hk
    cases hkind : anchor.kind <;> rw [hkind] at hi <;>
      first | exact htoken hi | exact absurd hkind hk
  · intro hk key hkey
    obtain rfl := Option.some.inj hkey
    rw [hk] at hi
    obtain ⟨array, hv, harray, element, helement, he⟩ := hi.value
    refine ⟨?_, array, by simp [arrayValue, hv, isKind, harray], element, helement, htoken he⟩
    rw [Growth.Carries.hasKey_member hi.toIsMember, beq_self_eq_true]
  · intro key hkey
    obtain rfl := Option.some.inj hkey
    decide

end register

end SourceFile.Brings

end Codemod
