import Codemod.Proofs.Ways

/-!
Root modules that are imported by the specifier of their file.

An entry file that bootstraps what it imports by the specifier of a file has that file as its root
module: the specifier is followed back from the directory of the entry, and the extension that it
has lost is the one of the entry. Only where the way to the file leads up and no further is there
no name to put the extension behind, and it is put behind the whole path.
-/
namespace Codemod

/-- No extension of a source file ends with another one. -/
theorem eq_of_suffix_sourceExtensions : ∀ a ∈ sourceExtensions, ∀ b ∈ sourceExtensions,
    a.toList <:+ b.toList → a = b := by
  decide

/-- An extension that was put behind a text is taken off again. -/
theorem stripSourceExtension_concat {ext : String} (h : ext ∈ sourceExtensions) (s : String) :
    stripSourceExtension (s ++ ext) = s := by
  have hown : Text.dropTail? ext (s ++ ext) = some s := Text.dropTail?_eq_some_iff.2 rfl
  rw [stripSourceExtension]
  cases hfound : sourceExtensions.findSome? fun e => Text.dropTail? e (s ++ ext) with
  | none => exact absurd (List.findSome?_eq_none_iff.1 hfound ext h) (by simp [hown])
  | some t =>
    obtain ⟨e, he, ht⟩ := List.exists_of_findSome?_eq_some hfound
    have hsplit := Text.dropTail?_eq_some_iff.1 ht
    -- Of two endings of one text the shorter is an ending of the longer.
    have hfirst : e.toList <:+ (s ++ ext).toList :=
      ⟨t.toList, by rw [hsplit, String.toList_append]⟩
    have hsecond : ext.toList <:+ (s ++ ext).toList := ⟨s.toList, String.toList_append.symm⟩
    have hboth := List.suffix_or_suffix_of_suffix hfirst hsecond
    obtain rfl : e = ext := by
      rcases hboth with hsuffix | hsuffix
      · exact eq_of_suffix_sourceExtensions e he ext h hsuffix
      · exact (eq_of_suffix_sourceExtensions ext h e he hsuffix).symm
    rw [hown] at ht
    exact (Option.some.inj ht).symm

/-- A text that ends with no extension keeps its end. -/
theorem stripSourceExtension_of_bare {s : String}
    (h : ∀ ext ∈ sourceExtensions, ¬ ext.toList <:+ s.toList) : stripSourceExtension s = s := by
  have hnone : sourceExtensions.findSome? (fun ext => Text.dropTail? ext s) = none := by
    rw [List.findSome?_eq_none_iff]
    intro ext hext
    cases ht : Text.dropTail? ext s with
    | none => rfl
    | some t =>
      have hs := Text.dropTail?_eq_some_iff.1 ht
      exact absurd ⟨t.toList, by rw [hs, String.toList_append]⟩ (h ext hext)
  rw [stripSourceExtension, hnone, Option.getD_none]

namespace Path

theorem exists_components_of_fileName {p : Path} {s : String} (h : p.fileName = some s) :
    ∃ front, p.components = front ++ [.name s] := by
  unfold fileName at h
  split at h
  · rename_i found hfound
    rw [← Option.some.inj h]
    exact List.getLast?_eq_some_iff.1 hfound
  · cases h

/-- A file is in normal form with its name at the end. -/
theorem exists_normal_of_fileName {p : Path} {s : String} (h : p.fileName = some s) :
    ∃ front, (normalize p).components = front ++ [.name s] := by
  obtain ⟨front, hfront⟩ := exists_components_of_fileName h
  refine ⟨(front.foldl pushNormal []).reverse, ?_⟩
  rw [components_normalize, hfront, collapse, List.foldl_append]
  simp [pushNormal]

/-- What stands at the end of a name stands at the end of the path. -/
theorem spelling_concat (front : List Component) (s t : String) :
    (ofComponents (front ++ [.name (s ++ t)])).spelling =
      (ofComponents (front ++ [.name s])).spelling ++ t := by
  have hjoin : ∀ parts : List String, Text.joinText "/" (parts ++ [s ++ t]) =
      Text.joinText "/" (parts ++ [s]) ++ t := by
    intro parts
    obtain ⟨lead, -, hlead⟩ := Text.exists_lead_joinText parts
    rw [hlead, hlead, String.append_assoc]
  cases front with
  | nil => exact hjoin []
  | cons c front =>
    have hparts := hjoin (front.map Component.text)
    have hall := hjoin (c.text :: front.map Component.text)
    cases c with
    | root => simpa [ofComponents, Component.text, String.append_assoc] using hparts
    | _ => simpa [ofComponents, Component.text] using hall

/-- The path of an entry file and of a file named with the same extension, which is one of source
files. What comes before it in the name is a name by itself and has no such extension. -/
structure Namesake (main file : Path) (stem ext : String) : Prop where
  entry : main.extension = some ext
  source : "." ++ ext ∈ sourceExtensions
  name : file.fileName = some (stem ++ "." ++ ext)
  proper : stem ∉ ["", ".", ".."]
  bare : ∀ e ∈ sourceExtensions, ¬ e.toList <:+ stem.toList

/-- Both paths are absolute, or both are relative and the directory of the first is not outside of
where they start. -/
def Comparable (main file : Path) : Prop :=
  (main.isAbsolute = true ∧ file.isAbsolute = true) ∨
    (main.isAbsolute = false ∧ file.isAbsolute = false ∧
      (normalize main.directory).components.head? ≠ some .up)

/-- The path of a file is the directory of another one, or a directory above it. -/
def Above (file main : Path) : Prop :=
  (normalize file).components <+: (normalize main.directory).components

variable {main file : Path} {stem ext : String}

namespace Namesake

theorem strip_name (h : Namesake main file stem ext) :
    stripSourceExtension (stem ++ "." ++ ext) = stem := by
  rw [String.append_assoc]
  exact stripSourceExtension_concat h.source stem

theorem strip_stem (h : Namesake main file stem ext) : stripSourceExtension stem = stem :=
  stripSourceExtension_of_bare h.bare

/-- The stem is a component of a path. -/
theorem named_stem (h : Namesake main file stem ext) : named [stem] = [.name stem] := by
  have hproper := h.proper
  simp only [List.mem_cons, List.not_mem_nil, or_false, not_or] at hproper
  obtain ⟨hempty, hdot, hup⟩ := hproper
  simp [named, isIdle, hempty, hdot, Component.ofPart, hup]

theorem isPlain_name (h : Namesake main file stem ext) :
    (Component.name (stem ++ "." ++ ext)).IsPlain := by
  obtain ⟨front, hfront⟩ := exists_normal_of_fileName h.name
  have hkept := kept_normalize file
  rw [hfront, List.reverse_append] at hkept
  cases hkept with
  | name hname _ => exact hname

theorem isPlain_stem (h : Namesake main file stem ext) : (Component.name stem).IsPlain := by
  have hwhole : '/' ∉ stem.toList := by
    intro hmem
    apply h.isPlain_name.whole
    rw [String.toList_append, String.toList_append]
    exact List.mem_append_left _ (List.mem_append_left _ hmem)
  have hparts : ∀ part ∈ [stem], '/' ∉ part.toList := List.forall_mem_singleton.2 hwhole
  exact isPlain_of_mem_named hparts (by simp [h.named_stem])

end Namesake

/-- An entry file has a directory on its own side. -/
theorem isAbsolute_directory {p : Path} {s : String} (h : p.fileName = some s) :
    p.directory.isAbsolute = p.isAbsolute := by
  obtain ⟨front, hfront⟩ := exists_components_of_fileName h
  rw [Bool.eq_iff_iff, ← mem_root_components, ← mem_root_components, components_directory, hfront,
    List.dropLast_concat]
  simp

theorem exists_fileName_of_extension {p : Path} (h : p.extension = some ext) :
    ∃ s, p.fileName = some s := by
  unfold extension at h
  split at h
  · cases h
  · rename_i s hs
    exact ⟨s, hs⟩

/-- A way between comparable paths leaves no `..`. -/
theorem Comparable.way (h : Comparable main file) (he : main.extension = some ext) :
    main.directory.isAbsolute = file.isAbsolute ∧ .up ∉ (way main file).1 := by
  obtain ⟨s, hs⟩ := exists_fileName_of_extension he
  have hside := isAbsolute_directory hs
  obtain ⟨common, ho, -, -⟩ := exists_common main file
  have hkept := kept_normalize main.directory
  have hhead : (normalize main.directory).components.head? ≠ some .up := by
    rcases h with ⟨hm, -⟩ | ⟨-, -, hhead⟩
    · intro hup
      obtain ⟨rest, hrest⟩ := List.head?_eq_some_iff.1 hup
      rw [hrest] at hkept
      have hroot : .root ∈ (normalize main.directory).components := by
        rw [mem_root_components, isAbsolute_normalize, hside, hm]
      rcases hkept.isPlain with hall | ⟨_, hroots, -⟩
      · rw [hrest] at hroot
        exact hall _ hroot
      · cases hroots
    · exact hhead
  refine ⟨?_, ?_⟩
  · rcases h with ⟨hm, hf⟩ | ⟨hm, hf, -⟩
    · rw [hside, hm, hf]
    · rw [hside, hm, hf]
  · intro hup
    have hmem : Component.up ∈ (normalize main.directory).components := by
      rw [ho]
      exact List.mem_append_right _ hup
    obtain ⟨before, after, hsplit⟩ := List.append_of_mem hmem
    rw [hsplit] at hkept hhead
    have hbefore : ∀ c ∈ before, c = .up := forall_up_of_kept hkept (List.mem_cons_self ..)
    cases before with
    | nil => exact hhead rfl
    | cons c before =>
      obtain rfl := hbefore c (List.mem_cons_self ..)
      exact hhead rfl

/-- A way leads up and no further where the file is above. -/
theorem way_eq_nil_iff : (way main file).2 = [] ↔ Above file main := by
  obtain ⟨common, ho, ht, hd⟩ := exists_common main file
  rw [Above, ho, ht]
  constructor
  · intro hw
    rw [hw, List.append_nil]
    exact List.prefix_append ..
  · rintro ⟨rest, hrest⟩
    rw [List.append_assoc] at hrest
    have hup := List.append_cancel_left hrest
    cases hw : (way main file).2 with
    | nil => rfl
    | cons c down =>
      rw [hw] at hup hd
      exact absurd rfl (hd c c (by rw [← hup]; rfl) rfl)

/-- A way is spelled with a name at its end that is the stem of the file, or with steps up only. -/
theorem exists_lead_wayText (h : Namesake main file stem ext) : ∃ lead last,
    (lead = "" ∨ lead.toList.getLast? = some '/') ∧ wayText main file = lead ++ last ∧
      stripSourceExtension last = last := by
  obtain ⟨front, hfront⟩ := exists_normal_of_fileName h.name
  obtain ⟨common, -, ht, -⟩ := exists_common main file
  have hjoined : ∀ parts last, (way main file).1.map (fun _ => "..") ++
      (way main file).2.map Component.text = parts ++ [last] →
      ∃ lead, (lead = "" ∨ lead.toList.getLast? = some '/') ∧
        wayText main file = lead ++ stripSourceExtension last := by
    intro parts last hparts
    obtain ⟨lead, hlead, hjoin⟩ := Text.exists_lead_joinText parts
    exact ⟨lead, hlead, by rw [wayText, hparts, hjoin, stripSourceExtension_behind _ hlead]⟩
  rcases List.eq_nil_or_concat (way main file).2 with hw | ⟨down, last, hw⟩
  · rcases List.eq_nil_or_concat (way main file).1 with hu | ⟨up, c, hu⟩
    · exact ⟨"", "", .inl rfl, by rw [wayText, hu, hw]; decide, by decide⟩
    · obtain ⟨lead, hlead, htext⟩ := hjoined (up.map fun _ => "..") ".." (by simp [hu, hw])
      exact ⟨lead, "..", hlead, by rw [htext, strip_up], strip_up⟩
  · rw [List.concat_eq_append] at hw
    obtain rfl : last = .name (stem ++ "." ++ ext) := by
      rw [hw, hfront, ← List.append_assoc] at ht
      exact (List.append_inj_right' ht rfl |> List.singleton_inj.1).symm
    obtain ⟨lead, hlead, htext⟩ := hjoined
      ((way main file).1.map (fun _ => "..") ++ down.map Component.text) (stem ++ "." ++ ext)
      (by simp [hw, Component.text])
    rw [h.strip_name] at htext
    exact ⟨lead, stem, hlead, htext, h.strip_stem⟩

/-- A specifier with an extension at its end, or none, is the specifier without it. -/
theorem stripSourceExtension_specifierTo (h : Namesake main file stem ext) {tail : String}
    (ht : tail = "" ∨ tail ∈ sourceExtensions) :
    stripSourceExtension (specifierTo main file ++ tail) = specifierTo main file := by
  rcases ht with rfl | ht
  · obtain ⟨lead, last, hlead, hway, hlast⟩ := exists_lead_wayText h
    rw [String.append_empty]
    rcases specifierTo_cases main file with ⟨_, htext, hs⟩ | hs
    · rw [hs, ← htext, hway, stripSourceExtension_behind last hlead, hlast]
    · have hdot : "./" ++ lead = "" ∨ ("./" ++ lead).toList.getLast? = some '/' := by
        right
        rcases hlead with rfl | hlead
        · decide
        · rw [String.toList_append, List.getLast?_append, hlead]
          rfl
      rw [hs, hway, ← String.append_assoc, stripSourceExtension_behind last hdot, hlast]
  · exact stripSourceExtension_concat ht _

end Path

namespace SourceFile

open Codemod.Path Source

variable {main file : Path} {stem ext : String}

/-- Followed back, a specifier leads to its file, or it ends up in a directory with the path of the
file. -/
theorem moduleFile_specifierTo (hc : Comparable main file) (h : Namesake main file stem ext)
    {tail : String} (ht : tail = "" ∨ tail ∈ sourceExtensions) :
    (¬ Above file main → moduleFile main (specifierTo main file ++ tail) = normalize file) ∧
      (Above file main → moduleFile main (specifierTo main file ++ tail) =
        ⟨(normalize file).spelling ++ "." ++ ext⟩) := by
  obtain ⟨hside, hup⟩ := hc.way h.entry
  have hfile : moduleFile main (specifierTo main file ++ tail) =
      ⟨(normalize (main.directory.join ⟨specifierTo main file⟩)).spelling ++ "." ++ ext⟩ := by
    rw [moduleFile, stripSourceExtension_specifierTo h ht, h.entry, Option.getD_some]
  rw [hfile, ← way_eq_nil_iff]
  constructor
  · intro hw
    obtain ⟨front, hfront⟩ := exists_normal_of_fileName h.name
    have hkept := kept_normalize file
    rw [hfront, List.reverse_append] at hkept
    have hstem : Kept (front ++ [Component.name stem]).reverse := by
      rw [List.reverse_append]
      cases hkept with
      | name _ hrest => exact .name h.isPlain_stem hrest
    have hreached : (normalize (main.directory.join ⟨specifierTo main file⟩)).components =
        front ++ [.name stem] := by
      rw [components_reached_eq hside hup (.inl hw), collapse_moduleOf hfront h.isPlain_name,
        Component.text, h.strip_name, h.named_stem, collapse_of_kept hstem]
    have hplace := normalize_eq_ofComponents (main.directory.join ⟨specifierTo main file⟩)
    rw [hreached] at hplace
    rw [hplace, normalize_eq_ofComponents file, hfront, String.append_assoc, String.append_assoc,
      ← spelling_concat]
  · intro hw
    have hplace := normalize_eq_ofComponents (main.directory.join ⟨specifierTo main file⟩)
    rw [components_reached_up hside hup hw, ← normalize_eq_ofComponents] at hplace
    rw [hplace]

/-- An entry file that bootstraps what it imports by the specifier of a file has that file as its
root module, unless the file is above it. -/
theorem rootModule_of_specifierTo {entry : SourceFile} {name tail : String}
    (hc : Comparable entry.path file) (h : Namesake entry.path file stem ext)
    (hb : entry.bootstrappedName = some name)
    (ho : entry.originOf name = some (specifierTo entry.path file ++ tail))
    (ht : tail = "" ∨ tail ∈ sourceExtensions) :
    (¬ Above file entry.path → entry.rootModule = some (normalize file)) ∧
      (Above file entry.path →
        entry.rootModule = some ⟨(normalize file).spelling ++ "." ++ ext⟩) := by
  have hdot : ((specifierTo entry.path file ++ tail).toList.head? == some '.') = true := by
    obtain ⟨rest, hrest | hrest⟩ := specifierTo_relative entry.path file <;>
      simp [hrest]
  have hroot : entry.rootModule =
      some (moduleFile entry.path (specifierTo entry.path file ++ tail)) := by
    rw [rootModule_eq, hb, Option.bind_some, ho, Option.filter_some, if_pos hdot, Option.map_some]
  obtain ⟨hapart, habove⟩ := moduleFile_specifierTo hc h ht
  exact ⟨fun hn => by rw [hroot, hapart hn], fun ha => by rw [hroot, habove ha]⟩

def bootstrapping (path : Path) (specifier : String) : SourceFile :=
  let n := Text.size specifier
  { path
    language := .typeScript
    text := "import \x7b A \x7d from \x27" ++ specifier ++ "\x27;\np.bootstrapModule(A);\n"
    root := .ofGrammar "program" 0 (n + 44)
      [.ofGrammar "import_statement" 0 (n + 21)
        [.ofGrammar "import_clause" 7 12
          [.ofGrammar "named_imports" 7 12
            [.ofGrammar "import_specifier" 9 10
              [(Node.ofGrammar "identifier" 9 10 []).filling "name"]]],
          (Node.ofGrammar "string" 18 (n + 20) []).filling "source"],
      .ofGrammar "expression_statement" (n + 22) (n + 43)
        [.ofGrammar "call_expression" (n + 22) (n + 42)
          [(Node.ofGrammar "member_expression" (n + 22) (n + 39)
            [(Node.ofGrammar "property_identifier" (n + 24) (n + 39) []).filling
              "property"]).filling "function",
          (Node.ofGrammar "arguments" (n + 39) (n + 42)
            [.ofGrammar "identifier" (n + 40) (n + 41) []]).filling "arguments"]]] }

theorem rootModule_bootstrapping :
    specifierTo ⟨"src/./main.mts"⟩ ⟨"x/../lib/a.b.mts"⟩ = "../lib/a.b" ∧
      (bootstrapping ⟨"src/./main.mts"⟩ "../lib/a.b.ts").rootModule = some ⟨"lib/a.b.mts"⟩ := by
  refine ⟨by decide +kernel, ?_⟩
  have hc : Comparable ⟨"src/./main.mts"⟩ ⟨"x/../lib/a.b.mts"⟩ :=
    .inr ⟨by decide +kernel, by decide +kernel, by decide +kernel⟩
  have hn : Namesake ⟨"src/./main.mts"⟩ ⟨"x/../lib/a.b.mts"⟩ "a.b" "mts" :=
    ⟨by decide +kernel, by decide, by decide +kernel, by decide, by decide +kernel⟩
  have hname : (bootstrapping ⟨"src/./main.mts"⟩ "../lib/a.b.ts").bootstrappedName = some "A" := by
    decide +kernel
  have horigin : (bootstrapping ⟨"src/./main.mts"⟩ "../lib/a.b.ts").originOf "A" =
      some (specifierTo ⟨"src/./main.mts"⟩ ⟨"x/../lib/a.b.mts"⟩ ++ ".ts") := by
    decide +kernel
  have hapart : ¬ Above ⟨"x/../lib/a.b.mts"⟩ ⟨"src/./main.mts"⟩ := by
    unfold Above
    decide +kernel
  rw [(rootModule_of_specifierTo hc hn hname horigin (.inr (by decide))).1 hapart]
  decide +kernel

/-- A file with the path of the directory of the entry is not found. -/
theorem rootModule_directoryOfEntry :
    Comparable ⟨"app.ts/main.ts"⟩ ⟨"app.ts"⟩ ∧
    Namesake ⟨"app.ts/main.ts"⟩ ⟨"app.ts"⟩ "app" "ts" ∧
    (bootstrapping ⟨"app.ts/main.ts"⟩ "./").bootstrappedName = some "A" ∧
    (bootstrapping ⟨"app.ts/main.ts"⟩ "./").originOf "A" =
      some (specifierTo ⟨"app.ts/main.ts"⟩ ⟨"app.ts"⟩) ∧
    (bootstrapping ⟨"app.ts/main.ts"⟩ "./").rootModule ≠ some (Path.normalize ⟨"app.ts"⟩) :=
  ⟨.inr (by decide +kernel),
    ⟨by decide +kernel, by decide, by decide +kernel, by decide, by decide +kernel⟩,
    by decide +kernel, by decide +kernel, by decide +kernel⟩

end SourceFile

end Codemod
