import Codemod.Module.Root
import Codemod.Proofs.PathJoins
import Codemod.Proofs.ProjectTexts

/-!
Specifiers and the files they lead to.

A specifier without its extension is a leading part of it. So a specifier that begins with `.` is
relative without its extension too, and the root module does not depend on how the path of the
entry file is spelled.
-/
namespace Codemod

namespace Text

theorem dropTail?_eq_some_iff {tail s t : String} :
    dropTail? tail s = some t ↔ s = t ++ tail := by
  rw [dropTail?, Option.map_eq_some_iff]
  constructor
  · rintro ⟨front, h, rfl⟩
    rw [dropLead?_eq_some_iff] at h
    rw [← String.toList_inj, String.toList_append, String.toList_ofList]
    simpa using congrArg List.reverse h
  · rintro rfl
    refine ⟨t.toList.reverse, ?_, by simp⟩
    rw [dropLead?_eq_some_iff]
    simp

end Text

/-- A specifier is what is left of it without its extension, and that extension if it has one. -/
theorem stripSourceExtension_append (specifier : String) :
    ∃ tail ∈ "" :: sourceExtensions, specifier = stripSourceExtension specifier ++ tail := by
  unfold stripSourceExtension
  cases h : sourceExtensions.findSome? fun ext => Text.dropTail? ext specifier with
  | none => exact ⟨"", List.mem_cons_self .., by simp⟩
  | some stem =>
    obtain ⟨ext, hmem, hext⟩ := List.exists_of_findSome?_eq_some h
    exact ⟨ext, List.mem_cons_of_mem _ hmem, Text.dropTail?_eq_some_iff.1 hext⟩

/-- A relative specifier is relative without its extension. -/
theorem isAbsolute_stripSourceExtension {specifier : String}
    (h : specifier.toList.head? = some '.') :
    Path.isAbsolute ⟨stripSourceExtension specifier⟩ = false := by
  obtain ⟨tail, -, ht⟩ := stripSourceExtension_append specifier
  rw [ht, String.toList_append] at h
  cases hs : (stripSourceExtension specifier).toList with
  | nil => simp [Path.isAbsolute, hs]
  | cons c cs =>
    rw [hs] at h
    have hc : c = '.' := by simpa using h
    simp [Path.isAbsolute, hs, hc]

namespace SourceFile

def moduleFile (origin : Path) (specifier : String) : Path :=
  ⟨(Path.normalize (origin.directory.join ⟨stripSourceExtension specifier⟩)).spelling ++ "."
    ++ origin.extension.getD "ts"⟩

theorem rootModule_eq (file : SourceFile) : file.rootModule =
    ((file.bootstrappedName.bind file.originOf).filter fun specifier =>
      specifier.toList.head? == some '.').map (moduleFile file.path) := by
  unfold rootModule
  cases file.bootstrappedName with
  | none => rfl
  | some name =>
    cases ho : file.originOf name with
    | none => simp only [bind, Option.bind, ho, Option.filter, Option.map]
    | some specifier =>
      by_cases hd : specifier.toList.head? = some '.'
      · simp only [bind, Option.bind, ho, Option.filter, hd, moduleFile, Option.map, beq_self_eq_true,
          ne_eq, not_true_eq_false, if_true, if_false]
      · have hb : (specifier.toList.head? == some '.') = false := by simpa using hd
        simp only [bind, Option.bind, ho, Option.filter, hd, hb, Option.map, ne_eq,
          not_false_eq_true, if_true, Bool.false_eq_true, if_false]

theorem moduleFile_congr {p q : Path} (h : p.same q = true) {specifier : String}
    (hd : specifier.toList.head? = some '.') : moduleFile p specifier = moduleFile q specifier := by
  have hjoin := Path.normalize_join_congr (Path.directory_congr h)
    (isAbsolute_stripSourceExtension hd)
  rw [moduleFile, moduleFile, hjoin, Path.extension_congr h]

/-- How the path of an entry file is spelled makes no difference to the root module. -/
theorem rootModule_spelledAs (file : SourceFile) {p : Path} (h : p.same file.path = true) :
    (file.spelledAs p).rootModule = file.rootModule := by
  have hname : (file.spelledAs p).bootstrappedName = file.bootstrappedName := rfl
  have horigin : (file.spelledAs p).originOf = file.originOf := rfl
  rw [rootModule_eq, rootModule_eq, hname, horigin]
  apply Option.map_congr
  intro specifier hs
  have hd := (Option.filter_eq_some_iff.1 hs).2
  exact moduleFile_congr h (by simpa using hd)

end SourceFile

/-- How the path of a file is spelled makes no difference to its specifiers. -/
theorem specifierTo_congr {p q : Path} (h : p.same q = true) (target : Path) :
    specifierTo p target = specifierTo q target := by
  have hnormal : p.directory.normalize = q.directory.normalize := by
    rw [Path.normalize, Path.normalize, Path.directory_congr h]
  rw [specifierTo, specifierTo, hnormal]

namespace Text

/-- A character that stands for itself in quotes. -/
def isVerbatim (c : Char) : Bool := escapeQuoted c == [c]

/-- What stands for a character is the character, or it ends with a mark of its own. -/
theorem escapeQuoted_cases (c : Char) :
    escapeQuoted c = [c] ∨ (1 < (escapeQuoted c).length ∧
      ∃ front, ∃ e ∈ ['\\', '\x27', 'n', 'r', '8', '9'], escapeQuoted c = front ++ [e]) := by
  unfold escapeQuoted
  split
  · exact .inr ⟨by decide, ['\\'], '\\', by decide, rfl⟩
  · split
    · exact .inr ⟨by decide, ['\\'], '\x27', by decide, rfl⟩
    · split
      · exact .inr ⟨by decide, ['\\'], 'n', by decide, rfl⟩
      · split
        · exact .inr ⟨by decide, ['\\'], 'r', by decide, rfl⟩
        · split
          · exact .inr ⟨by decide, ['\\', 'u', '2', '0', '2'], '8', by decide, rfl⟩
          · split
            · exact .inr ⟨by decide, ['\\', 'u', '2', '0', '2'], '9', by decide, rfl⟩
            · exact .inl rfl

/-- A character that no escape ends with stands for itself at the end. -/
theorem eq_append_of_flatMap_escapeQuoted {cs front : List Char} {e : Char}
    (he : e ∉ ['\\', '\x27', 'n', 'r', '8', '9'])
    (h : cs.flatMap escapeQuoted = front ++ [e]) :
    ∃ cs', cs = cs' ++ [e] ∧ cs'.flatMap escapeQuoted = front := by
  rcases List.eq_nil_or_concat cs with rfl | ⟨cs', c, rfl⟩
  · simp at h
  · simp only [List.concat_eq_append, List.flatMap_append, List.flatMap_cons, List.flatMap_nil,
      List.append_nil] at h
    rcases escapeQuoted_cases c with hc | ⟨-, inner, d, hd, hc⟩
    · rw [hc] at h
      obtain ⟨hfront, hce⟩ := List.append_inj' h rfl
      obtain rfl : c = e := by simpa using hce
      exact ⟨cs', by simp, hfront⟩
    · rw [hc, ← List.append_assoc] at h
      obtain ⟨-, hde⟩ := List.append_inj' h rfl
      obtain rfl : d = e := by simpa using hde
      exact absurd hd he

theorem eq_append_of_flatMap_reverse {cs front rev : List Char}
    (hr : ∀ e ∈ rev, e ∉ ['\\', '\x27', 'n', 'r', '8', '9'])
    (h : cs.flatMap escapeQuoted = front ++ rev.reverse) :
    ∃ cs', cs = cs' ++ rev.reverse ∧ cs'.flatMap escapeQuoted = front := by
  -- From the last character of the tail to its first.
  induction rev generalizing cs with
  | nil => exact ⟨cs, by simp, by simpa using h⟩
  | cons e rest ih =>
    obtain ⟨he, hrest⟩ := List.forall_mem_cons.1 hr
    rw [List.reverse_cons, ← List.append_assoc] at h
    obtain ⟨cs', rfl, h'⟩ := eq_append_of_flatMap_escapeQuoted he h
    obtain ⟨cs'', rfl, hfront⟩ := ih hrest h'
    exact ⟨cs'', by simp, hfront⟩

theorem flatMap_escapeQuoted_of_verbatim {cs : List Char} (h : ∀ c ∈ cs, isVerbatim c = true) :
    cs.flatMap escapeQuoted = cs := by
  induction cs with
  | nil => rfl
  | cons c cs ih =>
    obtain ⟨hc, hcs⟩ := List.forall_mem_cons.1 h
    have hone : escapeQuoted c = [c] := by simpa [isVerbatim] using hc
    rw [List.flatMap_cons, hone, ih hcs, List.singleton_append]

/-- With a character that is escaped a text gets longer. -/
theorem verbatim_of_length_le {cs : List Char} (h : (cs.flatMap escapeQuoted).length ≤ cs.length) :
    ∀ c ∈ cs, isVerbatim c = true := by
  have hle : ∀ c, 1 ≤ (escapeQuoted c).length := by
    intro c
    rcases escapeQuoted_cases c with hc | ⟨hc, -⟩
    · simp [hc]
    · omega
  have hmore : ∀ ds : List Char, ds.length ≤ (ds.flatMap escapeQuoted).length := by
    intro ds
    induction ds with
    | nil => simp
    | cons d ds ih =>
      have := hle d
      rw [List.flatMap_cons, List.length_append, List.length_cons]
      omega
  induction cs with
  | nil => simp
  | cons c cs ih =>
    rw [List.flatMap_cons, List.length_append, List.length_cons] at h
    have h1 := hle c
    have h2 := hmore cs
    refine List.forall_mem_cons.2 ⟨?_, ih (by omega)⟩
    rcases escapeQuoted_cases c with hc | ⟨hc, -⟩
    · simp [isVerbatim, hc]
    · omega

end Text

/-- The extensions of source files have no characters that escapes end with. -/
theorem extension_verbatim : ∀ ext ∈ sourceExtensions, ∀ e ∈ ext.toList,
    e ∉ ['\\', '\x27', 'n', 'r', '8', '9'] ∧ Text.isVerbatim e = true := by
  have hall : (sourceExtensions.all fun ext => ext.toList.all fun e =>
      Text.isVerbatim e && !(['\\', '\x27', 'n', 'r', '8', '9'].contains e)) = true := by decide
  intro ext hext e he
  have hone := List.all_eq_true.1 (List.all_eq_true.1 hall ext hext) e he
  rw [Bool.and_eq_true] at hone
  obtain ⟨hverbatim, hmark⟩ := hone
  exact ⟨by simpa using hmark, hverbatim⟩

theorem dropTail?_escaped {ext : String} (he : ext ∈ sourceExtensions) (s : String) :
    Text.dropTail? ext (String.ofList (Text.escaped s)) =
      (Text.dropTail? ext s).map fun t => String.ofList (Text.escaped t) := by
  have hext := extension_verbatim ext he
  apply Option.ext
  intro t
  rw [Text.dropTail?_eq_some_iff, Option.map_eq_some_iff]
  constructor
  · intro h
    have hlist : s.toList.flatMap Text.escapeQuoted = t.toList ++ ext.toList.reverse.reverse := by
      have := congrArg String.toList h
      simpa [Text.escaped] using this
    obtain ⟨cs, hs, ht⟩ := Text.eq_append_of_flatMap_reverse
      (fun e hm => (hext e (List.mem_reverse.1 hm)).1) hlist
    refine ⟨String.ofList cs, ?_, ?_⟩
    · rw [Text.dropTail?_eq_some_iff, ← String.toList_inj]
      simpa using hs
    · simp [Text.escaped, ht]
  · rintro ⟨front, hf, rfl⟩
    rw [Text.dropTail?_eq_some_iff] at hf
    have hverbatim := Text.flatMap_escapeQuoted_of_verbatim fun e hm => (hext e hm).2
    rw [hf, ← String.toList_inj]
    simp [Text.escaped, hverbatim]

/-- What keeps each extension at the end of a text keeps what is in front of it. -/
theorem stripSourceExtension_map (f : String → String) {s : String}
    (h : ∀ ext ∈ sourceExtensions, Text.dropTail? ext (f s) = (Text.dropTail? ext s).map f) :
    stripSourceExtension (f s) = f (stripSourceExtension s) := by
  have hall : ∀ exts : List String, (∀ ext ∈ exts, ext ∈ sourceExtensions) →
      exts.findSome? (fun ext => Text.dropTail? ext (f s)) =
        (exts.findSome? fun ext => Text.dropTail? ext s).map f := by
    intro exts hexts
    induction exts with
    | nil => rfl
    | cons ext exts ih =>
      obtain ⟨hext, hrest⟩ := List.forall_mem_cons.1 hexts
      rw [List.findSome?_cons, List.findSome?_cons, h ext hext, ih hrest]
      cases Text.dropTail? ext s <;> rfl
  rw [stripSourceExtension, stripSourceExtension, hall sourceExtensions fun _ hext => hext]
  cases sourceExtensions.findSome? fun ext => Text.dropTail? ext s <;> rfl

theorem stripSourceExtension_escaped (s : String) :
    stripSourceExtension (String.ofList (Text.escaped s)) =
      String.ofList (Text.escaped (stripSourceExtension s)) :=
  stripSourceExtension_map (fun t => String.ofList (Text.escaped t)) fun _ hext =>
    dropTail?_escaped hext s

/-- A specifier with escapes in it is the same module exactly if there is nothing to escape. -/
theorem sameModule_escaped_iff {s : String} :
    sameModule (String.ofList (Text.escaped s)) s = true ↔
      ∀ c ∈ s.toList, Text.isVerbatim c = true := by
  constructor
  · intro h
    rw [sameModule, beq_iff_eq, stripSourceExtension_escaped] at h
    have hstem : ∀ c ∈ (stripSourceExtension s).toList, Text.isVerbatim c = true := by
      apply Text.verbatim_of_length_le
      have := congrArg (fun t => t.toList.length) h
      simp only [String.toList_ofList, Text.escaped] at this
      omega
    have htail : ∃ tail, s = stripSourceExtension s ++ tail ∧
        ∀ c ∈ tail.toList, Text.isVerbatim c = true := by
      unfold stripSourceExtension
      cases hf : sourceExtensions.findSome? fun ext => Text.dropTail? ext s with
      | none => exact ⟨"", by simp, by simp⟩
      | some stem =>
        obtain ⟨ext, he, hd⟩ := List.exists_of_findSome?_eq_some hf
        exact ⟨ext, Text.dropTail?_eq_some_iff.1 hd, fun c hc => (extension_verbatim ext he c hc).2⟩
    obtain ⟨tail, hs, ht⟩ := htail
    rw [hs, String.toList_append]
    intro c hc
    rcases List.mem_append.1 hc with hc | hc
    · exact hstem c hc
    · exact ht c hc
  · intro h
    rw [Text.escaped, Text.flatMap_escapeQuoted_of_verbatim h, String.ofList_toList, sameModule]
    simp

end Codemod
