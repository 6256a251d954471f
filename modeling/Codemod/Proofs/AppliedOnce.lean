import Codemod.Proofs.LaterTexts
import Codemod.Proofs.Registrations

/-!
Changes that are made once.

A planned import or registration is put into a file, and the text is read again. If the tree comes
out as it was, with the nodes of the change at the place, then the change is found in the file, and
a plan for it does nothing. The list that an import is put into belongs to one import of the module
among several, and the call that an element is put into is the first one of its callee, before and
after.
-/
namespace Codemod

open Source Node

namespace SourceFile

/-- What a parser makes of a text that a change was put into: the tree as it was, with all that is
behind the place moved by the size of the piece, and at the place the item of the change, behind a
comma where one was put. -/
structure Takes (file file' : SourceFile) (change : Change) (offset : Nat) (piece : String)
    (IsItem : AnchorKind → Node → Prop) : Prop where
  kind : file'.root.kind = file.root.kind
  children : ∃ anchor commas item, file.locate change = .ok anchor ∧
    file'.root.children =
      growChildren offset (Text.size piece) (commas ++ [item]) file.root.children ∧
    (∀ comma ∈ commas, comma.kind = .comma ∧ comma.children = []) ∧ IsItem anchor.kind item

variable {reader : TreeReader} {file file' : SourceFile} {change : Change} {target : Path}
  {offset : Nat} {piece rationale text : String}

/-- How a file has grown that a planned change was put into. -/
theorem Takes.grows {IsItem : AnchorKind → Node → Prop}
    (h : file.Takes file' change offset piece IsItem)
    (hplan : file.plan change = .ok (.insert target offset piece rationale))
    (htext : Text.insertAt? file.text offset piece = some text)
    (hread : SourceFile.readAs reader file.path text file.language = .ok file') :
    ∃ anchor commas item, file.locate change = .ok anchor ∧ anchor.offset = offset ∧
      file.Grows file' offset piece (commas ++ [item]) ∧
      (∀ comma ∈ commas, comma.kind = .comma ∧ comma.children = []) ∧ IsItem anchor.kind item := by
  obtain ⟨-, -, found, hfound, hoffset, -⟩ := plan_eq_insert hplan
  obtain ⟨anchor, commas, item, hlocate, hchildren, hcommas, hitem⟩ := h.children
  obtain rfl : anchor = found := Except.ok.inj (hlocate.symm.trans hfound)
  have hfile : file'.path = file.path ∧ file'.text = text := by
    unfold SourceFile.readAs at hread
    split at hread
    · obtain rfl := Except.ok.inj hread
      exact ⟨rfl, rfl⟩
    · cases hread
  refine ⟨anchor, commas, item, hlocate, hoffset, ⟨hfile.1, ?_, h.kind, hchildren⟩, hcommas, hitem⟩
  rw [hfile.2, htext]

theorem eq_ok_of_toOption {ε α : Type} {answer : Except ε α} {a : α}
    (h : answer.toOption = some a) : answer = .ok a := by
  cases answer with
  | error error => cases h
  | ok found => rw [Option.some.inj h]

def readerOf (files : List SourceFile) : TreeReader := fun _ text =>
  (files.find? fun file => file.text == text).map SourceFile.root

/-- A change that is there is planned as nothing to do. -/
theorem plan_of_isPresent (h : file.isPresent change = true) :
    file.plan change = .ok (file.noOpPlan change) := by
  rw [SourceFile.plan, if_pos h]

theorem bindsValue_of_importBinds {identifier module : String}
    (h : file.importBinds identifier module = true) : file.bindsValue identifier = true := by
  obtain ⟨node, hn, hb⟩ := List.any_eq_true.1 h
  rw [Bool.and_eq_true] at hb
  rw [bindsValue, Bool.or_eq_true]
  exact .inl (List.any_eq_true.2 ⟨node, hn, hb.2⟩)

/-- An import that is put into a file is found in it, in whichever place it was put. -/
theorem importBinds_of_grows (hr : file.Regular) {identifier module : String}
    (hmodule : ∀ c ∈ module.toList, Text.isVerbatim c = true) {anchor : Anchor}
    {commas : List Node} {item : Node}
    (hlocate : file.locate (.insertImport identifier module) = .ok anchor)
    (hg : file.Grows file' anchor.offset piece (commas ++ [item]))
    (hcommas : ∀ comma ∈ commas, comma.kind = .comma ∧ comma.children = [])
    (hi : file'.IsItem (.insertImport identifier module) anchor.kind item) :
    file'.importBinds identifier module = true := by
  obtain ⟨g, hcar, -, hgrowth⟩ := Grows.importGrowth hr hlocate hg hi
  cases hgrowth with
  | name hk hsingle hnew htop hspecifier hn hhole =>
    exact hcar.importBinds_list hnew hspecifier hr hn hhole
  | statement hk hnew htop himport =>
    rw [hcar.importBinds_statement hcommas hnew htop himport hr, sameModule_escaped_iff.2 hmodule]
    simp

/-- An import is made once: in a file that a planned import was put into, the name is bound, from
the module, and a plan for the import does nothing. -/
theorem import_once (hr : file.Regular) {identifier module : String}
    (hmodule : ∀ c ∈ module.toList, Text.isVerbatim c = true)
    (hplan : file.plan (.insertImport identifier module) =
      .ok (.insert target offset piece rationale))
    (htext : Text.insertAt? file.text offset piece = some text)
    (hread : SourceFile.readAs reader file.path text file.language = .ok file')
    (htakes : file.Takes file' (.insertImport identifier module) offset piece
      (file'.IsItem (.insertImport identifier module))) :
    file'.importBinds identifier module = true ∧
      file'.plan (.insertImport identifier module) =
        .ok (file'.noOpPlan (.insertImport identifier module)) ∧
      file'.bindsValue identifier = true := by
  obtain ⟨anchor, commas, item, hlocate, rfl, hg, hcommas, hi⟩ := htakes.grows hplan htext hread
  have hbinds := importBinds_of_grows hr hmodule hlocate hg hcommas hi
  exact ⟨hbinds, plan_of_isPresent hbinds, bindsValue_of_importBinds hbinds⟩

/-- A file whose text is an import from `m`, with the nodes between its braces. -/
def importFile (text : String) (names : List Node) : SourceFile :=
  let size := Text.size text
  let token := fun grammar start stop => Node.ofGrammar grammar start stop []
  let named : Node := .ofGrammar "named_imports" 7 (size - 11)
    (token "\x7b" 7 8 :: names ++ [token "\x7d" (size - 12) (size - 11)])
  let module : Node := .ofGrammar "string" (size - 5) (size - 2)
    [token "\x27" (size - 5) (size - 4), token "string_fragment" (size - 4) (size - 3),
      token "\x27" (size - 3) (size - 2)]
  ⟨⟨"main.ts"⟩, .typeScript, text, .ofGrammar "program" 0 size
    [.ofGrammar "import_statement" 0 (size - 1)
      [token "import" 0 6, .ofGrammar "import_clause" 7 (size - 11) [named],
        token "from" (size - 10) (size - 6), module.filling "source",
        token ";" (size - 2) (size - 1)]]⟩

def nameAt (start : Nat) : Node :=
  .ofGrammar "import_specifier" start (start + 1)
    [(Node.ofGrammar "identifier" start (start + 1) []).filling "name"]

def oneName : SourceFile := importFile "import \x7b a \x7d from \x27m\x27;\n" [nameAt 9]

def twoNames : SourceFile :=
  importFile "import \x7b a, b \x7d from \x27m\x27;\n"
    [nameAt 9, .ofGrammar "," 10 11 [], nameAt 12]

theorem import_once_twoNames : oneName.Regular ∧
    oneName.plan (.insertImport "b" "m") = .ok (.insert ⟨"main.ts"⟩ 10 ", b"
      "import of `b` from \x27m\x27 at NamedImportsClose") ∧
    SourceFile.readAs (readerOf [twoNames]) oneName.path twoNames.text oneName.language =
      .ok twoNames ∧
    twoNames.importBinds "b" "m" = true ∧
    twoNames.plan (.insertImport "b" "m") = .ok (twoNames.noOpPlan (.insertImport "b" "m")) ∧
    twoNames.bindsValue "b" = true := by
  have hr : oneName.Regular := by decide +kernel
  have hverbatim : ∀ c ∈ "m".toList, Text.isVerbatim c = true := List.all_eq_true.1 (by decide)
  have hplan : oneName.plan (.insertImport "b" "m") = .ok (.insert ⟨"main.ts"⟩ 10 ", b"
      "import of `b` from \x27m\x27 at NamedImportsClose") := eq_ok_of_toOption (by decide +kernel)
  have htext : Text.insertAt? oneName.text 10 ", b" = some twoNames.text := by decide +kernel
  have hread : SourceFile.readAs (readerOf [twoNames]) oneName.path twoNames.text
      oneName.language = .ok twoNames := by rfl
  have htakes : oneName.Takes twoNames (.insertImport "b" "m") 10 ", b"
      (twoNames.IsItem (.insertImport "b" "m")) := by
    refine ⟨by decide +kernel, ⟨10, .namedImportsClose, true⟩, [.ofGrammar "," 10 11 []],
      nameAt 12, ?_, ?_, by decide +kernel, ?_⟩
    · exact eq_ok_of_toOption (by decide +kernel)
    · rfl
    · exact ⟨rfl, rfl, _, rfl, by decide +kernel⟩
  exact ⟨hr, hplan, hread, import_once hr hverbatim hplan htext hread htakes⟩

/-- A plain name has no quotes to lose. -/
theorem unquote_of_isPlainName {s : String} (h : Text.isPlainName s.toList = true) :
    unquote s = s := by
  have hnames := Text.continuesName_of_isPlainName h
  have htrim := Text.trim_of_forall fun c hc => Text.isBlank_of_continuesName (hnames c hc)
  unfold unquote
  simp only [htrim]
  split
  · rename_i q inner he
    have hq := hnames q (by simp [he])
    have hquote : (q == '\x27' || q == '\x22' || q == '\x60') = false := by
      simp only [Bool.or_eq_false_iff, beq_eq_false_iff_ne]
      refine ⟨⟨?_, ?_⟩, ?_⟩ <;> rintro rfl <;> exact absurd hq (by decide)
    rw [hquote, Bool.false_and, if_neg Bool.false_ne_true, String.ofList_toList]
  · rename_i he
    rw [he] at h
    cases h

/-- A member of an object that is keyed by a name and whose value is an array with an element. -/
structure IsTokenMember (file : SourceFile) (key token : String) (node : Node) : Prop where
  kind : node.kind = .property
  key : ∃ k, node.child? "key" = some k ∧ file.textOf k = key
  value : ∃ array, node.child? "value" = some array ∧ array.kind = .arrayLiteral ∧
    ∃ element ∈ array.children, file.IsToken token element

/-- The node that a registration brings at an anchor: a member of the object where the property was
missing, and else an element. -/
def IsRegistered (file : SourceFile) (property : Option String) (token : String) :
    AnchorKind → Node → Prop
  | .objectLiteralClose, node => ∃ key, property = some key ∧ file.IsTokenMember key token node
  | _, node => file.IsToken token node

/-- The member that a registration brings has the key of the property. -/
theorem IsTokenMember.hasKey {key token : String} {node : Node}
    (hkey : Text.isPlainName key.toList = true) (h : file.IsTokenMember key token node) :
    file.hasKey key node = true := by
  obtain ⟨k, hk, hspelled⟩ := h.key
  simp [SourceFile.hasKey, h.kind, hk, hspelled, unquote_of_isPlainName hkey]

/-- A registration is made once: in a file that a planned registration was put into, the first call
of the callee has the element, and a plan for the registration does nothing. -/
theorem registration_once (hr : file.Regular) {callee token : String} {property : Option String}
    (hproperty : ∀ key, property = some key → Text.isPlainName key.toList = true)
    (hplan : file.plan (.register callee property token) =
      .ok (.insert target offset piece rationale))
    (htext : Text.insertAt? file.text offset piece = some text)
    (hread : SourceFile.readAs reader file.path text file.language = .ok file')
    (htakes : file.Takes file' (.register callee property token) offset piece
      (file'.IsRegistered property token)) :
    file'.callRegisters callee property token = true ∧
      file'.plan (.register callee property token) =
        .ok (file'.noOpPlan (.register callee property token)) := by
  obtain ⟨anchor, commas, item, hlocate, rfl, hg, hcommas, hi⟩ := htakes.grows hplan htext hread
  have hregisters : file'.callRegisters callee property token = true := by
    apply callRegisters_of_grows hr hproperty hlocate hg fun comma hc => (hcommas comma hc).1
    · intro hk
      unfold IsRegistered at hi
      split at hi
      · exact absurd ‹_› hk
      · exact hi
    · intro hk key hkey
      rw [hk] at hi
      obtain ⟨found, hfound, hmember⟩ := hi
      obtain rfl := Option.some.inj (hkey.symm.trans hfound)
      obtain ⟨array, hv, harray, helement⟩ := hmember.value
      exact ⟨hmember.hasKey (hproperty key hkey), array,
        by simp [arrayValue, hv, isKind, harray], helement⟩
  exact ⟨hregisters, plan_of_isPresent hregisters⟩

def callFile (text : String) (elements : List Node) : SourceFile :=
  let size := Text.size text
  let token := fun grammar start stop => Node.ofGrammar grammar start stop []
  let arguments : Node := .ofGrammar "arguments" 1 (size - 2)
    (token "(" 1 2 :: elements ++ [token ")" (size - 3) (size - 2)])
  ⟨⟨"main.ts"⟩, .typeScript, text, .ofGrammar "program" 0 size
    [.ofGrammar "expression_statement" 0 (size - 1)
      [.ofGrammar "call_expression" 0 (size - 2)
        [(token "identifier" 0 1).filling "function", arguments.filling "arguments"],
        token ";" (size - 2) (size - 1)]]⟩

def oneArgument : SourceFile := callFile "f(a);\n" [.ofGrammar "identifier" 2 3 []]

def twoArguments : SourceFile :=
  callFile "f(a, b);\n"
    [.ofGrammar "identifier" 2 3 [], .ofGrammar "," 3 4 [], .ofGrammar "identifier" 5 6 []]

theorem registration_once_twoArguments : oneArgument.Regular ∧
    oneArgument.plan (.register "f" none "b") = .ok (.insert ⟨"main.ts"⟩ 3 ", b"
      "`b` in `f` at CallArgumentListClose") ∧
    SourceFile.readAs (readerOf [twoArguments]) oneArgument.path twoArguments.text
      oneArgument.language = .ok twoArguments ∧
    twoArguments.callRegisters "f" none "b" = true ∧
    twoArguments.plan (.register "f" none "b") =
      .ok (twoArguments.noOpPlan (.register "f" none "b")) := by
  have hr : oneArgument.Regular := by decide +kernel
  have hplan : oneArgument.plan (.register "f" none "b") = .ok (.insert ⟨"main.ts"⟩ 3 ", b"
      "`b` in `f` at CallArgumentListClose") := eq_ok_of_toOption (by decide +kernel)
  have htext : Text.insertAt? oneArgument.text 3 ", b" = some twoArguments.text := by
    decide +kernel
  have hread : SourceFile.readAs (readerOf [twoArguments]) oneArgument.path twoArguments.text
      oneArgument.language = .ok twoArguments := by rfl
  have htakes : oneArgument.Takes twoArguments (.register "f" none "b") 3 ", b"
      (twoArguments.IsRegistered none "b") := by
    refine ⟨by decide +kernel, ⟨3, .callArgumentListClose, true⟩, [.ofGrammar "," 3 4 []],
      .ofGrammar "identifier" 5 6 [], ?_, ?_, by decide +kernel, ?_⟩
    · exact eq_ok_of_toOption (by decide +kernel)
    · rfl
    · exact ⟨rfl, by decide +kernel⟩
  exact ⟨hr, hplan, hread, registration_once hr nofun hplan htext hread htakes⟩

end SourceFile

end Codemod
