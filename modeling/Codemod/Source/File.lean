import Codemod.Source.Node
import Codemod.Source.Language
import Codemod.Json.Reader

/-!
Source files: a path, its language, the text and the tree of the text.

Reading a text to its tree is a parameter here. All that follows from a tree holds for any such
reader, and `Language.readProgram` is the one that is used.
-/
namespace Codemod

open Source

/-- Reads a text of a language to its tree, or finds it malformed. -/
abbrev TreeReader := Language → String → Option Node

structure SourceFile where
  path : Path
  language : Language
  text : String
  root : Node

inductive SourceError where
  | unsupportedLanguage (path : Path)
  | malformed (path : Path)
  | malformedData (path : Path) (fault : Json.Fault)

def SourceError.message : SourceError → String
  | unsupportedLanguage path => "unsupported source language: " ++ path.spelling
  | malformed path => path.spelling ++ ": malformed source"
  | malformedData path fault =>
    path.spelling ++ ":" ++ toString fault.line ++ ":" ++ toString fault.column
      ++ ": malformed source (" ++ fault.message ++ ")"

namespace SourceFile

def readAs (reader : TreeReader) (path : Path) (text : String) (language : Language) :
    Except SourceError SourceFile :=
  match reader language text with
  | some root => .ok ⟨path, language, text, root⟩
  | none => .error (.malformed path)

def read (reader : TreeReader) (path : Path) (text : String) : Except SourceError SourceFile :=
  match Language.ofPath? path with
  | some language => readAs reader path text language
  | none => .error (.unsupportedLanguage path)

def textOf (file : SourceFile) (node : Node) : String := node.text file.text

end SourceFile

/-- The nodes of a tree that have a kind of their own, in document order, each with the number of
such nodes around it. -/
def Source.Node.outline : Nat → Node → List (Nat × Node)
  | depth, { kind, grammar, field, start, stop, children } =>
    let node : Node := { kind, grammar, field, start, stop, children }
    if kind == .other then outlineAll depth children
    else (depth, node) :: outlineAll (depth + 1) children
where
  /-- The outlines of several trees, one after another. -/
  outlineAll : Nat → List Node → List (Nat × Node)
    | _, [] => []
    | depth, node :: rest => Node.outline depth node ++ outlineAll depth rest

end Codemod
