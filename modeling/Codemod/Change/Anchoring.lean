import Codemod.Change.Basic
import Codemod.Source.Calls

/-!
Finding the place that a pattern describes.

Text is put at the end of a list: behind its last item or separator, before the comments that
stand between that and the closing mark.
-/
namespace Codemod.SourceFile

open Source

/-- The last child before a closing mark that is no comment. -/
def lastBefore (container mark : Node) : Option Node :=
  ((container.children.takeWhile fun c => c.start < mark.start).filter fun c =>
    !c.isKind .comment).getLast?

/-- The end of the list in a container. A comma is needed unless the list is empty or ends with
one. -/
def closeAnchor (container : Node) (close : Kind) (kind : AnchorKind) : Option Anchor :=
  (container.lastOf close).bind fun mark =>
    (lastBefore container mark).map fun last =>
      ⟨last.stop, kind, !last.kind.opensOrSeparates⟩

/-- Behind the last top-level import, or at the start of the text. -/
def importAnchor (file : SourceFile) : Anchor :=
  match file.imports.getLast? with
  | some last => ⟨last.stop, .afterLastImport, false⟩
  | none => ⟨0, .documentStart, false⟩

def anchor? (file : SourceFile) : AnchorPattern → Option Anchor
  | .objectLiteralOf declarator =>
    (file.declaredObject declarator).bind fun object =>
      closeAnchor object .closeBrace .objectLiteralClose
  | .afterLastImport => some file.importAnchor
  | .namedImportsOf module =>
    (file.namedImportsFrom module).bind fun named =>
      closeAnchor named .closeBrace .namedImportsClose
  | .callArgumentList callee =>
    ((file.findCall callee).bind fun call => call.child? "arguments").bind fun arguments =>
      closeAnchor arguments .closeParen .callArgumentListClose
  | .callObjectProperty callee property =>
    ((file.findCall callee).bind objectArgument).bind fun object =>
      match file.property? object property with
      | some member =>
        (arrayValue member).bind fun array =>
          closeAnchor array .closeBracket .arrayLiteralClose
      | none => closeAnchor object .closeBrace .objectLiteralClose

end Codemod.SourceFile
