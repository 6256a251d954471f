import Codemod.Text.Offset
import Codemod.Json.Decode

/-!
Records of edits.

A record says what went and what came at an offset of the text as it was then. `replay?` does it
once more.
-/
namespace Codemod

/-- An edit: at `offset`, `removed` bytes went and `inserted` came. -/
structure EditRecord where
  offset : Nat
  removed : Nat
  inserted : String
  rationale : String
  deriving DecidableEq, Repr, Inhabited

namespace EditRecord

/-- Does an edit to a text, if its range is one of the text. -/
def replay? (record : EditRecord) (text : String) : Option String :=
  Text.replaceAt? text record.offset record.removed record.inserted

def replayAll? (records : List EditRecord) (text : String) : Option String :=
  records.foldlM (fun text record => record.replay? text) text

def toJson (record : EditRecord) : Json :=
  .object [("offset", .ofNat record.offset), ("removed", .ofNat record.removed),
    ("inserted", .string record.inserted), ("rationale", .string record.rationale)]

def ofJson? (j : Json) : Option EditRecord := do
  let fields ← j.record? ["offset", "removed", "inserted", "rationale"]
  return ⟨← Json.field? fields "offset" Json.nat?, ← Json.fieldOr? fields "removed" 0 Json.nat?,
    ← Json.field? fields "inserted" Json.string?, ← Json.field? fields "rationale" Json.string?⟩

end EditRecord

end Codemod
