import Codemod.Change.Basic
import Codemod.Path.Codec

/-!
The JSON forms of changes, anchor patterns, anchors and plans.

The alternatives of a type are told apart by a member `type`; a part that may be missing is left
out where it is missing.
-/
namespace Codemod

open Json

namespace ConfigEntry

def toJson (entry : ConfigEntry) : Json :=
  .object [("key", .string entry.key), ("value", .string entry.value)]

def ofJson? (j : Json) : Option ConfigEntry := do
  let fields ← record? ["key", "value"] j
  return ⟨← field? fields "key" string?, ← field? fields "value" string?⟩

end ConfigEntry

namespace Change

def toJson (change : Change) : Json :=
  match change with
  | appendField declarator key entries => objectOf [
      ("type", some (.string change.label)), ("declarator", declarator.map .string),
      ("key", some (.string key)),
      ("entries", some (.array (entries.map ConfigEntry.toJson)))]
  | insertImport identifier module => objectOf [
      ("type", some (.string change.label)), ("identifier", some (.string identifier)),
      ("module", some (.string module))]
  | register callee property token => objectOf [
      ("type", some (.string change.label)), ("callee", some (.string callee)),
      ("property", property.map .string), ("token", some (.string token))]

def ofJson? (j : Json) : Option Change := do
  let (label, content) ← variant? j
  match label with
  | "append_object_field" =>
    let fields ← record? ["declarator", "key", "entries"] content
    return appendField (← optField? fields "declarator" string?) (← field? fields "key" string?)
      (← field? fields "entries" (list? ConfigEntry.ofJson?))
  | "insert_import" =>
    let fields ← record? ["identifier", "module"] content
    return insertImport (← field? fields "identifier" string?)
      (← field? fields "module" string?)
  | "register_in_call" =>
    let fields ← record? ["callee", "property", "token"] content
    return register (← field? fields "callee" string?) (← optField? fields "property" string?)
      (← field? fields "token" string?)
  | _ => none

end Change

namespace AnchorPattern

def toJson : AnchorPattern → Json
  | objectLiteralOf declarator => objectOf [
      ("type", some (.string "object_literal_of")), ("declarator", declarator.map .string)]
  | afterLastImport => .object [("type", .string "after_last_import")]
  | namedImportsOf module =>
    .object [("type", .string "named_imports_of"), ("module", .string module)]
  | callArgumentList callee =>
    .object [("type", .string "call_argument_list"), ("callee", .string callee)]
  | callObjectProperty callee property => .object [
      ("type", .string "call_object_property"), ("callee", .string callee),
      ("property", .string property)]

def ofJson? (j : Json) : Option AnchorPattern := do
  let (label, content) ← variant? j
  match label with
  | "object_literal_of" =>
    let fields ← record? ["declarator"] content
    return objectLiteralOf (← optField? fields "declarator" string?)
  | "after_last_import" =>
    let _ ← record? [] content
    return afterLastImport
  | "named_imports_of" =>
    let fields ← record? ["module"] content
    return namedImportsOf (← field? fields "module" string?)
  | "call_argument_list" =>
    let fields ← record? ["callee"] content
    return callArgumentList (← field? fields "callee" string?)
  | "call_object_property" =>
    let fields ← record? ["callee", "property"] content
    return callObjectProperty (← field? fields "callee" string?)
      (← field? fields "property" string?)
  | _ => none

end AnchorPattern

namespace AnchorKind

def code : AnchorKind → String
  | objectLiteralClose => "object_literal_close"
  | afterLastImport => "after_last_import"
  | documentStart => "document_start"
  | namedImportsClose => "named_imports_close"
  | arrayLiteralClose => "array_literal_close"
  | callArgumentListClose => "call_argument_list_close"

def ofCode? : String → Option AnchorKind
  | "object_literal_close" => some objectLiteralClose
  | "after_last_import" => some afterLastImport
  | "document_start" => some documentStart
  | "named_imports_close" => some namedImportsClose
  | "array_literal_close" => some arrayLiteralClose
  | "call_argument_list_close" => some callArgumentListClose
  | _ => none

@[simp] theorem ofCode?_code (kind : AnchorKind) : ofCode? kind.code = some kind := by
  cases kind <;> rfl

end AnchorKind

namespace Anchor

def toJson (anchor : Anchor) : Json :=
  .object [("offset", .ofNat anchor.offset), ("kind", .string anchor.kind.code),
    ("needs_separator", .bool anchor.needsSeparator)]

def ofJson? (j : Json) : Option Anchor := do
  let fields ← record? ["offset", "kind", "needs_separator"] j
  return ⟨← field? fields "offset" nat?,
    ← (← field? fields "kind" choice?) |> AnchorKind.ofCode?,
    ← field? fields "needs_separator" bool?⟩

end Anchor

namespace EditPlan

def toJson : EditPlan → Json
  | noOp target rationale => .object [
      ("type", .string "no_op"), ("target", target.toJson), ("rationale", .string rationale)]
  | insert target offset text rationale => .object [
      ("type", .string "insert"), ("target", target.toJson), ("offset", .ofNat offset),
      ("insert_text", .string text), ("rationale", .string rationale)]

def ofJson? (j : Json) : Option EditPlan := do
  let (label, content) ← variant? j
  match label with
  | "no_op" =>
    let fields ← record? ["target", "rationale"] content
    return noOp (← field? fields "target" Path.ofJson?) (← field? fields "rationale" string?)
  | "insert" =>
    let fields ← record? ["target", "offset", "insert_text", "rationale"] content
    return insert (← field? fields "target" Path.ofJson?) (← field? fields "offset" nat?)
      (← field? fields "insert_text" string?) (← field? fields "rationale" string?)
  | _ => none

end EditPlan

end Codemod
