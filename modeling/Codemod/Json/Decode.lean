import Codemod.Json.Value

/-!
Taking JSON values apart.

A decoder answers none for a value of the wrong shape. A record may be given as an object, or as
an array that lists its fields in order; names that a record does not know are ignored.
-/
namespace Codemod.Json

def string? : Json → Option String
  | string s => some s
  | _ => none

def bool? : Json → Option Bool
  | bool b => some b
  | _ => none

def nat? : Json → Option Nat
  | number (.whole n) => if 0 ≤ n then some n.toNat else none
  | _ => none

def list? {α : Type} (decode : Json → Option α) : Json → Option (List α)
  | array items => items.mapM decode
  | _ => none

def object? : Json → Option (List (String × Json))
  | object members => some members
  | _ => none

def record? (names : List String) : Json → Option (List (String × Json))
  | object members => some members
  | array items => if items.length ≤ names.length then some (names.zip items) else none
  | _ => none

/-- The name and the content of an alternative. The name is the member `type` of an object, or the
first item of an array. -/
def variant? : Json → Option (String × Json)
  | object members => (lookup "type" members).bind fun tag =>
    tag.string?.map fun name => (name, object members)
  | array (tag :: items) => tag.string?.map fun name => (name, array items)
  | _ => none

/-- The name of an alternative without content: a string, or an object that holds null under that
name alone. -/
def choice? : Json → Option String
  | string name => some name
  | object [(name, null)] => some name
  | _ => none

def field? {α : Type} (members : List (String × Json)) (name : String)
    (decode : Json → Option α) : Option α :=
  (lookup name members).bind decode

/-- A field that may be absent or null. -/
def optField? {α : Type} (members : List (String × Json)) (name : String)
    (decode : Json → Option α) : Option (Option α) :=
  match lookup name members with
  | none | some null => some none
  | some value => (decode value).map some

/-- A field with a value that stands in where it is absent. -/
def fieldOr? {α : Type} (members : List (String × Json)) (name : String) (default : α)
    (decode : Json → Option α) : Option α :=
  match lookup name members with
  | none => some default
  | some value => decode value

end Codemod.Json
