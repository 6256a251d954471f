import Codemod.Toml.Value

/-!
Taking TOML values apart.

A record may be given as a table, or as an array that lists its fields in order. All of its fields
may be missing, and what it does not know is ignored.
-/
namespace Codemod.Toml

def string? : Toml → Option String
  | string s => some s
  | _ => none

def boolean? : Toml → Option Bool
  | boolean b => some b
  | _ => none

/-- The fields of a record with the given field names. A date or a time is a record of none of
them. -/
def record? (names : List String) : Toml → Option Members
  | table _ members => some members
  | array items => some (names.zip items)
  | tables items => some (names.zip (items.map (table .header)))
  | moment _ => some []
  | _ => none

def optField? {α : Type} (members : Members) (name : String) (decode : Toml → Option α) :
    Option (Option α) :=
  match lookup name members with
  | none => some none
  | some value => (decode value).map some

def fieldOr? {α : Type} (members : Members) (name : String) (default : α)
    (decode : Toml → Option α) : Option α :=
  match lookup name members with
  | none => some default
  | some value => decode value

end Codemod.Toml
