import Codemod.Decimal.Shortest

/-!
JSON values.

Objects keep their members in order. `Json.put` gives a member a value: a new name goes to the
end, a known one keeps its place.
-/
namespace Codemod

/-- A number in a JSON text: a whole number of the exact range, or a double. -/
inductive JsonNumber where
  | whole (n : Int)
  | double (d : Decimal.Double)
  deriving DecidableEq, Repr, Inhabited

inductive Json where
  | null
  | bool (b : Bool)
  | number (n : JsonNumber)
  | string (s : String)
  | array (items : List Json)
  | object (members : List (String × Json))
  deriving Repr, Inhabited, BEq

namespace Json

def lookup (name : String) : List (String × Json) → Option Json
  | [] => none
  | (k, v) :: rest => if k = name then some v else lookup name rest

/-- The members after one of them has been given a value. -/
def put (name : String) (value : Json) : List (String × Json) → List (String × Json)
  | [] => [(name, value)]
  | (k, v) :: rest => if k = name then (k, value) :: rest else (k, v) :: put name value rest

theorem lookup_put_self (name : String) (value : Json) (members : List (String × Json)) :
    lookup name (put name value members) = some value := by
  induction members with
  | nil => simp [put, lookup]
  | cons m rest ih =>
    by_cases h : m.1 = name <;> simp [put, lookup, h, ih]

def get? (json : Json) (name : String) : Option Json :=
  match json with
  | object members => lookup name members
  | _ => none

def ofNat (n : Nat) : Json := number (.whole n)

/-- An object without the members that have no value. -/
def objectOf (members : List (String × Option Json)) : Json :=
  object (members.filterMap fun (k, v) => v.map fun x => (k, x))

end Json

end Codemod
