import Codemod.Decimal.Double

/-!
TOML values.

A table knows how it came to be, since that decides what may be added to it later: a table written
in braces is complete, one under a header of its own is not opened again, and one that only dotted
keys have made is added to by dotted keys alone.
-/
namespace Codemod

inductive TableOrigin where
  /-- By a header of its own. -/
  | header
  /-- As a part of another table's header. -/
  | implied
  /-- By a dotted key. -/
  | dotted
  /-- In braces. -/
  | braces
  deriving DecidableEq, Repr

inductive Toml where
  | string (s : String)
  | integer (n : Int)
  | float (d : Decimal.Double)
  | infinity (negative : Bool)
  | notANumber
  | boolean (b : Bool)
  /-- A date, a time or both, as written. -/
  | moment (text : String)
  | array (items : List Toml)
  | table (origin : TableOrigin) (members : List (String × Toml))
  /-- An array of tables that have headers. -/
  | tables (items : List (List (String × Toml)))
  deriving Repr

namespace Toml

abbrev Members := List (String × Toml)

def lookup (key : String) : Members → Option Toml
  | [] => none
  | (k, v) :: rest => if k = key then some v else lookup key rest

def replace (key : String) (value : Toml) : Members → Members
  | [] => []
  | (k, v) :: rest =>
    if k = key then (k, value) :: rest else (k, v) :: replace key value rest

end Toml

end Codemod
