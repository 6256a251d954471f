import Codemod.Toml.Value

/-!
Adding to tables.

`define` adds a key with its value, `openTable` a table under a header and `openTables` a table to
an array of tables. Each is refused where it would change what is defined already.
-/
namespace Codemod.Toml

/-- Goes down a path of keys and changes the members found there, making the tables on the way.
Through a dotted key only tables are changed that no header has opened. -/
def within (dotted : Bool) (change : TableOrigin → Members → Option Members) :
    List String → TableOrigin → Members → Option Members
  | [], origin, members => change origin members
  | key :: path, _, members =>
    match lookup key members with
    | none =>
      let origin : TableOrigin := if dotted then .dotted else .implied
      (within dotted change path origin []).map fun inner =>
        members ++ [(key, .table origin inner)]
    | some (.table origin inner) =>
      if origin = .braces ∨ (dotted ∧ origin = .header) then none
      else (within dotted change path origin inner).map fun inner =>
        replace key (.table origin inner) members
    | some (.tables items) =>
      match items.getLast? with
      | none => none
      | some last => (within dotted change path .header last).map fun last =>
        replace key (.tables (items.dropLast ++ [last])) members
    | some _ => none

/-- Adds a key with its value. A table made by dotted keys takes them only. -/
def define (path : List String) (key : String) (value : Toml) (origin : TableOrigin)
    (members : Members) : Option Members :=
  let add (origin : TableOrigin) (members : Members) : Option Members :=
    if decide (origin = .dotted) = path.isEmpty then none
    else
      match lookup key members with
      | none => some (members ++ [(key, value)])
      | some _ => none
  within true add path origin members

def openTable (path : List String) (key : String) (members : Members) : Option Members :=
  let add (_ : TableOrigin) (members : Members) : Option Members :=
    match lookup key members with
    | none => some (members ++ [(key, .table .header [])])
    | some (.table .implied inner) => some (replace key (.table .header inner) members)
    | some _ => none
  within false add path .header members

def openTables (path : List String) (key : String) (members : Members) : Option Members :=
  let add (_ : TableOrigin) (members : Members) : Option Members :=
    match lookup key members with
    | none => some (members ++ [(key, .tables [[]])])
    | some (.tables items) => some (replace key (.tables (items ++ [[]])) members)
    | some _ => none
  within false add path .header members

def defineUnder (header path : List String) (key : String) (value : Toml) (members : Members) :
    Option Members :=
  within false (define path key value) header .header members

end Codemod.Toml
