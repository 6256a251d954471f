import Codemod.Json.Value
import Codemod.Text.Split

/-!
JSON text.

`Json.compact` writes a value without blanks and `Json.pretty` on several lines, indented by a
unit of choice; empty arrays and objects stay on one line in both.
-/
namespace Codemod.Json

/-- Doubles are written positionally from `1e-5` up to below `1e16`. -/
def numberLayout : Decimal.Layout := ⟨-5, 16⟩

def numberText : JsonNumber → String
  | .whole n => toString n
  | .double d => numberLayout.text d.negative d.shortest

def hexDigit (n : Nat) : Char :=
  if n < 10 then Char.ofNat (48 + n) else Char.ofNat (87 + n)

def escapeChar (c : Char) : List Char :=
  if c = '\x22' then ['\\', '\x22']
  else if c = '\\' then ['\\', '\\']
  else if c = '\x08' then ['\\', 'b']
  else if c = '\x0c' then ['\\', 'f']
  else if c = '\n' then ['\\', 'n']
  else if c = '\r' then ['\\', 'r']
  else if c = '\t' then ['\\', 't']
  else if c.toNat < 0x20 then
    ['\\', 'u', '0', '0', hexDigit (c.toNat / 16), hexDigit (c.toNat % 16)]
  else [c]

def quote (s : String) : List Char :=
  '\x22' :: (s.toList.flatMap escapeChar ++ ['\x22'])

def scalar : Json → List Char
  | null => "null".toList
  | bool true => "true".toList
  | bool false => "false".toList
  | number n => (numberText n).toList
  | string s => quote s
  | array _ => []
  | object _ => []

/-- The characters of a value without blanks. -/
def compactChars : Json → List Char
  | array items => '[' :: (compactItems items ++ [']'])
  | object members => '\x7b' :: (compactMembers members ++ ['\x7d'])
  | value => scalar value
where
  /-- The items of an array. -/
  compactItems : List Json → List Char
    | [] => []
    | [item] => compactChars item
    | item :: next :: rest => compactChars item ++ ',' :: compactItems (next :: rest)
  /-- The members of an object. -/
  compactMembers : List (String × Json) → List Char
    | [] => []
    | [(name, value)] => quote name ++ ':' :: compactChars value
    | (name, value) :: next :: rest =>
      quote name ++ ':' :: (compactChars value ++ ',' :: compactMembers (next :: rest))

def compact (json : Json) : String := String.ofList (compactChars json)

def newline (unit : List Char) (level : Nat) : List Char :=
  '\n' :: (List.replicate level unit).flatten

def prettyChars (unit : List Char) : Nat → Json → List Char
  | _, array [] => ['[', ']']
  | _, object [] => ['\x7b', '\x7d']
  | level, array (item :: rest) =>
    '[' :: (prettyItems unit (level + 1) (item :: rest) ++ newline unit level ++ [']'])
  | level, object (member :: rest) =>
    '\x7b' :: (prettyMembers unit (level + 1) (member :: rest) ++ newline unit level ++ ['\x7d'])
  | _, value => scalar value
where
  /-- The items of an array, each on a line of its own. -/
  prettyItems (unit : List Char) : Nat → List Json → List Char
    | _, [] => []
    | level, [item] => newline unit level ++ prettyChars unit level item
    | level, item :: next :: rest =>
      newline unit level ++ prettyChars unit level item
        ++ ',' :: prettyItems unit level (next :: rest)
  /-- The members of an object, each on a line of its own. -/
  prettyMembers (unit : List Char) : Nat → List (String × Json) → List Char
    | _, [] => []
    | level, [(name, value)] =>
      newline unit level ++ quote name ++ ':' :: ' ' :: prettyChars unit level value
    | level, (name, value) :: next :: rest =>
      newline unit level ++ quote name ++ ':' :: ' ' :: (prettyChars unit level value
        ++ ',' :: prettyMembers unit level (next :: rest))

/-- The text of a value over several lines, without a line break at its end. -/
def pretty (unit : String) (json : Json) : String :=
  String.ofList (prettyChars unit.toList 0 json)

end Codemod.Json
