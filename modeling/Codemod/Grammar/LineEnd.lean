import Codemod.Grammar.Lexeme

/-!
Statements that end without a semicolon.

A statement may end where the text ends, before a closing brace, or at a line break that the next
line cannot continue. Whether it can is decided by the next line's first characters. The two
families of languages differ in small ways, which `LineEnd` records.
-/
namespace Codemod.Grammar

/-- Where a statement is asked to end. -/
structure LineEnd where
  /-- The language has type annotations. -/
  typed : Bool
  /-- An operator could follow here. -/
  operand : Bool
  /-- A function signature ends here, so that its body could follow. -/
  signature : Bool

namespace LineEnd

def isSpace (c : Char) : Bool := c == ' ' || (9 ≤ c.toNat && c.toNat ≤ 13)

def dropLine : List Char → List Char :=
  List.dropWhile fun c => !(c == '\x00' || c == '\n' || c == '\u2028' || c == '\u2029')

/-- What follows a block comment whose opening mark has been read, and whether a line break was
seen in it. -/
def dropBlock : Bool → List Char → Bool × List Char
  | broken, '*' :: '/' :: cs => (broken, cs)
  | broken, c :: cs =>
    dropBlock (broken || c == '\n' || c == '\u2028' || c == '\u2029') cs
  | broken, [] => (broken, [])

/-- Skips blanks and comments; none if a slash stands there that opens no comment. -/
def dropTrivia : Nat → List Char → Option (List Char)
  | 0, cs => some cs
  | fuel + 1, cs =>
    match cs.dropWhile isSpace with
    | '/' :: '/' :: rest => dropTrivia fuel (dropLine rest)
    | '/' :: '*' :: rest => dropTrivia fuel (dropBlock false rest).2
    | '/' :: _ => none
    | rest => some rest

inductive Comments where
  | refused
  | sameLine (rest : List Char)
  | passed (rest : List Char)

/-- Looks past comments at the end of a line, but past no more than one block comment. -/
def lookPast : Nat → List Char → Comments
  | 0, cs => .passed cs
  | fuel + 1, cs =>
    match cs.dropWhile isSpace with
    | '/' :: '/' :: rest => lookPast fuel (dropLine rest)
    | '/' :: '*' :: rest =>
      let (broken, after) := dropBlock false rest
      if after.head? == some '/' then lookPast fuel after
      else if broken then .passed after else .sameLine after
    | '/' :: _ => .refused
    | rest => .passed rest

/-- `in` or `instanceof` as a whole word, the first letter of which has been seen. -/
def continuesWithWord (cs : List Char) : Bool :=
  match cs with
  | 'i' :: 'n' :: rest =>
    match rest with
    | c :: _ =>
      if !c.isAlpha then true
      else match rest with
        | 's' :: 't' :: 'a' :: 'n' :: 'c' :: 'e' :: 'o' :: 'f' :: more =>
          match more with
          | d :: _ => !d.isAlpha
          | [] => true
        | _ => false
    | [] => true
  | _ => false

/-- Whether a new line that starts so begins a new statement. -/
def startsStatement (at_ : LineEnd) (cs : List Char) : Bool :=
  match cs with
  | [] => true
  | c :: rest =>
    if at_.typed then
      if "`,.;*%><=?^|&/:".toList.contains c then false
      else if c == '\x7b' then !at_.signature
      else if c == '(' || c == '[' then !at_.operand
      else if c == '+' || c == '-' then rest.head? == some c
      else if c == '!' then rest.head? != some '='
      else !continuesWithWord cs
    else
      if "`,:;*%><=[(?^|&/".toList.contains c then false
      else if c == '.' then (rest.head?.map Char.isDigit).getD false
      else if c == '+' || c == '-' then rest.head? == some c
      else if c == '!' then rest.head? != some '='
      else !continuesWithWord cs

/-- What follows a line break decides whether the statement ends. -/
def endsAtBreak (at_ : LineEnd) (cs : List Char) : Bool :=
  match dropTrivia (cs.length + 1) cs with
  | none => false
  | some rest => at_.startsStatement rest

def typedHolds (at_ : LineEnd) : List Char → Bool
  | [] => true
  | c :: cs =>
    if c == '\x00' then true
    else if c == '\x7d' then
      if (cs.dropWhile isSpace).head? == some ':' then at_.operand else true
    else if !isSpace c then false
    else if c == '\n' then at_.endsAtBreak cs
    else at_.typedHolds cs

/-- Whether a statement ends here in a language without type annotations; `fuel` bounds the
comments and blanks looked at. -/
def plainHolds (at_ : LineEnd) : Nat → List Char → Bool
  | 0, _ => false
  | fuel + 1, cs =>
    let go (cs : List Char) : Bool :=
      match cs with
      | [] => true
      | c :: rest =>
        if c == '\x7d' then true
        else if c == '\n' || c == '\u2028' || c == '\u2029' then at_.endsAtBreak rest
        else if !isSpace c then false
        else at_.plainHolds fuel rest
    match cs with
    | [] => true
    | '\x00' :: _ => true
    | '/' :: _ =>
      match lookPast (cs.length + 1) cs with
      | .refused => false
      | .sameLine rest => go rest
      | .passed rest =>
        if !at_.operand && rest.head? != some ',' && rest.head? != some '=' then true else go rest
    | _ => go cs

/-- Whether a statement may end right here without a semicolon. -/
def holds (at_ : LineEnd) (cs : List Char) : Bool :=
  if at_.typed then at_.typedHolds cs else at_.plainHolds (cs.length + 1) cs

end LineEnd

end Codemod.Grammar
