/-!
Lexemes: the shapes of single tokens.

A lexeme looks at the characters ahead and answers how many of them, from the first on, make up
the longest token of its shape; zero means that there is none. Lexemes never skip anything.
-/
namespace Codemod.Grammar

/-- How many of the characters ahead belong to the token; zero for no token. -/
abbrev Lexeme := List Char → Nat

namespace Lexeme

/-- The characters that separate tokens. -/
def isGap (c : Char) : Bool :=
  let n := c.toNat
  (9 ≤ n && n ≤ 13) || n == 0x20 || n == 0x85 || n == 0xA0 || n == 0x1680
    || (0x2000 ≤ n && n ≤ 0x200B) || n == 0x2028 || n == 0x2029 || n == 0x202F
    || n == 0x205F || n == 0x2060 || n == 0x3000 || n == 0xFEFF

def isHexDigit (c : Char) : Bool :=
  c.isDigit || ('a' ≤ c && c ≤ 'f') || ('A' ≤ c && c ≤ 'F')

def isOctalDigit (c : Char) : Bool := '0' ≤ c && c ≤ '7'

def isBinaryDigit (c : Char) : Bool := c == '0' || c == '1'

def begins (text : String) (cs : List Char) : Bool := text.toList.isPrefixOf cs

def run (p : Char → Bool) (cs : List Char) : Nat := (cs.takeWhile p).length

def exact (text : String) : Lexeme := fun cs =>
  if begins text cs then text.toList.length else 0

/-- A fixed text that does not continue with one of the given texts. -/
def exactUnless (text : String) (longer : List String) : Lexeme := fun cs =>
  if begins text cs && !longer.any fun more => begins more (cs.drop text.toList.length) then
    text.toList.length
  else 0

def isWordBreak (c : Char) : Bool :=
  c.toNat < 0x20 || isGap c || ":;`\"'@#.,|^&<=>+-*/\\%?!~()[]\x7b\x7d".toList.contains c

/-- One piece of a word: a character, or a character written as an escape. -/
def wordPiece (first : Bool) : Lexeme
  | '\\' :: 'u' :: '\x7b' :: cs =>
    let digits := run isHexDigit cs
    if 0 < digits && (cs.drop digits).head? == some '\x7d' then digits + 4 else 0
  | '\\' :: 'u' :: cs => if 4 ≤ run isHexDigit (cs.take 4) then 6 else 0
  | c :: _ => if isWordBreak c || (first && c.isDigit) then 0 else 1
  | [] => 0

/-- The pieces that continue a word; `fuel` bounds their number. -/
def wordRest : Nat → Lexeme
  | 0, _ => 0
  | fuel + 1, cs =>
    match wordPiece false cs with
    | 0 => 0
    | n => n + wordRest fuel (cs.drop n)

def word : Lexeme := fun cs =>
  match wordPiece true cs with
  | 0 => 0
  | n => n + wordRest cs.length (cs.drop n)

def wordExcept (reserved : List String) : Lexeme := fun cs =>
  let n := word cs
  if reserved.contains (String.ofList (cs.take n)) then 0 else n

def keyword (text : String) : Lexeme := fun cs =>
  if begins text cs && word cs == text.toList.length then text.toList.length else 0

def privateName : Lexeme
  | '#' :: cs =>
    match word cs with
    | 0 => 0
    | n => n + 1
  | _ => 0

/-- Digits of one class, with single underscores between them. -/
def digits (p : Char → Bool) : Lexeme
  | [] => 0
  | c :: cs => if p c then 1 + more cs else 0
where
  /-- The digits after the first one. -/
  more : List Char → Nat
    | '_' :: d :: cs => if p d then 2 + more cs else 0
    | c :: cs => if p c then 1 + more cs else 0
    | [] => 0

/-- A radix mark after a leading zero, and digits. -/
def radix (marks : List Char) (p : Char → Bool) : Lexeme
  | '0' :: m :: cs =>
    if marks.contains m then
      match digits p cs with
      | 0 => 0
      | n => n + 2
    else 0
  | _ => 0

def exponent : Lexeme
  | e :: cs =>
    if e == 'e' || e == 'E' then
      let sign := match cs with
        | '+' :: _ | '-' :: _ => 1
        | _ => 0
      match digits Char.isDigit (cs.drop sign) with
      | 0 => 0
      | n => 1 + sign + n
    else 0
  | [] => 0

def wholePart : Lexeme
  | '0' :: cs =>
    match cs with
    | c :: _ => if c.isDigit && c != '0' then 1 + digits Char.isDigit cs else 1
    | [] => 1
  | cs => digits Char.isDigit cs

/-- The length of a token followed by the mark of a big integer. -/
def withBigMark (n : Nat) (cs : List Char) : Nat :=
  if 0 < n && (cs.drop n).head? == some 'n' then n + 1 else n

def number : Lexeme := fun cs =>
  let whole := wholePart cs
  let point :=
    if 0 < whole && (cs.drop whole).head? == some '.' then
      let fraction := digits Char.isDigit (cs.drop (whole + 1))
      let n := whole + 1 + fraction
      n + exponent (cs.drop n)
    else 0
  let scaled :=
    match whole, exponent (cs.drop whole) with
    | 0, _ | _, 0 => 0
    | w, e => w + e
  let pointFirst :=
    match cs with
    | '.' :: rest =>
      match digits Char.isDigit rest with
      | 0 => 0
      | n => 1 + n + exponent (rest.drop n)
    | _ => 0
  let plain := withBigMark (digits Char.isDigit cs) cs
  let hexadecimal := withBigMark (radix ['x', 'X'] isHexDigit cs) cs
  let octal := withBigMark (radix ['o', 'O'] isOctalDigit cs) cs
  let binary := withBigMark (radix ['b', 'B'] isBinaryDigit cs) cs
  [point, scaled, pointFirst, plain, hexadecimal, octal, binary].foldl max 0

def quotedRun (quote : Char) : Lexeme :=
  run fun c => !(c == quote || c == '\\' || c == '\r' || c == '\n')

/-- An escape inside a quoted text. -/
def escape : Lexeme
  | '\\' :: 'x' :: cs => if 2 ≤ run isHexDigit (cs.take 2) then 4 else 0
  | '\\' :: 'u' :: '\x7b' :: cs =>
    let n := run isHexDigit cs
    if 0 < n && (cs.drop n).head? == some '\x7d' then n + 4 else 0
  | '\\' :: 'u' :: cs => if 4 ≤ run isHexDigit (cs.take 4) then 6 else 0
  | '\\' :: '\r' :: '\n' :: _ => 3
  | '\\' :: c :: cs => if isOctalDigit c then 2 + run isOctalDigit (cs.take 2) else 2
  | _ => 0

def templateRun : Lexeme
  | [] => 0
  | '$' :: '\x7b' :: _ => 0
  | c :: cs => if c == '\x60' || c == '\\' || c == '\x00' then 0 else 1 + templateRun cs

/-- Where a regular expression is being read. -/
inductive RegexState where
  | plain
  | escaped
  | inClass
  | escapedInClass

/-- The body of a regular expression. An unclosed class does not belong to it; `seen` counts the
characters looked at and `good` those that are known to belong. -/
def regexFrom : RegexState → Nat → Nat → List Char → Nat
  | _, _, good, [] => good
  | .plain, seen, good, c :: cs =>
    if c == '/' || c == '\n' then good
    else if c == '\\' then regexFrom .escaped (seen + 1) good cs
    else if c == '[' then regexFrom .inClass (seen + 1) good cs
    else regexFrom .plain (seen + 1) (seen + 1) cs
  | .escaped, seen, good, c :: cs =>
    if c == '\n' then good else regexFrom .plain (seen + 1) (seen + 1) cs
  | .inClass, seen, good, c :: cs =>
    if c == ']' then regexFrom .plain (seen + 1) (seen + 1) cs
    else if c == '\n' then good
    else if c == '\\' then regexFrom .escapedInClass (seen + 1) good cs
    else regexFrom .inClass (seen + 1) good cs
  | .escapedInClass, seen, good, c :: cs =>
    if c == '\n' then good else regexFrom .inClass (seen + 1) good cs

def regexBody : Lexeme := regexFrom .plain 0 0

def regexFlags : Lexeme := run fun c => 'a' ≤ c && c ≤ 'z'

/-- Characters that end a line for a comment. -/
def endsLine (c : Char) : Bool := c == '\n' || c == '\r' || c == '\u2028' || c == '\u2029'

/-- What is left of a block comment, its closing mark included. -/
def blockRest : List Char → Option Nat
  | '*' :: '/' :: _ => some 2
  | _ :: cs => (blockRest cs).map (· + 1)
  | [] => none

def comment : Lexeme
  | '/' :: '/' :: cs => 2 + run (fun c => !endsLine c) cs
  | '/' :: '*' :: cs => ((blockRest cs).map (· + 2)).getD 0
  | _ => 0

def interpreterLine : Lexeme
  | '#' :: '!' :: cs => 2 + run (fun c => c != '\n') cs
  | _ => 0

/-- Whether markup text says something: blanks that follow a line break do not count. -/
def saysSomething : Bool → List Char → Bool
  | _, [] => false
  | afterBreak, c :: cs =>
    if c == '\n' then saysSomething true cs
    else if afterBreak && (c == ' ' || (9 ≤ c.toNat && c.toNat ≤ 13)) then saysSomething true cs
    else true

/-- Text between markup tags, up to a tag, a substitution or a character reference. -/
def markupRun : Lexeme := fun cs =>
  let text := cs.takeWhile fun c =>
    !(c == '<' || c == '>' || c == '\x7b' || c == '\x7d' || c == '&' || c == '\x00')
  if saysSomething false text then text.length else 0

def characterReference : Lexeme
  | '&' :: '#' :: x :: cs =>
    if x == 'x' || x == 'X' then
      let n := run isHexDigit (cs.take 6)
      if 0 < n && (cs.drop n).head? == some ';' then n + 4 else 0
    else
      let n := run Char.isDigit ((x :: cs).take 5)
      if 0 < n && ((x :: cs).drop n).head? == some ';' then n + 3 else 0
  | '&' :: cs =>
    let n := run Char.isAlpha (cs.take 30)
    if 0 < n && (cs.drop n).head? == some ';' then n + 2 else 0
  | _ => 0

/-- A markup name with a hyphen in it. -/
def hyphenName : Lexeme
  | c :: cs =>
    if c.isAlpha || c == '_' || c == '$' then
      let front := run (fun c => c.isAlphanum || c == '_' || c == '$') cs
      match cs.drop front with
      | '-' :: rest =>
        1 + front + 1 + run (fun c => c.isAlphanum || c == '_' || c == '$' || c == '-') rest
      | _ => 0
    else 0
  | [] => 0

def markupQuotedRun (quote : Char) : Lexeme
  | [] => 0
  | c :: cs =>
    if c == quote then 0
    else if c == '&' then
      match cs with
      | d :: _ => if d == '#' || d.isAlpha then 0 else 1 + markupQuotedRun quote cs
      | [] => 0
    else 1 + markupQuotedRun quote cs

end Lexeme

end Codemod.Grammar
