import Codemod.Json.Value
import Codemod.Text.Offset

/-!
Reading JSON text.

A malformed text is refused with a cause and a position. The position counts the bytes read
before the fault was noticed: for a character that was only looked at, it includes its first byte.
-/
namespace Codemod.Json

inductive Cause where
  | eofInList
  | eofInObject
  | eofInString
  | eofInValue
  | expectedColon
  | expectedCommaOrListEnd
  | expectedCommaOrObjectEnd
  | expectedIdent
  | expectedValue
  | invalidEscape
  | invalidNumber
  | numberOutOfRange
  | controlCharacter
  | keyMustBeString
  | loneSurrogate
  | trailingComma
  | trailingCharacters
  | unexpectedEndOfHexEscape
  | recursionLimit
  deriving DecidableEq, Repr

def Cause.message : Cause → String
  | eofInList => "EOF while parsing a list"
  | eofInObject => "EOF while parsing an object"
  | eofInString => "EOF while parsing a string"
  | eofInValue => "EOF while parsing a value"
  | expectedColon => "expected `:`"
  | expectedCommaOrListEnd => "expected `,` or `]`"
  | expectedCommaOrObjectEnd => "expected `,` or `\x7d`"
  | expectedIdent => "expected ident"
  | expectedValue => "expected value"
  | invalidEscape => "invalid escape"
  | invalidNumber => "invalid number"
  | numberOutOfRange => "number out of range"
  | controlCharacter =>
    "control character (\\u0000-\\u001F) found while parsing a string"
  | keyMustBeString => "key must be a string"
  | loneSurrogate => "lone leading surrogate in hex escape"
  | trailingComma => "trailing comma"
  | trailingCharacters => "trailing characters"
  | unexpectedEndOfHexEscape => "unexpected end of hex escape"
  | recursionLimit => "recursion limit exceeded"

/-- A cause, and the number of bytes after which it was noticed. -/
structure Stop where
  cause : Cause
  offset : Nat

/-- Where the reader is: the characters ahead and the bytes behind. -/
structure Cursor where
  rest : List Char
  offset : Nat

namespace Cursor

def stop {α : Type} (p : Cursor) (cause : Cause) : Except Stop α := .error ⟨cause, p.offset⟩

/-- A fault noticed at the character ahead. -/
def stopAhead {α : Type} (p : Cursor) (cause : Cause) : Except Stop α :=
  .error ⟨cause, if p.rest.isEmpty then p.offset else p.offset + 1⟩

def isBlank (c : Char) : Bool := c == ' ' || c == '\n' || c == '\t' || c == '\r'

/-- Skips blanks, which are one byte each. -/
def skip (p : Cursor) : Cursor :=
  let n := (p.rest.takeWhile isBlank).length
  ⟨p.rest.drop n, p.offset + n⟩

def next (p : Cursor) : Cursor :=
  match p.rest with
  | [] => p
  | c :: cs => ⟨cs, p.offset + c.utf8Size⟩

def nextN (p : Cursor) (n : Nat) : Cursor := ⟨p.rest.drop n, p.offset + n⟩

end Cursor

def readIdent {α : Type} (value : α) : List Char → Cursor → Except Stop (α × Cursor)
  | [], p => .ok (value, p)
  | c :: cs, p =>
    match p.rest with
    | [] => p.stop .eofInValue
    | d :: _ =>
      if c = d then readIdent value cs p.next
      else Cursor.stop ⟨p.rest, p.offset + 1⟩ .expectedIdent

/-- The greatest whole number that is kept exactly while its digits are read. -/
def wholeLimit : Nat := Nat.pow 2 64

def digitValue (c : Char) : Nat := c.toNat - 48

def leadingDigits (cs : List Char) : List Char := cs.takeWhile Char.isDigit

/-- Takes digits into a number as long as it stays below the limit; answers the number and how
many digits were taken. -/
def takeDigits (value count : Nat) : List Char → Nat × Nat
  | [] => (value, count)
  | c :: cs =>
    if c.isDigit && value * 10 + digitValue c < wholeLimit then
      takeDigits (value * 10 + digitValue c) (count + 1) cs
    else (value, count)

def scaledNumber (negative : Bool) (digits : Nat) (scale : Int) (p : Cursor) :
    Except Stop (JsonNumber × Cursor) :=
  match Decimal.Double.ofScaled? digits scale with
  | none => p.stop .numberOutOfRange
  | some d => .ok (.double { d with negative := negative }, p)

def exponentLimit : Nat := Nat.pow 2 31

def readExponent (negative : Bool) (digits : Nat) (scale : Int) (p : Cursor) :
    Except Stop (JsonNumber × Cursor) :=
  let p := p.next
  let (up, p) := match p.rest with
    | '+' :: _ => (true, p.next)
    | '-' :: _ => (false, p.next)
    | _ => (true, p)
  match p.rest with
  | [] => p.stop .eofInValue
  | c :: _ =>
    if !c.isDigit then Cursor.stop ⟨p.rest, p.offset + 1⟩ .invalidNumber
    else
      let text := leadingDigits p.rest
      let exponent := text.foldl (fun n c => n * 10 + digitValue c) 0
      let q := p.nextN text.length
      if exponentLimit ≤ exponent then
        let fits := (List.range (text.length + 1)).takeWhile fun n =>
          (text.take n).foldl (fun n c => n * 10 + digitValue c) 0 < exponentLimit
        if digits ≠ 0 ∧ up then (p.nextN fits.length).stop .numberOutOfRange
        else .ok (.double ⟨negative, 0, 0⟩, q)
      else
        let total := if up then scale + exponent else scale - exponent
        let total := max (-(exponentLimit : Int)) (min total (exponentLimit - 1))
        scaledNumber negative digits total q

def readScaled (negative : Bool) (digits : Nat) (scale : Int) (p : Cursor) :
    Except Stop (JsonNumber × Cursor) :=
  match p.rest with
  | 'e' :: _ | 'E' :: _ => readExponent negative digits scale p
  | _ => scaledNumber negative digits scale p

/-- A fraction, from its point on. Digits beyond the exact range are passed over. -/
def readFraction (negative : Bool) (digits : Nat) (scale : Int) (p : Cursor) :
    Except Stop (JsonNumber × Cursor) :=
  let p := p.next
  match leadingDigits p.rest with
  | [] => p.stopAhead (if p.rest.isEmpty then .eofInValue else .invalidNumber)
  | text =>
    let (value, count) := takeDigits digits 0 text
    readScaled negative value (scale - count) (p.nextN text.length)

/-- The largest magnitude of a negative whole number. -/
def negativeLimit : Nat := Nat.pow 2 63

def readNumber (negative : Bool) (p : Cursor) : Except Stop (JsonNumber × Cursor) :=
  match p.rest with
  | [] => p.stop .eofInValue
  | c :: cs =>
    if !c.isDigit then Cursor.stop ⟨p.rest, p.offset + 1⟩ .invalidNumber
    else if c = '0' && (cs.head?.map Char.isDigit).getD false then
      p.next.stopAhead .invalidNumber
    else
      let text := leadingDigits p.rest
      let (value, count) := takeDigits 0 0 text
      let q := p.nextN text.length
      let scale : Int := (text.length : Int) - count
      match q.rest with
      | '.' :: _ => readFraction negative value scale q
      | 'e' :: _ | 'E' :: _ => readExponent negative value scale q
      | _ =>
        if scale ≠ 0 then scaledNumber negative value scale q
        else if !negative then .ok (.whole value, q)
        else if value = 0 || negativeLimit < value then scaledNumber negative value 0 q
        else .ok (.whole (-(value : Int)), q)

def hexValue? (c : Char) : Option Nat :=
  if c.isDigit then some (c.toNat - 48)
  else if 'a' ≤ c && c ≤ 'f' then some (c.toNat - 87)
  else if 'A' ≤ c && c ≤ 'F' then some (c.toNat - 55)
  else none

def hexValue4? : List Char → Option Nat
  | a :: b :: c :: d :: _ => do
    let a ← hexValue? a
    let b ← hexValue? b
    let c ← hexValue? c
    let d ← hexValue? d
    return ((a * 16 + b) * 16 + c) * 16 + d
  | _ => none

def readHex (p : Cursor) : Except Stop (Nat × Cursor) :=
  if Text.byteLength p.rest < 4 then
    Cursor.stop ⟨[], p.offset + Text.byteLength p.rest⟩ .eofInString
  else match hexValue4? p.rest with
    | none => Cursor.stop ⟨p.rest, p.offset + 4⟩ .invalidEscape
    | some n => .ok (n, p.nextN 4)

def expectInEscape (c : Char) (p : Cursor) : Except Stop Cursor :=
  match p.rest with
  | [] => p.stop .eofInString
  | d :: _ =>
    if c = d then .ok p.next
    else Cursor.stop ⟨p.rest, p.offset + 1⟩ .unexpectedEndOfHexEscape

/-- A character written by its number, where large ones are written as a pair. -/
def readUnicode (p : Cursor) : Except Stop (Char × Cursor) := do
  let (n, p) ← readHex p
  if 0xDC00 ≤ n && n ≤ 0xDFFF then p.stop .loneSurrogate
  else if n < 0xD800 || 0xDBFF < n then return (Char.ofNat n, p)
  else
    let p ← expectInEscape '\\' p
    let p ← expectInEscape 'u' p
    let (m, p) ← readHex p
    if m < 0xDC00 || 0xDFFF < m then p.stop .loneSurrogate
    else return (Char.ofNat ((n - 0xD800) * 0x400 + (m - 0xDC00) + 0x10000), p)

def escapeOf? : Char → Option Char
  | '\x22' => some '\x22'
  | '\\' => some '\\'
  | '/' => some '/'
  | 'b' => some '\x08'
  | 'f' => some '\x0c'
  | 'n' => some '\n'
  | 'r' => some '\r'
  | 't' => some '\t'
  | _ => none

/-- The rest of a string after its opening quote; `done` lists its characters last first. -/
def readString : Nat → List Char → Cursor → Except Stop (String × Cursor)
  | 0, _, p => p.stop .eofInString
  | fuel + 1, done, p =>
    match p.rest with
    | [] => p.stop .eofInString
    | '\x22' :: _ => .ok (String.ofList done.reverse, p.next)
    | '\\' :: cs =>
      match cs with
      | [] => p.next.stop .eofInString
      | 'u' :: _ => do
        let (c, q) ← readUnicode (p.nextN 2)
        readString fuel (c :: done) q
      | e :: _ =>
        match escapeOf? e with
        | some c => readString fuel (c :: done) (p.nextN 2)
        | none => Cursor.stop ⟨cs, p.offset + 2⟩ .invalidEscape
    | c :: _ =>
      if c.toNat < 0x20 then Cursor.stop ⟨p.rest, p.offset + 1⟩ .controlCharacter
      else readString fuel (c :: done) p.next

/-- How deep arrays and objects may be nested. -/
def depthLimit : Nat := 127

/-- A value, the items of an array after one of them, or the members of an object after one of
them. The depth counts the containers that may still be opened. -/
inductive Goal where
  | value
  | items (first : Bool) (done : List Json)
  | members (first : Bool) (done : List (String × Json))

/-- Works towards a goal. The fuel bounds the number of steps. -/
def readGoal : Nat → Nat → Goal → Cursor → Except Stop (Json × Cursor)
  | 0, _, _, p => p.stop .eofInValue
  | fuel + 1, depth, .value, p =>
    let p := p.skip
    match p.rest with
    | [] => p.stopAhead .eofInValue
    | 'n' :: _ => readIdent .null "ull".toList p.next
    | 't' :: _ => readIdent (.bool true) "rue".toList p.next
    | 'f' :: _ => readIdent (.bool false) "alse".toList p.next
    | '-' :: _ => do
      let (n, q) ← readNumber true p.next
      return (.number n, q)
    | '\x22' :: _ => do
      let (s, q) ← readString p.rest.length [] p.next
      return (.string s, q)
    | '[' :: _ =>
      match depth with
      | 0 => p.stopAhead .recursionLimit
      | depth + 1 => readGoal fuel depth (.items true []) p.next
    | '\x7b' :: _ =>
      match depth with
      | 0 => p.stopAhead .recursionLimit
      | depth + 1 => readGoal fuel depth (.members true []) p.next
    | c :: _ =>
      if c.isDigit then do
        let (n, q) ← readNumber false p
        return (.number n, q)
      else p.stopAhead .expectedValue
  | fuel + 1, depth, .items first done, p =>
    let p := p.skip
    let item (p : Cursor) : Except Stop (Json × Cursor) := do
      let (value, q) ← readGoal fuel depth .value p
      readGoal fuel depth (.items false (value :: done)) q
    match p.rest with
    | [] => p.stopAhead .eofInList
    | ']' :: _ => .ok (.array done.reverse, p.next)
    | c :: _ =>
      if first then item p
      else if c = ',' then
        let p := p.next.skip
        match p.rest with
        | [] => p.stopAhead .eofInValue
        | ']' :: _ => p.stopAhead .trailingComma
        | _ => item p
      else p.stopAhead .expectedCommaOrListEnd
  | fuel + 1, depth, .members first done, p =>
    let p := p.skip
    let member (p : Cursor) : Except Stop (Json × Cursor) := do
      let (name, q) ← readString p.rest.length [] p.next
      let q := q.skip
      match q.rest with
      | [] => q.stopAhead .eofInObject
      | ':' :: _ => do
        let (value, r) ← readGoal fuel depth .value q.next
        readGoal fuel depth (.members false (put name value done)) r
      | _ => q.stopAhead .expectedColon
    match p.rest with
    | [] => p.stopAhead .eofInObject
    | '\x7d' :: _ => .ok (.object done, p.next)
    | c :: _ =>
      if first then
        if c = '\x22' then member p else p.stopAhead .keyMustBeString
      else if c = ',' then
        let p := p.next.skip
        match p.rest with
        | [] => p.stopAhead .eofInValue
        | '\x22' :: _ => member p
        | '\x7d' :: _ => p.stopAhead .trailingComma
        | _ => p.stopAhead .keyMustBeString
      else p.stopAhead .expectedCommaOrObjectEnd

/-- A refusal of a text: the cause, the line, and the bytes read on that line. -/
structure Fault where
  cause : Cause
  line : Nat
  column : Nat
  deriving DecidableEq, Repr

def Fault.message (fault : Fault) : String :=
  fault.cause.message ++ " at line " ++ toString fault.line ++ " column " ++ toString fault.column

/-- The line and column after a number of bytes. -/
def position (line column : Nat) : Nat → List Char → Nat × Nat
  | 0, _ => (line, column)
  | n, [] => (line, column + n)
  | n, c :: cs =>
    if n < c.utf8Size then (line, column + n)
    else if c = '\n' then position (line + 1) 0 (n - 1) cs
    else position line (column + c.utf8Size) (n - c.utf8Size) cs

def read (text : String) : Except Fault Json :=
  let cs := text.toList
  let result : Except Stop Json := do
    let (value, p) ← readGoal (2 * cs.length + 2) depthLimit .value ⟨cs, 0⟩
    let p := p.skip
    if p.rest.isEmpty then return value else p.stopAhead .trailingCharacters
  match result with
  | .ok value => .ok value
  | .error stop =>
    let (line, column) := position 1 0 stop.offset cs
    .error ⟨stop.cause, line, column⟩

end Codemod.Json
