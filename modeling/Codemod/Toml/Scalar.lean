import Codemod.Stamp.Calendar
import Codemod.Text.Split
import Codemod.Toml.Value

/-!
Numbers, booleans, dates and times of TOML.
-/
namespace Codemod.Toml

/-- The digits of a run in which single underscores may stand between digits. -/
def groupedDigits? (isDigit : Char → Bool) (cs : List Char) : Option (List Char) :=
  let groups := Text.split '_' cs
  if groups.all fun group => !group.isEmpty && group.all isDigit then some groups.flatten
  else none

def digitValue (c : Char) : Nat :=
  if c.isDigit then c.toNat - 48 else if 'a' ≤ c then c.toNat - 87 else c.toNat - 55

def valueIn (base : Nat) (digits : List Char) : Nat :=
  digits.foldl (fun n c => n * base + digitValue c) 0

def isHexDigit (c : Char) : Bool :=
  c.isDigit || ('a' ≤ c && c ≤ 'f') || ('A' ≤ c && c ≤ 'F')

/-- The digits of a decimal number without a needless zero in front. -/
def wholeDigits? (cs : List Char) : Option (List Char) :=
  match cs with
  | '0' :: _ :: _ => none
  | _ => groupedDigits? Char.isDigit cs

def unsign : List Char → Bool × List Char
  | '-' :: rest => (true, rest)
  | '+' :: rest => (false, rest)
  | cs => (false, cs)

/-- A whole number of 128 bits. -/
def integer? (cs : List Char) : Option Int :=
  let bounded (n : Int) : Option Int :=
    if -Int.ofNat (Nat.pow 2 127) ≤ n ∧ n < Int.ofNat (Nat.pow 2 128) then some n else none
  match cs with
  | '0' :: 'x' :: digits =>
    (groupedDigits? isHexDigit digits).bind fun d => bounded (valueIn 16 d)
  | '0' :: 'o' :: digits =>
    (groupedDigits? (fun c => '0' ≤ c && c ≤ '7') digits).bind fun d => bounded (valueIn 8 d)
  | '0' :: 'b' :: digits =>
    (groupedDigits? (fun c => c == '0' || c == '1') digits).bind fun d => bounded (valueIn 2 d)
  | _ =>
    let (negative, digits) := unsign cs
    (wholeDigits? digits).bind fun d =>
      let n := valueIn 10 d
      bounded (if negative then -n else n)

def decimal? (digits : List Char) (scale : Int) : Option Decimal.Double :=
  let n := valueIn 10 digits
  if n = 0 ∨ scale + digits.length < -400 then some .zero
  else if 400 < scale + digits.length then none
  else if scale < 0 then Decimal.Double.ofFraction? n (Nat.pow 10 scale.natAbs)
  else Decimal.Double.ofFraction? (n * Nat.pow 10 scale.natAbs) 1

def exponent? (cs : List Char) : Option Int :=
  let (negative, digits) := unsign cs
  (groupedDigits? Char.isDigit digits).map fun d =>
    let n := valueIn 10 d
    if negative then -n else n

/-- What stands before and after the first character that passes a test. -/
def splitAt? (p : Char → Bool) (cs : List Char) : List Char × Option (List Char) :=
  match cs.dropWhile fun c => !p c with
  | [] => (cs, none)
  | _ :: rest => (cs.takeWhile fun c => !p c, some rest)

def float? (cs : List Char) : Option Toml := do
  let (negative, body) := unsign cs
  match String.ofList body with
  | "inf" => some (.infinity negative)
  | "nan" => some .notANumber
  | _ =>
    let (mantissa, power) := splitAt? (fun c => c == 'e' || c == 'E') body
    let (whole, fraction) := splitAt? (· == '.') mantissa
    if power.isNone && fraction.isNone then none
    else
      let whole ← wholeDigits? whole
      let fraction ← match fraction with
        | none => some []
        | some digits => groupedDigits? Char.isDigit digits
      let power ← match power with
        | none => some 0
        | some digits => exponent? digits
      let d ← decimal? (whole ++ fraction) (power - fraction.length)
      some (.float { d with negative })

def fixed? (count low high : Nat) (cs : List Char) : Option (Nat × List Char) :=
  let digits := cs.take count
  if digits.length = count ∧ digits.all Char.isDigit then
    let n := valueIn 10 digits
    if low ≤ n ∧ n ≤ high then some (n, cs.drop count) else none
  else none

def mark? (mark : Char) : List Char → Option (List Char)
  | c :: rest => if c = mark then some rest else none
  | [] => none

def afterDate? (cs : List Char) : Option (List Char) := do
  let (year, rest) ← fixed? 4 0 9999 cs
  let (month, rest) ← fixed? 2 1 12 (← mark? '-' rest)
  let (day, rest) ← fixed? 2 1 31 (← mark? '-' rest)
  if (Date.mk year month day).isValid then some rest else none

/-- What follows a time. The seconds may be left out. -/
def afterTime? (cs : List Char) : Option (List Char) := do
  let (_, rest) ← fixed? 2 0 23 cs
  let (_, rest) ← fixed? 2 0 59 (← mark? ':' rest)
  match rest with
  | ':' :: rest =>
    let (_, rest) ← fixed? 2 0 60 rest
    match rest with
    | '.' :: digits =>
      let more := digits.dropWhile Char.isDigit
      if more.length < digits.length then some more else none
    | _ => some rest
  | _ => some rest

def isOffset : List Char → Bool
  | [] | ['Z'] | ['z'] => true
  | sign :: rest =>
    (sign == '+' || sign == '-') &&
      match fixed? 2 0 23 rest with
      | some (_, ':' :: minutes) =>
        match fixed? 2 0 59 minutes with
        | some (_, []) => true
        | _ => false
      | _ => false

/-- A date, a time, or a date and a time with an offset or without. -/
def isMoment (cs : List Char) : Bool :=
  match afterDate? cs with
  | some [] => true
  | some (sep :: rest) =>
    (sep == 'T' || sep == 't' || sep == ' ') &&
      match afterTime? rest with
      | some more => isOffset more
      | none => false
  | none => afterTime? cs == some []

def isScalarChar (c : Char) : Bool :=
  c.isAlphanum || c == '_' || c == '-' || c == '+' || c == '.' || c == ':'

/-- The text of a value without quotes. A blank may stand between a date and a time. -/
def scalarText (cs : List Char) : List Char × List Char :=
  let first := cs.takeWhile isScalarChar
  let rest := cs.dropWhile isScalarChar
  match afterDate? first, rest with
  | some [], ' ' :: c :: more =>
    if c.isDigit then
      let second := (c :: more).takeWhile isScalarChar
      (first ++ ' ' :: second, (c :: more).dropWhile isScalarChar)
    else (first, rest)
  | _, _ => (first, rest)

def scalar? (cs : List Char) : Option Toml :=
  match String.ofList cs with
  | "true" => some (.boolean true)
  | "false" => some (.boolean false)
  | text =>
    match integer? cs with
    | some n => some (.integer n)
    | none =>
      match float? cs with
      | some value => some value
      | none => if isMoment cs then some (.moment text) else none

end Codemod.Toml
