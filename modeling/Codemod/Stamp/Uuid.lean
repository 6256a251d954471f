import Codemod.Text.Split

/-!
Identifiers of 128 bits.

An identifier is written as 32 digits in groups of 8, 4, 4, 4 and 12 with hyphens between them. It
is read in that form, bare, in braces or behind `urn:uuid:`, and as 32 digits in a row; letters
may be of either case.
-/
namespace Codemod

/-- An identifier: its 32 hexadecimal digits. -/
structure Uuid where
  digits : List (Fin 16)
  length_eq : digits.length = 32
  deriving DecidableEq, Repr

namespace Uuid

def digitText (d : Fin 16) : Char :=
  if d.val < 10 then Char.ofNat (48 + d.val) else Char.ofNat (87 + d.val)

def digitOf? (c : Char) : Option (Fin 16) :=
  if c.isDigit then some (Fin.ofNat 16 (c.toNat - 48))
  else if 'a' ≤ c ∧ c ≤ 'f' then some (Fin.ofNat 16 (c.toNat - 87))
  else if 'A' ≤ c ∧ c ≤ 'F' then some (Fin.ofNat 16 (c.toNat - 55))
  else none

@[simp] theorem digitOf?_digitText (d : Fin 16) : digitOf? (digitText d) = some d := by
  revert d; decide

def groups : List Nat := [8, 4, 4, 4, 12]

def hyphenate : List Nat → List Char → List Char
  | [], _ => []
  | [n], cs => cs.take n
  | n :: rest, cs => cs.take n ++ '-' :: hyphenate rest (cs.drop n)

def ungroup : List Nat → List Char → Option (List Char)
  | [], cs => if cs.isEmpty then some [] else none
  | [n], cs => if cs.length = n then some cs else none
  | n :: rest, cs =>
    match cs.drop n with
    | '-' :: more => (ungroup rest more).map (cs.take n ++ ·)
    | _ => none

def toText (id : Uuid) : String :=
  String.ofList (hyphenate groups (id.digits.map digitText))

def ofDigits? (cs : List Char) : Option Uuid :=
  match cs.mapM digitOf? with
  | none => none
  | some digits => if h : digits.length = 32 then some ⟨digits, h⟩ else none

def unbrace? : List Char → Option (List Char)
  | '\x7b' :: cs => if cs.getLast? = some '\x7d' then some cs.dropLast else none
  | _ => none

def ofText? (s : String) : Option Uuid :=
  let cs := s.toList
  let bare :=
    match cs.length with
    | 32 => some cs
    | 36 => ungroup groups cs
    | 38 => (unbrace? cs).bind (ungroup groups)
    | 45 => (Text.dropLead? "urn:uuid:".toList cs).bind (ungroup groups)
    | _ => none
  bare.bind ofDigits?

/-- The identifier that random bytes make. Digit 12 says that it is a random one, and the upper bits
of digit 16 are 1 and 0. -/
def ofRandom (bytes : List UInt8) : Uuid where
  digits := (List.range 32).map fun i =>
    let byte := (bytes.getD (i / 2) 0).toNat
    let digit := Fin.ofNat 16 (if i % 2 = 0 then byte / 16 else byte)
    if i = 12 then Fin.ofNat 16 4
    else if i = 16 then Fin.ofNat 16 (8 + digit.val % 4)
    else digit
  length_eq := List.length_map _

end Uuid

end Codemod
