/-!
Cutting a run of characters at a separator, and putting the parts together again.

`split` always returns at least one part.
-/
namespace Codemod.Text

/-- The parts of a run of characters between the occurrences of a separator. -/
def split (sep : Char) : List Char → List (List Char)
  | [] => [[]]
  | c :: cs =>
    if c = sep then [] :: split sep cs
    else match split sep cs with
      | [] => [[c]]
      | part :: parts => (c :: part) :: parts

def join (sep : List Char) : List (List Char) → List Char
  | [] => []
  | [part] => part
  | part :: next :: parts => part ++ sep ++ join sep (next :: parts)

theorem split_ne_nil (sep : Char) (cs : List Char) : split sep cs ≠ [] := by
  cases cs with
  | nil => simp [split]
  | cons c cs =>
    rw [split]
    split
    · simp
    · split <;> simp

def splitText (sep : Char) (s : String) : List String := (split sep s.toList).map String.ofList

def joinText (sep : String) (parts : List String) : String :=
  String.ofList (join sep.toList (parts.map String.toList))

/-- Whether one run of characters begins with another; the rest if it does. -/
def dropLead? : List Char → List Char → Option (List Char)
  | [], cs => some cs
  | _ :: _, [] => none
  | p :: ps, c :: cs => if p = c then dropLead? ps cs else none

theorem dropLead?_eq_some_iff {lead cs rest : List Char} :
    dropLead? lead cs = some rest ↔ cs = lead ++ rest := by
  induction lead generalizing cs with
  | nil => simp [dropLead?, eq_comm]
  | cons p ps ih =>
    cases cs with
    | nil => simp [dropLead?]
    | cons c cs =>
      by_cases h : p = c
      · simp [dropLead?, h, ih]
      · simp [dropLead?, h, Ne.symm h]

def dropTail? (tail : String) (s : String) : Option String :=
  (dropLead? tail.toList.reverse s.toList.reverse).map fun front => String.ofList front.reverse

def occursIn (piece : List Char) : List Char → Bool
  | [] => piece.isEmpty
  | c :: cs => (dropLead? piece (c :: cs)).isSome || occursIn piece cs

end Codemod.Text
