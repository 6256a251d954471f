import Codemod.Text.Split

/-!
Quoted strings of TOML.

Double quotes allow escapes and single quotes do not. Three quotes in a row enclose a string of
several lines, which may hold up to two quotes in a row, also at its end; a line break right behind
the opening quotes is not part of it.
-/
namespace Codemod.Toml

/-- A character that strings and comments may hold. -/
def isPlain (c : Char) : Bool := c == '\t' || (0x20 ≤ c.toNat && c.toNat ≠ 0x7F)

def isSpace (c : Char) : Bool := c == ' ' || c == '\t'

def afterBreak? : List Char → Option (List Char)
  | '\n' :: rest => some rest
  | '\r' :: '\n' :: rest => some rest
  | _ => none

theorem length_afterBreak? {cs rest : List Char} (h : afterBreak? cs = some rest) :
    rest.length < cs.length := by
  unfold afterBreak? at h
  split at h
  · cases h; exact Nat.lt_add_one _
  · cases h; exact Nat.lt_add_right 1 (Nat.lt_add_one _)
  · cases h

def hexDigit? (c : Char) : Option Nat :=
  if c.isDigit then some (c.toNat - 48)
  else if 'a' ≤ c ∧ c ≤ 'f' then some (c.toNat - 87)
  else if 'A' ≤ c ∧ c ≤ 'F' then some (c.toNat - 55)
  else none

def codePoint? (count : Nat) (cs : List Char) : Option Char :=
  let digits := cs.take count
  if digits.length < count then none
  else
    match digits.mapM hexDigit? with
    | none => none
    | some values =>
      let n := values.foldl (fun n d => n * 16 + d) 0
      if n.isValidChar then some (Char.ofNat n) else none

def escape? : List Char → Option (Char × Nat)
  | 'b' :: _ => some ('\x08', 1)
  | 't' :: _ => some ('\t', 1)
  | 'n' :: _ => some ('\n', 1)
  | 'f' :: _ => some ('\x0c', 1)
  | 'r' :: _ => some ('\r', 1)
  | 'e' :: _ => some ('\x1b', 1)
  | '\x22' :: _ => some ('\x22', 1)
  | '\\' :: _ => some ('\\', 1)
  | 'x' :: rest => (codePoint? 2 rest).map fun c => (c, 3)
  | 'u' :: rest => (codePoint? 4 rest).map fun c => (c, 5)
  | 'U' :: rest => (codePoint? 8 rest).map fun c => (c, 9)
  | _ => none

/-- The rest of a string in double quotes. -/
def basic (cs : List Char) : Option (List Char × List Char) :=
  match cs with
  | [] => none
  | c :: rest =>
    if c = '\x22' then some ([], rest)
    else if c = '\\' then
      match escape? rest with
      | none => none
      | some (value, n) => (basic (rest.drop n)).map fun (text, more) => (value :: text, more)
    else if isPlain c then (basic rest).map fun (text, more) => (c :: text, more)
    else none
termination_by cs.length
decreasing_by
  · simp only [List.length_drop, List.length_cons]; omega
  · exact Nat.lt_add_one _

def literal : List Char → Option (List Char × List Char)
  | [] => none
  | c :: rest =>
    if c = '\x27' then some ([], rest)
    else if isPlain c then (literal rest).map fun (text, more) => (c :: text, more)
    else none

/-- The number of quotes in front, at most five of which count. -/
def quoteRun (quote : Char) (cs : List Char) : Nat :=
  ((cs.take 5).takeWhile fun c => c == quote).length

def skipBlank : List Char → List Char
  | [] => []
  | c :: rest =>
    if isSpace c || c == '\n' then skipBlank rest
    else if c == '\r' && rest.head? == some '\n' then skipBlank rest
    else c :: rest

/-- What follows a backslash that joins lines: nothing but blanks up to the end of the line, and
all blanks and line breaks from there on. -/
def joinedLine? (cs : List Char) : Option (List Char) :=
  (afterBreak? (cs.dropWhile isSpace)).map skipBlank

theorem length_skipBlank (cs : List Char) : (skipBlank cs).length ≤ cs.length := by
  induction cs with
  | nil => simp [skipBlank]
  | cons c rest ih =>
    rw [skipBlank]
    split
    · exact Nat.le_succ_of_le ih
    · split
      · exact Nat.le_succ_of_le ih
      · exact Nat.le_refl _

theorem length_joinedLine? {cs rest : List Char} (h : joinedLine? cs = some rest) :
    rest.length < cs.length + 1 := by
  obtain ⟨more, hm, rfl⟩ := Option.map_eq_some_iff.1 h
  have := length_afterBreak? hm
  have := length_skipBlank more
  have := (List.dropWhile_sublist (p := isSpace) (l := cs)).length_le
  omega

set_option linter.unusedVariables false in
def basicLines (cs : List Char) : Option (List Char × List Char) :=
  match cs with
  | [] => none
  | c :: rest =>
    let run := quoteRun '\x22' (c :: rest)
    if 3 ≤ run then some (List.replicate (run - 3) '\x22', (c :: rest).drop run)
    else if c = '\\' then
      match h : joinedLine? rest with
      | some more => basicLines more
      | none =>
        match escape? rest with
        | none => none
        | some (value, n) =>
          (basicLines (rest.drop n)).map fun (text, more) => (value :: text, more)
    else
      match h : afterBreak? (c :: rest) with
      | some more => (basicLines more).map fun (text, more) => ('\n' :: text, more)
      | none =>
        if isPlain c then (basicLines rest).map fun (text, more) => (c :: text, more) else none
termination_by cs.length
decreasing_by
  · exact length_joinedLine? h
  · simp only [List.length_drop, List.length_cons]; omega
  · exact length_afterBreak? h
  · exact Nat.lt_add_one _

set_option linter.unusedVariables false in
def literalLines (cs : List Char) : Option (List Char × List Char) :=
  match cs with
  | [] => none
  | c :: rest =>
    let run := quoteRun '\x27' (c :: rest)
    if 3 ≤ run then some (List.replicate (run - 3) '\x27', (c :: rest).drop run)
    else
      match h : afterBreak? (c :: rest) with
      | some more => (literalLines more).map fun (text, more) => ('\n' :: text, more)
      | none =>
        if isPlain c then (literalLines rest).map fun (text, more) => (c :: text, more) else none
termination_by cs.length
decreasing_by
  · exact length_afterBreak? h
  · exact Nat.lt_add_one _

def dropBreak (cs : List Char) : List Char := (afterBreak? cs).getD cs

def quotedLine? : List Char → Option (List Char × List Char)
  | '\x22' :: rest => basic rest
  | '\x27' :: rest => literal rest
  | _ => none

def quoted? (cs : List Char) : Option (List Char × List Char) :=
  match cs with
  | '\x22' :: '\x22' :: '\x22' :: rest => basicLines (dropBreak rest)
  | '\x27' :: '\x27' :: '\x27' :: rest => literalLines (dropBreak rest)
  | _ => quotedLine? cs

end Codemod.Toml
