import Codemod.Source.Node
import Codemod.Grammar.LineEnd
import Std.Data.HashMap

/-!
Grammar rules, and reading by them.

A grammar gives a rule for each of its symbols, and `Rule.read` follows a rule from a place in the
text to the nodes it covers. Alternatives are tried in order and the first that fits is kept;
repetition takes as much as it can. A token may be preceded by gaps and comments. The comments
become nodes as well: `Rule.node` leaves those in front of its first token to its surroundings, so
that no node begins with a comment. What a symbol comes to at a place depends on nothing read
before, so it is worked out once and kept, and alternatives that begin alike cost little.

A left-recursive shape such as a member access or a binary operation is written as a `chain`: a
base, and tails that turn what has been read so far into the first child of a larger node.
-/
namespace Codemod.Grammar

open Source

/-- A place in the text: the characters ahead and the bytes behind. -/
structure Place where
  rest : List Char
  offset : Nat

namespace Place

def advance (p : Place) (n : Nat) : Place :=
  ⟨p.rest.drop n, p.offset + Text.byteLength (p.rest.take n)⟩

def skipGap (p : Place) : Place := p.advance (Lexeme.run Lexeme.isGap p.rest)

def token? (p : Place) (name : String) (lexeme : Lexeme) : Option (Node × Place) :=
  match lexeme p.rest with
  | 0 => none
  | n => let q := p.advance n; some (Node.ofGrammar name p.offset q.offset [], q)

def comment? (p : Place) : Option (Node × Place) := p.skipGap.token? "comment" Lexeme.comment

/-- All comments up to the next token, and the place of that token. -/
def trivia (p : Place) : Nat → List Node × Place
  | 0 => ([], p.skipGap)
  | fuel + 1 =>
    match p.comment? with
    | none => ([], p.skipGap)
    | some (node, q) => let (more, r) := q.trivia fuel; (node :: more, r)

def skipTrivia (p : Place) : List Node × Place := p.trivia p.rest.length

/-- Ends a statement without a semicolon, at the first place among the comments that allows it. -/
def lineEnd? (p : Place) (at_ : LineEnd) : Nat → Option (List Node × Place)
  | 0 => none
  | fuel + 1 =>
    if at_.holds p.rest then some ([], p)
    else match p.comment? with
      | none => none
      | some (node, q) => (q.lineEnd? at_ fuel).map fun (more, r) => (node :: more, r)

end Place

structure Setting where
  /-- A statement can end here without a semicolon. -/
  terminable : Bool
  /-- A colon after a parameter list starts a return type. -/
  returnTypes : Bool
  deriving DecidableEq, Hashable

/-- A grammar rule over the symbols `σ`. -/
inductive Rule (σ : Type) where
  /-- A token, after gaps and comments. -/
  | token (name : String) (lexeme : Lexeme)
  /-- A token right here. -/
  | joined (name : String) (lexeme : Lexeme)
  /-- Rules one after another. -/
  | seq (parts : List (Rule σ))
  /-- The first rule that fits. -/
  | alt (choices : List (Rule σ))
  /-- A rule as often as it fits. -/
  | many (part : Rule σ)
  /-- The rule of a symbol. -/
  | ref (symbol : σ)
  /-- A node around what a rule covers. -/
  | node (name : String) (body : Rule σ)
  /-- The nodes of a rule fill a field of their parent. -/
  | field (name : String) (body : Rule σ)
  /-- The rule fits here; nothing is read. -/
  | ahead (body : Rule σ)
  /-- The rule does not fit here; nothing is read. -/
  | notAhead (body : Rule σ)
  /-- A base and the tails that follow it. Each tail may refuse or change the node before it, and
  names the larger node. No tail is read where a statement ends. -/
  | chain (stop : LineEnd) (base : Rule σ) (tails : List (String × (Node → Option Node) × Rule σ))
  /-- A rule read in another setting. -/
  | within (change : Setting → Setting) (body : Rule σ)
  /-- Holds in some settings only; nothing is read. -/
  | given (test : Setting → Bool)
  /-- The end of a statement without a semicolon. -/
  | lineEnd (at_ : LineEnd)

def splitComments (nodes : List Node) : List Node × List Node :=
  nodes.span fun n => n.isKind .comment

/-- A node around children, with the comments in front of them left outside. -/
def enclose (name : String) (nodes : List Node) (stop : Nat) : List Node :=
  match splitComments nodes with
  | (front, []) => front
  | (front, first :: more) => front ++ [Node.ofGrammar name first.start stop (first :: more)]

/-- What has been read, and the place after it. -/
abbrev Found := List Node × Place

/-- What the symbols that were looked for come to, by symbol, setting and offset. -/
abbrev Findings (σ : Type) [BEq σ] [Hashable σ] := Std.HashMap (σ × Setting × Nat) (Option Found)

/-- Reading that may fail and keeps its findings all the same. -/
abbrev Reading (σ : Type) [BEq σ] [Hashable σ] := OptionT (StateM (Findings σ))

namespace Reading

variable {σ : Type} [BEq σ] [Hashable σ] {α : Type}

def result (found : Option α) : Reading σ α := OptionT.mk (pure found)

def outcome (reading : Reading σ α) : Reading σ (Option α) := OptionT.lift reading.run

def repeated (step : Place → Reading σ Found) : Nat → Place → Reading σ Found
  | 0, p => pure ([], p)
  | fuel + 1, p => do
    match ← outcome (step p) with
    | none => return ([], p)
    | some (nodes, q) =>
      if q.offset ≤ p.offset then return ([], p)
      else
        let (more, r) ← repeated step fuel q
        return (nodes ++ more, r)

/-- Lets a step extend a node as often as it fits. -/
def extended (step : Node → Place → Reading σ (Node × Place)) :
    Nat → Node → Place → Reading σ (Node × Place)
  | 0, node, p => pure (node, p)
  | fuel + 1, node, p => do
    match ← outcome (step node p) with
    | none => return (node, p)
    | some (larger, q) => extended step fuel larger q

/-- Works out what a symbol comes to at a place unless that is known. -/
def once (key : σ × Setting × Nat) (reading : Reading σ Found) : Reading σ Found := do
  match (← get)[key]? with
  | some known => result known
  | none =>
    let found ← outcome reading
    modify fun findings => findings.insert key found
    result found

end Reading

namespace Rule

variable {σ : Type}

open Reading

/-- Follows a rule. The fuel bounds the depth of nested rules. -/
def read [BEq σ] [Hashable σ] (grammar : σ → Rule σ) :
    Nat → Setting → Rule σ → Place → Reading σ Found
  | 0, _, _, _ => failure
  | fuel + 1, setting, rule, p =>
    match rule with
    | token name lexeme =>
      let (comments, q) := p.skipTrivia
      result ((q.token? name lexeme).map fun (leaf, r) => (comments ++ [leaf], r))
    | joined name lexeme => result ((p.token? name lexeme).map fun (leaf, r) => ([leaf], r))
    | seq parts =>
      parts.foldlM (fun (done : Found) part => do
        let (nodes, r) ← read grammar fuel setting part done.2
        return (done.1 ++ nodes, r)) ([], p)
    | alt choices => choices.firstM fun choice => read grammar fuel setting choice p
    | many part => repeated (read grammar fuel setting part) (p.rest.length + 1) p
    | ref symbol =>
      once (symbol, setting, p.offset) (read grammar fuel setting (grammar symbol) p)
    | node name body => do
      let (nodes, r) ← read grammar fuel setting body p
      return (enclose name nodes r.offset, r)
    | field name body => do
      let (nodes, r) ← read grammar fuel setting body p
      return (nodes.map fun n => if n.isKind .comment then n else n.filling name, r)
    | ahead body => do
      let _ ← read grammar fuel setting body p
      return ([], p)
    | notAhead body => do
      if (← outcome (read grammar fuel setting body p)).isSome then failure else return ([], p)
    | chain stop base tails => do
      let (nodes, q) ← read grammar fuel setting base p
      match nodes.getLast? with
      | none => return (nodes, q)
      | some first =>
        let step (left : Node) (place : Place) : Reading σ (Node × Place) :=
          if setting.terminable && (place.lineEnd? stop (place.rest.length + 1)).isSome then
            failure
          else tails.firstM fun (name, prepare, rest) => do
            let operand ← result (prepare left)
            let (more, r) ← read grammar fuel setting rest place
            return (Node.ofGrammar name operand.start r.offset (operand :: more), r)
        let (whole, r) ← extended step (q.rest.length + 1) first q
        return (nodes.dropLast ++ [whole], r)
    | within change body => read grammar fuel (change setting) body p
    | given test => if test setting then return ([], p) else failure
    | lineEnd at_ =>
      if setting.terminable then result (p.lineEnd? at_ (p.rest.length + 1)) else failure

def opt (body : Rule σ) : Rule σ := alt [body, seq []]

def keyword (text : String) : Rule σ := token text (Lexeme.keyword text)

def mark (text : String) : Rule σ := token text (Lexeme.exact text)

def markUnless (text : String) (longer : List String) : Rule σ :=
  token text (Lexeme.exactUnless text longer)

def name (as_ : String) : Rule σ := token as_ Lexeme.word

/-- Inside brackets no statement ends. -/
def enclosed (body : Rule σ) : Rule σ := within (fun _ => ⟨false, true⟩) body

/-- Where a statement may end at a line break. -/
def terminable (body : Rule σ) : Rule σ := within (fun _ => ⟨true, true⟩) body

def commaSeparated (item : Rule σ) : Rule σ := seq [item, many (seq [mark ",", item])]

/-- Any number, with commas between them; places between commas may stay empty. -/
def commaSparse (item : Rule σ) : Rule σ := seq [opt item, many (seq [mark ",", opt item])]

/-- The node before a tail, filling a field of the larger node. -/
def operand (field : String) : Node → Option Node := fun left => some (left.filling field)

def operandAmong (field : String) (names : List String) : Node → Option Node := fun left =>
  if names.contains left.grammar then some (left.filling field) else none

def plainOperand : Node → Option Node := some

end Rule

end Codemod.Grammar
