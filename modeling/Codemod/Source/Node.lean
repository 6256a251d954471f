import Codemod.Source.Kind
import Codemod.Text.Offset

/-!
Source trees.

A node has a kind, the name its grammar gives it, the field it fills in its parent, the range of
bytes it covers and its children in text order; every token is a node. `preorder` lists a tree in
document order, and `walk` lists it by working off a stack of waiting nodes: `walk_eq_preorderAll`
says that the two agree.
-/
namespace Codemod.Source

structure Node where
  kind : Kind
  grammar : String
  field : Option String
  start : Nat
  stop : Nat
  children : List Node
  deriving Repr, Inhabited

namespace Node

def ofGrammar (grammar : String) (start stop : Nat) (children : List Node) : Node :=
  ⟨Kind.ofName grammar, grammar, none, start, stop, children⟩

def isKind (node : Node) (kind : Kind) : Bool := node.kind == kind

def text (node : Node) (source : String) : String := Text.slice source node.start node.stop

def child? (node : Node) (field : String) : Option Node :=
  node.children.find? fun c => c.field == some field

def firstOf (node : Node) (kind : Kind) : Option Node :=
  node.children.find? fun c => c.isKind kind

def lastOf (node : Node) (kind : Kind) : Option Node :=
  node.children.reverse.find? fun c => c.isKind kind

def allOf (node : Node) (kind : Kind) : List Node :=
  node.children.filter fun c => c.isKind kind

/-- The children that are neither comments nor delimiters nor separators. -/
def significant (node : Node) : List Node :=
  node.children.filter fun c => !c.kind.isPunctuationOrTrivia

def filling (field : String) (node : Node) : Node := { node with field := some field }

end Node

namespace Node

def count : Node → Nat
  | { children, .. } => 1 + countAll children
where
  /-- The number of nodes of several trees. -/
  countAll : List Node → Nat
    | [] => 0
    | node :: rest => count node + countAll rest

/-- The nodes of a tree in document order: a parent before its children, children left to right. -/
def preorder : Node → List Node
  | { kind, grammar, field, start, stop, children } =>
    { kind, grammar, field, start, stop, children } :: preorderAll children
where
  /-- The nodes of several trees, one tree after another. -/
  preorderAll : List Node → List Node
    | [] => []
    | node :: rest => preorder node ++ preorderAll rest

theorem count_eq (node : Node) : count node = 1 + count.countAll node.children := by
  cases node; rfl

theorem preorder_eq (node : Node) :
    preorder node = node :: preorder.preorderAll node.children := by
  cases node; rfl

@[simp] theorem countAll_append (a b : List Node) :
    count.countAll (a ++ b) = count.countAll a + count.countAll b := by
  induction a with
  | nil => simp [count.countAll]
  | cons node rest ih => simp [count.countAll, ih, Nat.add_assoc]

/-- Works off a stack of waiting nodes: the next node is listed and its children take its place. -/
def walk : List Node → List Node
  | [] => []
  | node :: waiting => node :: walk (node.children ++ waiting)
termination_by waiting => count.countAll waiting
decreasing_by
  simp only [countAll_append, count.countAll, count_eq node]
  omega

theorem preorderAll_append (a b : List Node) :
    preorder.preorderAll (a ++ b) = preorder.preorderAll a ++ preorder.preorderAll b := by
  induction a with
  | nil => rfl
  | cons node rest ih => simp [preorder.preorderAll, ih]

/-- Working off a stack lists the waiting trees one after another. -/
theorem walk_eq_preorderAll (waiting : List Node) :
    walk waiting = preorder.preorderAll waiting := by
  induction waiting using walk.induct with
  | case1 => simp [walk, preorder.preorderAll]
  | case2 node waiting ih =>
    rw [walk, ih, preorderAll_append, preorder.preorderAll, preorder_eq]
    rfl

def descendants (node : Node) : List Node := walk [node]

end Node

end Codemod.Source
