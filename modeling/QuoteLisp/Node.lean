import QuoteLisp.Span

/-!
# The syntax tree

A `Node` keeps everything the source says: brackets and comments stand in the tree beside the
expressions. `Node.expressions` is the view without them.
-/

namespace QuoteLisp

inductive NodeKind where
  | program
  | sexpr
  | qexpr
  | number
  | string
  | symbol
  | comment
  | delimiter
  deriving DecidableEq

/-- The name of a kind of node in a printed tree. -/
def NodeKind.tag : NodeKind → String
  | program => "dlisp"
  | sexpr => "sexpr"
  | qexpr => "qexpr"
  | number => "number"
  | string => "string"
  | symbol => "symbol"
  | comment => "comment"
  | delimiter => "regex"

structure Node where
  kind : NodeKind
  contents : String
  span : Span
  children : List Node

namespace Node

/-- A node that stands for a piece of source text. -/
def leaf (kind : NodeKind) (contents : String) (span : Span) : Node := ⟨kind, contents, span, []⟩

/-- A node that has children and no text of its own. -/
def branch (kind : NodeKind) (span : Span) (children : List Node) : Node :=
  ⟨kind, "", span, children⟩

/-- Whether a node is an expression, and not a bracket or a comment. -/
def isExpression (node : Node) : Bool := node.kind != .delimiter && node.kind != .comment

/-- The children of a node that are expressions. -/
def expressions (node : Node) : List Node := node.children.filter isExpression

mutual

/-- A tree in preorder, each node with its depth below `depth`. -/
def preorder (depth : Nat) : Node → List (Nat × Node)
  | ⟨kind, contents, span, children⟩ =>
    (depth, ⟨kind, contents, span, children⟩) :: preorderAll (depth + 1) children
  termination_by structural node => node

def preorderAll (depth : Nat) : List Node → List (Nat × Node)
  | [] => []
  | node :: nodes => preorder depth node ++ preorderAll depth nodes
  termination_by structural nodes => nodes

end

end Node

end QuoteLisp
