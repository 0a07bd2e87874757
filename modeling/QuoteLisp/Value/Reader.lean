import QuoteLisp.Node.Parser
import QuoteLisp.Text.Quoted
import QuoteLisp.Value
import QuoteLisp.Word

/-!
# From the tree to values

`Node.read` forgets brackets, comments and places. A whole program becomes one expression whose
items are its top-level expressions, so a line of input evaluates as one application.
-/

namespace QuoteLisp

/-- The value of a number literal. A literal that is no machine number is an error value. -/
def Value.ofNumeral (literal : String) : Value :=
  match Word.parse? literal.toList with
  | some n => .number n
  | none => .ofFault (.invalidNumberLiteral literal)

namespace Node

mutual

/-- The value that a node stands for; brackets and comments stand for none. -/
def read : Node → Option Value
  | ⟨kind, contents, _, children⟩ =>
    match kind with
    | .number => some (.ofNumeral contents)
    | .string => some (.string (String.ofList (Quoted.unquote contents.toList)))
    | .symbol => some (.symbol contents)
    | .program => some (.sexpr (readAll children))
    | .sexpr => some (.sexpr (readAll children))
    | .qexpr => some (.qexpr (readAll children))
    | .comment => none
    | .delimiter => none
  termination_by structural node => node

/-- The values of the nodes that have one. -/
def readAll : List Node → List Value
  | [] => []
  | node :: nodes =>
    match read node with
    | some v => v :: readAll nodes
    | none => readAll nodes
  termination_by structural nodes => nodes

end

theorem readAll_eq_filterMap (nodes : List Node) : readAll nodes = nodes.filterMap read := by
  induction nodes with
  | nil => rfl
  | cons node nodes ih =>
    rw [readAll, List.filterMap_cons]
    split <;> simp_all

theorem isSome_read (node : Node) : node.read.isSome = node.isExpression := by
  obtain ⟨kind, contents, span, children⟩ := node
  cases kind <;> rfl

end Node

/-- The top-level expressions of a source text. -/
def readSource (source : String) : Except ParseError (List Value) :=
  match Node.parse source with
  | .error e => .error e
  | .ok program => .ok (Node.readAll program.children)

end QuoteLisp
