import QuoteLisp.Node
import QuoteLisp.Token.Lexer

/-!
# Building the tree

The tree is built by recursive descent. `Descent.expr` reads one expression off the front of the
tokens, `Descent.list` the rest of a list whose opening bracket has been read, and `Descent.program`
the expressions of a whole source; `Node.parse` puts these under a `program` node.

`Descent.expr` must be called where an expression starts. Elsewhere it answers `misplaced`, and
`Descent.program_ne_misplaced` says that no source leads there.
-/

namespace QuoteLisp

/-- The kind of list that a bracket encloses. -/
def Bracket.nodeKind : Bracket → NodeKind
  | round => .sexpr
  | curly => .qexpr

namespace TokenKind

/-- The kind of leaf that a token becomes. -/
def nodeKind : TokenKind → NodeKind
  | opening _ => .delimiter
  | closing _ => .delimiter
  | number => .number
  | string => .string
  | symbol => .symbol
  | comment => .comment

/-- The bracket that a token closes. -/
def closer? : TokenKind → Option Bracket
  | closing bracket => some bracket
  | _ => none

end TokenKind

namespace Node

/-- A token as a leaf. -/
def ofToken (token : Token) : Node := leaf token.kind.nodeKind token.text token.span

/-- The list between two bracket tokens. -/
def list (bracket : Bracket) (opener closer : Token) (items : List Node) : Node :=
  branch bracket.nodeKind (opener.span.merge closer.span)
    (ofToken opener :: items ++ [ofToken closer])

end Node

/-! ## The descent -/

namespace Descent

/-- Why no node is read. -/
inductive Refusal where
  | fault (e : ParseError)
  /-- No expression starts with this token, or none is left. -/
  | misplaced (next : Option Token)
  deriving DecidableEq

/-- A node read off the front of some tokens, and the tokens behind it. -/
structure Parsed (tokens : List Token) where
  node : Node
  rest : List Token
  shorter : rest.length < tokens.length

/-- The same node, read off the front of more tokens. -/
def Parsed.behind {tokens longer : List Token} (parsed : Parsed tokens)
    (h : tokens.length ≤ longer.length) : Parsed longer :=
  ⟨parsed.node, parsed.rest, Nat.lt_of_lt_of_le parsed.shorter h⟩

@[simp] theorem Parsed.behind_node {tokens longer : List Token} (parsed : Parsed tokens)
    (h : tokens.length ≤ longer.length) : (parsed.behind h).node = parsed.node := rfl

@[simp] theorem Parsed.behind_rest {tokens longer : List Token} (parsed : Parsed tokens)
    (h : tokens.length ≤ longer.length) : (parsed.behind h).rest = parsed.rest := rfl

mutual

/-- Reads one expression. -/
def expr (tokens : List Token) : Except Refusal (Parsed tokens) :=
  match tokens with
  | [] => .error (.misplaced none)
  | token :: tokens =>
    match token.kind with
    | .opening bracket =>
      match list bracket token [] tokens with
      | .error refusal => .error refusal
      | .ok parsed => .ok (parsed.behind (Nat.le_succ _))
    | .closing _ => .error (.misplaced (some token))
    | _ => .ok ⟨.ofToken token, tokens, Nat.lt_succ_self _⟩
  termination_by 2 * tokens.length

/-- Reads the rest of a list, given its opening bracket and the items already read, latest first. -/
def list (bracket : Bracket) (opener : Token) (done : List Node) (tokens : List Token) :
    Except Refusal (Parsed tokens) :=
  match tokens with
  | [] => .error (.fault (.unclosedBracket bracket opener.span))
  | token :: tokens =>
    match token.kind.closer? with
    | some found =>
      if found = bracket then
        .ok ⟨.list bracket opener token done.reverse, tokens, Nat.lt_succ_self _⟩
      else .error (.fault (.mismatchedCloser bracket found token.span))
    | none =>
      match expr (token :: tokens) with
      | .error refusal => .error refusal
      | .ok item =>
        match list bracket opener (item.node :: done) item.rest with
        | .error refusal => .error refusal
        | .ok parsed => .ok (parsed.behind (Nat.le_of_lt item.shorter))
  termination_by 2 * tokens.length + 1
  decreasing_by
    · omega
    · have := item.shorter
      omega

end

/-- Reads all expressions, given those already read, latest first. -/
def program (done : List Node) (tokens : List Token) : Except Refusal (List Node) :=
  match tokens with
  | [] => .ok done.reverse
  | token :: tokens =>
    match token.kind.closer? with
    | some found => .error (.fault (.unexpectedCloser found token.span))
    | none =>
      match expr (token :: tokens) with
      | .error refusal => .error refusal
      | .ok item => program (item.node :: done) item.rest
  termination_by tokens.length
  decreasing_by exact item.shorter

/-! ## No misplaced call -/

/-- Neither an expression that starts with no closing bracket nor the rest of a list is refused as
misplaced. -/
theorem expr_and_list_ne_misplaced :
    (∀ tokens, ∀ token ∈ tokens.head?, token.kind.closer? = none →
      ∀ next, expr tokens ≠ .error (.misplaced next)) ∧
    ∀ bracket opener done tokens next,
      list bracket opener done tokens ≠ .error (.misplaced next) := by
  apply expr.mutual_induct
  case case1 => simp
  case case2 =>
    intro token tokens bracket hkind refusal hlist ih _ _ _ next h
    rw [expr] at h
    simp only [hkind, hlist] at h
    cases h
    exact ih next hlist
  case case3 =>
    intro token tokens bracket hkind parsed hlist _ _ _ _ next h
    rw [expr] at h
    simp [hkind, hlist] at h
  case case4 =>
    intro token tokens bracket hkind _ hhead hcloser
    cases hhead
    simp [hkind, TokenKind.closer?] at hcloser
  case case5 =>
    intro token tokens hopening hclosing _ _ _ next h
    rw [expr] at h
    cases hkind : token.kind <;> simp_all
  case case6 =>
    intro bracket opener done next h
    simp [list] at h
  case case7 =>
    intro opener done token tokens found hcloser next h
    rw [list] at h
    simp [hcloser] at h
  case case8 =>
    intro bracket opener done token tokens found hcloser hne next h
    rw [list] at h
    simp [hcloser, hne] at h
  case case9 =>
    intro bracket opener done token tokens hcloser refusal hexpr ih next h
    rw [list] at h
    simp only [hcloser, hexpr] at h
    cases h
    exact ih token rfl hcloser next hexpr
  case case10 =>
    intro bracket opener done token tokens hcloser item hexpr refusal hlist _ ih next h
    rw [list] at h
    simp only [hcloser, hexpr, hlist] at h
    cases h
    exact ih next hlist
  case case11 =>
    intro bracket opener done token tokens hcloser item hexpr parsed hlist _ _ next h
    rw [list] at h
    simp [hcloser, hexpr, hlist] at h

theorem program_ne_misplaced (done : List Node) (tokens : List Token) (next : Option Token) :
    program done tokens ≠ .error (.misplaced next) := by
  fun_induction program done tokens with
  | case1 done => simp
  | case2 done token tokens found hcloser => simp
  | case3 done token tokens hcloser refusal hexpr =>
    intro h
    cases h
    exact expr_and_list_ne_misplaced.1 _ token rfl hcloser next hexpr
  | case4 done token tokens hcloser item hexpr ih => exact ih

end Descent

namespace Node

/-- The nodes that a sequence of tokens spells. -/
def ofTokens (tokens : List Token) : Except ParseError (List Node) :=
  match h : Descent.program [] tokens with
  | .ok items => .ok items
  | .error (.fault e) => .error e
  | .error (.misplaced next) => absurd h (Descent.program_ne_misplaced [] tokens next)

theorem ofTokens_eq_ok_iff {tokens : List Token} {items : List Node} :
    ofTokens tokens = .ok items ↔ Descent.program [] tokens = .ok items := by
  unfold ofTokens
  split
  · rename_i h
    simp [h]
  · rename_i h
    simp [h]
  · rename_i next h
    exact absurd h (Descent.program_ne_misplaced [] tokens next)

/-- The tree of a whole source, between two empty anchors at its ends. -/
def program (size : Nat) (items : List Node) : Node :=
  branch .program ⟨0, size⟩
    (leaf .delimiter "" (.point 0) :: items ++ [leaf .delimiter "" (.point size)])

/-- The tree of a source text. Lexical errors come before bracket errors. -/
def parse (source : String) : Except ParseError Node := do
  let tokens ← Token.lex source
  let items ← ofTokens tokens
  return program (byteLength source.toList) items

end Node

end QuoteLisp
