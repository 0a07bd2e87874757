import QuoteLisp.Bracket
import QuoteLisp.Span

/-!
# Tokens

A token is a bracket, a word (a number or a symbol), a string literal or a comment, with its exact
text and its place in the source.
-/

namespace QuoteLisp

inductive TokenKind where
  | opening (bracket : Bracket)
  | closing (bracket : Bracket)
  | number
  | string
  | symbol
  | comment
  deriving DecidableEq

structure Token where
  kind : TokenKind
  text : String
  span : Span
  deriving DecidableEq

/-! ## Character classes -/

/-- The characters that separate tokens and mean nothing else. -/
def isBlank (c : Char) : Bool :=
  c == ' ' || c == '\t' || c == '\r' || c == '\n' || c == '\x0c'

/-- The characters of numbers and symbols. -/
def isWordChar (c : Char) : Bool :=
  c.isAlphanum || ['_', '+', '-', '*', '/', '\\', '=', '<', '>', '!', '&', '%'].contains c

/-- A comment runs as long as its characters do not end the line. -/
def isLineChar (c : Char) : Bool := !(c == '\r' || c == '\n')

/-- A numeral is one or more decimal digits behind an optional minus sign. -/
def isNumeral : List Char → Bool
  | [] => false
  | c :: cs => if c = '-' then !cs.isEmpty && cs.all Char.isDigit else (c :: cs).all Char.isDigit

/-- A name that the lexer reads back as one symbol. -/
def isSymbolName (cs : List Char) : Bool := !cs.isEmpty && cs.all isWordChar && !isNumeral cs

end QuoteLisp
