import QuoteLisp.Bracket
import QuoteLisp.Span

/-!
# Syntax errors

A source text is refused either because some character starts no token, or because its brackets do
not match. `ParseError.message` is the only place that words these faults.
-/

namespace QuoteLisp

inductive ParseError where
  | unexpectedCharacter (found : Char) (span : Span)
  | unterminatedString (span : Span)
  /-- The source ended inside a list; the span is that of its opening bracket. -/
  | unclosedBracket (bracket : Bracket) (span : Span)
  /-- A closing bracket outside of every list. -/
  | unexpectedCloser (bracket : Bracket) (span : Span)
  /-- A list opened by one bracket met the closing bracket of the other kind. -/
  | mismatchedCloser (opened found : Bracket) (span : Span)
  deriving DecidableEq

namespace ParseError

def span : ParseError → Span
  | unexpectedCharacter _ span => span
  | unterminatedString span => span
  | unclosedBracket _ span => span
  | unexpectedCloser _ span => span
  | mismatchedCloser _ _ span => span

def message : ParseError → String
  | unexpectedCharacter found span => s!"unexpected character `{found}` at {span.text}"
  | unterminatedString span => s!"unterminated string literal starting at {span.text}"
  | unclosedBracket bracket span => s!"unclosed `{bracket.opener}` opened at {span.text}"
  | unexpectedCloser bracket span => s!"unexpected `{bracket.closer}` at {span.text}"
  | mismatchedCloser opened found span =>
    s!"expected `{opened.closer}` to close `{opened.opener}` " ++
      s!"but found `{found.closer}` at {span.text}"

end ParseError

end QuoteLisp
