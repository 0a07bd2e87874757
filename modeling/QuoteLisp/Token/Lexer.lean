import QuoteLisp.ParseError
import QuoteLisp.Token

/-!
# Cutting a source text into tokens

`Lexeme.scan` finds the longest token at the head of a text, and `Token.lex` repeats it, skipping
blanks, until the text ends or a character starts no token.
-/

namespace QuoteLisp

/-- The longest run of complete pieces of a string literal, and the text behind it.

A piece is a character other than a quote or a backslash, or a backslash and one character other
than a line feed. -/
def stringPieces : List Char → List Char × List Char
  | [] => ([], [])
  | c :: cs =>
    if c = '"' then ([], c :: cs)
    else if c = '\\' then
      match cs with
      | [] => ([], [c])
      | d :: ds =>
        if d = '\n' then ([], c :: d :: ds)
        else (c :: d :: (stringPieces ds).1, (stringPieces ds).2)
    else (c :: (stringPieces cs).1, (stringPieces cs).2)

theorem stringPieces_append (cs : List Char) : (stringPieces cs).1 ++ (stringPieces cs).2 = cs := by
  fun_induction stringPieces cs <;> simp_all

/-! ## One token -/

/-- A token before its place in the source is known. -/
structure Lexeme where
  kind : TokenKind
  text : List Char
  deriving DecidableEq

/-- Why no token starts at a character. -/
inductive LexFault where
  | unexpected (found : Char)
  /-- A string literal that is never closed, up to its last complete piece. -/
  | unterminated (text : List Char)
  deriving DecidableEq

namespace Lexeme

/-- The longest token at the head of the text `c :: cs`, and the text behind it. -/
def scan (c : Char) (cs : List Char) : Except LexFault (Lexeme × List Char) :=
  if c = Bracket.round.opener then .ok (⟨.opening .round, [c]⟩, cs)
  else if c = Bracket.round.closer then .ok (⟨.closing .round, [c]⟩, cs)
  else if c = Bracket.curly.opener then .ok (⟨.opening .curly, [c]⟩, cs)
  else if c = Bracket.curly.closer then .ok (⟨.closing .curly, [c]⟩, cs)
  else if c = '"' then
    match (stringPieces cs).2 with
    | '"' :: rest => .ok (⟨.string, c :: (stringPieces cs).1 ++ ['"']⟩, rest)
    | _ => .error (.unterminated (c :: (stringPieces cs).1))
  else if c = ';' then
    .ok (⟨.comment, c :: cs.takeWhile isLineChar⟩, cs.dropWhile isLineChar)
  else if isWordChar c then
    let word := c :: cs.takeWhile isWordChar
    .ok (⟨if isNumeral word then .number else .symbol, word⟩, cs.dropWhile isWordChar)
  else .error (.unexpected c)

/-- A scan takes its token off the front of the text. -/
theorem scan_append {c : Char} {cs rest : List Char} {lexeme : Lexeme}
    (h : scan c cs = .ok (lexeme, rest)) : lexeme.text ++ rest = c :: cs := by
  unfold scan at h
  repeat' split at h
  all_goals cases h
  all_goals simp
  rename_i rest hrest
  simpa [hrest] using stringPieces_append cs

theorem scan_text_ne_nil {c : Char} {cs rest : List Char} {lexeme : Lexeme}
    (h : scan c cs = .ok (lexeme, rest)) : lexeme.text ≠ [] := by
  unfold scan at h
  repeat' split at h
  all_goals cases h
  all_goals simp

theorem length_rest_of_scan {c : Char} {cs rest : List Char} {lexeme : Lexeme}
    (h : scan c cs = .ok (lexeme, rest)) : rest.length < (c :: cs).length := by
  have hlength := congrArg List.length (scan_append h)
  have hpos := List.length_pos_iff.2 (scan_text_ne_nil h)
  rw [List.length_append] at hlength
  omega

/-- The lexeme as a token that starts at a byte offset. -/
def toToken (lexeme : Lexeme) (position : Nat) : Token where
  kind := lexeme.kind
  text := String.ofList lexeme.text
  span := ⟨position, position + byteLength lexeme.text⟩

end Lexeme

/-- The syntax error for a fault at a byte offset. -/
def LexFault.toParseError (position : Nat) : LexFault → ParseError
  | unexpected found => .unexpectedCharacter found ⟨position, position + found.utf8Size⟩
  | unterminated text => .unterminatedString ⟨position, position + byteLength text⟩

/-! ## The whole text -/

namespace Token

/-- The tokens of a text that starts at a byte offset. -/
def lexFrom (position : Nat) : List Char → Except ParseError (List Token)
  | [] => .ok []
  | c :: cs =>
    if isBlank c then lexFrom (position + c.utf8Size) cs
    else
      match _ : Lexeme.scan c cs with
      | .error fault => .error (fault.toParseError position)
      | .ok (lexeme, rest) =>
        match lexFrom (position + byteLength lexeme.text) rest with
        | .error e => .error e
        | .ok tokens => .ok (lexeme.toToken position :: tokens)
  termination_by cs => cs.length
  decreasing_by
    · simp
    · exact Lexeme.length_rest_of_scan ‹_›

/-- The tokens of a source text, comments included, or its first lexical error. -/
def lex (source : String) : Except ParseError (List Token) := lexFrom 0 source.toList

end Token

end QuoteLisp
