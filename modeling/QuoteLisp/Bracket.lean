/-!
# Brackets

Round brackets enclose an expression to evaluate, curly brackets enclose one that is quoted.
-/

namespace QuoteLisp

inductive Bracket where
  | round
  | curly
  deriving DecidableEq

namespace Bracket

def opener : Bracket → Char
  | round => '('
  | curly => '\x7b'

def closer : Bracket → Char
  | round => ')'
  | curly => '\x7d'

end Bracket

end QuoteLisp
