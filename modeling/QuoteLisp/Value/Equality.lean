import QuoteLisp.Value

/-!
# Equality of values

Values are compared by structure with two exceptions: builtin functions are equal when they are
registered under the same name, and the link of a closure's scope does not count.
-/

namespace QuoteLisp

namespace Value

mutual

/-- Whether two values are equal in the language. -/
def beq : Value → Value → Bool
  | number m, number n => m == n
  | string s, string t => s == t
  | symbol s, symbol t => s == t
  | error d, error e => d == e
  | sexpr xs, sexpr ys => beqItems xs ys
  | qexpr xs, qexpr ys => beqItems xs ys
  | builtin b, builtin c => b.name == c.name
  | closure formals body captured _, closure formals' body' captured' _ =>
    formals == formals' && beqItems body body' && beqBindings captured captured'
  | _, _ => false
  termination_by structural v => v

def beqItems : List Value → List Value → Bool
  | [], [] => true
  | x :: xs, y :: ys => beq x y && beqItems xs ys
  | _, _ => false
  termination_by structural xs => xs

def beqBindings : List (String × Value) → List (String × Value) → Bool
  | [], [] => true
  | (m, x) :: xs, (n, y) :: ys => m == n && beq x y && beqBindings xs ys
  | _, _ => false
  termination_by structural xs => xs

end

instance : BEq Value := ⟨beq⟩

end Value

end QuoteLisp
