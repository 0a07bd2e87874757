import QuoteLisp.ParseError

/-!
# Errors of evaluation

An error is a value of the language: a kind that a program can tell apart and a message for people.
A `Fault` is a cause, as the evaluator meets it; it knows more than the kind does (which function
was called, say), and `Fault.toError` derives both the kind and the message from it.
-/

namespace QuoteLisp

/-! ## Kinds -/

inductive ErrorKind where
  | notFound (name : String)
  | typeMismatch (expected got : String)
  | notAFunction (got : String)
  | notASymbol (got : String)
  | arityMismatch (name : String) (expected got : Nat)
  | emptyList (function : String)
  | divisionByZero
  | moduloByZero
  | integerOverflow (operation : String)
  | invalidNumberLiteral (literal : String)
  | malformed (message : String)
  deriving DecidableEq

/-- The noun for a number of expected arguments. -/
def argumentNoun (count : Nat) : String := if count = 1 then "argument" else "arguments"

/-- What a kind says by itself, when nothing more is known about the cause. -/
def ErrorKind.text : ErrorKind → String
  | notFound name => s!"unbound symbol `{name}`"
  | typeMismatch expected got => s!"type mismatch: expected {expected}, got {got}"
  | notAFunction got => s!"first element of an S-Expression must be a Function, got {got}"
  | notASymbol got => s!"expected a Symbol, got {got}"
  | arityMismatch name expected got =>
    if name = "" then s!"expected {expected} {argumentNoun expected}, got {got}"
    else s!"`{name}` expects {expected} {argumentNoun expected}, got {got}"
  | emptyList function => s!"`{function}` cannot be applied to an empty Q-Expression"
  | divisionByZero => "division by zero"
  | moduloByZero => "modulo by zero"
  | integerOverflow operation => s!"integer overflow in {operation}"
  | invalidNumberLiteral literal => s!"invalid number literal `{literal}`"
  | malformed message => s!"syntax error: {message}"

/-- An error as a value of the language. -/
structure EvalError where
  kind : ErrorKind
  message : String
  deriving DecidableEq

/-! ## Causes -/

/-- What went wrong. -/
inductive Fault where
  | unboundSymbol (name : String)
  /-- A builtin function was given an argument of another type than it takes. -/
  | wrongArgumentType (function expected got : String)
  | notAFunction (got : String)
  /-- A list of names to bind holds something other than a symbol. -/
  | notASymbol (function got : String)
  /-- A builtin function was given a number of arguments that it does not take. -/
  | wrongArgumentCount (function : String) (expected got : Nat)
  /-- A closure was given another number of arguments than it has formals. -/
  | wrongCallArity (expected got : Nat)
  /-- A definition lists another number of symbols than of values. -/
  | wrongBindingCount (function : String) (symbols values : Nat)
  | emptyList (function : String)
  | divisionByZero
  | moduloByZero
  | integerOverflow (operation : String)
  | invalidNumberLiteral (literal : String)
  | malformed (cause : ParseError)
  deriving DecidableEq

namespace Fault

def kind : Fault → ErrorKind
  | unboundSymbol name => .notFound name
  | wrongArgumentType _ expected got => .typeMismatch expected got
  | notAFunction got => .notAFunction got
  | notASymbol _ got => .notASymbol got
  | wrongArgumentCount function expected got => .arityMismatch function expected got
  | wrongCallArity expected got => .arityMismatch "" expected got
  | wrongBindingCount function symbols values => .arityMismatch function symbols values
  | emptyList function => .emptyList function
  | divisionByZero => .divisionByZero
  | moduloByZero => .moduloByZero
  | integerOverflow operation => .integerOverflow operation
  | invalidNumberLiteral literal => .invalidNumberLiteral literal
  | malformed cause => .malformed cause.message

/-- The message names the function at fault where the kind does not. -/
def message : Fault → String
  | wrongArgumentType function expected got => s!"`{function}` expected {expected}, got {got}"
  | notASymbol function got => s!"`{function}` can only bind Symbols, got {got}"
  | wrongBindingCount function symbols values =>
    s!"`{function}` cannot bind {symbols} symbols to {values} values"
  | fault => fault.kind.text

def toError (fault : Fault) : EvalError := ⟨fault.kind, fault.message⟩

end Fault

end QuoteLisp
