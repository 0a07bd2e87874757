import QuoteLisp.Store
import QuoteLisp.Text.Quoted
import QuoteLisp.Word

/-!
# The inner structure of values as text

Where the printed text of a value hides something (the bindings of a closure, the kind of an error),
its inspection shows it: constructor names, and records with their field names. Whether a scope has
a parent depends on the store, so inspection asks for it.
-/

namespace QuoteLisp

namespace Inspect

/-- A text as a quoted literal. -/
def quoted (text : String) : String := String.ofList (Quoted.quote text.toList)

/-- A constructor with one argument. -/
def tagged (name argument : String) : String := s!"{name}({argument})"

def sequence (items : List String) : String := "[" ++ ", ".intercalate items ++ "]"

/-- A record with named fields. -/
def record (name : String) (fields : List (String × String)) : String :=
  name ++ " \x7b " ++ ", ".intercalate (fields.map fun (field, text) => s!"{field}: {text}") ++
    " \x7d"

end Inspect

open Inspect

def ErrorKind.inspect : ErrorKind → String
  | notFound name => record "NotFound" [("name", quoted name)]
  | typeMismatch expected got =>
    record "TypeMismatch" [("expected", quoted expected), ("got", quoted got)]
  | notAFunction got => record "NotAFunction" [("got", quoted got)]
  | notASymbol got => record "NotASymbol" [("got", quoted got)]
  | arityMismatch name expected got =>
    record "ArityMismatch"
      [("name", quoted name), ("expected", toString expected), ("got", toString got)]
  | emptyList function => record "EmptyList" [("function", quoted function)]
  | divisionByZero => "DivisionByZero"
  | moduloByZero => "ModuloByZero"
  | integerOverflow operation => record "IntegerOverflow" [("operation", quoted operation)]
  | invalidNumberLiteral literal => record "InvalidNumberLiteral" [("literal", quoted literal)]
  | malformed message => record "Syntax" [("message", quoted message)]

def EvalError.inspect (e : EvalError) : String :=
  record "EvalError" [("kind", e.kind.inspect), ("message", quoted e.message)]

namespace Inspect

/-- A scope from the texts of its bindings. -/
def scopeRecord (bindings : List String) (hasParent : Bool) : String :=
  record "Scope" [("bindings", sequence bindings), ("has_parent", toString hasParent)]

end Inspect

namespace Value

mutual

/-- The inner structure of a value; `store` decides which links are alive. -/
def inspect (store : Store) : Value → String
  | number n => tagged "Number" (String.ofList (Word.digits n))
  | string text => tagged "String" (quoted text)
  | symbol name => tagged "Symbol" (quoted name)
  | error e => tagged "Error" e.inspect
  | sexpr items => tagged "SExpr" (sequence (inspectItems store items))
  | qexpr items => tagged "QExpr" (sequence (inspectItems store items))
  | builtin b => tagged "Function" (tagged "Builtin" (tagged "Builtin" b.name))
  | closure formals body captured link =>
    tagged "Function" (tagged "Closure" (record "Closure"
      [("formals", sequence (formals.map quoted)),
        ("body", sequence (inspectItems store body)),
        ("scope", scopeRecord (inspectBindings store captured) (store.linked link))]))
  termination_by structural v => v

def inspectItems (store : Store) : List Value → List String
  | [] => []
  | item :: items => inspect store item :: inspectItems store items
  termination_by structural items => items

def inspectBindings (store : Store) : List (String × Value) → List String
  | [] => []
  | (name, v) :: rest =>
    record "Binding" [("name", quoted name), ("value", inspect store v)] ::
      inspectBindings store rest
  termination_by structural bindings => bindings

end

end Value

/-- The inner structure of an environment with this scope. -/
def Scope.inspect (store : Store) (scope : Scope) : String :=
  tagged "Environment"
    (scopeRecord (Value.inspectBindings store scope.bindings) (store.linked scope.parent))

end QuoteLisp
