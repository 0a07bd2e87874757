import QuoteLisp.Fault

/-!
# Values

Programs and their results are the same type: a list in round brackets is an expression to evaluate,
a list in curly brackets is data. Functions are either builtin or closures; a closure carries the
bindings of the scope it was made with and that scope's link to an environment.
-/

namespace QuoteLisp

/-! ## Builtin functions -/

/-- The arithmetic operations. -/
inductive ArithOp where
  | add
  | subtract
  | multiply
  | divide
  | remainder
  deriving DecidableEq

/-- The operations that are built into the language. -/
inductive Primitive where
  | list
  | head
  | tail
  | eval
  | join
  | arith (op : ArithOp)
  /-- Binds names at the root of the chain of environments. -/
  | define
  /-- Binds names in the calling environment. -/
  | assign
  | lambda
  /-- Makes a closure and binds it to a name at the root. -/
  | function
  deriving DecidableEq

/-- The symbol of an arithmetic operation. -/
def ArithOp.name : ArithOp → String
  | add => "+"
  | subtract => "-"
  | multiply => "*"
  | divide => "/"
  | remainder => "%"

/-- The name of an operation: the one a new root binds it to, and the one its errors use. -/
def Primitive.name : Primitive → String
  | list => "list"
  | head => "head"
  | tail => "tail"
  | eval => "eval"
  | join => "join"
  | arith op => op.name
  | define => "def"
  | assign => "="
  | lambda => "\\"
  | function => "fn"

/-- All operations, in the order in which a new root binds them. -/
def Primitive.all : List Primitive :=
  [.list, .head, .tail, .eval, .join, .arith .add, .arith .subtract, .arith .multiply,
    .arith .divide, .arith .remainder, .define, .assign, .lambda, .function]

/-- The operation with a name. -/
def Primitive.ofName? (name : String) : Option Primitive := all.find? (·.name = name)

/-- An operation registered under a name, which need not be its own. -/
structure Builtin where
  name : String
  primitive : Primitive

/-! ## Values -/

/-- An environment's identity. No two environments of a store ever share one. -/
abbrev EnvId := Nat

inductive Value where
  | number (n : Int64)
  | string (text : String)
  | symbol (name : String)
  | error (e : EvalError)
  | sexpr (items : List Value)
  | qexpr (items : List Value)
  | builtin (b : Builtin)
  | closure (formals : List String) (body : List Value) (captured : List (String × Value))
    (link : Option EnvId)

namespace Value

/-- The empty expression, which stands for "no result". -/
def unit : Value := sexpr []

/-- The value of a fault. -/
def ofFault (fault : Fault) : Value := error fault.toError

/-- An operation under its own name. -/
def ofPrimitive (p : Primitive) : Value := builtin ⟨p.name, p⟩

/-- A closure that carries no bindings. -/
def lambda (formals : List String) (body : List Value) : Value := closure formals body [] none

def typeName : Value → String
  | number _ => "Number"
  | string _ => "String"
  | symbol _ => "Symbol"
  | error _ => "Error"
  | sexpr _ => "S-Expression"
  | qexpr _ => "Q-Expression"
  | builtin _ => "Function"
  | closure .. => "Function"

def error? : Value → Option EvalError
  | error e => some e
  | _ => none

def number? : Value → Option Int64
  | number n => some n
  | _ => none

def isError : Value → Bool
  | error _ => true
  | _ => false

def isUnit : Value → Bool
  | sexpr [] => true
  | _ => false

@[simp] theorem error?_error (e : EvalError) : (error e).error? = some e := rfl

theorem error?_eq_some_iff {v : Value} {e : EvalError} : v.error? = some e ↔ v = error e := by
  cases v <;> simp [error?]

theorem isError_eq_isSome_error? (v : Value) : v.isError = v.error?.isSome := by
  cases v <;> rfl

theorem isUnit_iff {v : Value} : v.isUnit = true ↔ v = unit := by
  cases v with
  | sexpr items => cases items <;> simp [isUnit, unit]
  | _ => simp [isUnit, unit]

end Value

end QuoteLisp
