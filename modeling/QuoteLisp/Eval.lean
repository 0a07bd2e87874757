import QuoteLisp.Arithmetic
import QuoteLisp.Store

/-!
# Evaluation

A symbol evaluates to what it is bound to, an expression in round brackets to the call of its first
item on the others, and everything else to itself. Items are evaluated from left to right and the
first error is the result of the whole expression.

Evaluation need not end, so `eval` takes a bound on the depth of nested evaluations and answers
`none` when it does not suffice. One level of evaluation is `step`, which takes the evaluation of
the next level as an argument: `eval (depth + 1)` is `step (eval depth)`.
-/

namespace QuoteLisp

/-- What evaluates a value in an environment: the result and the new store, or `none` when it does
not finish within its bound. -/
abbrev Evaluator := EnvId → Value → Store → Option (Value × Store)

/-! ## Arguments of builtin functions -/

/-- The names in a list of symbols. -/
def symbolNames (function : String) : List Value → Except Fault (List String)
  | [] => .ok []
  | .symbol name :: rest => (symbolNames function rest).map (name :: ·)
  | other :: _ => .error (.notASymbol function other.typeName)

/-- The items of a quoted list. -/
def quotedItems (function : String) : Value → Except Fault (List Value)
  | .qexpr items => .ok items
  | other => .error (.wrongArgumentType function "Q-Expression" other.typeName)

/-- The items of the only argument, a quoted list. -/
def soleList (function : String) : List Value → Except Fault (List Value)
  | [v] => quotedItems function v
  | args => .error (.wrongArgumentCount function 1 args.length)

/-- The items of quoted lists, one after the other. -/
def joinLists (function : String) : List Value → Except Fault (List Value)
  | [] => .ok []
  | v :: vs => do
    let items ← quotedItems function v
    let rest ← joinLists function vs
    return items ++ rest

/-- The names to bind and their values, from a quoted list of names and as many values. -/
def definitions (function : String) : List Value → Except Fault (List (String × Value))
  | [] => .error (.wrongArgumentCount function 1 0)
  | first :: values => do
    let items ← quotedItems function first
    let names ← symbolNames function items
    if names.length = values.length then return names.zip values
    else throw (.wrongBindingCount function names.length values.length)

/-- The formals and the body of a function, from two quoted lists. -/
def formalsAndBody (function : String) : List Value → Except Fault (List String × List Value)
  | [formals, body] => do
    let formals ← quotedItems function formals
    let body ← quotedItems function body
    let names ← symbolNames function formals
    return (names, body)
  | args => .error (.wrongArgumentCount function 2 args.length)

/-! ## Calls -/

namespace Store

/-- Binds several names in an environment, one after the other. -/
def defineAll (store : Store) (env : EnvId) : List (String × Value) → Store
  | [] => store
  | (name, v) :: rest => (store.define env name v).defineAll env rest

/-- Binds several names at the root of an environment's chain, one after the other. -/
def defineAllRoot (store : Store) (env : EnvId) : List (String × Value) → Store
  | [] => store
  | (name, v) :: rest => (store.defineRoot env name v).defineAllRoot env rest

end Store

/-- Runs an operation on evaluated arguments in the calling environment. -/
def Primitive.run (evaluate : Evaluator) (p : Primitive) (env : EnvId) (args : List Value)
    (store : Store) : Option (Except Fault Value × Store) :=
  match p with
  | list => some (.ok (.qexpr args), store)
  | head =>
    match soleList head.name args with
    | .error fault => some (.error fault, store)
    | .ok [] => some (.error (.emptyList head.name), store)
    | .ok (first :: _) => some (.ok (.qexpr [first]), store)
  | tail =>
    match soleList tail.name args with
    | .error fault => some (.error fault, store)
    | .ok [] => some (.error (.emptyList tail.name), store)
    | .ok (_ :: rest) => some (.ok (.qexpr rest), store)
  | eval =>
    match soleList eval.name args with
    | .error fault => some (.error fault, store)
    | .ok items => (evaluate env (.sexpr items) store).map fun (v, store) => (.ok v, store)
  | join => some ((joinLists join.name args).map Value.qexpr, store)
  | arith op => some (op.run args, store)
  | define =>
    match definitions define.name args with
    | .error fault => some (.error fault, store)
    | .ok bindings => some (.ok .unit, store.defineAllRoot env bindings)
  | assign =>
    match definitions assign.name args with
    | .error fault => some (.error fault, store)
    | .ok bindings => some (.ok .unit, store.defineAll env bindings)
  | lambda =>
    some ((formalsAndBody lambda.name args).map fun (formals, body) => .lambda formals body, store)
  | function =>
    match formalsAndBody function.name args with
    | .error fault => some (.error fault, store)
    | .ok ([], _) => some (.error (.emptyList function.name), store)
    | .ok (name :: formals, body) =>
      some (.ok (.lambda formals body), store.defineRoot env name (.lambda formals body))

/-- Calls a closure: its body is evaluated in a new environment that holds the captured bindings
and the arguments, is nested in the calling environment, and lives as long as the call. -/
def callClosure (evaluate : Evaluator) (env : EnvId) (formals : List String) (body : List Value)
    (captured : Bindings) (args : List Value) (store : Store) : Option (Value × Store) :=
  if formals.length = args.length then
    let (frame, store) := store.alloc ⟨captured.setAll (formals.zip args), some env⟩
    (evaluate frame (.sexpr body) store).map fun (v, store) => (v, store.release frame)
  else some (.ofFault (.wrongCallArity formals.length args.length), store)

/-- Calls a value on evaluated arguments. -/
def call (evaluate : Evaluator) (env : EnvId) (f : Value) (args : List Value) (store : Store) :
    Option (Value × Store) :=
  match f with
  | .builtin b =>
    (b.primitive.run evaluate env args store).map fun
      | (.ok v, store) => (v, store)
      | (.error fault, store) => (.ofFault fault, store)
  | .closure formals body captured _ => callClosure evaluate env formals body captured args store
  | other => some (.ofFault (.notAFunction other.typeName), store)

/-! ## Expressions -/

/-- Evaluates items from left to right up to the first error. -/
def evalItems (evaluate : Evaluator) (env : EnvId) :
    List Value → Store → Option (Except EvalError (List Value) × Store)
  | [], store => some (.ok [], store)
  | item :: items, store =>
    match evaluate env item store with
    | none => none
    | some (v, store) =>
      match v.error? with
      | some e => some (.error e, store)
      | none =>
        match evalItems evaluate env items store with
        | none => none
        | some (.error e, store) => some (.error e, store)
        | some (.ok vs, store) => some (.ok (v :: vs), store)

/-- The result of an expression from the values of its items. -/
def applyItems (evaluate : Evaluator) (env : EnvId) (store : Store) :
    List Value → Option (Value × Store)
  | [] => some (.unit, store)
  | [v] => some (v, store)
  | f :: args => call evaluate env f args store

/-- Evaluates an expression given by its items. -/
def evalExpr (evaluate : Evaluator) (env : EnvId) (items : List Value) (store : Store) :
    Option (Value × Store) :=
  match evalItems evaluate env items store with
  | none => none
  | some (.error e, store) => some (.error e, store)
  | some (.ok vs, store) => applyItems evaluate env store vs

/-- One level of evaluation. -/
def step (evaluate : Evaluator) : Evaluator := fun env v store =>
  match v with
  | .symbol name =>
    match store.get env name with
    | .ok v => some (v, store)
    | .error fault => some (.ofFault fault, store)
  | .sexpr items => evalExpr evaluate env items store
  | other => some (other, store)

/-- Evaluates a value in an environment, with evaluations nested at most `depth` deep. -/
def eval : Nat → Evaluator
  | 0 => fun _ _ _ => none
  | depth + 1 => step (eval depth)

/-- The bound for callers that have none of their own. -/
def defaultDepth : Nat := 100000

@[simp] theorem eval_zero (env : EnvId) (v : Value) (store : Store) : eval 0 env v store = none :=
  rfl

theorem eval_succ (depth : Nat) : eval (depth + 1) = step (eval depth) := rfl

end QuoteLisp
