import QuoteLisp.Eval
import QuoteLisp.Value.Reader

/-!
# Sessions

A `Session` is a root environment that outlives the sources given to it. A source is evaluated
either as one line, which is one application, or as a program, which is a sequence of expressions
that are evaluated one after the other whatever their results are.
-/

namespace QuoteLisp

structure Session where
  store : Store
  root : EnvId

namespace Session

/-- A session whose root binds the builtin functions and nothing else. -/
def new : Session :=
  let (root, store) := Store.empty.alloc ⟨Scope.builtins, none⟩
  ⟨store, root⟩

/-- Evaluates a value at the root. -/
def eval (depth : Nat) (v : Value) (session : Session) : Option (Value × Session) :=
  match QuoteLisp.eval depth session.root v session.store with
  | none => none
  | some (result, store) => some (result, { session with store })

/-- Evaluates values one after the other at the root. -/
def evalEach (depth : Nat) : List Value → Session → Option (List Value × Session)
  | [], session => some ([], session)
  | v :: vs, session =>
    match session.eval depth v with
    | none => none
    | some (result, session) =>
      match evalEach depth vs session with
      | none => none
      | some (results, session) => some (result :: results, session)

/-- Evaluates a source text as one expression. -/
def evalLine (depth : Nat) (source : String) (session : Session) : Option (Value × Session) :=
  match readSource source with
  | .error e => some (.ofFault (.malformed e), session)
  | .ok items => session.eval depth (.sexpr items)

/-- Evaluates the expressions of a source text in turn. -/
def evalProgram (depth : Nat) (source : String) (session : Session) :
    Option (List Value × Session) :=
  match readSource source with
  | .error e => some ([.ofFault (.malformed e)], session)
  | .ok items => session.evalEach depth items

/-- The value of a name at the root. -/
def get (session : Session) (name : String) : Except Fault Value :=
  session.store.get session.root name

/-- The bindings of the root. -/
def bindings (session : Session) : Bindings :=
  match session.store.scope? session.root with
  | none => []
  | some scope => scope.bindings

end Session

end QuoteLisp
