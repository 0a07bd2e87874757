import QuoteLisp.Eval
import QuoteLisp.Value.Equality
import QuoteLisp.Value.Reader

/-!
# Named environments

A `Workspace` lets a host program hold several environments at once, each in a slot with a name.
An environment lives as long as it stays in its slot: emptying or refilling the slot releases it,
and the links of other environments to it die.
-/

namespace QuoteLisp

structure Workspace where
  store : Store
  /-- The occupied slots, each name once. -/
  slots : List (String × EnvId)

namespace Workspace

def empty : Workspace := ⟨.empty, []⟩

/-- The environment in a slot. -/
def env? (w : Workspace) (slot : String) : Option EnvId := w.slots.lookup slot

/-- The contents of the environment in a slot. -/
def scope? (w : Workspace) (slot : String) : Option Scope := (w.env? slot).bind w.store.scope?

/-! ## Filling and emptying slots -/

/-- Empties a slot and releases its environment. -/
def drop (w : Workspace) (slot : String) : Workspace :=
  match w.env? slot with
  | none => w
  | some env => ⟨w.store.release env, w.slots.filter (·.1 != slot)⟩

/-- Puts a new environment with a given scope into a slot, then releases the previous occupant. -/
def put (w : Workspace) (slot : String) (scope : Scope) : Workspace :=
  let (env, store) := w.store.alloc scope
  let emptied := drop ⟨store, w.slots⟩ slot
  ⟨emptied.store, (slot, env) :: emptied.slots⟩

/-- Fills a slot with an empty environment. -/
def create (w : Workspace) (slot : String) : Workspace := w.put slot .empty

/-- Fills a slot with an empty environment nested in the one in another slot. -/
def createChild (w : Workspace) (slot parent : String) : Workspace :=
  match w.env? parent with
  | none => w
  | some env => w.put slot (.within env)

/-- Fills a slot with a copy of the environment in another slot: the same bindings and link. -/
def createCopy (w : Workspace) (slot source : String) : Workspace :=
  match w.scope? source with
  | none => w
  | some scope => w.put slot scope

/-! ## Changing environments -/

/-- Changes the store at the environment in a slot. -/
def onStore (w : Workspace) (slot : String) (change : Store → EnvId → Store) : Workspace :=
  match w.env? slot with
  | none => w
  | some env => { w with store := change w.store env }

def install (w : Workspace) (slot : String) : Workspace := w.onStore slot Store.install

def define (w : Workspace) (slot name : String) (v : Value) : Workspace :=
  w.onStore slot fun store env => store.define env name v

def defineRoot (w : Workspace) (slot name : String) (v : Value) : Workspace :=
  w.onStore slot fun store env => store.defineRoot env name v

/-- Nests the environment in a slot in the one in another slot. -/
def setParent (w : Workspace) (slot parent : String) : Workspace :=
  match w.env? parent with
  | none => w
  | some target => w.onStore slot fun store env => store.setParent env target

/-! ## Asking and evaluating -/

/-- Whether the environments in two slots bind equal values to the same names in the same order. -/
def agree (w : Workspace) (slot other : String) : Bool :=
  match w.scope? slot, w.scope? other with
  | some a, some b => Value.beqBindings a.bindings b.bindings
  | _, _ => false

def get (w : Workspace) (slot name : String) : Except Fault Value :=
  match w.env? slot with
  | none => .error (.unboundSymbol name)
  | some env => w.store.get env name

/-- Runs an evaluation in the environment in a slot. -/
def onEval {α : Type} (w : Workspace) (slot : String)
    (run : EnvId → Store → Option (α × Store)) : Option (α × Workspace) := do
  let env ← w.env? slot
  let (result, store) ← run env w.store
  return (result, { w with store })

def eval (w : Workspace) (depth : Nat) (slot : String) (v : Value) : Option (Value × Workspace) :=
  w.onEval slot fun env store => QuoteLisp.eval depth env v store

/-- Evaluates the expression with these items. -/
def evalExpr (w : Workspace) (depth : Nat) (slot : String) (items : List Value) :
    Option (Value × Workspace) :=
  w.onEval slot fun env store => QuoteLisp.evalExpr (QuoteLisp.eval depth) env items store

/-- Calls a value on arguments that are not evaluated again. -/
def call (w : Workspace) (depth : Nat) (slot : String) (f : Value) (args : List Value) :
    Option (Value × Workspace) :=
  w.onEval slot fun env store => QuoteLisp.call (QuoteLisp.eval depth) env f args store

/-- Runs an operation on arguments that are not evaluated again. -/
def run (w : Workspace) (depth : Nat) (slot : String) (p : Primitive) (args : List Value) :
    Option (Except Fault Value × Workspace) :=
  w.onEval slot fun env store => p.run (QuoteLisp.eval depth) env args store

/-- Evaluates a source text as one expression. -/
def evalLine (w : Workspace) (depth : Nat) (slot : String) (source : String) :
    Except ParseError (Option (Value × Workspace)) :=
  match readSource source with
  | .error e => .error e
  | .ok items => .ok (w.eval depth slot (.sexpr items))

end Workspace

end QuoteLisp
