import Mathlib.Logic.Equiv.Defs
import QuoteLisp.Proofs.Translation
import QuoteLisp.Session

/-!
# Renaming

No name means anything to evaluation by itself: if all names in a program and in a store are
exchanged for others, one for one, the program does the same under the new names. The names that
builtin functions are registered under stay, so a builtin function works under whatever name it is
bound to.
-/

namespace QuoteLisp

/-- An error about an unbound name is about the new name, and its message says so if it is the one
that such errors have. -/
def EvalError.rename (p : Equiv.Perm String) (e : EvalError) : EvalError :=
  match e.kind with
  | .notFound name =>
    { kind := .notFound (p name)
      message :=
        if e.message = (ErrorKind.notFound name).text then (ErrorKind.notFound (p name)).text
        else e.message }
  | _ => e

theorem EvalError.rename_unbound (p : Equiv.Perm String) (name : String) :
    (Fault.unboundSymbol name).toError.rename p = (Fault.unboundSymbol (p name)).toError := by
  rw [EvalError.rename]
  exact congrArg (EvalError.mk _) (if_pos rfl)

theorem EvalError.rename_fault (p : Equiv.Perm String) {fault : Fault}
    (hfault : fault.isUnbound = false) : fault.toError.rename p = fault.toError := by
  cases fault with
  | unboundSymbol name => cases hfault
  | _ => rfl

/-- Changes names, and errors about them, and nothing else. -/
def Translation.rename (p : Equiv.Perm String) : Translation where
  name := p
  link := Translation.id.link
  error := EvalError.rename p
  name_injective := p.injective
  link_none := Translation.id.link_none
  unbound := EvalError.rename_unbound p
  fault := EvalError.rename_fault p

/-- Renames symbols, the formals of closures and what closures carry, at every depth. -/
def Value.rename (p : Equiv.Perm String) (v : Value) : Value := v.translate (.rename p)

/-- Renames the bindings of all environments, and what is bound. -/
def Store.rename (p : Equiv.Perm String) (store : Store) : Store := store.translate (.rename p)

theorem Store.translate_alloc (T : Translation) (store : Store) (scope : Scope) :
    (store.alloc scope).2.translate T = ((store.translate T).alloc (scope.translate T)).2 := by
  refine Store.eq_of_scope? (by simp) fun e => ?_
  rw [scope?_translate, scope?_alloc, scope?_alloc, size_translate, scope?_translate]
  split <;> rfl

theorem Store.translate_empty (T : Translation) : Store.empty.translate T = Store.empty := by
  refine Store.eq_of_scope? (Store.size_translate _) fun e => ?_
  rw [scope?_translate]
  simp [scope?, empty]

/-- A new root whose operations are bound under other names. -/
theorem rename_new (p : Equiv.Perm String) :
    Session.new.store.rename p = (Store.empty.alloc
      ⟨Primitive.all.map fun op => (p op.name, .ofPrimitive op), none⟩).2 := by
  show ((Store.empty.alloc ⟨Scope.builtins, none⟩).2).translate (.rename p) = _
  rw [Store.translate_alloc, Store.translate_empty]
  rfl

/-- Renaming before an evaluation has the effect of renaming its result and its store, and one
evaluation finishes within a bound if and only if the other does. In particular the operations of a
new root may be bound under any other names. -/
theorem eval_rename (p : Equiv.Perm String) :
    (∀ depth env v store, eval depth env (v.rename p) (store.rename p) =
      (eval depth env v store).map fun x => (x.1.rename p, x.2.rename p)) ∧
    ∀ depth v, eval depth 0 (v.rename p) (Store.empty.alloc
        ⟨Primitive.all.map fun op => (p op.name, .ofPrimitive op), none⟩).2 =
      (eval depth 0 v Session.new.store).map fun x => (x.1.rename p, x.2.rename p) := by
  constructor
  · exact (Translation.rename p).eval_translate
  · intro depth v
    rw [← rename_new]
    exact (Translation.rename p).eval_translate depth 0 v Session.new.store

end QuoteLisp
