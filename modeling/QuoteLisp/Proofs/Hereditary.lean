import QuoteLisp.Proofs.Bound
import QuoteLisp.Proofs.Nested

/-!
# Properties of values that evaluation keeps

A property of bound values and one of evaluated values are stable together if the second passes to
the parts of lists and closures, and if both hold of all that operations make of bound values.
Evaluation keeps them: if all bound values have the one and the evaluated value has the other, then
the same goes for all bound values afterwards, and the result may be bound or is an error.

A value is normal if it evaluates to itself and may be bound: a number, a string, a quoted list, a
function or the empty expression. A property is hereditary if it is stable together with its
restriction to normal values, so that all bound values stay normal.
-/

namespace QuoteLisp

namespace Value

/-- Whether a value is the result of an evaluation without error. -/
def isNormal : Value → Bool
  | number _ => true
  | string _ => true
  | symbol _ => false
  | error _ => false
  | sexpr items => items.isEmpty
  | qexpr _ => true
  | builtin _ => true
  | closure .. => true

def isFunction : Value → Bool
  | builtin _ => true
  | closure .. => true
  | _ => false

/-- Evaluation leaves a normal value and an error as they are. -/
theorem eval_eq_self {v : Value} (hv : v.isNormal = true ∨ v.isError = true) (depth : Nat)
    (env : EnvId) (store : Store) : eval (depth + 1) env v store = some (v, store) := by
  cases v with
  | symbol name => simp [isNormal, isError] at hv
  | sexpr items =>
    have hnil : items = [] := by simpa [isNormal, isError] using hv
    subst hnil
    rfl
  | _ => rfl

/-- A normal value with the property. -/
def IsGood (P : Value → Prop) (v : Value) : Prop := v.isNormal = true ∧ P v

/-- Properties `B` of bound and `P` of evaluated values that pass to parts and to what operations
make of bound values. -/
structure Stable (B P : Value → Prop) : Prop where
  evaluated : ∀ {v}, B v → P v
  /-- A value that evaluates to itself may be bound. -/
  bound : ∀ {v}, v.isNormal = true → P v → B v
  number : ∀ n, P (.number n)
  sexpr : ∀ {items}, P (.sexpr items) ↔ ∀ v ∈ items, P v
  qexpr : ∀ {items}, P (.qexpr items) ↔ ∀ v ∈ items, P v
  lambda : ∀ {formals body}, (∀ name ∈ formals, P (.symbol name)) → (∀ v ∈ body, P v) →
    P (.lambda formals body)
  body : ∀ {formals body captured link}, P (.closure formals body captured link) → ∀ v ∈ body, P v
  /-- What a closure carries may be bound. -/
  captured : ∀ {formals body captured link}, P (.closure formals body captured link) →
    Bindings.All B captured
  unbound : ∀ {name}, P (.symbol name) → P (.ofFault (.unboundSymbol name))
  refused : ∀ {p : Primitive} {args fault}, args ≠ [] → (∀ v ∈ args, B v) →
    p.action args = .error fault → P (.ofFault fault)
  notAFunction : ∀ {f : Value}, B f → f.isFunction = false →
    P (.ofFault (.notAFunction f.typeName))
  wrongArity : ∀ {expected got}, got ≠ 0 → expected ≠ got →
    P (.ofFault (.wrongCallArity expected got))

/-- A property that is stable where only normal values are bound. -/
structure Hereditary (P : Value → Prop) : Prop extends Stable (IsGood P) P where
  evaluated := fun hv => hv.2
  bound := fun hnormal hv => ⟨hnormal, hv⟩

end Value

variable {B P : Value → Prop}

/-! ## Actions -/

/-- What the action gives and binds may be bound, and what it evaluates may be evaluated. -/
def Action.Meets (B P : Value → Prop) : Action → Prop
  | give v => B v
  | evaluate items => ∀ v ∈ items, P v
  | assign bindings result => Bindings.All B bindings ∧ B result
  | define bindings result => Bindings.All B bindings ∧ B result

theorem all_of_definitions {function : String} {args : List Value}
    {bindings : List (String × Value)} (hargs : ∀ v ∈ args, B v)
    (h : definitions function args = .ok bindings) : Bindings.All B bindings := by
  obtain ⟨names, values, rfl, -, rfl⟩ := definitions_eq_ok_iff.1 h
  exact Bindings.all_zip names fun v hv => hargs v (List.mem_cons_of_mem _ hv)

namespace Value.Stable

theorem bound_unit (hP : Stable B P) : B .unit :=
  hP.bound rfl (hP.sexpr.2 (by simp))

theorem bound_qexpr (hP : Stable B P) {items : List Value} (hitems : ∀ v ∈ items, P v) :
    B (.qexpr items) :=
  hP.bound rfl (hP.qexpr.2 hitems)

theorem of_mem_quoted (hP : Stable B P) {args items : List Value} (hargs : ∀ v ∈ args, B v)
    (hmem : .qexpr items ∈ args) : ∀ v ∈ items, P v :=
  hP.qexpr.1 (hP.evaluated (hargs _ hmem))

theorem bound_lambda (hP : Stable B P) {formals : List String} {body : List Value}
    (hformals : ∀ name ∈ formals, P (.symbol name)) (hbody : ∀ v ∈ body, P v) :
    B (.lambda formals body) :=
  hP.bound rfl (hP.lambda hformals hbody)

theorem meets_action (hP : Stable B P) {p : Primitive} {args : List Value} {action : Action}
    (hargs : ∀ v ∈ args, B v) (h : p.action args = .ok action) : action.Meets B P := by
  have hquoted : ∀ {items}, args = [.qexpr items] → ∀ v ∈ items, P v := by
    rintro items rfl
    exact hP.of_mem_quoted hargs (List.mem_singleton_self _)
  cases p with
  | list =>
    cases h
    exact hP.bound_qexpr fun v hv => hP.evaluated (hargs v hv)
  | head =>
    rw [Primitive.action] at h
    split at h
    · cases h
    · cases h
    · rename_i first rest hitems
      cases h
      have hfirst := hquoted (soleList_eq_ok_iff.1 hitems) first List.mem_cons_self
      exact hP.bound_qexpr (List.forall_mem_singleton.2 hfirst)
  | tail =>
    rw [Primitive.action] at h
    split at h
    · cases h
    · cases h
    · rename_i first rest hitems
      cases h
      have hall := hquoted (soleList_eq_ok_iff.1 hitems)
      exact hP.bound_qexpr fun v hv => hall v (List.mem_cons_of_mem _ hv)
  | eval =>
    obtain ⟨items, hitems, rfl⟩ := Except.map_eq_ok_iff.1 h
    exact hquoted (soleList_eq_ok_iff.1 hitems)
  | join =>
    obtain ⟨items, hitems, rfl⟩ := Except.map_eq_ok_iff.1 h
    obtain ⟨lists, rfl, rfl⟩ := joinLists_eq_ok_iff.1 hitems
    refine hP.bound_qexpr fun v hv => ?_
    obtain ⟨list, hlist, hv⟩ := List.mem_flatten.1 hv
    exact hP.of_mem_quoted hargs (List.mem_map_of_mem hlist) v hv
  | arith op =>
    obtain ⟨v, hv, rfl⟩ := Except.map_eq_ok_iff.1 h
    obtain ⟨n, rfl⟩ := ArithOp.exists_of_run_eq_ok hv
    exact hP.bound rfl (hP.number n)
  | define =>
    obtain ⟨bindings, hbindings, rfl⟩ := Except.map_eq_ok_iff.1 h
    exact ⟨all_of_definitions hargs hbindings, hP.bound_unit⟩
  | assign =>
    obtain ⟨bindings, hbindings, rfl⟩ := Except.map_eq_ok_iff.1 h
    exact ⟨all_of_definitions hargs hbindings, hP.bound_unit⟩
  | lambda =>
    obtain ⟨⟨formals, body⟩, hparts, rfl⟩ := Except.map_eq_ok_iff.1 h
    obtain rfl := formalsAndBody_eq_ok_iff.1 hparts
    have hformals := hP.of_mem_quoted hargs List.mem_cons_self
    exact hP.bound_lambda (List.forall_mem_map.1 hformals) (hP.of_mem_quoted hargs (by simp))
  | function =>
    rw [Primitive.action] at h
    split at h
    · cases h
    · cases h
    · rename_i name formals body hparts
      cases h
      obtain rfl := formalsAndBody_eq_ok_iff.1 hparts
      have hnames := List.forall_mem_map.1 (hP.of_mem_quoted hargs List.mem_cons_self)
      have hformals : ∀ name ∈ formals, P (.symbol name) := (List.forall_mem_cons.1 hnames).2
      have hlambda : B (.lambda formals body) :=
        hP.bound_lambda hformals (hP.of_mem_quoted hargs (by simp))
      exact ⟨Bindings.all_cons.2 ⟨hlambda, Bindings.all_nil⟩, hlambda⟩

end Value.Stable

/-! ## Evaluation -/

/-- All bound values and the value to evaluate have their properties. -/
def Evaluation.Meets (B P : Value → Prop) (start : Evaluation) : Prop :=
  start.store.Binds B ∧ P start.value

/-- Where all bound values and the evaluated value have their properties, the evaluation keeps the
first and results in a value that may be bound or in an error. -/
def KeepsStable (B P : Value → Prop) (_ : EnvId) (v : Value) (store : Store) (r : Value)
    (after : Store) : Prop :=
  store.Binds B → P v → after.Binds B ∧ (B r ∨ r.isError = true ∧ P r)

variable {evaluate : Evaluator} {env : EnvId} {store after : Store} {r : Value}

theorem stable_of_evalItems (hP : Value.Stable B P) (heval : evaluate.Satisfies (KeepsStable B P))
    (hstore : store.Binds B) {items : List Value} (hitems : ∀ v ∈ items, P v)
    {outcome : Except EvalError (List Value)}
    (h : evalItems evaluate env items store = some (outcome, after)) :
    after.Binds B ∧
      match outcome with
      | .error e => P (.error e)
      | .ok vs => ∀ v ∈ vs, B v := by
  induction items generalizing store outcome with
  | nil =>
    cases h
    exact ⟨hstore, by simp⟩
  | cons item items ih =>
    obtain ⟨hitem, hrest⟩ := List.forall_mem_cons.1 hitems
    obtain ⟨e, hfirst, rfl⟩ | ⟨v, mid, rest, hfirst, herror, hothers, rfl⟩ :=
      evalItems_cons_eq_some_iff.1 h
    · obtain ⟨hafter, hbound | ⟨-, he⟩⟩ := heval hfirst hstore hitem
      · exact ⟨hafter, hP.evaluated hbound⟩
      · exact ⟨hafter, he⟩
    · obtain ⟨hmid, hresult⟩ := heval hfirst hstore hitem
      obtain ⟨hafter, houtcome⟩ := ih hmid hrest hothers
      refine ⟨hafter, ?_⟩
      cases rest with
      | error e => exact houtcome
      | ok vs =>
        -- evaluation went on behind `v`, so `v` is no error
        have hv : B v := hresult.resolve_right fun ⟨hv, _⟩ => by
          rw [Value.isError_eq_isSome_error?, herror] at hv
          cases hv
        exact List.forall_mem_cons.2 ⟨hv, houtcome⟩

theorem stable_of_perform (hP : Value.Stable B P) (heval : evaluate.Satisfies (KeepsStable B P))
    (hstore : store.Binds B) {action : Action} (haction : action.Meets B P)
    (h : action.perform evaluate env store = some (r, after)) :
    after.Binds B ∧ (B r ∨ r.isError = true ∧ P r) := by
  cases action with
  | give v =>
    cases h
    exact ⟨hstore, .inl haction⟩
  | evaluate items => exact heval h hstore (hP.sexpr.2 haction)
  | assign bindings result =>
    cases h
    exact ⟨hstore.defineAll env haction.1, .inl haction.2⟩
  | define bindings result =>
    cases h
    exact ⟨hstore.defineAllRoot env haction.1, .inl haction.2⟩

/-- The environment of a call binds what the closure carries and the arguments. -/
theorem Value.Stable.ofCall (hP : Value.Stable B P) (env : EnvId) (hstore : store.Binds B)
    {formals : List String} {body : List Value} {captured : Bindings} {link : Option EnvId}
    {args : List Value} (hf : P (.closure formals body captured link)) (hargs : ∀ v ∈ args, B v) :
    (Evaluation.ofCall env formals body captured args store).Meets B P := by
  refine ⟨hstore.alloc ?_, hP.sexpr.2 (hP.body hf)⟩
  exact (hP.captured hf).setAll (Bindings.all_zip formals hargs)

theorem stable_of_call (hP : Value.Stable B P) (heval : evaluate.Satisfies (KeepsStable B P))
    (hstore : store.Binds B) {f : Value} {args : List Value} (hf : B f)
    (hargs : ∀ v ∈ args, B v) (hne : args ≠ [])
    (h : call evaluate env f args store = some (r, after)) :
    after.Binds B ∧ (B r ∨ r.isError = true ∧ P r) := by
  cases f with
  | builtin b =>
    obtain ⟨fault, hrefused, rfl, rfl⟩ | ⟨action, haction, hperform⟩ := call_builtin_eq_some h
    · exact ⟨hstore, .inr ⟨rfl, hP.refused hne hargs hrefused⟩⟩
    · exact stable_of_perform hP heval hstore (hP.meets_action hargs haction) hperform
  | closure formals body captured link =>
    obtain ⟨hlength, rfl, rfl⟩ | ⟨-, last, hbody, rfl⟩ := callClosure_eq_some h
    · have hgot : args.length ≠ 0 := fun hzero => hne (List.length_eq_zero_iff.1 hzero)
      exact ⟨hstore, .inr ⟨rfl, hP.wrongArity hgot hlength⟩⟩
    · -- the body starts from good bindings, and releasing its environment adds none
      obtain ⟨hstart, hvalue⟩ := hP.ofCall env hstore (hP.evaluated hf) hargs
      obtain ⟨hlast, hresult⟩ := heval hbody hstart hvalue
      exact ⟨hlast.release _, hresult⟩
  | _ =>
    cases h
    exact ⟨hstore, .inr ⟨rfl, hP.notAFunction hf rfl⟩⟩

theorem keepsStable_step (hP : Value.Stable B P) (heval : evaluate.Satisfies (KeepsStable B P)) :
    (step evaluate).Satisfies (KeepsStable B P) := by
  intro env v store r after h hstore hv
  cases v with
  | symbol name =>
    obtain ⟨rfl, hlookup | ⟨-, rfl⟩⟩ := step_symbol_eq_some h
    · exact ⟨hstore, .inl (hstore.lookup hlookup)⟩
    · exact ⟨hstore, .inr ⟨rfl, hP.unbound hv⟩⟩
  | sexpr items =>
    have hitems : ∀ v ∈ items, P v := hP.sexpr.1 hv
    obtain ⟨e, herror, rfl⟩ | ⟨hvalues, rfl⟩ | hvalues | ⟨f, args, mid, hne, hvalues, hcall⟩ :=
      evalExpr_eq_some h
    · obtain ⟨hafter, he⟩ := stable_of_evalItems hP heval hstore hitems herror
      exact ⟨hafter, .inr ⟨rfl, he⟩⟩
    · obtain ⟨hafter, -⟩ := stable_of_evalItems hP heval hstore hitems hvalues
      exact ⟨hafter, .inl hP.bound_unit⟩
    · obtain ⟨hafter, hr⟩ := stable_of_evalItems hP heval hstore hitems hvalues
      exact ⟨hafter, .inl (hr r (List.mem_singleton_self r))⟩
    · obtain ⟨hmid, hvs⟩ := stable_of_evalItems hP heval hstore hitems hvalues
      obtain ⟨hf, hargs⟩ := List.forall_mem_cons.1 hvs
      exact stable_of_call hP heval hmid hf hargs hne hcall
  | error e =>
    cases h
    exact ⟨hstore, .inr ⟨rfl, hv⟩⟩
  | _ =>
    cases h
    exact ⟨hstore, .inl (hP.bound rfl hv)⟩

theorem keepsStable_eval (hP : Value.Stable B P) (depth : Nat) :
    (eval depth).Satisfies (KeepsStable B P) :=
  eval_satisfies (fun _ => keepsStable_step hP) depth

/-! ## Nested evaluations -/

theorem Evaluation.Meets.nested (hP : Value.Stable B P) {depth : Nat} {outer inner : Evaluation}
    (hnested : Nested (eval depth) outer inner) (houter : outer.Meets B P) : inner.Meets B P := by
  have heval : (eval depth).Satisfies (KeepsStable B P) := keepsStable_eval hP depth
  obtain ⟨hstore, hvalue⟩ := houter
  cases hnested with
  | item hbefore =>
    obtain ⟨hitems, hrest⟩ := List.forall_mem_append.1 (hP.sexpr.1 hvalue)
    obtain ⟨hmid, -⟩ := stable_of_evalItems hP heval hstore hitems hbefore
    exact ⟨hmid, (List.forall_mem_cons.1 hrest).1⟩
  | quoted hitems _ haction =>
    obtain ⟨hmid, hvs⟩ := stable_of_evalItems hP heval hstore (hP.sexpr.1 hvalue) hitems
    obtain ⟨-, hargs⟩ := List.forall_mem_cons.1 hvs
    exact ⟨hmid, hP.sexpr.2 (hP.meets_action hargs haction)⟩
  | body hitems =>
    obtain ⟨hmid, hvs⟩ := stable_of_evalItems hP heval hstore (hP.sexpr.1 hvalue) hitems
    obtain ⟨hf, hargs⟩ := List.forall_mem_cons.1 hvs
    exact hP.ofCall _ hmid (hP.evaluated hf) hargs

theorem Evaluation.Meets.during (hP : Value.Stable B P) {depth : Nat} {outer start : Evaluation}
    (houter : outer.Meets B P) (hduring : During depth outer start) : start.Meets B P :=
  hduring.keeps (fun _ _ _ hnested hmeets => hmeets.nested hP hnested) houter

/-! ## Normal values -/

/-- All bound values are good, and the value to evaluate has the property. -/
def Evaluation.IsGood (P : Value → Prop) (start : Evaluation) : Prop :=
  start.store.Binds (Value.IsGood P) ∧ P start.value

/-- Where all bound values are good and the evaluated value has the property, the evaluation keeps
both and results in a normal value or an error. -/
def KeepsGood (P : Value → Prop) (_ : EnvId) (v : Value) (store : Store) (r : Value)
    (after : Store) : Prop :=
  store.Binds (Value.IsGood P) → P v →
    after.Binds (Value.IsGood P) ∧ (r.isNormal = true ∨ r.isError = true) ∧ P r

theorem keepsGood_eval (hP : Value.Hereditary P) (depth : Nat) :
    (eval depth).Satisfies (KeepsGood P) := by
  intro env v store r after h hstore hv
  obtain ⟨hafter, hr | ⟨herror, hr⟩⟩ := keepsStable_eval hP.toStable depth h hstore hv
  · exact ⟨hafter, .inl hr.1, hr.2⟩
  · exact ⟨hafter, .inr herror, hr⟩

theorem Evaluation.IsGood.during (hP : Value.Hereditary P) {depth : Nat}
    {outer start : Evaluation} (houter : outer.IsGood P) (hduring : During depth outer start) :
    start.IsGood P :=
  Evaluation.Meets.during hP.toStable houter hduring

end QuoteLisp
