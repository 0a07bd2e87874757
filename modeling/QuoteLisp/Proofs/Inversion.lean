import QuoteLisp.Proofs.Action

/-!
# What a finished evaluation consists of

For each function of the evaluator, a lemma that lists the ways in which it can finish. Properties
of finished evaluations are proved from these lists: a step keeps the property if the evaluations
nested in it have it, and then all evaluations have it (`eval_satisfies`). For a relation between
the stores before and after it suffices that single definitions and calls respect it
(`Store.IsEvalRelation`).
-/

namespace QuoteLisp

variable {evaluate : Evaluator} {env : EnvId} {store after : Store} {r : Value}

/-! ## Symbols -/

theorem step_symbol_eq_some {name : String}
    (h : step evaluate env (.symbol name) store = some (r, after)) :
    after = store ∧ (store.lookup env name = some r ∨
      store.lookup env name = none ∧ r = .ofFault (.unboundSymbol name)) := by
  rw [step, Store.get] at h
  cases hlookup : store.lookup env name with
  | none =>
    rw [hlookup] at h
    cases h
    exact ⟨rfl, .inr ⟨rfl, rfl⟩⟩
  | some v =>
    rw [hlookup] at h
    cases h
    exact ⟨rfl, .inl rfl⟩

/-! ## Items -/

theorem evalItems_cons_eq_some_iff {item : Value} {items : List Value}
    {outcome : Except EvalError (List Value)} :
    evalItems evaluate env (item :: items) store = some (outcome, after) ↔
      (∃ e, evaluate env item store = some (.error e, after) ∧ outcome = .error e) ∨
      ∃ v mid rest, evaluate env item store = some (v, mid) ∧ v.error? = none ∧
        evalItems evaluate env items mid = some (rest, after) ∧ outcome = rest.map (v :: ·) := by
  rw [evalItems]
  constructor
  · intro h
    split at h
    · cases h
    · rename_i v mid hitem
      split at h
      · rename_i e herror
        obtain rfl := Value.error?_eq_some_iff.1 herror
        cases h
        exact .inl ⟨e, hitem, rfl⟩
      · rename_i herror
        split at h
        · cases h
        · rename_i e last hitems
          cases h
          exact .inr ⟨v, mid, .error e, hitem, herror, hitems, rfl⟩
        · rename_i vs last hitems
          cases h
          exact .inr ⟨v, mid, .ok vs, hitem, herror, hitems, rfl⟩
  · rintro (⟨e, hitem, rfl⟩ | ⟨v, mid, rest, hitem, herror, hitems, rfl⟩)
    · simp only [hitem, Value.error?_error]
    · simp only [hitem, herror, hitems]
      cases rest <;> rfl

/-- An expression ends with the error of an item, without items, with the value of its only item,
or with a call. -/
theorem evalExpr_eq_some {items : List Value}
    (h : evalExpr evaluate env items store = some (r, after)) :
    (∃ e, evalItems evaluate env items store = some (.error e, after) ∧ r = .error e) ∨
      (evalItems evaluate env items store = some (.ok [], after) ∧ r = .unit) ∨
      evalItems evaluate env items store = some (.ok [r], after) ∨
      ∃ f args mid, args ≠ [] ∧ evalItems evaluate env items store = some (.ok (f :: args), mid) ∧
        call evaluate env f args mid = some (r, after) := by
  rw [evalExpr] at h
  rcases hitems : evalItems evaluate env items store with _ | ⟨e | vs, mid⟩
  · rw [hitems] at h
    cases h
  · rw [hitems] at h
    cases h
    exact .inl ⟨e, rfl, rfl⟩
  · rw [hitems] at h
    match vs with
    | [] =>
      cases h
      exact .inr (.inl ⟨rfl, rfl⟩)
    | [v] =>
      cases h
      exact .inr (.inr (.inl rfl))
    | f :: arg :: args => exact .inr (.inr (.inr ⟨f, _, mid, List.cons_ne_nil arg args, rfl, h⟩))

/-! ## Calls -/

theorem callClosure_eq_some {formals : List String} {body : List Value} {captured : Bindings}
    {args : List Value}
    (h : callClosure evaluate env formals body captured args store = some (r, after)) :
    (formals.length ≠ args.length ∧ after = store ∧
        r = .ofFault (.wrongCallArity formals.length args.length)) ∨
      (formals.length = args.length ∧ ∃ last,
        evaluate store.cells.size (.sexpr body)
          (store.alloc ⟨captured.setAll (formals.zip args), some env⟩).2 = some (r, last) ∧
        after = last.release store.cells.size) := by
  rw [callClosure] at h
  split at h
  · rename_i hlength
    obtain ⟨⟨v, last⟩, hbody, hrelease⟩ := Option.map_eq_some_iff.1 h
    cases hrelease
    exact .inr ⟨hlength, last, hbody, rfl⟩
  · rename_i hlength
    cases h
    exact .inl ⟨hlength, rfl, rfl⟩

theorem call_builtin_eq_some {b : Builtin} {args : List Value}
    (h : call evaluate env (.builtin b) args store = some (r, after)) :
    (∃ fault, b.primitive.action args = .error fault ∧ after = store ∧ r = .ofFault fault) ∨
      ∃ action, b.primitive.action args = .ok action ∧
        action.perform evaluate env store = some (r, after) := by
  rw [call_builtin] at h
  split at h
  · rename_i fault haction
    cases h
    exact .inl ⟨fault, haction, rfl, rfl⟩
  · rename_i action haction
    exact .inr ⟨action, haction, h⟩

/-! ## All evaluations -/

/-- Every finished evaluation has the property. -/
def Evaluator.Satisfies (evaluate : Evaluator)
    (P : EnvId → Value → Store → Value → Store → Prop) : Prop :=
  ∀ ⦃env v store r after⦄, evaluate env v store = some (r, after) → P env v store r after

theorem eval_satisfies {P : EnvId → Value → Store → Value → Store → Prop}
    (hstep : ∀ evaluate : Evaluator, evaluate.Satisfies P → (step evaluate).Satisfies P)
    (depth : Nat) : (eval depth).Satisfies P := by
  induction depth with
  | zero =>
    intro env v store r after h
    cases h
  | succ depth ih => exact hstep (eval depth) ih

/-! ## Relations between stores -/

/-- A preorder of stores that holds across a definition, and across the life of a new environment if
it holds from its making to its release. -/
structure Store.IsEvalRelation (R : Store → Store → Prop) : Prop where
  refl : ∀ store, R store store
  trans : ∀ {before mid after}, R before mid → R mid after → R before after
  define : ∀ store env name v, R store (store.define env name v)
  release_alloc : ∀ {store scope after}, R (store.alloc scope).2 after →
    R store (after.release store.cells.size)

namespace Store.IsEvalRelation

variable {R : Store → Store → Prop}

theorem defineAll (hR : IsEvalRelation R) (store : Store) (env : EnvId)
    (added : List (String × Value)) : R store (store.defineAll env added) := by
  induction added generalizing store with
  | nil => exact hR.refl _
  | cons binding added ih => exact hR.trans (hR.define store env binding.1 binding.2) (ih _)

theorem defineAllRoot (hR : IsEvalRelation R) (store : Store) (env : EnvId)
    (added : List (String × Value)) : R store (store.defineAllRoot env added) := by
  induction added generalizing store with
  | nil => exact hR.refl _
  | cons binding added ih => exact hR.trans (hR.define store _ binding.1 binding.2) (ih _)

theorem evalItems (hR : IsEvalRelation R)
    (heval : evaluate.Satisfies fun _ _ store _ after => R store after) {items : List Value}
    {outcome : Except EvalError (List Value)}
    (h : QuoteLisp.evalItems evaluate env items store = some (outcome, after)) :
    R store after := by
  induction items generalizing store outcome with
  | nil =>
    cases h
    exact hR.refl _
  | cons item items ih =>
    obtain ⟨e, hfirst, -⟩ | ⟨v, mid, rest, hfirst, -, hothers, -⟩ := evalItems_cons_eq_some_iff.1 h
    · exact heval hfirst
    · exact hR.trans (heval hfirst) (ih hothers)

theorem perform (hR : IsEvalRelation R)
    (heval : evaluate.Satisfies fun _ _ store _ after => R store after) {action : Action}
    (h : action.perform evaluate env store = some (r, after)) : R store after := by
  cases action with
  | give v =>
    cases h
    exact hR.refl _
  | evaluate items => exact heval h
  | assign bindings result =>
    cases h
    exact hR.defineAll _ _ _
  | define bindings result =>
    cases h
    exact hR.defineAllRoot _ _ _

theorem call (hR : IsEvalRelation R)
    (heval : evaluate.Satisfies fun _ _ store _ after => R store after) {f : Value}
    {args : List Value} (h : QuoteLisp.call evaluate env f args store = some (r, after)) :
    R store after := by
  cases f with
  | builtin b =>
    obtain ⟨fault, -, rfl, -⟩ | ⟨action, -, hperform⟩ := call_builtin_eq_some h
    · exact hR.refl _
    · exact hR.perform heval hperform
  | closure formals body captured link =>
    obtain ⟨-, rfl, -⟩ | ⟨-, last, hbody, rfl⟩ := callClosure_eq_some h
    · exact hR.refl _
    · exact hR.release_alloc (heval hbody)
  | _ =>
    cases h
    exact hR.refl _

theorem step (hR : IsEvalRelation R)
    (heval : evaluate.Satisfies fun _ _ store _ after => R store after) :
    (QuoteLisp.step evaluate).Satisfies fun _ _ store _ after => R store after := by
  intro env v store r after h
  cases v with
  | symbol name =>
    obtain ⟨rfl, -⟩ := step_symbol_eq_some h
    exact hR.refl _
  | sexpr items =>
    obtain ⟨e, herror, -⟩ | ⟨hvalues, -⟩ | hvalues | ⟨f, args, mid, -, hvalues, hcall⟩ :=
      evalExpr_eq_some h
    · exact hR.evalItems heval herror
    · exact hR.evalItems heval hvalues
    · exact hR.evalItems heval hvalues
    · exact hR.trans (hR.evalItems heval hvalues) (hR.call heval hcall)
  | _ =>
    cases h
    exact hR.refl _

theorem eval (hR : IsEvalRelation R) (depth : Nat) :
    (QuoteLisp.eval depth).Satisfies fun _ _ store _ after => R store after :=
  eval_satisfies (fun _ => hR.step) depth

end Store.IsEvalRelation

end QuoteLisp
