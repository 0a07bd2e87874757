import QuoteLisp.Proofs.Inversion

/-!
# Nested evaluations

`Nested evaluate outer inner` says that a step on `outer` asks for the evaluation of `inner`: of an
item after those before it, of the quoted items that `eval` was given, or of the body of a closure
in the environment made for the call. These are all that a step asks for (`step_congr`), so the
evaluations that happen `During` another one are those reached through nested ones.
-/

namespace QuoteLisp

/-- An evaluation that is about to start. -/
structure Evaluation where
  env : EnvId
  value : Value
  store : Store

/-- A closure's body in a new environment nested in the calling one. -/
def Evaluation.ofCall (env : EnvId) (formals : List String) (body : List Value)
    (captured : Bindings) (args : List Value) (store : Store) : Evaluation where
  env := store.cells.size
  value := .sexpr body
  store := (store.alloc ⟨captured.setAll (formals.zip args), some env⟩).2

def Evaluator.on (evaluate : Evaluator) (start : Evaluation) : Option (Value × Store) :=
  evaluate start.env start.value start.store

inductive Nested (evaluate : Evaluator) : Evaluation → Evaluation → Prop
  | item {env : EnvId} {before : List Value} {item : Value} {behind vs : List Value}
    {store mid : Store} (hbefore : evalItems evaluate env before store = some (.ok vs, mid)) :
    Nested evaluate ⟨env, .sexpr (before ++ item :: behind), store⟩ ⟨env, item, mid⟩
  | quoted {env : EnvId} {items quoted args : List Value} {b : Builtin} {store mid : Store}
    (hitems : evalItems evaluate env items store = some (.ok (.builtin b :: args), mid))
    (hargs : args ≠ []) (haction : b.primitive.action args = .ok (.evaluate quoted)) :
    Nested evaluate ⟨env, .sexpr items, store⟩ ⟨env, .sexpr quoted, mid⟩
  | body {env : EnvId} {items body args : List Value} {formals : List String}
    {captured : Bindings} {link : Option EnvId} {store mid : Store}
    (hitems : evalItems evaluate env items store =
      some (.ok (.closure formals body captured link :: args), mid))
    (hargs : args ≠ []) (hlength : formals.length = args.length) :
    Nested evaluate ⟨env, .sexpr items, store⟩ (.ofCall env formals body captured args mid)

/-! ## A step depends on nested evaluations alone -/

variable {e₁ e₂ : Evaluator} {env : EnvId}

theorem evalItems_congr (items : List Value) (store : Store)
    (h : ∀ before item behind vs mid, items = before ++ item :: behind →
      evalItems e₁ env before store = some (.ok vs, mid) → e₂ env item mid = e₁ env item mid) :
    evalItems e₂ env items store = evalItems e₁ env items store := by
  induction items generalizing store with
  | nil => rfl
  | cons item items ih =>
    have hitem : e₂ env item store = e₁ env item store := h [] item items [] store rfl rfl
    rw [evalItems, evalItems, hitem]
    cases hfirst : e₁ env item store with
    | none => rfl
    | some first =>
      obtain ⟨v, mid⟩ := first
      simp only
      cases herror : v.error? with
      | some e => rfl
      | none =>
        have hitems : evalItems e₂ env items mid = evalItems e₁ env items mid := by
          refine ih mid fun before next behind vs last hsplit hbefore => ?_
          -- the items before `next` are `item`, which has the value `v`, and `before`
          refine h (item :: before) next behind (v :: vs) last (by rw [hsplit]; rfl) ?_
          exact evalItems_cons_eq_some_iff.2 (.inr ⟨v, mid, .ok vs, hfirst, herror, hbefore, rfl⟩)
        rw [hitems]

theorem call_congr {f : Value} {args : List Value} {store : Store}
    (hquoted : ∀ b quoted, f = .builtin b → b.primitive.action args = .ok (.evaluate quoted) →
      e₂ env (.sexpr quoted) store = e₁ env (.sexpr quoted) store)
    (hbody : ∀ formals body captured link, f = .closure formals body captured link →
      formals.length = args.length →
      e₂.on (.ofCall env formals body captured args store) =
        e₁.on (.ofCall env formals body captured args store)) :
    call e₂ env f args store = call e₁ env f args store := by
  cases f with
  | builtin b =>
    rw [call_builtin, call_builtin]
    cases haction : b.primitive.action args with
    | error fault => rfl
    | ok action =>
      cases action with
      | evaluate quoted => exact hquoted b quoted rfl haction
      | _ => rfl
  | closure formals body captured link =>
    rw [call, call, callClosure, callClosure]
    by_cases hlength : formals.length = args.length
    · have hsame := hbody formals body captured link rfl hlength
      simp only [if_pos hlength]
      exact congrArg _ hsame
    · simp only [if_neg hlength]
  | _ => rfl

theorem step_congr {outer : Evaluation}
    (h : ∀ inner, Nested e₁ outer inner → e₂.on inner = e₁.on inner) :
    (step e₂).on outer = (step e₁).on outer := by
  obtain ⟨env, v, store⟩ := outer
  cases v with
  | sexpr items =>
    show evalExpr e₂ env items store = evalExpr e₁ env items store
    have hsame : evalItems e₂ env items store = evalItems e₁ env items store := by
      refine evalItems_congr items store fun before item behind vs mid hsplit hbefore => ?_
      subst hsplit
      exact h ⟨env, item, mid⟩ (.item hbefore)
    rw [evalExpr, evalExpr, hsame]
    rcases hitems : evalItems e₁ env items store with _ | ⟨_ | vs, mid⟩
    · rfl
    · rfl
    · rcases vs with _ | ⟨f, _ | ⟨arg, args⟩⟩
      · rfl
      · rfl
      · refine call_congr ?_ ?_
        · rintro b quoted rfl haction
          exact h _ (.quoted hitems (List.cons_ne_nil _ _) haction)
        · rintro formals body captured link rfl hlength
          exact h _ (.body hitems (List.cons_ne_nil _ _) hlength)
  | _ => rfl

/-! ## Evaluations during another one -/

/-- While the first evaluation runs within a bound, the second one is started. -/
inductive During : Nat → Evaluation → Evaluation → Prop
  | self (depth : Nat) (start : Evaluation) : During depth start start
  | inside {depth : Nat} {outer inner start : Evaluation}
    (hnested : Nested (eval depth) outer inner) (hduring : During depth inner start) :
    During (depth + 1) outer start

theorem During.keeps {P : Evaluation → Prop}
    (hnested : ∀ depth outer inner, Nested (eval depth) outer inner → P outer → P inner)
    {depth : Nat} {outer start : Evaluation} (hduring : During depth outer start)
    (houter : P outer) : P start := by
  induction hduring with
  | self => exact houter
  | inside hinner _ ih => exact ih (hnested _ _ _ hinner houter)

end QuoteLisp
