import QuoteLisp.Proofs.Exactness

/-!
# Operations that fail do nothing

An operation looks at all of its arguments before it touches the store, so it either refuses them
and leaves everything as it is, or accepts them and does all it has to do. What it accepts is a
matter of the arguments alone (`Primitive.Accepts`): neither the calling environment nor the store
has a say in it. Operations that neither bind names nor evaluate leave the store alone in any case.
-/

namespace QuoteLisp

/-! ## Accepted arguments -/

/-- The arguments on which an arithmetic operation has a result. -/
def ArithOp.Accepts (op : ArithOp) (args : List Value) : Prop :=
  (op = .subtract ∧ ∃ n, args = [.number n] ∧ n ≠ Int64.minValue) ∨
    ∃ n ns, args = (n :: ns).map .number ∧ (op = .subtract → ns ≠ []) ∧ op.StepsFit n ns

/-- The arguments that an operation accepts. -/
def Primitive.Accepts (p : Primitive) (args : List Value) : Prop :=
  match p with
  | list => True
  | head | tail => ∃ first rest, args = [.qexpr (first :: rest)]
  | eval => ∃ items, args = [.qexpr items]
  | join => ∃ lists : List (List Value), args = lists.map .qexpr
  | arith op => op.Accepts args
  | define | assign => ∃ (names : List String) (values : List Value),
    args = .qexpr (names.map .symbol) :: values ∧ names.length = values.length
  | lambda => ∃ (names : List String) (body : List Value),
    args = [.qexpr (names.map .symbol), .qexpr body]
  | function => ∃ (name : String) (formals : List String) (body : List Value),
    args = [.qexpr ((name :: formals).map .symbol), .qexpr body]

theorem ArithOp.exists_run_iff {op : ArithOp} {args : List Value} :
    (∃ v, op.run args = .ok v) ↔ op.Accepts args := by
  constructor
  · rintro ⟨v, h⟩
    cases hoperands : op.operands args with
    | error fault =>
      rw [run, hoperands] at h
      cases h
    | ok numbers =>
      obtain rfl := operands_eq_ok_iff.1 hoperands
      cases numbers with
      | nil => cases h
      | cons n ns =>
        by_cases hlone : op = .subtract ∧ ns = []
        · obtain ⟨rfl, rfl⟩ := hlone
          refine .inl ⟨rfl, n, rfl, fun hleast => ?_⟩
          rw [List.map_singleton, run_negate_eq_error_iff.2 hleast] at h
          cases h
        · have hns : op = .subtract → ns ≠ [] := fun hop hnil => hlone ⟨hop, hnil⟩
          rw [run_eq_fold hns] at h
          obtain ⟨r, hr, -⟩ := Except.map_eq_ok_iff.1 h
          exact .inr ⟨n, ns, rfl, hns, stepsFit_of_fold hr⟩
  · rintro (⟨rfl, n, rfl, hn⟩ | ⟨n, ns, rfl, hns, hfits⟩)
    · obtain ⟨r, hr, -⟩ := run_negate_of_ne hn
      exact ⟨_, hr⟩
    · obtain ⟨r, hr, -⟩ := (run_eq_total_iff hns).2 hfits
      exact ⟨_, hr⟩

namespace Primitive

variable {p : Primitive} {args : List Value}

theorem exists_action_iff : (∃ action, p.action args = .ok action) ↔ p.Accepts args := by
  cases p with
  | list => exact iff_of_true ⟨_, rfl⟩ trivial
  | head | tail =>
    constructor
    · rintro ⟨action, h⟩
      rw [Primitive.action] at h
      split at h
      · cases h
      · cases h
      · rename_i first rest hitems
        exact ⟨first, rest, soleList_eq_ok_iff.1 hitems⟩
    · rintro ⟨first, rest, rfl⟩
      exact ⟨_, rfl⟩
  | eval =>
    rw [action, Except.exists_map_eq_ok_iff, Accepts]
    simp only [soleList_eq_ok_iff]
  | join =>
    rw [action, Except.exists_map_eq_ok_iff, Accepts]
    simp only [joinLists_eq_ok_iff]
    constructor
    · rintro ⟨items, lists, hargs, -⟩
      exact ⟨lists, hargs⟩
    · rintro ⟨lists, hargs⟩
      exact ⟨_, lists, hargs, rfl⟩
  | arith op =>
    rw [action, Except.exists_map_eq_ok_iff, Accepts, ArithOp.exists_run_iff]
  | define | assign =>
    rw [action, Except.exists_map_eq_ok_iff, Accepts]
    simp [definitions_eq_ok_iff]
  | lambda =>
    rw [action, Except.exists_map_eq_ok_iff, Accepts, Prod.exists]
    simp only [formalsAndBody_eq_ok_iff]
  | function =>
    constructor
    · rintro ⟨action, h⟩
      rw [Primitive.action] at h
      split at h
      · cases h
      · cases h
      · rename_i name formals body hparts
        exact ⟨name, formals, body, formalsAndBody_eq_ok_iff.1 hparts⟩
    · rintro ⟨name, formals, body, rfl⟩
      rw [action, formalsAndBody_eq_ok_iff.2 rfl]
      exact ⟨_, rfl⟩

/-! ## Effects -/

/-- All but four operations come down to giving a value. -/
theorem exists_give_of_action {action : Action} (hp : p ∉ [define, assign, function, eval])
    (h : p.action args = .ok action) : ∃ v, action = .give v := by
  cases p with
  | list =>
    cases h
    exact ⟨_, rfl⟩
  | head | tail =>
    rw [Primitive.action] at h
    split at h
    · cases h
    · cases h
    · cases h
      exact ⟨_, rfl⟩
  | join | arith | lambda =>
    obtain ⟨_, -, rfl⟩ := Except.map_eq_ok_iff.1 h
    exact ⟨_, rfl⟩
  | define | assign | function | eval => simp at hp

variable {evaluate : Evaluator} {env : EnvId} {store after : Store} {fault : Fault}

/-- An operation fails if it refuses its arguments, and only then; it does nothing before. -/
theorem run_eq_error_iff :
    p.run evaluate env args store = some (.error fault, after) ↔
      p.action args = .error fault ∧ after = store := by
  rw [run_eq]
  cases p.action args with
  | error other => simp [eq_comm]
  | ok action => simp

theorem exists_run_of_not_mem (hp : p ∉ [define, assign, function, eval]) :
    ∃ outcome, p.run evaluate env args store = some (outcome, store) := by
  rw [run_eq]
  cases haction : p.action args with
  | error fault => exact ⟨_, rfl⟩
  | ok action =>
    obtain ⟨v, rfl⟩ := exists_give_of_action hp haction
    exact ⟨_, rfl⟩

theorem exists_action_eq_error_iff :
    (∃ fault, p.action args = .error fault) ↔ ¬ p.Accepts args := by
  rw [← exists_action_iff]
  cases p.action args <;> simp

/-- An operation that fails leaves the store as it is, with all bindings and links, and one that
neither binds names nor evaluates does so in any case, and has a result. In which cases an operation
fails is a matter of its arguments, whatever the store and the environment that it is called in. -/
theorem failed_operations_change_nothing (p : Primitive) (args : List Value)
    (evaluate : Evaluator) (env : EnvId) (store : Store) :
    (∀ fault after, p.run evaluate env args store = some (.error fault, after) →
      after = store) ∧
    (p ∉ [define, assign, function, eval] →
      ∃ outcome, p.run evaluate env args store = some (outcome, store)) ∧
    ((∃ fault after, p.run evaluate env args store = some (.error fault, after)) ↔
      ¬ p.Accepts args) := by
  refine ⟨fun fault after h => (run_eq_error_iff.1 h).2, exists_run_of_not_mem, ?_⟩
  rw [← exists_action_eq_error_iff]
  simp [run_eq_error_iff]

/-- In a nested environment, a list of names that holds a number behind a symbol, which is refused
with nothing bound, and the first item of a list. -/
theorem failed_operations_change_nothing_in_definition :
    let store := ((Store.empty.alloc ⟨Scope.builtins, none⟩).2.alloc (.within 0)).2
    let args := [Value.qexpr [.symbol "x", .number 1], .number 2, .number 3]
    ¬ define.Accepts args ∧
      (∃ fault after, define.run (QuoteLisp.eval 2) 1 args store = some (.error fault, after) ∧
        after = store) ∧
      ∃ outcome, head.run (QuoteLisp.eval 2) 1 [.qexpr args] store = some (outcome, store) := by
  intro store args
  have hrefused : ¬ define.Accepts args := by
    rintro ⟨names, values, hargs, -⟩
    rcases names with _ | ⟨first, _ | ⟨second, names⟩⟩ <;> simp [args] at hargs
  obtain ⟨hatomic, -, hfails⟩ :=
    failed_operations_change_nothing define args (QuoteLisp.eval 2) 1 store
  obtain ⟨fault, after, hrun⟩ := hfails.2 hrefused
  obtain ⟨-, hpure, -⟩ :=
    failed_operations_change_nothing head [.qexpr args] (QuoteLisp.eval 2) 1 store
  exact ⟨hrefused, ⟨fault, after, hrun, hatomic fault after hrun⟩, hpure (by decide)⟩

end Primitive

end QuoteLisp
