import QuoteLisp.Eval
import QuoteLisp.Proofs.Except

/-!
# Operations as actions

The arguments of an operation alone decide what it does: they are refused, or they name one of four
actions. Only the action meets the store and the evaluator (`Primitive.run_eq`).
-/

namespace QuoteLisp

/-! ## Accepted arguments -/

section Arguments

variable {function : String} {args items : List Value}

theorem symbolNames_eq_ok_iff {names : List String} :
    symbolNames function items = .ok names ↔ items = names.map .symbol := by
  induction items generalizing names with
  | nil => cases names <;> simp [symbolNames]
  | cons item items ih =>
    cases item with
    | symbol name =>
      rw [symbolNames, Except.map_eq_ok_iff]
      constructor
      · rintro ⟨rest, hrest, rfl⟩
        rw [ih.1 hrest]
        rfl
      · intro h
        cases names with
        | nil => cases h
        | cons other rest =>
          obtain ⟨hname, hrest⟩ := List.cons.inj h
          cases hname
          exact ⟨rest, ih.2 hrest, rfl⟩
    | _ => cases names <;> simp [symbolNames]

theorem quotedItems_eq_ok_iff {v : Value} :
    quotedItems function v = .ok items ↔ v = .qexpr items := by
  cases v <;> simp [quotedItems]

theorem soleList_eq_ok_iff : soleList function args = .ok items ↔ args = [.qexpr items] := by
  match args with
  | [] | _ :: _ :: _ => simp [soleList]
  | [v] => rw [soleList, quotedItems_eq_ok_iff, List.cons_eq_cons, and_iff_left rfl]

theorem joinLists_eq_ok_iff :
    joinLists function args = .ok items ↔
      ∃ lists : List (List Value), args = lists.map .qexpr ∧ items = lists.flatten := by
  induction args generalizing items with
  | nil =>
    constructor
    · intro h
      cases h
      exact ⟨[], rfl, rfl⟩
    · rintro ⟨lists, hlists, rfl⟩
      rw [List.map_eq_nil_iff.1 hlists.symm]
      rfl
  | cons v args ih =>
    rw [joinLists, Except.bind_eq_ok_iff]
    constructor
    · rintro ⟨first, hfirst, h⟩
      obtain ⟨rest, hrest, h⟩ := Except.bind_eq_ok_iff.1 h
      cases h
      obtain ⟨lists, rfl, rfl⟩ := ih.1 hrest
      rw [quotedItems_eq_ok_iff.1 hfirst]
      exact ⟨first :: lists, rfl, rfl⟩
    · rintro ⟨lists, hlists, rfl⟩
      cases lists with
      | nil => cases hlists
      | cons first lists =>
        obtain ⟨rfl, rfl⟩ := List.cons.inj hlists
        refine ⟨first, rfl, Except.bind_eq_ok_iff.2 ⟨_, ih.2 ⟨lists, rfl, rfl⟩, rfl⟩⟩

theorem definitions_eq_ok_iff {bindings : List (String × Value)} :
    definitions function args = .ok bindings ↔
      ∃ (names : List String) (values : List Value), args = .qexpr (names.map .symbol) :: values ∧
        names.length = values.length ∧ bindings = names.zip values := by
  cases args with
  | nil => simp [definitions]
  | cons first values =>
    rw [definitions, Except.bind_eq_ok_iff]
    constructor
    · rintro ⟨items, hitems, h⟩
      obtain ⟨names, hnames, h⟩ := Except.bind_eq_ok_iff.1 h
      rw [quotedItems_eq_ok_iff.1 hitems, symbolNames_eq_ok_iff.1 hnames]
      split at h
      · rename_i hlength
        cases h
        exact ⟨names, values, rfl, hlength, rfl⟩
      · cases h
    · rintro ⟨names, others, hargs, hlength, rfl⟩
      obtain ⟨rfl, rfl⟩ := List.cons.inj hargs
      refine ⟨names.map .symbol, rfl, Except.bind_eq_ok_iff.2 ⟨names, ?_, if_pos hlength⟩⟩
      exact symbolNames_eq_ok_iff.2 rfl

theorem formalsAndBody_eq_ok_iff {names : List String} {body : List Value} :
    formalsAndBody function args = .ok (names, body) ↔
      args = [.qexpr (names.map .symbol), .qexpr body] := by
  match args with
  | [] | [_] | _ :: _ :: _ :: _ => simp [formalsAndBody]
  | [first, second] =>
    rw [formalsAndBody, Except.bind_eq_ok_iff]
    constructor
    · rintro ⟨formals, hformals, h⟩
      obtain ⟨items, hitems, h⟩ := Except.bind_eq_ok_iff.1 h
      obtain ⟨others, hothers, h⟩ := Except.bind_eq_ok_iff.1 h
      cases h
      rw [quotedItems_eq_ok_iff.1 hformals, quotedItems_eq_ok_iff.1 hitems,
        symbolNames_eq_ok_iff.1 hothers]
    · intro h
      cases h
      refine ⟨_, rfl, Except.bind_eq_ok_iff.2 ⟨_, rfl, Except.bind_eq_ok_iff.2 ⟨names, ?_, rfl⟩⟩⟩
      exact symbolNames_eq_ok_iff.2 rfl

theorem ArithOp.exists_of_run_eq_ok {op : ArithOp} {v : Value} (h : op.run args = .ok v) :
    ∃ n, v = .number n := by
  rw [ArithOp.run] at h
  split at h
  · cases h
  · obtain ⟨n, -, rfl⟩ := Except.map_eq_ok_iff.1 h
    exact ⟨n, rfl⟩

end Arguments

/-! ## Actions -/

/-- What is left to do once the arguments of an operation are accepted. -/
inductive Action where
  | give (v : Value)
  | evaluate (items : List Value)
  /-- Binds names in the calling environment. -/
  | assign (bindings : List (String × Value)) (result : Value)
  /-- Binds names at the root. -/
  | define (bindings : List (String × Value)) (result : Value)

def Action.perform (evaluate : Evaluator) (env : EnvId) (store : Store) :
    Action → Option (Value × Store)
  | give v => some (v, store)
  | .evaluate items => evaluate env (.sexpr items) store
  | assign bindings result => some (result, store.defineAll env bindings)
  | define bindings result => some (result, store.defineAllRoot env bindings)

/-- What an operation makes of its arguments. -/
def Primitive.action (p : Primitive) (args : List Value) : Except Fault Action :=
  match p with
  | list => .ok (.give (.qexpr args))
  | head =>
    match soleList head.name args with
    | .error fault => .error fault
    | .ok [] => .error (.emptyList head.name)
    | .ok (first :: _) => .ok (.give (.qexpr [first]))
  | tail =>
    match soleList tail.name args with
    | .error fault => .error fault
    | .ok [] => .error (.emptyList tail.name)
    | .ok (_ :: rest) => .ok (.give (.qexpr rest))
  | eval => (soleList eval.name args).map .evaluate
  | join => (joinLists join.name args).map fun items => .give (.qexpr items)
  | arith op => (op.run args).map .give
  | define => (definitions define.name args).map fun bindings => .define bindings .unit
  | assign => (definitions assign.name args).map fun bindings => .assign bindings .unit
  | lambda =>
    (formalsAndBody lambda.name args).map fun (formals, body) => .give (.lambda formals body)
  | function =>
    match formalsAndBody function.name args with
    | .error fault => .error fault
    | .ok ([], _) => .error (.emptyList function.name)
    | .ok (name :: formals, body) =>
      .ok (.define [(name, .lambda formals body)] (.lambda formals body))

theorem Primitive.run_eq (evaluate : Evaluator) (p : Primitive) (env : EnvId) (args : List Value)
    (store : Store) :
    p.run evaluate env args store =
      match p.action args with
      | .error fault => some (.error fault, store)
      | .ok action => (action.perform evaluate env store).map fun (v, after) => (.ok v, after) := by
  cases p with
  | list => rfl
  | head =>
    rw [run, action]
    rcases soleList head.name args with fault | _ | ⟨first, rest⟩ <;> rfl
  | tail =>
    rw [run, action]
    rcases soleList tail.name args with fault | _ | ⟨first, rest⟩ <;> rfl
  | eval =>
    rw [run, action]
    cases soleList eval.name args <;> rfl
  | join =>
    rw [run, action]
    cases joinLists join.name args <;> rfl
  | arith op =>
    rw [run, action]
    cases op.run args <;> rfl
  | define =>
    rw [run, action]
    cases definitions define.name args <;> rfl
  | assign =>
    rw [run, action]
    cases definitions assign.name args <;> rfl
  | lambda =>
    rw [run, action]
    cases formalsAndBody lambda.name args <;> rfl
  | function =>
    rw [run, action]
    rcases formalsAndBody function.name args with fault | ⟨_ | ⟨name, formals⟩, body⟩ <;> rfl

theorem call_builtin (evaluate : Evaluator) (env : EnvId) (b : Builtin) (args : List Value)
    (store : Store) :
    call evaluate env (.builtin b) args store =
      match b.primitive.action args with
      | .error fault => some (.ofFault fault, store)
      | .ok action => action.perform evaluate env store := by
  rw [call, Primitive.run_eq]
  cases b.primitive.action args with
  | error fault => rfl
  | ok action => cases haction : action.perform evaluate env store <;> simp [haction]

end QuoteLisp
