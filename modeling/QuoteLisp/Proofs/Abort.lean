import QuoteLisp.Proofs.Unbounded

/-!
# Errors end evaluation

An error cannot be caught. A place deep inside an expression is reached by evaluating what stands in
front of it, level by level from the outside (`Context.ahead`). If that goes well and the value at
the place ends with an error, the whole expression ends with this error and in this store. Nothing
is asked of the items behind the place, so none of them can have had an effect.
-/

namespace QuoteLisp

variable {env : EnvId} {store mid after : Store} {v : Value} {e : EvalError}

/-! ## Evaluations without errors -/

/-- Values that are evaluated one after the other, none of them with an error. -/
inductive Quietly (env : EnvId) : List Value → Store → Store → Prop
  | nil {store : Store} : Quietly env [] store store
  | cons {v r : Value} {vs : List Value} {store mid after : Store}
    (hv : Evaluates env v store r mid) (hr : r.isError = false)
    (hvs : Quietly env vs mid after) : Quietly env (v :: vs) store after

theorem Quietly.exists_of_append {front vs : List Value}
    (h : Quietly env (front ++ vs) store after) :
    ∃ mid, Quietly env front store mid ∧ Quietly env vs mid after := by
  induction front generalizing store with
  | nil => exact ⟨store, .nil, h⟩
  | cons first front ih =>
    obtain _ | ⟨hfirst, hr, hrest⟩ := h
    obtain ⟨mid, hfront, hvs⟩ := ih hrest
    exact ⟨mid, .cons hfirst hr hfront, hvs⟩

/-! ## One level -/

theorem Quietly.evaluatesItems_of_error {front : List Value}
    (hfront : Quietly env front store mid) (hv : Evaluates env v mid (.error e) after)
    (behind : List Value) :
    EvaluatesItems env (front ++ v :: behind) store (.error e) after := by
  induction hfront with
  | nil => exact evaluatesItems_cons_iff.2 (.inl ⟨e, hv, rfl⟩)
  | @cons first r rest store next _ hfirst hr _ ih =>
    have hnone : r.error? = none := by simpa [Value.isError_eq_isSome_error?] using hr
    exact evaluatesItems_cons_iff.2 (.inr ⟨r, next, .error e, hfirst, hnone, ih hv, rfl⟩)

/-- An expression ends with the error of an item whose predecessors go well. -/
theorem evaluates_sexpr_of_error {front : List Value} (hfront : Quietly env front store mid)
    (hv : Evaluates env v mid (.error e) after) (behind : List Value) :
    Evaluates env (.sexpr (front ++ v :: behind)) store (.error e) after :=
  evaluates_sexpr_iff.2 ⟨.error e, after, hfront.evaluatesItems_of_error hv behind, rfl, rfl⟩

/-! ## All levels -/

/-- An expression with a place for one item. -/
structure Layer where
  front : List Value
  behind : List Value

/-- Expressions in each other, the outermost first, with a place in the innermost one. -/
abbrev Context := List Layer

namespace Context

/-- The expression with a value at the place. -/
def fill (x : Value) : Context → Value
  | [] => x
  | layer :: inner => .sexpr (layer.front ++ fill x inner :: layer.behind)

/-- What is evaluated on the way to the place: the items in front of it at each level. -/
def ahead (context : Context) : List Value := context.flatMap Layer.front

end Context

theorem evaluates_fill_of_error {context : Context} {x : Value}
    (hahead : Quietly env context.ahead store mid) (hx : Evaluates env x mid (.error e) after) :
    Evaluates env (context.fill x) store (.error e) after := by
  induction context generalizing store with
  | nil =>
    cases hahead
    exact hx
  | cons layer inner ih =>
    rw [Context.ahead, List.flatMap_cons] at hahead
    obtain ⟨next, hfront, hinner⟩ := hahead.exists_of_append
    exact evaluates_sexpr_of_error hfront (ih hinner) layer.behind

/-- If the items in front of a place go well at every level, and then the value at the place ends
with an error, the expression ends with this error and in this store, whatever items stand behind
the place: so it does within every large bound, and it has no other result within any. -/
theorem error_ends_every_context {context : Context} {x : Value}
    (hahead : Quietly env context.ahead store mid) (hx : Evaluates env x mid (.error e) after) :
    (∃ bound, ∀ depth, bound ≤ depth →
      eval depth env (context.fill x) store = some (.error e, after)) ∧
    ∀ depth result, eval depth env (context.fill x) store = some result →
      result = (.error e, after) := by
  have hfill := evaluates_fill_of_error hahead hx
  exact ⟨hfill.exists_bound, fun depth result => hfill.eq_of_eval⟩

/-- Two levels deep, with definitions in front of the place and behind it: those in front are
all that is left of the expression. -/
theorem error_ends_every_context_between_definitions :
    let define (name : String) (n : Int64) : Value :=
      .sexpr [.symbol "def", .qexpr [.symbol name], .number n]
    let context : Context :=
      [⟨[.symbol "head", define "a" 1], [define "b" 2]⟩, ⟨[define "c" 3], [define "d" 4]⟩]
    let x := Value.sexpr [.symbol "head", .qexpr []]
    let bindings := [("def", Value.ofPrimitive .define), ("head", .ofPrimitive .head)]
    let store := (Store.empty.alloc ⟨bindings, none⟩).2
    let after := (Store.empty.alloc ⟨bindings ++ [("a", .number 1), ("c", .number 3)], none⟩).2
    Quietly 0 context.ahead store after ∧
      Evaluates 0 x after (.ofFault (.emptyList "head")) after ∧
      ∃ bound, ∀ depth, bound ≤ depth →
        eval depth 0 (context.fill x) store = some (.ofFault (.emptyList "head"), after) := by
  intro define context x bindings store after
  let mid := (Store.empty.alloc ⟨bindings ++ [("a", .number 1)], none⟩).2
  have hhead : Evaluates 0 (.symbol "head") store (.ofPrimitive .head) store := ⟨1, rfl⟩
  have ha : Evaluates 0 (define "a" 1) store .unit mid := ⟨2, rfl⟩
  have hc : Evaluates 0 (define "c" 3) mid .unit after := ⟨2, rfl⟩
  have hahead : Quietly 0 context.ahead store after :=
    .cons hhead rfl (.cons ha rfl (.cons hc rfl .nil))
  have hx : Evaluates 0 x after (.ofFault (.emptyList "head")) after := ⟨2, rfl⟩
  exact ⟨hahead, hx, (error_ends_every_context hahead hx).1⟩

end QuoteLisp
