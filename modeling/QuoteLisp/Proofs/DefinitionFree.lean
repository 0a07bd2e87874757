import QuoteLisp.Eval.Depth
import QuoteLisp.Proofs.Lookup
import QuoteLisp.Proofs.Parts
import QuoteLisp.Proofs.Requests

/-!
# Programs without definitions

Evaluation need not end: a closure may call itself, and `eval` may evaluate the name of the very
list that it was given. Both take a definition. Where a value holds neither a closure nor anything
that defines a name or makes a closure, quoted data included, there is a bound on the depth of its
evaluation that can be read off the value: the number of its nodes. No operation makes more nodes
than it is given, and `eval` is left with fewer than the expression that it stands in.
-/

namespace QuoteLisp

/-! ## Nodes -/

namespace Value

mutual

/-- The number of values that a value consists of, itself included. -/
def size : Value → Nat
  | number _ => 1
  | string _ => 1
  | symbol _ => 1
  | error _ => 1
  | sexpr items => sizeOfItems items + 1
  | qexpr items => sizeOfItems items + 1
  | builtin _ => 1
  | closure _ body captured _ => sizeOfItems body + sizeOfBindings captured + 1

def sizeOfItems : List Value → Nat
  | [] => 0
  | v :: vs => v.size + sizeOfItems vs

def sizeOfBindings : List (String × Value) → Nat
  | [] => 0
  | (_, v) :: rest => v.size + sizeOfBindings rest

end

theorem size_pos (v : Value) : 0 < v.size := by
  cases v <;> simp [size]

theorem sizeOfItems_append (vs ws : List Value) :
    sizeOfItems (vs ++ ws) = sizeOfItems vs + sizeOfItems ws := by
  induction vs with
  | nil => simp [sizeOfItems]
  | cons v vs ih => simp [sizeOfItems, ih, Nat.add_assoc]

/-- Joining lists drops the node of each list. -/
theorem sizeOfItems_flatten_le (lists : List (List Value)) :
    sizeOfItems lists.flatten ≤ sizeOfItems (lists.map qexpr) := by
  induction lists with
  | nil => exact Nat.le_refl _
  | cons first rest ih =>
    rw [List.flatten_cons, sizeOfItems_append, List.map_cons, sizeOfItems, size]
    omega

end Value

/-! ## Values without definitions -/

/-- The operations that bind names or make closures. -/
def Primitive.defining : List Primitive := [.define, .assign, .lambda, .function]

namespace Value

/-- Neither a closure, nor an operation that makes one or binds names, nor its name. -/
def DefinesNothing : Value → Prop
  | symbol name => name ∉ Primitive.defining.map Primitive.name
  | builtin b => b.primitive ∉ Primitive.defining
  | closure .. => False
  | _ => True

/-- No part of the value, quoted or not, makes a closure or binds a name. -/
def IsDefinitionFree (v : Value) : Prop := v.Everywhere DefinesNothing

@[simp] theorem isDefinitionFree_number {n : Int64} : (number n).IsDefinitionFree := by
  simp [IsDefinitionFree, DefinesNothing]

@[simp] theorem isDefinitionFree_string {text : String} : (string text).IsDefinitionFree := by
  simp [IsDefinitionFree, DefinesNothing]

@[simp] theorem isDefinitionFree_error {e : EvalError} : (error e).IsDefinitionFree := by
  simp [IsDefinitionFree, DefinesNothing]

@[simp] theorem isDefinitionFree_symbol {name : String} :
    (symbol name).IsDefinitionFree ↔ name ∉ Primitive.defining.map Primitive.name := by
  simp [IsDefinitionFree, DefinesNothing]

@[simp] theorem isDefinitionFree_builtin {b : Builtin} :
    (builtin b).IsDefinitionFree ↔ b.primitive ∉ Primitive.defining := by
  simp [IsDefinitionFree, DefinesNothing]

@[simp] theorem isDefinitionFree_sexpr {items : List Value} :
    (sexpr items).IsDefinitionFree ↔ ∀ v ∈ items, v.IsDefinitionFree := by
  simp [IsDefinitionFree, DefinesNothing]

@[simp] theorem isDefinitionFree_qexpr {items : List Value} :
    (qexpr items).IsDefinitionFree ↔ ∀ v ∈ items, v.IsDefinitionFree := by
  simp [IsDefinitionFree, DefinesNothing]

@[simp] theorem not_isDefinitionFree_closure {formals : List String} {body : List Value}
    {captured : Bindings} {link : Option EnvId} :
    ¬ (closure formals body captured link).IsDefinitionFree := by
  simp [IsDefinitionFree, DefinesNothing]

end Value

/-! ## Operations -/

/-- The value is free of definitions and has no more nodes than are allowed. -/
def Value.Fits (bound : Nat) (v : Value) : Prop := v.IsDefinitionFree ∧ v.size ≤ bound

/-- Other operations than the defining ones give a value no larger than an expression of their
arguments, or they evaluate the items of their only argument. -/
theorem Primitive.fits_of_action {p : Primitive} {args : List Value} {action : Action}
    (hp : p ∉ defining) (hargs : ∀ v ∈ args, v.IsDefinitionFree)
    (h : p.action args = .ok action) :
    (∃ v, action = .give v ∧ v.Fits (Value.sizeOfItems args + 1)) ∨
      ∃ items, action = .evaluate items ∧ args = [.qexpr items] := by
  cases p with
  | list =>
    cases h
    exact .inl ⟨_, rfl, Value.isDefinitionFree_qexpr.2 hargs, Nat.le_refl _⟩
  | head | tail =>
    rw [Primitive.action] at h
    split at h
    · cases h
    · cases h
    · rename_i first rest hitems
      cases h
      obtain rfl := soleList_eq_ok_iff.1 hitems
      refine .inl ⟨_, rfl, ?_, ?_⟩
      · simp_all
      · simp only [Value.size, Value.sizeOfItems]
        omega
  | eval =>
    obtain ⟨items, hitems, rfl⟩ := Except.map_eq_ok_iff.1 h
    exact .inr ⟨items, rfl, soleList_eq_ok_iff.1 hitems⟩
  | join =>
    obtain ⟨items, hitems, rfl⟩ := Except.map_eq_ok_iff.1 h
    obtain ⟨lists, rfl, rfl⟩ := joinLists_eq_ok_iff.1 hitems
    refine .inl ⟨_, rfl, ?_, ?_⟩
    · refine Value.isDefinitionFree_qexpr.2 fun v hv => ?_
      obtain ⟨list, hlist, hv⟩ := List.mem_flatten.1 hv
      exact Value.isDefinitionFree_qexpr.1 (hargs _ (List.mem_map_of_mem hlist)) v hv
    · exact Nat.succ_le_succ (Value.sizeOfItems_flatten_le lists)
  | arith op =>
    obtain ⟨v, hv, rfl⟩ := Except.map_eq_ok_iff.1 h
    obtain ⟨n, rfl⟩ := ArithOp.exists_of_run_eq_ok hv
    exact .inl ⟨_, rfl, Value.isDefinitionFree_number, Nat.le_add_left 1 _⟩
  | define | assign | lambda | function => simp [defining] at hp

/-! ## Evaluation -/

/-- Values that are free of definitions and have at most `bound` nodes are evaluated to the end, to
values of the same kind that are no larger. The store stays as it is. -/
def Evaluator.Shrinks (evaluate : Evaluator) (bound : Nat) (env : EnvId) (store : Store) : Prop :=
  ∀ v : Value, v.Fits bound → ∃ r, evaluate env v store = some (r, store) ∧ r.Fits v.size

/-- What the environment knows under a name that defines nothing is a single node without
definitions. -/
def Store.KnowsNodes (store : Store) (env : EnvId) : Prop :=
  ∀ name v, (Value.symbol name).IsDefinitionFree → store.lookup env name = some v → v.Fits 1

variable {evaluate : Evaluator} {bound : Nat} {env : EnvId} {store : Store}

theorem Value.fits_ofFault (fault : Fault) (hbound : 0 < bound) : (ofFault fault).Fits bound :=
  ⟨isDefinitionFree_error, hbound⟩

theorem Evaluator.Shrinks.evalItems (heval : evaluate.Shrinks bound env store)
    {items : List Value} (hitems : ∀ v ∈ items, v.IsDefinitionFree)
    (hbound : Value.sizeOfItems items ≤ bound) :
    (∃ e, evalItems evaluate env items store = some (.error e, store)) ∨
      ∃ vs, evalItems evaluate env items store = some (.ok vs, store) ∧
        (∀ v ∈ vs, v.IsDefinitionFree) ∧ Value.sizeOfItems vs ≤ Value.sizeOfItems items := by
  induction items with
  | nil => exact .inr ⟨[], rfl, by simp, Nat.le_refl _⟩
  | cons item items ih =>
    obtain ⟨hitem, hrest⟩ := List.forall_mem_cons.1 hitems
    simp only [Value.sizeOfItems] at hbound ⊢
    obtain ⟨v, hv, hfree, hsize⟩ := heval item ⟨hitem, by omega⟩
    cases herror : v.error? with
    | some e =>
      rw [Value.error?_eq_some_iff.1 herror] at hv
      exact .inl ⟨e, evalItems_cons_eq_some_iff.2 (.inl ⟨e, hv, rfl⟩)⟩
    | none =>
      obtain ⟨e, he⟩ | ⟨vs, hvs, hfrees, hsizes⟩ := ih hrest (by omega)
      · exact .inl ⟨e, evalItems_cons_eq_some_iff.2 (.inr ⟨v, store, _, hv, herror, he, rfl⟩)⟩
      · refine .inr ⟨v :: vs, ?_, List.forall_mem_cons.2 ⟨hfree, hfrees⟩, ?_⟩
        · exact evalItems_cons_eq_some_iff.2 (.inr ⟨v, store, _, hv, herror, hvs, rfl⟩)
        · rw [Value.sizeOfItems]
          omega

theorem Evaluator.Shrinks.call (heval : evaluate.Shrinks bound env store) {f : Value}
    {args : List Value} (hf : f.IsDefinitionFree) (hargs : ∀ v ∈ args, v.IsDefinitionFree)
    (hbound : Value.sizeOfItems args ≤ bound) :
    ∃ r, call evaluate env f args store = some (r, store) ∧
      r.Fits (Value.sizeOfItems args + 1) := by
  cases f with
  | builtin b =>
    have hb : b.primitive ∉ Primitive.defining := Value.isDefinitionFree_builtin.1 hf
    rw [call_builtin]
    cases haction : b.primitive.action args with
    | error fault => exact ⟨_, rfl, Value.fits_ofFault fault (Nat.succ_pos _)⟩
    | ok action =>
      obtain ⟨v, rfl, hv⟩ | ⟨items, rfl, rfl⟩ := Primitive.fits_of_action hb hargs haction
      · exact ⟨v, rfl, hv⟩
      · -- the evaluated expression has as many nodes as the list that holds its items
        have hquoted : (Value.sexpr items).Fits bound := ⟨by simpa using hargs, hbound⟩
        obtain ⟨r, hr, hfree, hsize⟩ := heval _ hquoted
        exact ⟨r, hr, hfree, Nat.le_succ_of_le hsize⟩
  | closure formals body captured link => exact absurd hf Value.not_isDefinitionFree_closure
  | _ => exact ⟨_, rfl, Value.fits_ofFault _ (Nat.succ_pos _)⟩

theorem Evaluator.Shrinks.evalExpr (heval : evaluate.Shrinks bound env store)
    {items : List Value} (hitems : ∀ v ∈ items, v.IsDefinitionFree)
    (hbound : Value.sizeOfItems items ≤ bound) :
    ∃ r, evalExpr evaluate env items store = some (r, store) ∧
      r.Fits (Value.sizeOfItems items + 1) := by
  rw [QuoteLisp.evalExpr]
  obtain ⟨e, he⟩ | ⟨vs, hvs, hfrees, hsizes⟩ := heval.evalItems hitems hbound
  · rw [he]
    exact ⟨_, rfl, Value.isDefinitionFree_error, Nat.le_add_left 1 _⟩
  · rw [hvs]
    rcases vs with _ | ⟨f, _ | ⟨arg, args⟩⟩
    · exact ⟨_, rfl, by simp [Value.unit], Nat.le_add_left 1 _⟩
    · have hf : f.size ≤ Value.sizeOfItems items := hsizes
      exact ⟨f, rfl, hfrees f List.mem_cons_self, Nat.le_succ_of_le hf⟩
    · obtain ⟨hf, hargs⟩ := List.forall_mem_cons.1 hfrees
      rw [Value.sizeOfItems] at hsizes
      obtain ⟨r, hr, hfree, hsize⟩ := heval.call hf hargs (by omega)
      exact ⟨r, hr, hfree, by omega⟩

/-- One level of evaluation takes one node more. -/
theorem Evaluator.Shrinks.step (hknows : store.KnowsNodes env)
    (heval : evaluate.Shrinks bound env store) :
    (step evaluate).Shrinks (bound + 1) env store := by
  rintro v ⟨hfree, hbound⟩
  cases v with
  | symbol name =>
    rw [QuoteLisp.step, Store.get]
    cases hlookup : store.lookup env name with
    | none => exact ⟨_, rfl, Value.fits_ofFault _ Nat.one_pos⟩
    | some v => exact ⟨v, rfl, hknows name v hfree hlookup⟩
  | sexpr items =>
    exact heval.evalExpr (Value.isDefinitionFree_sexpr.1 hfree) (Nat.le_of_succ_le_succ hbound)
  | _ => exact ⟨_, rfl, hfree, Nat.le_refl _⟩

theorem shrinks_eval (hknows : store.KnowsNodes env) (depth : Nat) :
    (eval depth).Shrinks depth env store := by
  induction depth with
  | zero =>
    rintro v ⟨-, hbound⟩
    exact absurd hbound (Nat.not_le.2 v.size_pos)
  | succ depth ih => exact ih.step hknows

/-! ## New sessions -/

theorem Scope.find?_builtins (name : String) :
    builtins.find? name = (Primitive.ofName? name).map Value.ofPrimitive := by
  rw [builtins, Primitive.ofName?]
  induction Primitive.all with
  | nil => rfl
  | cons p ps ih =>
    rw [List.map_cons, Bindings.find?, List.find?_cons, ih]
    by_cases hname : p.name = name <;> simp [hname]

theorem Session.lookup_new (name : String) :
    Session.new.store.lookup Session.new.root name =
      (Primitive.ofName? name).map Value.ofPrimitive := by
  have hchain : Session.new.store.HasChain Session.new.root [Session.new.root] := .root rfl rfl
  rw [hchain.lookup_eq_find?, List.flatMap_singleton]
  exact Scope.find?_builtins name

theorem Session.knowsNodes_new : Session.new.store.KnowsNodes Session.new.root := by
  intro name v hname hlookup
  rw [lookup_new] at hlookup
  obtain ⟨p, hp, rfl⟩ := Option.map_eq_some_iff.1 hlookup
  have hown : p.name = name := by simpa using List.find?_some hp
  refine ⟨Value.isDefinitionFree_builtin.2 fun hdefining => ?_, Nat.le_refl 1⟩
  rw [← hown] at hname
  exact Value.isDefinitionFree_symbol.1 hname (List.mem_map_of_mem hdefining)

/-- A value that is free of definitions is evaluated to the end in a new session, within a depth of
as many levels as it has nodes. The result has no more nodes, and the session is left as it was,
with all its bindings. -/
theorem Session.definition_free_values_finish {v : Value} (hv : v.IsDefinitionFree) :
    ∃ r, (∀ depth, v.size ≤ depth → Session.new.eval depth v = some (r, .new)) ∧
      r.size ≤ v.size ∧ r.IsDefinitionFree := by
  obtain ⟨r, hr, hfree, hsize⟩ := shrinks_eval knowsNodes_new v.size v ⟨hv, Nat.le_refl _⟩
  refine ⟨r, fun depth hdepth => ?_, hsize, hfree⟩
  rw [Session.eval, eval_mono hdepth _ _ _ _ hr]

/-- Code that operations put together: `eval` is given a call of `eval`, which joins the name of an
operation to its arguments. -/
theorem Session.definition_free_values_finish_assembled :
    let inner := Value.qexpr [.symbol "eval",
      .sexpr [.symbol "join", .sexpr [.symbol "list", .symbol "+"], .qexpr [.number 1, .number 2]]]
    let v := Value.sexpr [.symbol "eval", .sexpr [.symbol "join", inner, .qexpr []]]
    v.IsDefinitionFree ∧ v.size = 15 ∧
      ∀ depth, 15 ≤ depth → Session.new.eval depth v = some (.number 3, .new) := by
  intro inner v
  have hv : v.IsDefinitionFree := by simp [v, inner, Primitive.defining, Primitive.name]
  obtain ⟨r, hfinished, -, -⟩ := definition_free_values_finish hv
  have hthree : Session.new.eval 15 v = some (.number 3, .new) := rfl
  rw [hfinished 15 (Nat.le_refl 15)] at hthree
  cases hthree
  exact ⟨hv, rfl, hfinished⟩

end QuoteLisp
