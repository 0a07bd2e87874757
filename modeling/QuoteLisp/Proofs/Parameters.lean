import QuoteLisp.Proofs.CallChain
import QuoteLisp.Proofs.Lookup

/-!
# What the body of a closure sees

A call makes an environment of the scope that the closure carries, binds the formals in it one after
the other and nests it in the caller. Formals may repeat, and the closure may carry bindings and a
link of its own; so from the new environment a name is the argument for the last formal of that
name, else what the closure carries under it, else what the caller sees (`Store.OpensFrame`). The
link that the closure carried leads nowhere: the new environment is the same without it
(`Store.setParent_defineAll_alloc`).
-/

namespace QuoteLisp

/-! ## Names bound one after the other -/

/-- The last place of a name in a list of names. -/
def IsLastAt (names : List String) (name : String) (i : Nat) : Prop :=
  names[i]? = some name ∧ ∀ j, i < j → names[j]? ≠ some name

theorem IsLastAt.tail {names : List String} {first name : String} {i : Nat}
    (h : IsLastAt (first :: names) name (i + 1)) : IsLastAt names name i :=
  ⟨h.1, fun j hj => h.2 (j + 1) (by omega)⟩

theorem IsLastAt.not_mem_tail {names : List String} {first name : String}
    (h : IsLastAt (first :: names) name 0) : name ∉ names := by
  intro hmem
  obtain ⟨j, hj⟩ := List.getElem?_of_mem hmem
  exact h.2 (j + 1) (Nat.succ_pos j) hj

namespace Bindings

/-- Of several values that a name is bound to, the last one stays. -/
theorem find?_setAll (bindings added : Bindings) (name : String) :
    (bindings.setAll added).find? name = (find? name added.reverse).or (bindings.find? name) := by
  induction added generalizing bindings with
  | nil => rfl
  | cons binding added ih =>
    obtain ⟨first, v⟩ := binding
    rw [setAll, ih, find?_set, List.reverse_cons, find?_append, Option.or_assoc, find?, find?]
    by_cases hfirst : first = name
    · rw [if_pos hfirst, if_pos hfirst.symm, Option.some_or]
    · rw [if_neg hfirst, if_neg (Ne.symm hfirst), Option.none_or]

theorem find?_reverse_zip_of_not_mem {formals : List String} {name : String}
    (h : name ∉ formals) (args : List Value) : find? name (formals.zip args).reverse = none := by
  rw [find?_eq_none_iff, names, List.map_reverse, List.mem_reverse]
  intro hmem
  obtain ⟨binding, hbinding, rfl⟩ := List.mem_map.1 hmem
  exact h (List.of_mem_zip hbinding).1

/-- The value that stays is the one at the last place of the name. -/
theorem find?_reverse_zip {formals : List String} {args : List Value} {name : String} {i : Nat}
    {v : Value} (hlast : IsLastAt formals name i) (harg : args[i]? = some v) :
    find? name (formals.zip args).reverse = some v := by
  induction formals generalizing args i with
  | nil => cases hlast.1
  | cons first formals ih =>
    cases args with
    | nil => cases harg
    | cons arg args =>
      rw [List.zip_cons_cons, List.reverse_cons, find?_append]
      cases i with
      | zero =>
        cases hlast.1
        cases harg
        rw [find?_reverse_zip_of_not_mem hlast.not_mem_tail, Option.none_or, find?, if_pos rfl]
      | succ i => rw [ih hlast.tail harg, Option.some_or]

end Bindings

namespace Store

variable {store : Store} {env frame : EnvId} {chain : List EnvId} {name : String}

/-! ## The new environment -/

theorem size_defineAll (store : Store) (env : EnvId) (added : List (String × Value)) :
    (store.defineAll env added).cells.size = store.cells.size := by
  induction added generalizing store with
  | nil => rfl
  | cons binding added ih => rw [defineAll, ih, size_define]

theorem bindings_defineAll_of_ne {changed : EnvId} (hne : env ≠ changed)
    (added : List (String × Value)) :
    (store.defineAll changed added).bindings env = store.bindings env := by
  induction added generalizing store with
  | nil => rfl
  | cons binding added ih => rw [defineAll, ih, bindings_define_of_ne hne]

/-- A scope that is taken over, bound to names and nested anew is a scope with these bindings that
is made there, whatever link it had. -/
theorem setParent_defineAll_alloc (hlive : store.isLive env = true) (captured : Bindings)
    (link : Option EnvId) (added : List (String × Value)) :
    ((store.alloc ⟨captured, link⟩).2.defineAll store.cells.size added).setParent
        store.cells.size env =
      (store.alloc ⟨captured.setAll added, some env⟩).2 := by
  have hmade : env < store.cells.size := lt_size_of_isLive hlive
  have hnew : (store.alloc ⟨captured, link⟩).2.isLive store.cells.size = true := by
    rw [isLive_alloc, beq_self_eq_true, Bool.true_or]
  apply eq_of_link?_of_bindings
  · rw [size_setParent, size_defineAll, size_alloc, size_alloc]
  · intro e
    by_cases he : e = store.cells.size
    · subst he
      rw [link?_alloc_self (by simpa using hmade), link?_setParent_self]
      · rw [isLive_congr (link?_defineAll ..), hnew]
      · rw [size_defineAll, size_alloc]
        exact Nat.lt_succ_of_lt hmade
    · rw [link?_setParent_of_ne env he, link?_defineAll, link?_alloc_of_ne he,
        link?_alloc_of_ne he]
  · intro e
    rw [bindings_setParent]
    by_cases he : e = store.cells.size
    · subst he
      rw [bindings_defineAll hnew, bindings_alloc, bindings_alloc, if_pos rfl, if_pos rfl]
    · rw [bindings_defineAll_of_ne he, bindings_alloc, bindings_alloc, if_neg he, if_neg he]

/-! ## Names in the new environment -/

/-- No link of an older environment leads to a new one, so the search does not meet it. -/
theorem lookupWithin_alloc_of_lt (scope : Scope) (name : String) (steps : Nat)
    (hlt : env < store.cells.size) :
    (store.alloc scope).2.lookupWithin name steps env = store.lookupWithin name steps env := by
  induction steps generalizing env with
  | zero => rfl
  | succ steps ih =>
    have hne : env ≠ store.cells.size := Nat.ne_of_lt hlt
    rw [lookupWithin_succ, lookupWithin_succ, bindings_alloc, parent?_alloc, if_neg hne,
      if_neg hne]
    cases hparent : store.parent? env with
    | none => rfl
    | some parent =>
      rw [Option.bind_some, Option.bind_some, ih]
      exact lt_size_of_isLive (parent?_eq_some_iff.1 hparent).2

/-- A new environment sees its own bindings first and then what the one around it sees. -/
theorem lookup_alloc_nested (hlive : store.isLive env = true) (bindings : Bindings)
    (name : String) :
    (store.alloc ⟨bindings, some env⟩).2.lookup store.cells.size name =
      (bindings.find? name).or (store.lookup env name) := by
  rw [lookup, size_alloc, lookupWithin_succ, bindings_alloc, parent?_alloc, if_pos rfl,
    if_pos rfl, Option.filter_some, if_pos hlive, Option.bind_some,
    lookupWithin_alloc_of_lt _ _ _ (lt_size_of_isLive hlive), lookup]

theorem get_of_lookup_eq_some {v : Value} (h : store.lookup env name = some v) :
    store.get env name = .ok v := by
  rw [get, h]

/-- The environment of a call on evaluated arguments, and the store as the body finds it. -/
structure OpensFrame (store : Store) (env : EnvId) (formals : List String) (captured : Bindings)
    (args : List Value) (frame : EnvId) (inner : Store) : Prop where
  isNew : store.isLive frame = false
  scope?_of_ne : ∀ e, e ≠ frame → inner.scope? e = store.scope? e
  parent? : inner.parent? frame = some env
  argument : ∀ name i v, IsLastAt formals name i → args[i]? = some v →
    inner.get frame name = .ok v
  carried : ∀ name, name ∉ formals → ∀ v, List.lookup name captured = some v →
    inner.get frame name = .ok v
  caller : ∀ name, name ∉ formals → List.lookup name captured = none →
    inner.get frame name = store.get env name

theorem opensFrame (hlive : store.isLive env = true) (formals : List String)
    (captured : Bindings) (args : List Value) :
    store.OpensFrame env formals captured args store.cells.size
      (store.alloc ⟨captured.setAll (formals.zip args), some env⟩).2 where
  isNew := isLive_of_size_le (Nat.le_refl _)
  scope?_of_ne e he := by rw [scope?_alloc, if_neg he]
  parent? := by rw [parent?_alloc, if_pos rfl, Option.filter_some, if_pos hlive]
  argument name i v hlast harg := by
    apply get_of_lookup_eq_some
    rw [lookup_alloc_nested hlive, Bindings.find?_setAll, Bindings.find?_reverse_zip hlast harg,
      Option.some_or, Option.some_or]
  carried name hname v hv := by
    apply get_of_lookup_eq_some
    rw [lookup_alloc_nested hlive, Bindings.find?_setAll,
      Bindings.find?_reverse_zip_of_not_mem hname, Option.none_or, Bindings.find?_eq_lookup, hv,
      Option.some_or]
  caller name hname hnone := by
    apply get_eq_of_lookup
    rw [lookup_alloc_nested hlive, Bindings.find?_setAll,
      Bindings.find?_reverse_zip_of_not_mem hname, Option.none_or, Bindings.find?_eq_lookup,
      hnone, Option.none_or]

/-! ## Names while the body runs -/

/-- The environment sees its own bindings, and for all other names what another one sees. -/
def DefersTo (store : Store) (frame env : EnvId) : Prop :=
  ∀ name, store.get frame name =
    match List.lookup name (store.bindings frame) with
    | some v => .ok v
    | none => store.get env name

theorem HasChain.of_append {front back : List EnvId}
    (hchain : store.HasChain env (front ++ frame :: back)) :
    store.HasChain frame (frame :: back) := by
  induction front generalizing env with
  | nil =>
    obtain ⟨above, habove⟩ := hchain.eq_cons
    obtain ⟨rfl, -⟩ := List.cons.inj habove
    exact hchain
  | cons first front ih =>
    cases hrest : front ++ frame :: back with
    | nil => simp at hrest
    | cons next rest =>
      rw [List.cons_append, hrest] at hchain
      cases hchain with
      | nested hparent hchain =>
        rw [← hrest] at hchain
        exact ih hchain

theorem HasChain.defersTo (hchain : store.HasChain frame (frame :: env :: chain)) :
    store.DefersTo frame env := by
  intro name
  cases hchain with
  | nested hparent habove =>
    obtain ⟨above, hsame⟩ := habove.eq_cons
    obtain ⟨rfl, rfl⟩ := List.cons.inj hsame
    rw [get, get, (HasChain.nested hparent habove).lookup_eq_find?, habove.lookup_eq_find?,
      List.flatMap_cons, Bindings.find?_append, Bindings.find?_eq_lookup (store.bindings frame)]
    cases List.lookup name (store.bindings frame) <;> rfl

end Store

open Store

/-- The caller stays behind the frame until the body is done. -/
theorem defersTo_during {store : Store} {env : EnvId} {chain : List EnvId} {depth : Nat}
    {start : Evaluation} {bindings : Bindings} {body : List Value}
    (hchain : store.HasChain env chain)
    (hduring : During depth
      ⟨store.cells.size, .sexpr body, (store.alloc ⟨bindings, some env⟩).2⟩ start) :
    start.store.DefersTo store.cells.size env := by
  obtain ⟨frames, hframes, -⟩ := hasChain_during hduring (hchain.alloc_nested bindings)
  obtain ⟨above, rfl⟩ := hchain.eq_cons
  exact hframes.of_append.defersTo

/-! ## The main result -/

/-- A call with as many arguments as formals evaluates the body in a new environment, which is made
of the scope that the closure carries by binding the formals in turn and nesting it in the caller.
From there a name is the argument for the last formal of that name, else what the closure carries,
else what the caller sees, and so the link that the closure carries plays no part. While the body
runs, the caller goes on to answer for the names that the new environment does not bind. A call
with another number of arguments is refused and changes nothing. -/
theorem body_sees_arguments_then_carried_then_caller {store : Store} {env : EnvId}
    (hlive : store.isLive env = true) (formals : List String) (body : List Value)
    (captured : Bindings) (args : List Value) :
    (formals.length = args.length → ∃ frame inner,
      (∀ link, inner = ((store.alloc ⟨captured, link⟩).2.defineAll frame
        (formals.zip args)).setParent frame env) ∧
      (∀ evaluate link, call evaluate env (.closure formals body captured link) args store =
        (evaluate frame (.sexpr body) inner).map fun (v, after) => (v, after.release frame)) ∧
      store.OpensFrame env formals captured args frame inner ∧
      ∀ chain, store.HasChain env chain → ∀ depth start,
        During depth ⟨frame, .sexpr body, inner⟩ start → start.store.DefersTo frame env) ∧
    (formals.length ≠ args.length → ∀ evaluate link, ∃ e,
      call evaluate env (.closure formals body captured link) args store =
        some (.error e, store) ∧
      e.kind = .arityMismatch "" formals.length args.length) := by
  constructor
  · intro hlength
    refine ⟨store.cells.size, (store.alloc ⟨captured.setAll (formals.zip args), some env⟩).2,
      fun link => (setParent_defineAll_alloc hlive captured link _).symm, fun evaluate link => ?_,
      opensFrame hlive formals captured args,
      fun chain hchain depth start => defersTo_during hchain⟩
    rw [call, callClosure, if_pos hlength]
    rfl
  · intro hlength evaluate link
    refine ⟨(Fault.wrongCallArity formals.length args.length).toError, ?_, rfl⟩
    rw [call, callClosure, if_neg hlength]
    rfl

/-- A closure with a formal that comes twice and hides a name it carries, and with a link to an
environment that knows other names, is called below the root. -/
theorem body_sees_arguments_then_carried_then_caller_repeated :
    let outer := (Store.empty.alloc ⟨[("x", .number 1), ("w", .number 3)], none⟩).2
    let store := ((outer.alloc (.within 0)).2.alloc ⟨[("w", .number 4), ("v", .number 5)], none⟩).2
    let captured : Bindings := [("x", .number 6), ("y", .number 7)]
    let f := Value.closure ["x", "z", "x"] [.symbol "x"] captured (some 2)
    let args := [Value.number 8, .number 9, .number 10]
    store.isLive 1 = true ∧
      (∃ frame inner, inner.get frame "x" = .ok (.number 10) ∧
        inner.get frame "z" = .ok (.number 9) ∧ inner.get frame "y" = .ok (.number 7) ∧
        inner.get frame "w" = store.get 1 "w" ∧ inner.get frame "v" = store.get 1 "v" ∧
        call (eval 2) 1 f args store = (eval 2 frame (.sexpr [.symbol "x"]) inner).map fun
          (v, after) => (v, after.release frame)) ∧
      ∃ e, call (eval 2) 1 f [.number 8] store = some (.error e, store) ∧
        e.kind = .arityMismatch "" 3 1 := by
  intro outer store captured f args
  have hlive : store.isLive 1 = true := rfl
  have hcalls := body_sees_arguments_then_carried_then_caller hlive ["x", "z", "x"] [.symbol "x"]
    captured
  obtain ⟨frame, inner, -, hcall, hopens, -⟩ := (hcalls args).1 rfl
  have hx : IsLastAt ["x", "z", "x"] "x" 2 := by
    refine ⟨rfl, fun j hj => ?_⟩
    rw [List.getElem?_eq_none hj]
    simp
  have hz : IsLastAt ["x", "z", "x"] "z" 1 := by
    refine ⟨rfl, fun j hj => ?_⟩
    obtain rfl | hj := Nat.eq_or_lt_of_le hj
    · decide
    · rw [List.getElem?_eq_none hj]
      simp
  exact ⟨hlive, ⟨frame, inner, hopens.argument "x" 2 _ hx rfl, hopens.argument "z" 1 _ hz rfl,
    hopens.carried "y" (by decide) _ rfl, hopens.caller "w" (by decide) rfl,
    hopens.caller "v" (by decide) rfl, hcall (eval 2) (some 2)⟩,
    (hcalls [.number 8]).2 (by decide) (eval 2) (some 2)⟩

end QuoteLisp
