import QuoteLisp.Proofs.NormalForms
import QuoteLisp.Proofs.Unbounded

/-!
# Applications as data

An application can be quoted, or put together as a list of the values of its items, and evaluated
later: both mean what the application means. A quoted application is evaluated by the same rule once
`eval` has been looked up. In a list the items are evaluated when the list is made and once more by
`eval`, which goes unnoticed since all values of a session are normal.
-/

namespace QuoteLisp

variable {env : EnvId} {store after : Store} {v r : Value} {items vs : List Value}
  {outcome : Except EvalError (List Value)}

/-! ## Normal values -/

theorem evaluates_iff_of_isNormal (hv : v.isNormal = true) :
    Evaluates env v store r after ↔ r = v ∧ after = store :=
  evaluates_iff_of_eval fun depth => Value.eval_eq_self (.inl hv) depth env store

/-- Normal values are their own outcome. -/
theorem evaluatesItems_iff_of_isNormal (hvs : ∀ v ∈ vs, v.isNormal = true) :
    EvaluatesItems env vs store outcome after ↔ outcome = .ok vs ∧ after = store := by
  induction vs generalizing store outcome with
  | nil => exact evaluatesItems_nil_iff
  | cons v vs ih =>
    obtain ⟨hv, hrest⟩ := List.forall_mem_cons.1 hvs
    have hnone : v.error? = none := by
      cases v with
      | error e => cases hv
      | _ => rfl
    rw [evaluatesItems_cons_iff]
    simp only [evaluates_iff_of_isNormal hv, ih hrest]
    constructor
    · rintro (⟨e, ⟨rfl, -⟩, -⟩ | ⟨r, mid, rest, ⟨rfl, rfl⟩, -, ⟨rfl, rfl⟩, rfl⟩)
      · cases hnone
      · exact ⟨rfl, rfl⟩
    · rintro ⟨rfl, rfl⟩
      exact .inr ⟨v, _, _, ⟨rfl, rfl⟩, hnone, ⟨rfl, rfl⟩, rfl⟩

/-- Evaluating normal values a second time changes nothing. -/
theorem evaluates_sexpr_iff_of_isNormal (hvs : ∀ v ∈ vs, v.isNormal = true) :
    Evaluates env (.sexpr vs) store r after ↔ Concludes env store r after (.ok vs) := by
  rw [evaluates_sexpr_iff]
  simp only [evaluatesItems_iff_of_isNormal hvs]
  constructor
  · rintro ⟨_, _, ⟨rfl, rfl⟩, hconcludes⟩
    exact hconcludes
  · intro hconcludes
    exact ⟨_, _, ⟨rfl, rfl⟩, hconcludes⟩

/-! ## Operations -/

/-- The environment knows an operation under its name. -/
def Store.Resolves (store : Store) (env : EnvId) (p : Primitive) : Prop :=
  ∃ b : Builtin, store.get env p.name = .ok (.builtin b) ∧ b.primitive = p

/-- Before an operation is called by name, its arguments are evaluated and nothing else. -/
theorem evaluates_call_iff {name : String} {b : Builtin}
    (hget : store.get env name = .ok (.builtin b)) :
    Evaluates env (.sexpr (.symbol name :: items)) store r after ↔
      ∃ outcome mid, EvaluatesItems env items store outcome mid ∧
        Concludes env mid r after (outcome.map (.builtin b :: ·)) := by
  have hsymbol : ∀ r mid, Evaluates env (.symbol name) store r mid ↔
      r = .builtin b ∧ mid = store :=
    fun r mid => evaluates_iff_of_eval fun depth => by rw [eval_succ, step, hget]
  rw [evaluates_sexpr_iff]
  simp only [evaluatesItems_cons_iff, hsymbol]
  constructor
  · rintro ⟨_, mid, ⟨e, ⟨h, -⟩, -⟩ | ⟨_, _, outcome, ⟨rfl, rfl⟩, -, hitems, rfl⟩, hconcludes⟩
    · cases h
    · exact ⟨outcome, mid, hitems, hconcludes⟩
  · rintro ⟨outcome, mid, hitems, hconcludes⟩
    exact ⟨_, mid, .inr ⟨_, _, outcome, ⟨rfl, rfl⟩, rfl, hitems, rfl⟩, hconcludes⟩

theorem concludes_builtin_iff {b : Builtin} {args : List Value} {action : Action}
    (hargs : args ≠ []) (haction : b.primitive.action args = .ok action) :
    Concludes env store r after (.ok (.builtin b :: args)) ↔
      ∃ depth, action.perform (eval depth) env store = some (r, after) := by
  obtain ⟨arg, args, rfl⟩ := List.exists_cons_of_ne_nil hargs
  simp only [Concludes, applyItems, call_builtin, haction]

/-- Evaluating a quoted application is evaluating the application. -/
theorem concludes_eval_iff {b : Builtin} (hb : b.primitive = .eval) :
    Concludes env store r after (.ok [.builtin b, .qexpr items]) ↔
      Evaluates env (.sexpr items) store r after := by
  have haction : b.primitive.action [.qexpr items] = .ok (.evaluate items) := by
    rw [hb]
    rfl
  exact concludes_builtin_iff (List.cons_ne_nil _ _) haction

theorem evaluates_quoted_iff (heval : store.Resolves env .eval) :
    Evaluates env (.sexpr [.symbol "eval", .qexpr items]) store r after ↔
      Evaluates env (.sexpr items) store r after := by
  obtain ⟨b, hget, hb⟩ := heval
  change store.get env "eval" = .ok (.builtin b) at hget
  have hquoted : ∀ v ∈ [Value.qexpr items], v.isNormal = true := by simp [Value.isNormal]
  rw [evaluates_call_iff hget]
  simp only [evaluatesItems_iff_of_isNormal hquoted]
  constructor
  · rintro ⟨_, _, ⟨rfl, rfl⟩, hconcludes⟩
    exact (concludes_eval_iff hb).1 hconcludes
  · intro h
    exact ⟨_, _, ⟨rfl, rfl⟩, (concludes_eval_iff hb).2 h⟩

/-! ## Lists of evaluated items -/

/-- What `list` makes of the outcome of its arguments. -/
def listed : Except EvalError (List Value) → Value
  | .error e => .error e
  | .ok vs => .qexpr vs

theorem EvaluatesItems.ne_nil (h : EvaluatesItems env items store (.ok vs) after)
    (hitems : items ≠ []) : vs ≠ [] := by
  obtain ⟨item, items, rfl⟩ := List.exists_cons_of_ne_nil hitems
  obtain ⟨e, -, hvs⟩ | ⟨r, mid, rest, -, -, -, hvs⟩ := evaluatesItems_cons_iff.1 h
  · cases hvs
  · obtain ⟨others, -, rfl⟩ := Except.map_eq_ok_iff.1 hvs.symm
    exact List.cons_ne_nil r others

theorem evaluates_list_iff (hlist : store.Resolves env .list) (hitems : items ≠ []) :
    Evaluates env (.sexpr (.symbol "list" :: items)) store r after ↔
      ∃ outcome, EvaluatesItems env items store outcome after ∧ r = listed outcome := by
  obtain ⟨b, hget, hb⟩ := hlist
  change store.get env "list" = .ok (.builtin b) at hget
  have hgive : ∀ {vs mid}, EvaluatesItems env items store (.ok vs) mid →
      (Concludes env mid r after (.ok (.builtin b :: vs)) ↔ r = .qexpr vs ∧ after = mid) := by
    intro vs mid hvs
    have haction : b.primitive.action vs = .ok (.give (.qexpr vs)) := by
      rw [hb]
      rfl
    rw [concludes_builtin_iff (hvs.ne_nil hitems) haction]
    simp [Action.perform, eq_comm]
  rw [evaluates_call_iff hget]
  constructor
  · rintro ⟨e | vs, mid, houtcome, hconcludes⟩
    · obtain ⟨rfl, rfl⟩ := hconcludes
      exact ⟨_, houtcome, rfl⟩
    · obtain ⟨rfl, rfl⟩ := (hgive houtcome).1 hconcludes
      exact ⟨_, houtcome, rfl⟩
  · rintro ⟨e | vs, houtcome, rfl⟩
    · exact ⟨_, after, houtcome, rfl, rfl⟩
    · exact ⟨_, after, houtcome, (hgive houtcome).2 ⟨rfl, rfl⟩⟩

/-- If the items have normal values, their list can be evaluated in place of the application. -/
theorem evaluates_reified_iff (heval : store.Resolves env .eval) (hlist : store.Resolves env .list)
    (hitems : items ≠ [])
    (hnormal : ∀ vs mid, EvaluatesItems env items store (.ok vs) mid → ∀ v ∈ vs, v.isNormal = true) :
    Evaluates env (.sexpr [.symbol "eval", .sexpr (.symbol "list" :: items)]) store r after ↔
      Evaluates env (.sexpr items) store r after := by
  obtain ⟨b, hget, hb⟩ := heval
  change store.get env "eval" = .ok (.builtin b) at hget
  have hagain : ∀ {vs mid}, EvaluatesItems env items store (.ok vs) mid →
      (Concludes env mid r after (.ok [.builtin b, .qexpr vs]) ↔
        Concludes env mid r after (.ok vs)) := by
    intro vs mid hvs
    rw [concludes_eval_iff hb, evaluates_sexpr_iff_of_isNormal (hnormal vs mid hvs)]
  rw [evaluates_call_iff hget, evaluates_sexpr_iff]
  simp only [evaluatesItems_cons_iff, evaluatesItems_nil_iff, evaluates_list_iff hlist hitems]
  constructor
  · rintro ⟨_, mid, ⟨e, ⟨outcome, houtcome, he⟩, rfl⟩ |
      ⟨_, _, _, ⟨outcome, houtcome, rfl⟩, hnone, ⟨rfl, rfl⟩, rfl⟩, hconcludes⟩
    · cases outcome with
      | error e' =>
        cases he
        exact ⟨_, mid, houtcome, hconcludes⟩
      | ok vs => cases he
    · cases outcome with
      | error e => cases hnone
      | ok vs => exact ⟨_, _, houtcome, (hagain houtcome).1 hconcludes⟩
  · rintro ⟨e | vs, mid, houtcome, hconcludes⟩
    · exact ⟨_, mid, .inl ⟨e, ⟨_, houtcome, rfl⟩, rfl⟩, hconcludes⟩
    · exact ⟨_, mid, .inr ⟨_, mid, _, ⟨_, houtcome, rfl⟩, rfl, ⟨rfl, rfl⟩, rfl⟩,
        (hagain houtcome).2 hconcludes⟩

/-! ## Sessions -/

/-- The stores that sessions come through: between requests, and at the start and at the end of
every evaluation while a request is answered. -/
inductive Store.Arises : Store → Prop
  | between {session : Session} (hsession : session.Reachable) : Arises session.store
  | start {session : Session} {depth : Nat} {request : Request} {start : Evaluation}
    (hsession : session.Reachable) (hvisits : session.Visits depth request start) :
    Arises start.store
  | finish {session : Session} {depth bound : Nat} {request : Request} {start : Evaluation}
    {r : Value} {after : Store} (hsession : session.Reachable)
    (hvisits : session.Visits depth request start)
    (hfinished : (eval bound).on start = some (r, after)) : Arises after

theorem Store.Arises.binds (hstore : store.Arises) :
    store.Binds (Value.IsGood Value.IsCaptureless) := by
  cases hstore with
  | between hsession => exact keeps_isCaptureless.reachable hsession
  | start hsession hvisits => exact (keeps_isCaptureless.visits hsession hvisits).1
  | @finish _ _ bound _ _ _ _ hsession hvisits hfinished =>
    obtain ⟨hstart, hvalue⟩ := keeps_isCaptureless.visits hsession hvisits
    exact (keepsGood_eval Value.hereditary_isCaptureless bound hfinished hstart hvalue).1

/-- Whatever is read from a source has normal values in a session. -/
theorem Store.Arises.isNormal (hstore : store.Arises) (hitems : ∀ v ∈ items, v.IsCaptureless)
    (h : EvaluatesItems env items store (.ok vs) after) : ∀ v ∈ vs, v.isNormal = true := by
  obtain ⟨depth, h⟩ := h
  have hstable := Value.hereditary_isCaptureless.toStable
  have hvs := (stable_of_evalItems hstable (keepsStable_eval hstable depth) hstore.binds hitems h).2
  exact fun v hv => (hvs v hv).1

/-- In every store that a session comes through, and in every environment that knows `eval` and
`list`, an application of expressions that are read from sources can be quoted and evaluated: this
has the same results and leaves the same stores. If it has an item, so has the evaluation of the
list of its items. Errors are among the results, and if one evaluation does not finish, none does. -/
theorem applications_can_be_reified (hstore : store.Arises) (heval : store.Resolves env .eval)
    (hlist : store.Resolves env .list) {es : List Value}
    (hread : ∀ e ∈ es, ∃ source items, readSource source = .ok items ∧ e ∈ items) (r : Value)
    (after : Store) :
    (Evaluates env (.sexpr [.symbol "eval", .qexpr es]) store r after ↔
      Evaluates env (.sexpr es) store r after) ∧
    (es ≠ [] →
      (Evaluates env (.sexpr [.symbol "eval", .sexpr (.symbol "list" :: es)]) store r after ↔
        Evaluates env (.sexpr es) store r after)) := by
  refine ⟨evaluates_quoted_iff heval, fun hne => evaluates_reified_iff heval hlist hne ?_⟩
  intro vs mid hvs
  refine hstore.isNormal (fun e he => ?_) hvs
  obtain ⟨source, items, hsource, hmem⟩ := hread e he
  exact (isRead_of_readSource hsource e hmem).isCaptureless

/-- An application of `list` to an item that gives another meaning to `list`, and to what `list`
means then. -/
theorem applications_can_be_reified_across_definition :
    let definition := Value.sexpr [.symbol "def", .qexpr [.symbol "list"], .number 7]
    let es := [Value.symbol "list", definition, .symbol "list"]
    let store := Session.new.store
    let after := store.define 0 "list" (.number 7)
    let r := Value.qexpr [.unit, .number 7]
    store.Arises ∧ store.Resolves 0 .eval ∧ store.Resolves 0 .list ∧
      readSource "list (def \x7blist\x7d 7) list" = .ok es ∧
      Evaluates 0 (.sexpr es) store r after ∧
      Evaluates 0 (.sexpr [.symbol "eval", .qexpr es]) store r after ∧
      Evaluates 0 (.sexpr [.symbol "eval", .sexpr (.symbol "list" :: es)]) store r after := by
  intro definition es store after r
  have hlist : (Value.symbol "list").IsWritable := .symbol "list" (by decide)
  have hdef : (Value.symbol "def").IsWritable := .symbol "def" (by decide)
  have hdefinition : definition.IsWritable := by
    refine .sexpr _ (List.forall_mem_cons.2 ⟨hdef, List.forall_mem_cons.2 ⟨?_, ?_⟩⟩)
    · exact .qexpr _ (List.forall_mem_singleton.2 hlist)
    · exact List.forall_mem_singleton.2 (.number 7)
  have hes : ∀ e ∈ es, e.IsWritable :=
    List.forall_mem_cons.2 ⟨hlist, List.forall_mem_cons.2
      ⟨hdefinition, List.forall_mem_singleton.2 hlist⟩⟩
  have hsource : readSource "list (def \x7blist\x7d 7) list" = .ok es := readSource_spaced hes rfl
  have hstore : store.Arises := .between .new
  have hknown : store.Resolves 0 .eval ∧ store.Resolves 0 .list := ⟨⟨_, rfl, rfl⟩, _, rfl, rfl⟩
  have happlied : Evaluates 0 (.sexpr es) store r after := ⟨3, rfl⟩
  obtain ⟨hquoted, hlisted⟩ := applications_can_be_reified hstore hknown.1 hknown.2
    (fun e he => ⟨_, es, hsource, he⟩) r after
  exact ⟨hstore, hknown.1, hknown.2, hsource, happlied, hquoted.2 happlied,
    (hlisted (List.cons_ne_nil _ _)).2 happlied⟩

end QuoteLisp
