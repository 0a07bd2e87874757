import QuoteLisp.Proofs.Chain
import QuoteLisp.Proofs.Inversion

/-!
# What evaluation leaves alone

An evaluation writes to two environments at most: the one it runs in and the root of that one's
chain. A call of a closure makes an environment of its own, writes there instead and releases it at
the end, so the calling environment is left alone unless it is the root. Neither links nor lives
change, whatever scopes the values of a program carry.
-/

namespace QuoteLisp

namespace Store

/-- Environments and links stay, and so do all bindings but those of the touched environments. -/
structure ChangesOnly (touched : List EnvId) (before after : Store) : Prop where
  link? : ∀ e, after.link? e = before.link? e
  scope? : ∀ e, e ∉ touched → after.scope? e = before.scope? e

namespace ChangesOnly

variable {touched : List EnvId} {before mid after store : Store} {env root : EnvId}
  {chain : List EnvId}

theorem refl (touched : List EnvId) (store : Store) : ChangesOnly touched store store :=
  ⟨fun _ => rfl, fun _ _ => rfl⟩

theorem trans (h₁ : ChangesOnly touched before mid) (h₂ : ChangesOnly touched mid after) :
    ChangesOnly touched before after :=
  ⟨fun e => (h₂.link? e).trans (h₁.link? e), fun e he => (h₂.scope? e he).trans (h₁.scope? e he)⟩

theorem mono {touched' : List EnvId} (hsubset : touched ⊆ touched')
    (h : ChangesOnly touched before after) : ChangesOnly touched' before after :=
  ⟨h.link?, fun e he => h.scope? e fun hmem => he (hsubset hmem)⟩

theorem isLive (h : ChangesOnly touched before after) (e : EnvId) :
    after.isLive e = before.isLive e := by
  rw [isLive_eq_isSome_link?, isLive_eq_isSome_link?, h.link? e]

theorem hasChain (h : ChangesOnly touched before after) (hchain : before.HasChain env chain) :
    after.HasChain env chain :=
  hchain.congr h.link?

/-! ### Definitions -/

theorem define (store : Store) (env : EnvId) (name : String) (v : Value) :
    ChangesOnly [env] store (store.define env name v) := by
  constructor
  · intro e
    rw [Store.link?, Store.link?, scope?_define]
    split
    · cases store.scope? e <;> rfl
    · rfl
  · intro e he
    rw [scope?_define, if_neg (by simpa using he)]

theorem defineAll (env : EnvId) (bindings : List (String × Value)) (store : Store) :
    ChangesOnly [env] store (store.defineAll env bindings) := by
  induction bindings generalizing store with
  | nil => exact refl _ _
  | cons binding bindings ih => exact (define store env binding.1 binding.2).trans (ih _)

/-- Definitions at the root go to the last environment of the chain, which stays the last one. -/
theorem defineAllRoot_eq (hchain : store.HasChain env chain) (hroot : chain.getLast? = some root)
    (bindings : List (String × Value)) :
    store.defineAllRoot env bindings = store.defineAll root bindings := by
  induction bindings generalizing store with
  | nil => rfl
  | cons binding bindings ih =>
    rw [Store.defineAllRoot, defineRoot, hchain.root_of_getLast? hroot]
    exact ih ((define store root binding.1 binding.2).hasChain hchain)

theorem defineAllRoot (hchain : store.HasChain env chain) (hroot : chain.getLast? = some root)
    (bindings : List (String × Value)) :
    ChangesOnly [root] store (store.defineAllRoot env bindings) := by
  rw [defineAllRoot_eq hchain hroot]
  exact defineAll root bindings store

/-! ### Calls -/

/-- An environment that is made for a call leaves no trace behind. -/
theorem release_alloc {scope : Scope}
    (h : ChangesOnly [store.cells.size, root] (store.alloc scope).2 after) :
    ChangesOnly [root] store (after.release store.cells.size) := by
  have hothers : ∀ e, e ≠ store.cells.size →
      (after.release store.cells.size).scope? e = after.scope? e ∧
        (store.alloc scope).2.scope? e = store.scope? e := by
    intro e he
    rw [scope?_release, if_neg he, scope?_alloc, if_neg he]
    exact ⟨rfl, rfl⟩
  have hnone : (after.release store.cells.size).scope? store.cells.size = none := by
    rw [scope?_release, if_pos rfl]
  constructor
  · intro e
    by_cases he : e = store.cells.size
    · subst he
      rw [Store.link?, Store.link?, hnone, scope?_size]
    · have hlink := h.link? e
      rw [Store.link?, Store.link?, (hothers e he).2] at hlink
      rw [Store.link?, (hothers e he).1, hlink, Store.link?]
  · intro e hroot
    by_cases he : e = store.cells.size
    · subst he
      rw [hnone, scope?_size]
    · have htouched : e ∉ [store.cells.size, root] := by
        simp only [List.mem_cons, List.not_mem_nil, or_false] at hroot ⊢
        rintro (hsize | hroot')
        · exact he hsize
        · exact hroot hroot'
      rw [(hothers e he).1, h.scope? e htouched, (hothers e he).2]

end ChangesOnly

end Store

open Store

/-! ## Evaluation -/

/-- The evaluation writes to its environment and to the root of the chain alone. -/
def WritesToEnds (env : EnvId) (_ : Value) (store : Store) (_ : Value) (after : Store) : Prop :=
  ∀ ⦃chain root⦄, store.HasChain env chain → chain.getLast? = some root →
    ChangesOnly [env, root] store after

variable {evaluate : Evaluator} {env root : EnvId} {chain : List EnvId} {store after : Store}
  {r : Value}

theorem changesOnly_of_perform (heval : evaluate.Satisfies WritesToEnds)
    (hchain : store.HasChain env chain) (hroot : chain.getLast? = some root) {action : Action}
    (h : action.perform evaluate env store = some (r, after)) :
    ChangesOnly [env, root] store after := by
  cases action with
  | give v =>
    cases h
    exact .refl _ _
  | evaluate items => exact heval h hchain hroot
  | assign bindings result =>
    cases h
    exact (ChangesOnly.defineAll env bindings store).mono (by simp)
  | define bindings result =>
    cases h
    exact (ChangesOnly.defineAllRoot hchain hroot bindings).mono (by simp)

theorem changesOnly_of_callClosure (heval : evaluate.Satisfies WritesToEnds)
    (hchain : store.HasChain env chain) (hroot : chain.getLast? = some root)
    {formals : List String} {body : List Value} {captured : Bindings} {args : List Value}
    (h : callClosure evaluate env formals body captured args store = some (r, after)) :
    ChangesOnly [root] store after := by
  obtain ⟨-, rfl, -⟩ | ⟨-, last, hbody, rfl⟩ := callClosure_eq_some h
  · exact .refl _ _
  · -- the new environment stands in front of the caller's chain, so both have the same root
    have hframe := hchain.alloc_nested (captured.setAll (formals.zip args))
    have hlast : (store.cells.size :: chain).getLast? = some root := by
      obtain ⟨above, rfl⟩ := hchain.eq_cons
      rw [List.getLast?_cons_cons, hroot]
    exact (heval hbody hframe hlast).release_alloc

theorem changesOnly_of_call (heval : evaluate.Satisfies WritesToEnds)
    (hchain : store.HasChain env chain) (hroot : chain.getLast? = some root) {f : Value}
    {args : List Value} (h : call evaluate env f args store = some (r, after)) :
    ChangesOnly [env, root] store after := by
  cases f with
  | builtin b =>
    obtain ⟨fault, -, rfl, -⟩ | ⟨action, -, hperform⟩ := call_builtin_eq_some h
    · exact .refl _ _
    · exact changesOnly_of_perform heval hchain hroot hperform
  | closure formals body captured link =>
    exact (changesOnly_of_callClosure heval hchain hroot h).mono (by simp)
  | _ =>
    cases h
    exact .refl _ _

theorem changesOnly_of_evalItems (heval : evaluate.Satisfies WritesToEnds)
    (hchain : store.HasChain env chain) (hroot : chain.getLast? = some root) {items : List Value}
    {outcome : Except EvalError (List Value)}
    (h : evalItems evaluate env items store = some (outcome, after)) :
    ChangesOnly [env, root] store after := by
  induction items generalizing store outcome with
  | nil =>
    cases h
    exact .refl _ _
  | cons item items ih =>
    obtain ⟨e, hitem, -⟩ | ⟨v, mid, rest, hitem, -, hitems, -⟩ := evalItems_cons_eq_some_iff.1 h
    · exact heval hitem hchain hroot
    · have hfirst := heval hitem hchain hroot
      exact hfirst.trans (ih (hfirst.hasChain hchain) hitems)

theorem writesToEnds_step (heval : evaluate.Satisfies WritesToEnds) :
    (step evaluate).Satisfies WritesToEnds := by
  intro env v store r after h chain root hchain hroot
  cases v with
  | symbol name =>
    obtain ⟨rfl, -⟩ := step_symbol_eq_some h
    exact .refl _ _
  | sexpr items =>
    obtain ⟨e, hitems, -⟩ | ⟨hitems, -⟩ | hitems | ⟨f, args, mid, -, hitems, hcall⟩ :=
      evalExpr_eq_some h
    · exact changesOnly_of_evalItems heval hchain hroot hitems
    · exact changesOnly_of_evalItems heval hchain hroot hitems
    · exact changesOnly_of_evalItems heval hchain hroot hitems
    · have hfirst := changesOnly_of_evalItems heval hchain hroot hitems
      exact hfirst.trans (changesOnly_of_call heval (hfirst.hasChain hchain) hroot hcall)
  | _ =>
    cases h
    exact .refl _ _

theorem writesToEnds_eval (depth : Nat) : (eval depth).Satisfies WritesToEnds :=
  eval_satisfies (fun _ => writesToEnds_step) depth

/-- Evaluation in an environment with a chain keeps lives and links, and writes to that environment
and to the last one of the chain alone. A call of a closure writes to the last one alone, whatever
scope the closure carries, so a calling environment that is nested in another is left as it was.
Where links form no cycle, all of this goes for every live environment. -/
theorem eval_leaves_others_alone (store : Store) :
    (store.IsAcyclic → ∀ env, store.isLive env = true → ∃ chain, store.HasChain env chain) ∧
    ∀ env chain root, store.HasChain env chain → chain.getLast? = some root →
      (∀ depth v r after, eval depth env v store = some (r, after) →
        (∀ e, after.isLive e = store.isLive e) ∧ (∀ e, after.link? e = store.link? e) ∧
        ∀ e, e ≠ env → e ≠ root → after.scope? e = store.scope? e) ∧
      ∀ depth formals body captured link args r after,
        call (eval depth) env (.closure formals body captured link) args store = some (r, after) →
        (∀ e, after.isLive e = store.isLive e) ∧ (∀ e, after.link? e = store.link? e) ∧
        (∀ e, e ≠ root → after.scope? e = store.scope? e) ∧
        (store.parent? env ≠ none → after.scope? env = store.scope? env) := by
  refine ⟨fun hacyclic env hlive => hacyclic.exists_hasChain hlive, ?_⟩
  intro env chain root hchain hroot
  constructor
  · intro depth v r after h
    have hchange : ChangesOnly [env, root] store after := writesToEnds_eval depth h hchain hroot
    refine ⟨hchange.isLive, hchange.link?, fun e henv hroot => hchange.scope? e ?_⟩
    simp [henv, hroot]
  · intro depth formals body captured link args r after h
    have hchange : ChangesOnly [root] store after :=
      changesOnly_of_callClosure (writesToEnds_eval depth) hchain hroot h
    have hothers : ∀ e, e ≠ root → after.scope? e = store.scope? e :=
      fun e he => hchange.scope? e (by simpa using he)
    refine ⟨hchange.isLive, hchange.link?, hothers, fun hparent => hothers env ?_⟩
    rintro rfl
    exact hparent (hchain.parent?_getLast? hroot)

/-- A call two environments below the root defines a name there and passes over both. -/
theorem call_leaves_nested_callers_alone :
    let outer := (Store.empty.alloc ⟨Scope.builtins, none⟩).2
    let store := ((outer.alloc (.within 0)).2.alloc (.within 1)).2
    let f := Value.closure ["x"] [.symbol "def", .qexpr [.symbol "y"], .symbol "x"] [] (some 1)
    ∃ after, call (eval 2) 2 f [.number 7] store = some (.unit, after) ∧
      after.scope? 2 = store.scope? 2 ∧ after.scope? 1 = store.scope? 1 ∧
      after.scope? 0 ≠ store.scope? 0 := by
  intro outer store f
  have hchain : store.HasChain 2 [2, 1, 0] := .nested rfl (.nested rfl (.root rfl rfl))
  have hcall : call (eval 2) 2 f [.number 7] store = some (.unit, _) := rfl
  obtain ⟨-, -, hothers, hcaller⟩ :=
    ((eval_leaves_others_alone store).2 2 [2, 1, 0] 0 hchain rfl).2 _ _ _ _ _ _ _ _ hcall
  refine ⟨_, hcall, hcaller (by decide), hothers 1 (by decide), fun hsame => ?_⟩
  have hlength := congrArg (Option.map fun scope : Scope => scope.bindings.length) hsame
  revert hlength
  decide

end QuoteLisp
