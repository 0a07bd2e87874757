import QuoteLisp.Proofs.Operations
import QuoteLisp.Proofs.Parts
import QuoteLisp.Proofs.Requests

/-!
# Names only grow

Binding a name that is bound already replaces its value in place, and binding a new name puts it
behind all others. So the names of an environment keep their places as long as it lives, new ones
follow, and none ever stands twice: through all operations of a host, through all evaluations, and
in the environments of calls, whose names come from closures and their formals.

In a session this means that a name once bound at the root stays bound there, and that the names of
the builtin functions stay the first ones.
-/

namespace QuoteLisp

/-! ## Bindings -/

namespace Bindings

theorem names_set (bindings : Bindings) (name : String) (v : Value) :
    (bindings.set name v).names =
      if name ∈ bindings.names then bindings.names else bindings.names ++ [name] := by
  induction bindings with
  | nil => rfl
  | cons binding rest ih =>
    obtain ⟨first, w⟩ := binding
    rw [set]
    by_cases hfirst : first = name
    · rw [if_pos hfirst, if_pos]
      · rfl
      · exact hfirst ▸ List.mem_cons_self
    · have hmem : name ∈ names ((first, w) :: rest) ↔ name ∈ names rest := by
        simp [names, Ne.symm hfirst]
      have hnames : names ((first, w) :: set name v rest) = first :: names (set name v rest) := rfl
      rw [if_neg hfirst, hnames, ih]
      simp only [hmem]
      split <;> rfl

/-- All names keep their places, and those that follow them are new and differ from each other. -/
structure Grows (before after : Bindings) : Prop where
  names : before.names <+: after.names
  nodup : before.names.Nodup → after.names.Nodup

namespace Grows

theorem refl (bindings : Bindings) : Grows bindings bindings := ⟨List.prefix_refl _, id⟩

theorem trans {before mid after : Bindings} (h₁ : Grows before mid) (h₂ : Grows mid after) :
    Grows before after :=
  ⟨h₁.names.trans h₂.names, h₂.nodup ∘ h₁.nodup⟩

theorem set (bindings : Bindings) (name : String) (v : Value) :
    Grows bindings (bindings.set name v) := by
  by_cases hmem : name ∈ bindings.names
  · have hsame : (bindings.set name v).names = bindings.names := by
      rw [names_set, if_pos hmem]
    exact ⟨by rw [hsame], by rw [hsame]; exact id⟩
  · have hnew : (bindings.set name v).names = bindings.names ++ [name] := by
      rw [names_set, if_neg hmem]
    refine ⟨by rw [hnew]; exact List.prefix_append _ _, fun hnodup => ?_⟩
    rw [hnew, List.nodup_append]
    exact ⟨hnodup, List.nodup_singleton name, by grind⟩

theorem setAll (bindings added : Bindings) : Grows bindings (bindings.setAll added) := by
  induction added generalizing bindings with
  | nil => exact refl _
  | cons binding added ih => exact (set bindings binding.1 binding.2).trans (ih _)

end Grows

end Bindings

/-! ## Stores -/

namespace Store

variable {store before mid after : Store}

/-- The names bound in an environment, in order. -/
def names (store : Store) (env : EnvId) : List String := (store.bindings env).names

/-- No environment binds a name twice. -/
def HasDistinctNames (store : Store) : Prop := ∀ env, (store.names env).Nodup

/-- The environments that lived still do, and their names keep their places. -/
structure Grows (before after : Store) : Prop where
  isLive : ∀ {env}, before.isLive env = true → after.isLive env = true
  bindings : ∀ {env}, before.isLive env = true → (before.bindings env).Grows (after.bindings env)

/-- The same environments live, and their names keep their places. -/
structure GrowsInPlace (before after : Store) : Prop where
  isLive : ∀ env, after.isLive env = before.isLive env
  bindings : ∀ env, (before.bindings env).Grows (after.bindings env)

namespace Grows

theorem refl (store : Store) : Grows store store := ⟨id, fun _ => .refl _⟩

theorem trans (h₁ : Grows before mid) (h₂ : Grows mid after) : Grows before after :=
  ⟨fun hlive => h₂.isLive (h₁.isLive hlive),
    fun hlive => (h₁.bindings hlive).trans (h₂.bindings (h₁.isLive hlive))⟩

theorem alloc (store : Store) (scope : Scope) : Grows store (store.alloc scope).2 := by
  refine ⟨fun {env} hlive => ?_, fun {env} hlive => ?_⟩
  · rw [isLive_alloc, hlive, Bool.or_true]
  · have hold : env ≠ store.cells.size := Nat.ne_of_lt (lt_size_of_isLive hlive)
    rw [bindings_alloc, if_neg hold]
    exact .refl _

end Grows

namespace GrowsInPlace

theorem refl (store : Store) : GrowsInPlace store store := ⟨fun _ => rfl, fun _ => .refl _⟩

theorem trans (h₁ : GrowsInPlace before mid) (h₂ : GrowsInPlace mid after) :
    GrowsInPlace before after :=
  ⟨fun env => (h₂.isLive env).trans (h₁.isLive env),
    fun env => (h₁.bindings env).trans (h₂.bindings env)⟩

theorem grows (h : GrowsInPlace before after) : Grows before after :=
  ⟨fun {env} hlive => (h.isLive env).trans hlive, fun {env} _ => h.bindings env⟩

theorem define (store : Store) (env : EnvId) (name : String) (v : Value) :
    GrowsInPlace store (store.define env name v) := by
  refine ⟨fun e => isLive_define store env e name v, fun e => ?_⟩
  rw [bindings_define]
  split
  · exact .set _ _ _
  · exact .refl _

/-- An environment that is made for a call and released leaves only growth behind. -/
theorem release_alloc {scope : Scope} (h : GrowsInPlace (store.alloc scope).2 after) :
    GrowsInPlace store (after.release store.cells.size) := by
  have hdead : store.isLive store.cells.size = false := isLive_of_size_le (Nat.le_refl _)
  constructor
  · intro env
    rw [isLive_release, h.isLive, isLive_alloc]
    by_cases hnew : env = store.cells.size
    · rw [hnew, hdead, bne_self_eq_false, Bool.false_and]
    · rw [bne_iff_ne.2 hnew, beq_false_of_ne hnew, Bool.true_and, Bool.false_or]
  · intro env
    have hgrows := h.bindings env
    rw [bindings_alloc] at hgrows
    rw [bindings_release]
    by_cases hnew : env = store.cells.size
    · rw [if_pos hnew, hnew, bindings_eq_nil hdead]
      exact .refl _
    · rw [if_neg hnew] at hgrows ⊢
      exact hgrows

theorem isEvalRelation : IsEvalRelation GrowsInPlace where
  refl := refl
  trans := trans
  define := define
  release_alloc := release_alloc

end GrowsInPlace

namespace HasDistinctNames

theorem growsInPlace (hstore : store.HasDistinctNames) (h : store.GrowsInPlace after) :
    after.HasDistinctNames :=
  fun env => (h.bindings env).nodup (hstore env)

theorem alloc (hstore : store.HasDistinctNames) {scope : Scope}
    (hscope : scope.bindings.names.Nodup) : (store.alloc scope).2.HasDistinctNames := by
  intro env
  rw [names, bindings_alloc]
  split
  · exact hscope
  · exact hstore env

end HasDistinctNames

end Store

open Store

/-! ## Evaluation -/

theorem growsInPlace_of_eval {depth : Nat} {env : EnvId} {v r : Value} {store after : Store}
    (h : eval depth env v store = some (r, after)) : store.GrowsInPlace after :=
  GrowsInPlace.isEvalRelation.eval depth h

theorem growsInPlace_of_evalItems {depth : Nat} {env : EnvId} {items : List Value}
    {outcome : Except EvalError (List Value)} {store after : Store}
    (h : evalItems (eval depth) env items store = some (outcome, after)) :
    store.GrowsInPlace after :=
  GrowsInPlace.isEvalRelation.evalItems (GrowsInPlace.isEvalRelation.eval depth) h

theorem grows_of_nested {depth : Nat} {outer inner : Evaluation}
    (hnested : Nested (eval depth) outer inner) : outer.store.Grows inner.store := by
  cases hnested with
  | item hbefore => exact (growsInPlace_of_evalItems hbefore).grows
  | quoted hitems => exact (growsInPlace_of_evalItems hitems).grows
  | body hitems => exact (growsInPlace_of_evalItems hitems).grows.trans (.alloc _ _)

theorem grows_during {depth : Nat} {outer start : Evaluation} (hduring : During depth outer start) :
    outer.store.Grows start.store := by
  induction hduring with
  | self => exact .refl _
  | inside hnested _ ih => exact (grows_of_nested hnested).trans ih

/-! ## Environments of calls -/

namespace Value

/-- The bindings that a closure carries into its calls. -/
def carried : Value → Bindings
  | closure _ _ captured _ => captured
  | _ => []

/-- No closure in the value carries a name twice. -/
def CarriesDistinctNames (v : Value) : Prop := v.Everywhere fun part => part.carried.names.Nodup

@[simp] theorem carriesDistinctNames_error (e : EvalError) : (error e).CarriesDistinctNames := by
  simp [CarriesDistinctNames, carried, Bindings.names]

theorem stable_carriesDistinctNames : Stable CarriesDistinctNames CarriesDistinctNames where
  evaluated := id
  bound _ := id
  number n := by simp [CarriesDistinctNames, carried, Bindings.names]
  sexpr := by
    intro items
    simp [CarriesDistinctNames, carried, Bindings.names]
  qexpr := by
    intro items
    simp [CarriesDistinctNames, carried, Bindings.names]
  lambda := by
    intro formals body _ hbody
    refine everywhere_closure.2 ⟨List.nodup_nil, hbody, by simp⟩
  body h := (everywhere_closure.1 h).2.1
  captured h := (everywhere_closure.1 h).2.2
  unbound _ := carriesDistinctNames_error _
  refused _ _ _ := carriesDistinctNames_error _
  notAFunction _ _ := carriesDistinctNames_error _
  wrongArity _ _ := carriesDistinctNames_error _

end Value

open Value

/-- No environment binds a name twice, and no closure carries one twice. -/
def Evaluation.HasDistinctNames (start : Evaluation) : Prop :=
  start.store.HasDistinctNames ∧ start.Meets CarriesDistinctNames CarriesDistinctNames

theorem Evaluation.HasDistinctNames.nested {depth : Nat} {outer inner : Evaluation}
    (hnested : Nested (eval depth) outer inner) (houter : outer.HasDistinctNames) :
    inner.HasDistinctNames := by
  obtain ⟨hdistinct, hmeets⟩ := houter
  refine ⟨?_, hmeets.nested stable_carriesDistinctNames hnested⟩
  have hkeeps := keepsStable_eval stable_carriesDistinctNames depth
  cases hnested with
  | item hbefore => exact hdistinct.growsInPlace (growsInPlace_of_evalItems hbefore)
  | quoted hitems => exact hdistinct.growsInPlace (growsInPlace_of_evalItems hitems)
  | body hitems =>
    obtain ⟨-, hvs⟩ := stable_of_evalItems stable_carriesDistinctNames hkeeps hmeets.1
      (stable_carriesDistinctNames.sexpr.1 hmeets.2) hitems
    have hcaptured := (everywhere_closure.1 (List.forall_mem_cons.1 hvs).1).1
    have hmid := hdistinct.growsInPlace (growsInPlace_of_evalItems hitems)
    exact hmid.alloc ((Bindings.Grows.setAll _ _).nodup hcaptured)

theorem Evaluation.HasDistinctNames.during {depth : Nat} {outer start : Evaluation}
    (houter : outer.HasDistinctNames) (hduring : During depth outer start) :
    start.HasDistinctNames :=
  hduring.keeps (fun _ _ _ hnested houter => houter.nested hnested) houter

/-! ## Operations of a host -/

namespace Store

theorem GrowsInPlace.setParent (store : Store) (env parent : EnvId) :
    GrowsInPlace store (store.setParent env parent) := by
  refine ⟨isLive_setParent store env parent, fun e => ?_⟩
  rw [bindings_setParent]
  exact .refl _

theorem binds_iff_bindings {P : Value → Prop} {store : Store} :
    store.Binds P ↔ ∀ env, (store.bindings env).All P := by
  constructor
  · intro hstore env
    rw [bindings]
    split
    · exact Bindings.all_nil
    · rename_i scope hscope
      exact hstore env scope hscope
  · intro hall env scope hscope
    have henv := hall env
    rwa [bindings, hscope] at henv

end Store

namespace Workspace

variable {P : Value → Prop} {w after : Workspace} {op : Operation} {store : Store} {env : EnvId}

theorem Changes.growsInPlace (h : w.Changes op store) : w.store.GrowsInPlace store := by
  cases h with
  | install =>
    rw [install_eq_defineAll]
    exact GrowsInPlace.isEvalRelation.defineAll _ _ _
  | define => exact .define _ _ _ _
  | defineRoot => exact .define _ _ _ _
  | setParent => exact .setParent _ _ _
  | eval _ heval => exact growsInPlace_of_eval heval

theorem Reachable.hasDistinctNames (hw : w.Reachable P) : w.store.HasDistinctNames := by
  induction hw with
  | empty =>
    intro env
    simp [names, bindings, Workspace.empty, Store.empty, Store.scope?, Bindings.names]
  | @perform w after op _ _ hperform ih =>
    have hchange : ∀ store, w.Changes op store → store.HasDistinctNames :=
      fun store hstore => ih.growsInPlace hstore.growsInPlace
    exact forall_bindings_of_perform (Q := fun bindings => bindings.names.Nodup) List.nodup_nil ih
      hchange hperform

/-- An environment that an operation does not release lives on and keeps its names. -/
theorem grows_of_perform (h : w.perform op = some after) (hlive : w.store.isLive env = true)
    (hkept : ∀ slot ∈ op.vacates, w.env? slot ≠ some env) :
    after.store.isLive env = true ∧ (w.store.bindings env).Grows (after.store.bindings env) := by
  obtain rfl | ⟨slot, scope, hslot, -, rfl⟩ | ⟨slot, hslot, rfl⟩ | ⟨store, hchange, rfl⟩ :=
    perform_cases h
  · exact ⟨hlive, .refl _⟩
  · have hold : env ≠ w.store.cells.size := Nat.ne_of_lt (lt_size_of_isLive hlive)
    rw [isLive_put, bindings_put, if_neg (hkept slot hslot), if_neg (hkept slot hslot), if_neg hold,
      hlive, Bool.or_true]
    exact ⟨rfl, .refl _⟩
  · rw [isLive_drop, bindings_drop, if_neg (hkept slot hslot), if_neg (hkept slot hslot)]
    exact ⟨hlive, .refl _⟩
  · have hgrows := hchange.growsInPlace
    exact ⟨(hgrows.isLive env).trans hlive, hgrows.bindings env⟩

theorem Changes.binds (hP : Stable P P) (hbuiltin : ∀ p, P (.ofPrimitive p))
    (hw : w.store.Binds P) (hvalues : ∀ v ∈ op.values, P v) (h : w.Changes op store) :
    store.Binds P := by
  cases h with
  | install =>
    rw [install_eq_defineAll]
    exact hw.defineAll _ (List.forall_mem_map.2 fun p _ => hbuiltin p)
  | define _ name v => exact hw.define _ name (hvalues v (.head []))
  | defineRoot _ name v => exact hw.define _ name (hvalues v (.head []))
  | setParent =>
    refine binds_iff_bindings.2 fun env => ?_
    rw [bindings_setParent]
    exact binds_iff_bindings.1 hw env
  | eval _ heval => exact (keepsStable_eval hP _ heval hw (hvalues _ (.head []))).1

/-- A stable property of the builtin functions and of all values given to operations holds of all
bound values. -/
theorem Reachable.binds (hP : Stable P P) (hbuiltin : ∀ p, P (.ofPrimitive p))
    (hw : w.Reachable P) : w.store.Binds P := by
  induction hw with
  | empty =>
    intro env scope hscope
    simp [Workspace.empty, Store.empty, Store.scope?] at hscope
  | @perform w after op _ hvalues hperform ih =>
    have hchange : ∀ store, w.Changes op store → ∀ env, (store.bindings env).All P :=
      fun store hstore => binds_iff_bindings.1 (hstore.binds hP hbuiltin ih hvalues)
    have hbindings := binds_iff_bindings.1 ih
    exact binds_iff_bindings.2
      (forall_bindings_of_perform Bindings.all_nil hbindings hchange hperform)

end Workspace

/-! ## Sessions -/

namespace Store

variable {store : Store} {env : EnvId} {name : String} {v : Value}

theorem exists_get_of_mem_names (hmem : name ∈ store.names env) :
    ∃ v, store.get env name = .ok v := by
  obtain ⟨v, hv⟩ := Option.isSome_iff_exists.1 (Bindings.isSome_find?_iff.2 hmem)
  have hlive : store.isLive env = true := by
    rw [← Bool.not_eq_false]
    intro hdead
    rw [names, bindings_eq_nil hdead] at hmem
    cases hmem
  obtain ⟨steps, hsteps⟩ := Nat.exists_eq_add_one.2 (Nat.zero_lt_of_lt (lt_size_of_isLive hlive))
  refine ⟨v, ?_⟩
  rw [get, lookup, hsteps, lookupWithin_succ, hv, Option.some_or]

theorem HasChain.mem_names_of_get (hchain : store.HasChain env [env])
    (hget : store.get env name = .ok v) : name ∈ store.names env := by
  have hparent : store.parent? env = none := hchain.parent?_getLast? rfl
  rw [get, hchain.lookup_eq, List.length_singleton, lookupWithin_succ, hparent, Option.bind_none,
    Option.or_none] at hget
  refine Bindings.isSome_find?_iff.1 ?_
  cases hfind : (store.bindings env).find? name with
  | none =>
    rw [hfind] at hget
    cases hget
  | some w => rfl

end Store

namespace Session

/-- What a session can become by answering requests and evaluating values. -/
inductive Later (session : Session) : Session → Prop
  | refl : Later session session
  | answer {mid after : Session} {depth : Nat} {request : Request} {results : List Value}
    (hmid : Later session mid) (hanswer : mid.answer depth request = some (results, after)) :
    Later session after
  | eval {mid after : Session} {depth : Nat} {v r : Value} (hmid : Later session mid)
    (heval : mid.eval depth v = some (r, after)) : Later session after

variable {depth : Nat} {session later after : Session} {v r : Value} {results : List Value}

/-- The root stays the same environment, and the store grows in place. -/
structure GrowsTo (session later : Session) : Prop where
  root : later.root = session.root
  store : session.store.GrowsInPlace later.store

namespace GrowsTo

theorem refl (session : Session) : GrowsTo session session := ⟨rfl, .refl _⟩

theorem trans {mid : Session} (h₁ : GrowsTo session mid) (h₂ : GrowsTo mid later) :
    GrowsTo session later :=
  ⟨h₂.root.trans h₁.root, h₁.store.trans h₂.store⟩

theorem eval (h : session.eval depth v = some (r, after)) : GrowsTo session after := by
  obtain ⟨heval, hroot⟩ := eval_eq_some h
  exact ⟨hroot, growsInPlace_of_eval heval⟩

theorem evalEach {vs : List Value} (h : session.evalEach depth vs = some (results, after)) :
    GrowsTo session after := by
  induction vs generalizing session results with
  | nil =>
    cases h
    exact refl _
  | cons v vs ih =>
    obtain ⟨r, mid, rest, hfirst, hothers, -⟩ := evalEach_cons_eq_some h
    exact (eval hfirst).trans (ih hothers)

theorem answer {request : Request} (h : session.answer depth request = some (results, after)) :
    GrowsTo session after := by
  rw [answer_eq] at h
  split at h
  · cases h
    exact refl _
  · exact evalEach h

end GrowsTo

theorem Later.growsTo (h : session.Later later) : session.GrowsTo later := by
  induction h with
  | refl => exact .refl _
  | answer _ hanswer ih => exact ih.trans (.answer hanswer)
  | eval _ heval ih => exact ih.trans (.eval heval)

theorem Later.hasChain_root (hroot : session.store.HasChain session.root [session.root])
    (h : session.Later later) : later.store.HasChain later.root [later.root] := by
  induction h with
  | refl => exact hroot
  | answer _ hanswer ih => exact hasChain_root_of_answer ih hanswer
  | eval _ heval ih => exact hasChain_root_of_eval ih heval

theorem bindings_eq (session : Session) :
    session.bindings = session.store.bindings session.root :=
  rfl

theorem names_new : Session.new.bindings.names = Primitive.all.map Primitive.name := rfl

theorem Later.grows_bindings (h : session.Later later) :
    session.bindings.Grows later.bindings := by
  rw [bindings_eq, bindings_eq, h.growsTo.root]
  exact h.growsTo.store.bindings session.root

end Session

/-! ## All together -/

/-- An environment lives on, and the names that it binds first are those it bound before. -/
def Store.KeepsNames (before after : Store) (env : EnvId) : Prop :=
  after.isLive env = true ∧ before.names env <+: after.names env

theorem Store.Grows.keepsNames {before after : Store} (h : before.Grows after) {env : EnvId}
    (hlive : before.isLive env = true) : before.KeepsNames after env :=
  ⟨h.isLive hlive, (h.bindings hlive).names⟩

/-- Binding lists only grow and stay free of duplicates.

* After any operations of a host, whatever values they are given, no environment binds a name twice,
  and every further operation keeps the names of every live environment that it does not release.
* If no closure among the given values carries a name twice, then the same holds at the start of
  every evaluation nested in another one, also for the environments of the calls it is nested in.
* In a session, the names of the builtin functions are the first ones bound at the root, in their
  order, and a name that is bound once stays bound, also while further values are evaluated. -/
theorem names_only_grow :
    (∀ (P : Value → Prop) (w : Workspace), w.Reachable P → w.store.HasDistinctNames ∧
      ∀ op after, w.perform op = some after → ∀ env, w.store.isLive env = true →
        (∀ slot ∈ op.vacates, w.env? slot ≠ some env) → w.store.KeepsNames after.store env) ∧
    (∀ w : Workspace, w.Reachable CarriesDistinctNames → ∀ depth env v start,
      v.CarriesDistinctNames → During depth ⟨env, v, w.store⟩ start →
        start.store.HasDistinctNames ∧
        ∀ e, w.store.isLive e = true → w.store.KeepsNames start.store e) ∧
    ∀ session, Session.new.Later session →
      session.bindings.names.Nodup ∧
      Primitive.all.map Primitive.name <+: session.bindings.names ∧
      ∀ name v, session.get name = .ok v → ∀ later, session.Later later →
        (∃ w, later.get name = .ok w) ∧
        ∀ depth u start, During depth ⟨later.root, u, later.store⟩ start →
          ∃ w, start.store.get later.root name = .ok w := by
  refine ⟨fun P w hw => ⟨hw.hasDistinctNames, ?_⟩, ?_, ?_⟩
  · intro op after hperform env hlive hkept
    obtain ⟨hlives, hgrows⟩ := Workspace.grows_of_perform hperform hlive hkept
    exact ⟨hlives, hgrows.names⟩
  · intro w hw depth env v start hv hduring
    have hbinds := hw.binds stable_carriesDistinctNames fun p => by
      simp [CarriesDistinctNames, ofPrimitive, carried, Bindings.names]
    have hstart := Evaluation.HasDistinctNames.during ⟨hw.hasDistinctNames, hbinds, hv⟩ hduring
    exact ⟨hstart.1, fun e hlive => (grows_during hduring).keepsNames hlive⟩
  · intro session hsession
    have hgrows := hsession.grows_bindings
    have hroot := hsession.hasChain_root Session.Reachable.new.hasChain_root
    refine ⟨hgrows.nodup (by rw [Session.names_new]; decide), hgrows.names, ?_⟩
    intro name v hget later hlater
    -- nothing is nested around the root, so the name is bound at the root itself
    have hmem : name ∈ later.store.names later.root :=
      hlater.grows_bindings.names.subset (hroot.mem_names_of_get hget)
    refine ⟨exists_get_of_mem_names hmem, fun depth u start hduring => ?_⟩
    have hlive := (hlater.hasChain_root hroot).isLive
    have hkeeps := (grows_during hduring).keepsNames hlive
    exact exists_get_of_mem_names (hkeeps.2.subset hmem)

/-- A closure that carries `x` and binds `y` twice is called from an environment that binds `x`; and
no session ever loses `def`. -/
theorem names_only_grow_during_call :
    let f := Value.closure ["y", "y"] [.symbol "y"] [("x", .number 7)] none
    let v := Value.sexpr [f, .number 1, .number 2]
    (∃ (w : Workspace) (start : Evaluation), w.Reachable CarriesDistinctNames ∧
      w.store.names 0 = ["x"] ∧ During 2 ⟨0, v, w.store⟩ start ∧
      start.store.names start.env = ["x", "y"] ∧
      start.store.HasDistinctNames ∧ w.store.KeepsNames start.store 0) ∧
    ∀ later, Session.new.Later later → ∃ u, later.get "def" = .ok u := by
  intro f v
  let w : Workspace := (Workspace.empty.create "a").define "a" "x" (.number 1)
  have hnumber : ∀ n, (number n).CarriesDistinctNames := stable_carriesDistinctNames.number
  have hw : w.Reachable CarriesDistinctNames := by
    have hcreate : Workspace.empty.perform (.create "a") = some _ := rfl
    have hdefine : (Workspace.empty.create "a").perform (.define "a" "x" (.number 1)) = some w :=
      rfl
    have hvalues : ∀ v ∈ [number 1], v.CarriesDistinctNames :=
      List.forall_mem_singleton.2 (hnumber 1)
    refine .perform (.perform .empty ?_ hcreate) ?_ hdefine
    · exact List.forall_mem_nil _
    · exact hvalues
  have hv : v.CarriesDistinctNames := by
    simp [v, f, CarriesDistinctNames, carried, Bindings.names]
  have hitems : evalItems (eval 1) 0 [f, .number 1, .number 2] w.store =
      some (.ok [f, .number 1, .number 2], w.store) := rfl
  have hduring : During 2 ⟨0, v, w.store⟩ _ :=
    .inside (.body hitems (List.cons_ne_nil _ _) rfl) (.self 1 _)
  obtain ⟨hdistinct, hkeeps⟩ := names_only_grow.2.1 w hw 2 0 v _ hv hduring
  obtain ⟨-, -, hbound⟩ := names_only_grow.2.2 .new .refl
  have hlater := fun later hlater => (hbound "def" _ rfl later hlater).1
  exact ⟨⟨w, _, hw, rfl, hduring, rfl, hdistinct, hkeeps 0 rfl⟩, hlater⟩

end QuoteLisp
