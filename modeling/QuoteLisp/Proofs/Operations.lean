import QuoteLisp.Proofs.Resolution
import QuoteLisp.Workspace

/-!
# Operations of a host

What a host program can do with its named environments, as data: `Workspace.perform` runs one
`Operation`, and a workspace is reachable if operations lead to it from the empty one. An operation
either puts a new environment into a slot, which releases the one that was there, or empties a slot,
or changes the store in place (`perform_cases`).
-/

namespace QuoteLisp

namespace Workspace

inductive Operation where
  | create (slot : String)
  | createChild (slot parent : String)
  | createCopy (slot source : String)
  | drop (slot : String)
  | install (slot : String)
  | define (slot name : String) (v : Value)
  | defineRoot (slot name : String) (v : Value)
  | setParent (slot parent : String)
  | eval (depth : Nat) (slot : String) (v : Value)

namespace Operation

/-- The slot whose environment an operation releases, if there is one in it. -/
def vacates : Operation → Option String
  | create slot => some slot
  | createChild slot _ => some slot
  | createCopy slot _ => some slot
  | drop slot => some slot
  | _ => none

/-- The values that an operation is given. -/
def values : Operation → List Value
  | define _ _ v => [v]
  | defineRoot _ _ v => [v]
  | eval _ _ v => [v]
  | _ => []

end Operation

/-- The workspace after an operation, unless that is an evaluation which does not finish within its
bound or has no environment to run in. -/
def perform (w : Workspace) : Operation → Option Workspace
  | .create slot => some (w.create slot)
  | .createChild slot parent => some (w.createChild slot parent)
  | .createCopy slot source => some (w.createCopy slot source)
  | .drop slot => some (w.drop slot)
  | .install slot => some (w.install slot)
  | .define slot name v => some (w.define slot name v)
  | .defineRoot slot name v => some (w.defineRoot slot name v)
  | .setParent slot parent => some (w.setParent slot parent)
  | .eval depth slot v => (w.eval depth slot v).map Prod.snd

/-- The workspaces that the empty one can become by operations on values with a property. -/
inductive Reachable (P : Value → Prop) : Workspace → Prop
  | empty : Reachable P .empty
  | perform {w after : Workspace} {op : Operation} (hw : Reachable P w)
    (hvalues : ∀ v ∈ op.values, P v) (hperform : w.perform op = some after) : Reachable P after

/-! ## What an operation does -/

/-- The contents of a new environment: nothing, nothing within another environment, or a copy. -/
inductive Offers (w : Workspace) : Operation → Scope → Prop
  | empty (slot : String) : Offers w (.create slot) .empty
  | child {slot parent : String} {env : EnvId} (henv : w.env? parent = some env) :
    Offers w (.createChild slot parent) (.within env)
  | copy {slot source : String} {scope : Scope} (hscope : w.scope? source = some scope) :
    Offers w (.createCopy slot source) scope

/-- The store after an operation that leaves all slots as they are. -/
inductive Changes (w : Workspace) : Operation → Store → Prop
  | install {slot : String} {env : EnvId} (henv : w.env? slot = some env) :
    Changes w (.install slot) (w.store.install env)
  | define {slot : String} {env : EnvId} (henv : w.env? slot = some env) (name : String)
    (v : Value) : Changes w (.define slot name v) (w.store.define env name v)
  | defineRoot {slot : String} {env : EnvId} (henv : w.env? slot = some env) (name : String)
    (v : Value) : Changes w (.defineRoot slot name v) (w.store.defineRoot env name v)
  | setParent {slot parent : String} {env target : EnvId} (henv : w.env? slot = some env)
    (htarget : w.env? parent = some target) :
    Changes w (.setParent slot parent) (w.store.setParent env target)
  | eval {depth : Nat} {slot : String} {env : EnvId} {v r : Value} {store : Store}
    (henv : w.env? slot = some env)
    (heval : QuoteLisp.eval depth env v w.store = some (r, store)) :
    Changes w (.eval depth slot v) store

variable {w after : Workspace} {op : Operation}

theorem onStore_cases (w : Workspace) (slot : String) (change : Store → EnvId → Store) :
    w.onStore slot change = w ∨
      ∃ env, w.env? slot = some env ∧
        w.onStore slot change = { w with store := change w.store env } := by
  rw [onStore]
  cases w.env? slot with
  | none => exact .inl rfl
  | some env => exact .inr ⟨env, rfl, rfl⟩

theorem eval_eq_some {depth : Nat} {slot : String} {v r : Value}
    (h : w.eval depth slot v = some (r, after)) :
    ∃ env store, w.env? slot = some env ∧
      QuoteLisp.eval depth env v w.store = some (r, store) ∧ after = { w with store } := by
  obtain ⟨env, henv, h⟩ := Option.bind_eq_some_iff.1 h
  obtain ⟨⟨result, store⟩, heval, h⟩ := Option.bind_eq_some_iff.1 h
  cases h
  exact ⟨env, store, henv, heval, rfl⟩

/-- An operation does nothing, fills a slot, empties one, or changes the store in place. -/
theorem perform_cases (h : w.perform op = some after) :
    after = w ∨
      (∃ slot scope, op.vacates = some slot ∧ w.Offers op scope ∧ after = w.put slot scope) ∨
      (∃ slot, op.vacates = some slot ∧ after = w.drop slot) ∨
      ∃ store, w.Changes op store ∧ after = { w with store } := by
  cases op with
  | create slot =>
    cases h
    exact .inr (.inl ⟨slot, _, rfl, .empty slot, rfl⟩)
  | createChild slot parent =>
    cases h
    rw [createChild]
    cases hparent : w.env? parent with
    | none => exact .inl rfl
    | some env => exact .inr (.inl ⟨slot, _, rfl, .child hparent, rfl⟩)
  | createCopy slot source =>
    cases h
    rw [createCopy]
    cases hsource : w.scope? source with
    | none => exact .inl rfl
    | some scope => exact .inr (.inl ⟨slot, _, rfl, .copy hsource, rfl⟩)
  | drop slot =>
    cases h
    exact .inr (.inr (.inl ⟨slot, rfl, rfl⟩))
  | install slot =>
    cases h
    obtain hsame | ⟨env, henv, hchange⟩ := onStore_cases w slot Store.install
    · exact .inl hsame
    · exact .inr (.inr (.inr ⟨_, .install henv, hchange⟩))
  | define slot name v =>
    cases h
    obtain hsame | ⟨env, henv, hchange⟩ :=
      onStore_cases w slot fun store env => store.define env name v
    · exact .inl hsame
    · exact .inr (.inr (.inr ⟨_, .define henv name v, hchange⟩))
  | defineRoot slot name v =>
    cases h
    obtain hsame | ⟨env, henv, hchange⟩ :=
      onStore_cases w slot fun store env => store.defineRoot env name v
    · exact .inl hsame
    · exact .inr (.inr (.inr ⟨_, .defineRoot henv name v, hchange⟩))
  | setParent slot parent =>
    cases h
    rw [setParent]
    cases hparent : w.env? parent with
    | none => exact .inl rfl
    | some target =>
      obtain hsame | ⟨env, henv, hchange⟩ :=
        onStore_cases w slot fun store env => store.setParent env target
      · exact .inl hsame
      · exact .inr (.inr (.inr ⟨_, .setParent henv hparent, hchange⟩))
  | eval depth slot v =>
    obtain ⟨⟨r, _⟩, hresult, rfl⟩ := Option.map_eq_some_iff.1 h
    obtain ⟨env, store, henv, heval, rfl⟩ := eval_eq_some hresult
    exact .inr (.inr (.inr ⟨store, .eval henv heval, rfl⟩))

/-! ## Slots that are emptied and filled -/

theorem lookup_filter_bne (slots : List (String × EnvId)) (slot other : String) :
    (slots.filter (·.1 != slot)).lookup other =
      if other = slot then none else slots.lookup other := by
  induction slots with
  | nil => simp
  | cons entry slots ih =>
    obtain ⟨name, env⟩ := entry
    rw [List.filter_cons, List.lookup_cons]
    by_cases hname : name = slot
    · subst hname
      rw [if_neg (by simp), ih]
      by_cases hother : other = name
      · rw [if_pos hother, if_pos hother]
      · rw [if_neg hother, if_neg hother, beq_eq_false_iff_ne.2 hother]
    · rw [if_pos (by simp [hname]), List.lookup_cons, ih]
      by_cases hother : other = name
      · simp [hother, hname]
      · rw [beq_eq_false_iff_ne.2 hother]

theorem env?_drop (w : Workspace) (slot other : String) :
    (w.drop slot).env? other = if other = slot then none else w.env? other := by
  rw [drop]
  cases hslot : w.env? slot with
  | some env => exact lookup_filter_bne w.slots slot other
  | none =>
    by_cases hother : other = slot
    · rw [if_pos hother, hother, hslot]
    · rw [if_neg hother]

/-- The new environment has the next identity, whatever was in the slot. -/
theorem env?_put (w : Workspace) (slot : String) (scope : Scope) (other : String) :
    (w.put slot scope).env? other =
      if other = slot then some w.store.cells.size else w.env? other := by
  have hothers := env?_drop ⟨(w.store.alloc scope).2, w.slots⟩ slot other
  simp only [put, env?, List.lookup_cons] at hothers ⊢
  by_cases hother : other = slot
  · rw [if_pos hother, beq_iff_eq.2 hother]
    rfl
  · rw [if_neg hother, beq_eq_false_iff_ne.2 hother]
    rw [if_neg hother] at hothers
    exact hothers

@[simp] theorem size_drop (w : Workspace) (slot : String) :
    (w.drop slot).store.cells.size = w.store.cells.size := by
  rw [drop]
  cases w.env? slot with
  | none => rfl
  | some env => exact Store.size_release w.store env

@[simp] theorem size_put (w : Workspace) (slot : String) (scope : Scope) :
    (w.put slot scope).store.cells.size = w.store.cells.size + 1 :=
  (size_drop ⟨(w.store.alloc scope).2, w.slots⟩ slot).trans (Store.size_alloc w.store scope)

theorem bindings_drop (w : Workspace) (slot : String) (env : EnvId) :
    (w.drop slot).store.bindings env =
      if w.env? slot = some env then [] else w.store.bindings env := by
  rw [drop]
  cases w.env? slot with
  | none => rfl
  | some occupant => simp only [Store.bindings_release, Option.some.injEq, eq_comm]

theorem isLive_drop (w : Workspace) (slot : String) (env : EnvId) :
    (w.drop slot).store.isLive env =
      if w.env? slot = some env then false else w.store.isLive env := by
  rw [drop]
  cases w.env? slot with
  | none => rfl
  | some occupant =>
    simp only [Store.isLive_release, Option.some.injEq]
    by_cases henv : env = occupant
    · simp [henv]
    · simp [henv, Ne.symm henv]

theorem link?_drop (w : Workspace) (slot : String) (env : EnvId) :
    (w.drop slot).store.link? env =
      if w.env? slot = some env then none else w.store.link? env := by
  rw [drop]
  cases w.env? slot with
  | none => rfl
  | some occupant => simp only [Store.link?_release, Option.some.injEq, eq_comm]

theorem bindings_put (w : Workspace) (slot : String) (scope : Scope) (env : EnvId) :
    (w.put slot scope).store.bindings env =
      if w.env? slot = some env then []
      else if env = w.store.cells.size then scope.bindings else w.store.bindings env := by
  rw [← Store.bindings_alloc]
  exact bindings_drop ⟨(w.store.alloc scope).2, w.slots⟩ slot env

theorem isLive_put (w : Workspace) (slot : String) (scope : Scope) (env : EnvId) :
    (w.put slot scope).store.isLive env =
      if w.env? slot = some env then false
      else env == w.store.cells.size || w.store.isLive env := by
  rw [← Store.isLive_alloc]
  exact isLive_drop ⟨(w.store.alloc scope).2, w.slots⟩ slot env

theorem link?_put (w : Workspace) (slot : String) (scope : Scope) (env : EnvId) :
    (w.put slot scope).store.link? env =
      if w.env? slot = some env then none else (w.store.alloc scope).2.link? env :=
  link?_drop ⟨(w.store.alloc scope).2, w.slots⟩ slot env

theorem Offers.bindings_eq {scope : Scope} (h : w.Offers op scope) :
    scope.bindings = [] ∨ ∃ env, scope.bindings = w.store.bindings env := by
  cases h with
  | empty => exact .inl rfl
  | child => exact .inl rfl
  | copy hscope =>
    obtain ⟨env, -, hscope⟩ := Option.bind_eq_some_iff.1 hscope
    exact .inr ⟨env, by rw [Store.bindings, hscope]⟩

/-- A property of bindings, empty ones included, holds after an operation if it held before and a
change of the store in place keeps it. -/
theorem forall_bindings_of_perform {Q : Bindings → Prop} (hnil : Q [])
    (hw : ∀ env, Q (w.store.bindings env))
    (hchange : ∀ store, w.Changes op store → ∀ env, Q (store.bindings env))
    (h : w.perform op = some after) : ∀ env, Q (after.store.bindings env) := by
  obtain rfl | ⟨slot, scope, -, hscope, rfl⟩ | ⟨slot, -, rfl⟩ | ⟨store, hstore, rfl⟩ :=
    perform_cases h
  · exact hw
  · have hnew : Q scope.bindings := by
      obtain hempty | ⟨env, hcopy⟩ := hscope.bindings_eq
      · rw [hempty]
        exact hnil
      · rw [hcopy]
        exact hw env
    intro env
    rw [bindings_put]
    split
    · exact hnil
    · split
      · exact hnew
      · exact hw env
  · intro env
    rw [bindings_drop]
    split
    · exact hnil
    · exact hw env
  · exact hchange store hstore

end Workspace

end QuoteLisp
