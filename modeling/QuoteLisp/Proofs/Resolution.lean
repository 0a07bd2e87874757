import QuoteLisp.Eval
import QuoteLisp.Proofs.Chain

/-!
# Environments by their bindings and links

An environment is decided by its link and its bindings, and what evaluation asks of a store comes
down to them: names are searched in the bindings along live links. For each operation on stores
there is one equation that says what becomes of bindings, of links, and of live links.
-/

namespace QuoteLisp.Store

variable {store : Store} {env : EnvId} {chain : List EnvId}

/-- The bindings of an environment, none if it does not live. -/
def bindings (store : Store) (env : EnvId) : Bindings :=
  match store.scope? env with
  | none => []
  | some scope => scope.bindings

theorem bindings_eq_nil (hlive : store.isLive env = false) : store.bindings env = [] := by
  have hnone : store.scope? env = none := by simpa [isLive] using hlive
  rw [bindings, hnone]

theorem scope?_eq_map_link? (store : Store) (env : EnvId) :
    store.scope? env = (store.link? env).map fun link => ⟨store.bindings env, link⟩ := by
  rw [link?, bindings]
  cases store.scope? env <;> rfl

theorem parent?_eq_none (hlive : store.isLive env = false) : store.parent? env = none := by
  cases hparent : store.parent? env with
  | none => rfl
  | some parent =>
    rw [isLive_of_parent? hparent] at hlive
    cases hlive

theorem isLive_congr {after : Store} (hlink : after.link? env = store.link? env) :
    after.isLive env = store.isLive env := by
  rw [isLive_eq_isSome_link?, isLive_eq_isSome_link?, hlink]

theorem isLive_of_size_le (hsize : store.cells.size ≤ env) : store.isLive env = false := by
  rw [← Bool.not_eq_true]
  intro hlive
  exact Nat.not_lt.2 hsize (lt_size_of_isLive hlive)

theorem eq_of_scope? {other : Store} (hsize : other.cells.size = store.cells.size)
    (hscope : ∀ e, other.scope? e = store.scope? e) : other = store := by
  have hcells : other.cells = store.cells := by
    apply Array.ext hsize
    intro e he he'
    have hsame := hscope e
    simpa [scope?, he, he'] using hsame
  cases other
  cases store
  cases hcells
  rfl

/-- Stores of one size are equal if their environments have the same links and bindings. -/
theorem eq_of_link?_of_bindings {other : Store} (hsize : other.cells.size = store.cells.size)
    (hlink : ∀ e, other.link? e = store.link? e)
    (hbindings : ∀ e, other.bindings e = store.bindings e) : other = store := by
  refine eq_of_scope? hsize fun e => ?_
  rw [scope?_eq_map_link?, scope?_eq_map_link?, hlink, hbindings]

/-! ## Definitions -/

@[simp] theorem size_define (store : Store) (changed : EnvId) (name : String) (v : Value) :
    (store.define changed name v).cells.size = store.cells.size :=
  Array.size_modify ..

theorem link?_define (store : Store) (changed env : EnvId) (name : String) (v : Value) :
    (store.define changed name v).link? env = store.link? env := by
  rw [link?, link?, scope?_define]
  split
  · cases store.scope? env <;> rfl
  · rfl

theorem isLive_define (store : Store) (changed env : EnvId) (name : String) (v : Value) :
    (store.define changed name v).isLive env = store.isLive env :=
  isLive_congr (link?_define store changed env name v)

theorem parent?_define (store : Store) (changed env : EnvId) (name : String) (v : Value) :
    (store.define changed name v).parent? env = store.parent? env :=
  parent?_congr (fun e => link?_define store changed e name v) env

theorem bindings_define (store : Store) (changed env : EnvId) (name : String) (v : Value) :
    (store.define changed name v).bindings env =
      if env = changed ∧ store.isLive env = true then (store.bindings env).set name v
      else store.bindings env := by
  rw [bindings, bindings, scope?_define, isLive]
  by_cases hchanged : env = changed
  · cases hscope : store.scope? env <;> simp [hchanged]
  · simp [hchanged]

theorem link?_defineAll (store : Store) (changed : EnvId) (added : List (String × Value))
    (env : EnvId) : (store.defineAll changed added).link? env = store.link? env := by
  induction added generalizing store with
  | nil => rfl
  | cons binding added ih => exact (ih _).trans (link?_define ..)

theorem link?_defineAllRoot (store : Store) (changed : EnvId) (added : List (String × Value))
    (env : EnvId) : (store.defineAllRoot changed added).link? env = store.link? env := by
  induction added generalizing store with
  | nil => rfl
  | cons binding added ih => exact (ih _).trans (link?_define ..)

theorem bindings_defineAll (hlive : store.isLive env = true) (added : List (String × Value)) :
    (store.defineAll env added).bindings env = (store.bindings env).setAll added := by
  induction added generalizing store with
  | nil => rfl
  | cons binding added ih =>
    have hnext : (store.define env binding.1 binding.2).isLive env = true := by
      rw [isLive_define, hlive]
    rw [defineAll, ih hnext, bindings_define, if_pos ⟨rfl, hlive⟩]
    rfl

theorem install_eq_defineAll (store : Store) (env : EnvId) :
    store.install env = store.defineAll env Scope.builtins := by
  rw [install]
  induction Scope.builtins generalizing store with
  | nil => rfl
  | cons binding bindings ih => exact ih _

/-! ## Links that are set -/

@[simp] theorem size_setParent (store : Store) (changed parent : EnvId) :
    (store.setParent changed parent).cells.size = store.cells.size :=
  Array.size_modify ..

theorem bindings_setParent (store : Store) (changed parent env : EnvId) :
    (store.setParent changed parent).bindings env = store.bindings env := by
  rw [bindings, setParent, scope?_update, bindings]
  by_cases hchanged : env = changed
  · rw [if_pos hchanged]
    cases store.scope? env <;> rfl
  · rw [if_neg hchanged]

theorem isLive_setParent (store : Store) (changed parent env : EnvId) :
    (store.setParent changed parent).isLive env = store.isLive env := by
  rw [isLive, setParent, scope?_update, isLive]
  by_cases hchanged : env = changed
  · rw [if_pos hchanged, Option.isSome_map]
  · rw [if_neg hchanged]

theorem link?_setParent_of_ne {changed : EnvId} (parent : EnvId) (hne : env ≠ changed) :
    (store.setParent changed parent).link? env = store.link? env := by
  rw [link?, link?, setParent, scope?_update, if_neg hne]

theorem link?_setParent_self {parent : EnvId} (hlive : store.isLive env = true)
    (hparent : parent < store.cells.size) :
    (store.setParent env parent).link? env = some (some parent) := by
  obtain ⟨scope, hscope⟩ := Option.isSome_iff_exists.1 hlive
  have hmade : (scope.setParent parent).cutLink store.cells.size = scope.setParent parent :=
    Scope.cutLink_eq_self (by simpa using hparent)
  rw [link?, setParent, scope?_update, if_pos rfl, hscope, Option.map_some, hmade]
  rfl

/-! ## New environments -/

@[simp] theorem size_alloc (store : Store) (scope : Scope) :
    (store.alloc scope).2.cells.size = store.cells.size + 1 :=
  Array.size_push ..

theorem bindings_alloc (store : Store) (scope : Scope) (env : EnvId) :
    (store.alloc scope).2.bindings env =
      if env = store.cells.size then scope.bindings else store.bindings env := by
  rw [bindings, scope?_alloc]
  by_cases hnew : env = store.cells.size
  · rw [if_pos hnew, if_pos hnew]
    rfl
  · rw [if_neg hnew, if_neg hnew, bindings]

theorem link?_alloc_of_ne {scope : Scope} (hne : env ≠ store.cells.size) :
    (store.alloc scope).2.link? env = store.link? env := by
  rw [link?, link?, scope?_alloc, if_neg hne]

theorem link?_alloc_self {scope : Scope}
    (hmade : ∀ parent ∈ scope.parent, parent < store.cells.size) :
    (store.alloc scope).2.link? store.cells.size = some scope.parent := by
  rw [link?, scope?_alloc_self, Scope.cutLink_eq_self hmade]
  rfl

theorem isLive_alloc (store : Store) (scope : Scope) (env : EnvId) :
    (store.alloc scope).2.isLive env = (env == store.cells.size || store.isLive env) := by
  rw [isLive, isLive, scope?_alloc]
  by_cases hnew : env = store.cells.size <;> simp [hnew]

/-- The link of a new environment is alive if it leads to a live one. -/
theorem parent?_alloc (store : Store) (scope : Scope) (env : EnvId) :
    (store.alloc scope).2.parent? env =
      if env = store.cells.size then scope.parent.filter store.isLive else store.parent? env := by
  split
  · rename_i hnew
    subst hnew
    rw [parent?, scope?_alloc_self, Option.bind_some, Scope.cutLink_parent]
    cases scope.parent with
    | none => rfl
    | some parent =>
      by_cases hlt : parent < store.cells.size
      · have hlive : (store.alloc scope).2.isLive parent = store.isLive parent := by
          rw [isLive, isLive, scope?_alloc_of_lt scope hlt]
        simp [Option.filter, hlt, hlive]
      · have hdead : store.isLive parent = false := isLive_of_size_le (Nat.le_of_not_lt hlt)
        simp [Option.filter, hlt, hdead]
  · rename_i hne
    by_cases hlt : env < store.cells.size
    · exact parent?_alloc_of_lt scope hlt
    · have hdead : store.isLive env = false := isLive_of_size_le (Nat.le_of_not_lt hlt)
      rw [parent?_eq_none hdead, parent?_eq_none]
      rw [isLive, scope?_alloc, if_neg hne]
      exact hdead

/-! ## Released environments -/

@[simp] theorem size_release (store : Store) (released : EnvId) :
    (store.release released).cells.size = store.cells.size :=
  Array.size_setIfInBounds ..

theorem bindings_release (store : Store) (released env : EnvId) :
    (store.release released).bindings env =
      if env = released then [] else store.bindings env := by
  rw [bindings, scope?_release]
  by_cases hreleased : env = released
  · rw [if_pos hreleased, if_pos hreleased]
  · rw [if_neg hreleased, if_neg hreleased, bindings]

theorem link?_release (store : Store) (released env : EnvId) :
    (store.release released).link? env =
      if env = released then none else store.link? env := by
  rw [link?, link?, scope?_release]
  split <;> rfl

theorem isLive_release (store : Store) (released env : EnvId) :
    (store.release released).isLive env = (env != released && store.isLive env) := by
  rw [isLive, isLive, scope?_release]
  by_cases hreleased : env = released <;> simp [hreleased]

theorem parent?_release (store : Store) (released env : EnvId) :
    (store.release released).parent? env =
      if env = released then none else (store.parent? env).filter (· != released) := by
  rw [parent?, parent?, scope?_release]
  split
  · rfl
  · cases store.scope? env with
    | none => rfl
    | some scope =>
      rw [Option.bind_some, Option.bind_some, Option.filter_filter]
      congr 1
      funext parent
      rw [isLive_release, Bool.and_comm]

/-- An environment that is made and released again leaves all links as they were. -/
theorem link?_release_alloc {after : Store} {scope : Scope}
    (hlink : ∀ e, after.link? e = (store.alloc scope).2.link? e) (env : EnvId) :
    (after.release store.cells.size).link? env = store.link? env := by
  rw [link?_release]
  split
  · rename_i hnew
    rw [hnew, link?, scope?_size]
    rfl
  · rename_i hne
    rw [hlink, link?_alloc_of_ne hne]

/-! ## Names along the chain -/

/-- The nearest bindings come first, then those behind the live link. -/
theorem lookupWithin_succ (store : Store) (name : String) (steps : Nat) (env : EnvId) :
    store.lookupWithin name (steps + 1) env =
      ((store.bindings env).find? name).or
        ((store.parent? env).bind (store.lookupWithin name steps)) := by
  rw [lookupWithin, bindings, parent?]
  cases hscope : store.scope? env with
  | none => rfl
  | some scope =>
    simp only [Option.bind_some]
    cases scope.bindings.find? name with
    | some v => rfl
    | none =>
      cases scope.parent with
      | none => rfl
      | some parent =>
        simp only [Option.none_or, Option.filter]
        cases hlive : store.isLive parent with
        | true => rfl
        | false =>
          -- a dead link leads to no bindings, however far the search may go
          have hnone : store.scope? parent = none := by simpa [isLive] using hlive
          cases steps with
          | zero => rfl
          | succ steps => simp [lookupWithin, hnone]

/-- A search that may go as far as the chain goes finds all there is. -/
theorem HasChain.lookupWithin_eq (hchain : store.HasChain env chain) (name : String) :
    ∀ steps, chain.length ≤ steps →
      store.lookupWithin name steps env = store.lookupWithin name chain.length env := by
  induction hchain with
  | root _ hparent =>
    intro steps hsteps
    obtain ⟨steps, rfl⟩ : ∃ k, steps = k + 1 := ⟨steps - 1, by simp at hsteps; omega⟩
    rw [List.length_singleton, lookupWithin_succ, lookupWithin_succ, hparent]
    rfl
  | nested hparent _ ih =>
    intro steps hsteps
    rw [List.length_cons] at hsteps
    obtain ⟨steps, rfl⟩ : ∃ k, steps = k + 1 := ⟨steps - 1, by omega⟩
    rw [List.length_cons, lookupWithin_succ, lookupWithin_succ, hparent, Option.bind_some,
      Option.bind_some, ih steps (by omega)]

theorem HasChain.lookup_eq (hchain : store.HasChain env chain) (name : String) :
    store.lookup env name = store.lookupWithin name chain.length env :=
  hchain.lookupWithin_eq name _ hchain.length_le_size

theorem HasChain.root_eq (hchain : store.HasChain env chain) :
    store.root env = store.rootWithin chain.length env := by
  have hlast := hchain.getLast?_eq_rootWithin chain.length (Nat.le_succ _)
  rw [hchain.getLast?_eq_root] at hlast
  exact Option.some.inj hlast

end QuoteLisp.Store
