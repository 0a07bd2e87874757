import QuoteLisp.Eval

/-!
# Bound values

`Store.Binds P` says that every value bound in a live environment has the property `P`. The
operations on stores keep it as long as they bind values with the property.
-/

namespace QuoteLisp

variable {P : Value → Prop}

namespace Bindings

/-- Every value has the property. -/
def All (P : Value → Prop) (bindings : Bindings) : Prop := ∀ binding ∈ bindings, P binding.2

theorem all_nil : All P [] := by
  intro binding hmem
  cases hmem

theorem all_cons {name : String} {v : Value} {bindings : Bindings} :
    All P ((name, v) :: bindings) ↔ P v ∧ All P bindings := by
  simp [All]

theorem All.find? {bindings : Bindings} (hall : bindings.All P) {name : String} {v : Value}
    (hfind : bindings.find? name = some v) : P v := by
  induction bindings with
  | nil => cases hfind
  | cons binding bindings ih =>
    obtain ⟨other, w⟩ := binding
    obtain ⟨hfirst, hrest⟩ := all_cons.1 hall
    rw [Bindings.find?] at hfind
    split at hfind
    · cases hfind
      exact hfirst
    · exact ih hrest hfind

theorem All.set {bindings : Bindings} (hall : bindings.All P) (name : String) {v : Value}
    (hv : P v) : (bindings.set name v).All P := by
  induction bindings with
  | nil => exact all_cons.2 ⟨hv, all_nil⟩
  | cons binding bindings ih =>
    obtain ⟨other, w⟩ := binding
    obtain ⟨hfirst, hrest⟩ := all_cons.1 hall
    rw [Bindings.set]
    split
    · exact all_cons.2 ⟨hv, hrest⟩
    · exact all_cons.2 ⟨hfirst, ih hrest⟩

theorem All.setAll {bindings added : Bindings} (hall : bindings.All P) (hadded : added.All P) :
    (bindings.setAll added).All P := by
  induction added generalizing bindings with
  | nil => exact hall
  | cons binding added ih =>
    obtain ⟨name, v⟩ := binding
    obtain ⟨hv, hadded⟩ := all_cons.1 hadded
    exact ih (hall.set name hv) hadded

theorem all_zip {values : List Value} (names : List String) (hvalues : ∀ v ∈ values, P v) :
    All P (names.zip values) := by
  intro binding hmem
  exact hvalues binding.2 (List.of_mem_zip hmem).2

end Bindings

namespace Store

def Binds (P : Value → Prop) (store : Store) : Prop :=
  ∀ env scope, store.scope? env = some scope → scope.bindings.All P

namespace Binds

variable {store : Store}

theorem lookupWithin (hstore : store.Binds P) {name : String} {v : Value} :
    ∀ (steps : Nat) (env : EnvId), store.lookupWithin name steps env = some v → P v
  | 0, _, h => by cases h
  | steps + 1, env, h => by
    rw [Store.lookupWithin] at h
    split at h
    · cases h
    · rename_i scope hscope
      split at h
      · rename_i w hfind
        cases h
        exact (hstore env scope hscope).find? hfind
      · split at h
        · cases h
        · exact hstore.lookupWithin steps _ h

theorem lookup (hstore : store.Binds P) {env : EnvId} {name : String} {v : Value}
    (h : store.lookup env name = some v) : P v :=
  hstore.lookupWithin _ _ h

theorem alloc (hstore : store.Binds P) {scope : Scope} (hscope : scope.bindings.All P) :
    (store.alloc scope).2.Binds P := by
  intro env other hother
  rw [scope?_alloc] at hother
  split at hother
  · cases hother
    exact hscope
  · exact hstore env other hother

theorem release (hstore : store.Binds P) (env : EnvId) : (store.release env).Binds P := by
  intro other scope hscope
  rw [scope?_release] at hscope
  split at hscope
  · cases hscope
  · exact hstore other scope hscope

theorem define (hstore : store.Binds P) (env : EnvId) (name : String) {v : Value} (hv : P v) :
    (store.define env name v).Binds P := by
  intro other scope hscope
  rw [scope?_define] at hscope
  split at hscope
  · obtain ⟨old, hold, rfl⟩ := Option.map_eq_some_iff.1 hscope
    exact (hstore other old hold).set name hv
  · exact hstore other scope hscope

theorem defineAll (hstore : store.Binds P) (env : EnvId) {bindings : Bindings}
    (hbindings : bindings.All P) : (store.defineAll env bindings).Binds P := by
  induction bindings generalizing store with
  | nil => exact hstore
  | cons binding bindings ih =>
    obtain ⟨hv, hrest⟩ := Bindings.all_cons.1 hbindings
    exact ih (hstore.define env binding.1 hv) hrest

theorem defineAllRoot (hstore : store.Binds P) (env : EnvId) {bindings : Bindings}
    (hbindings : bindings.All P) : (store.defineAllRoot env bindings).Binds P := by
  induction bindings generalizing store with
  | nil => exact hstore
  | cons binding bindings ih =>
    obtain ⟨hv, hrest⟩ := Bindings.all_cons.1 hbindings
    exact ih (hstore.define (store.root env) binding.1 hv) hrest

theorem mono {Q : Value → Prop} (hstore : store.Binds P) (h : ∀ v, P v → Q v) : store.Binds Q :=
  fun env scope hscope binding hmem => h binding.2 (hstore env scope hscope binding hmem)

end Binds

end Store

end QuoteLisp
