import QuoteLisp.Scope

/-!
# The store of environments

A `Store` holds every environment that was ever made, each under its own identity; those that have
been released are empty cells, and their identity is never given away again. So a link to a released
environment stays dead for good, and whether a link is alive is a question to the store alone. No
link leads to an environment that is yet to be made: such a link is cut when it is stored.

Names are resolved along the chain of live links, nearest environment first.
-/

namespace QuoteLisp

structure Store where
  cells : Array (Option Scope)
  /-- A link leads to an environment that has been made. -/
  made : ∀ (env : EnvId) (scope : Scope), cells[env]? = some (some scope) →
    ∀ parent ∈ scope.parent, parent < cells.size

namespace Store

def empty : Store := ⟨#[], by simp⟩

/-- The scope of a live environment. -/
def scope? (store : Store) (env : EnvId) : Option Scope := store.cells[env]?.join

def isLive (store : Store) (env : EnvId) : Bool := (store.scope? env).isSome

theorem scope?_eq_some_iff {store : Store} {env : EnvId} {scope : Scope} :
    store.scope? env = some scope ↔ store.cells[env]? = some (some scope) := by
  rw [scope?, Option.join_eq_some_iff]

theorem lt_size_of_scope? {store : Store} {env : EnvId} {scope : Scope}
    (hscope : store.scope? env = some scope) : env < store.cells.size :=
  (Array.getElem?_eq_some_iff.1 (scope?_eq_some_iff.1 hscope)).1

theorem scope?_size (store : Store) : store.scope? store.cells.size = none := by
  simp [scope?]

theorem parent_lt_size {store : Store} {env parent : EnvId} {scope : Scope}
    (hscope : store.scope? env = some scope) (hparent : scope.parent = some parent) :
    parent < store.cells.size :=
  store.made env scope (scope?_eq_some_iff.1 hscope) parent hparent

/-! ## Making, changing and releasing environments -/

/-- Makes a new environment. -/
def alloc (store : Store) (scope : Scope) : EnvId × Store :=
  (store.cells.size,
    { cells := store.cells.push (some (scope.cutLink store.cells.size))
      made := by
        intro env other hother parent hparent
        rw [Array.size_push]
        rw [Array.getElem?_push] at hother
        split at hother
        · have hcut : scope.cutLink store.cells.size = other := by simpa using hother
          subst hcut
          exact Nat.lt_succ_of_lt (Scope.lt_of_mem_cutLink_parent hparent)
        · exact Nat.lt_succ_of_lt (store.made env other hother parent hparent) })

/-- Ends an environment's life. -/
def release (store : Store) (env : EnvId) : Store where
  cells := store.cells.setIfInBounds env none
  made := by
    intro other scope hscope parent hparent
    rw [Array.size_setIfInBounds]
    rw [Array.getElem?_setIfInBounds] at hscope
    split at hscope
    · split at hscope <;> simp at hscope
    · exact store.made other scope hscope parent hparent

/-- Changes the scope of a live environment. -/
def update (store : Store) (env : EnvId) (change : Scope → Scope) : Store where
  cells := store.cells.modify env (Option.map fun scope => (change scope).cutLink store.cells.size)
  made := by
    intro other scope hscope parent hparent
    rw [Array.size_modify]
    rw [Array.getElem?_modify] at hscope
    split at hscope
    · simp only [Option.map_eq_some_iff] at hscope
      obtain ⟨_, -, changed, -, rfl⟩ := hscope
      exact Scope.lt_of_mem_cutLink_parent hparent
    · exact store.made other scope hscope parent hparent

theorem scope?_alloc (store : Store) (scope : Scope) (env : EnvId) :
    (store.alloc scope).2.scope? env =
      if env = store.cells.size then some (scope.cutLink store.cells.size)
      else store.scope? env := by
  simp only [scope?, alloc, Array.getElem?_push]
  split <;> simp_all

theorem scope?_alloc_self (store : Store) (scope : Scope) :
    (store.alloc scope).2.scope? store.cells.size = some (scope.cutLink store.cells.size) := by
  rw [scope?_alloc, if_pos rfl]

theorem scope?_alloc_of_lt {store : Store} {env : EnvId} (scope : Scope)
    (hlt : env < store.cells.size) : (store.alloc scope).2.scope? env = store.scope? env := by
  rw [scope?_alloc, if_neg (Nat.ne_of_lt hlt)]

theorem scope?_release (store : Store) (released env : EnvId) :
    (store.release released).scope? env = if env = released then none else store.scope? env := by
  simp only [scope?, release, Array.getElem?_setIfInBounds]
  by_cases h : released = env
  · subst h
    by_cases hsize : released < store.cells.size <;> simp [hsize]
  · simp [h, Ne.symm h]

theorem scope?_update (store : Store) (changed env : EnvId) (change : Scope → Scope) :
    (store.update changed change).scope? env =
      if env = changed then
        (store.scope? env).map fun scope => (change scope).cutLink store.cells.size
      else store.scope? env := by
  simp only [scope?, update, Array.getElem?_modify]
  by_cases h : changed = env
  · subst h
    cases store.cells[changed]? <;> simp
  · simp [h, Ne.symm h]

/-! ## Links -/

/-- The environment that one is nested in, as long as both live. -/
def parent? (store : Store) (env : EnvId) : Option EnvId :=
  (store.scope? env).bind fun scope => scope.parent.filter store.isLive

/-- Whether a link leads to a live environment. -/
def linked (store : Store) (link : Option EnvId) : Bool := link.any store.isLive

/-- The last environment of the chain of live links, followed for at most `steps` links. -/
def rootWithin (store : Store) : Nat → EnvId → EnvId
  | 0, env => env
  | steps + 1, env =>
    match store.parent? env with
    | none => env
    | some parent => rootWithin store steps parent

/-- The last environment of the chain of live links. A chain without a cycle is no longer than the
store is large. -/
def root (store : Store) (env : EnvId) : EnvId := store.rootWithin store.cells.size env

/-! ## Names -/

/-- Resolves a name in at most `steps` environments. -/
def lookupWithin (store : Store) (name : String) : Nat → EnvId → Option Value
  | 0, _ => none
  | steps + 1, env =>
    match store.scope? env with
    | none => none
    | some scope =>
      match scope.bindings.find? name with
      | some v => some v
      | none =>
        match scope.parent with
        | none => none
        | some parent => lookupWithin store name steps parent

/-- The value of a name as seen from an environment. -/
def lookup (store : Store) (env : EnvId) (name : String) : Option Value :=
  store.lookupWithin name store.cells.size env

/-- The value of a name, or the fault that it has none. -/
def get (store : Store) (env : EnvId) (name : String) : Except Fault Value :=
  match store.lookup env name with
  | some v => .ok v
  | none => .error (.unboundSymbol name)

/-- Binds a name in an environment. -/
def define (store : Store) (env : EnvId) (name : String) (v : Value) : Store :=
  store.update env (·.define name v)

theorem scope?_define (store : Store) (changed env : EnvId) (name : String) (v : Value) :
    (store.define changed name v).scope? env =
      if env = changed then (store.scope? env).map (·.define name v) else store.scope? env := by
  rw [define, scope?_update]
  split
  · cases hscope : store.scope? env with
    | none => rfl
    | some scope =>
      have hmade : ∀ parent ∈ (scope.define name v).parent, parent < store.cells.size :=
        fun _ hparent => parent_lt_size hscope hparent
      rw [Option.map_some, Option.map_some, Scope.cutLink_eq_self hmade]
  · rfl

/-- Binds a name at the root of an environment's chain. -/
def defineRoot (store : Store) (env : EnvId) (name : String) (v : Value) : Store :=
  store.define (store.root env) name v

/-- Nests an environment in another. -/
def setParent (store : Store) (env parent : EnvId) : Store := store.update env (·.setParent parent)

/-- Binds every operation under its own name. -/
def install (store : Store) (env : EnvId) : Store :=
  Scope.builtins.foldl (fun store binding => store.define env binding.1 binding.2) store

end Store

end QuoteLisp
