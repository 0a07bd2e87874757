import QuoteLisp.Value

/-!
# Scopes

A `Scope` is a list of bindings with an optional link to the environment it is nested in. Bindings
keep the order in which their names were first bound.
-/

namespace QuoteLisp

/-- Names with their values, each name once, in the order of first binding. -/
abbrev Bindings := List (String × Value)

namespace Bindings

/-- The value bound to a name. -/
def find? (name : String) : Bindings → Option Value
  | [] => none
  | (other, v) :: rest => if other = name then some v else find? name rest

/-- Binds a name: in its place if it is bound already, else behind all others. -/
def set (name : String) (v : Value) : Bindings → Bindings
  | [] => [(name, v)]
  | (other, w) :: rest => if other = name then (other, v) :: rest else (other, w) :: set name v rest

/-- Binds several names, one after the other. -/
def setAll (bindings : Bindings) : List (String × Value) → Bindings
  | [] => bindings
  | (name, v) :: rest => setAll (bindings.set name v) rest

/-- The bound names in order. -/
def names (bindings : Bindings) : List String := bindings.map Prod.fst

theorem find?_set (bindings : Bindings) (name other : String) (v : Value) :
    (bindings.set name v).find? other = if other = name then some v else bindings.find? other := by
  induction bindings with
  | nil => simp [set, find?, eq_comm]
  | cons binding rest ih =>
    obtain ⟨first, w⟩ := binding
    by_cases hname : first = name <;> by_cases hother : first = other <;>
      grind [set, find?]

theorem isSome_find?_iff {bindings : Bindings} {name : String} :
    (bindings.find? name).isSome = true ↔ name ∈ bindings.names := by
  induction bindings with
  | nil => simp [find?, names]
  | cons binding rest ih =>
    obtain ⟨first, w⟩ := binding
    rw [find?]
    by_cases hfirst : first = name
    · simp [hfirst, names]
    · rw [if_neg hfirst, ih]
      simp [names, Ne.symm hfirst]

end Bindings

/-- The contents of an environment. -/
structure Scope where
  bindings : Bindings
  /-- The environment that this one is nested in. The link is of use only while that one lives. -/
  parent : Option EnvId

namespace Scope

def empty : Scope := ⟨[], none⟩

/-- An empty scope nested in an environment. -/
def within (parent : EnvId) : Scope := ⟨[], some parent⟩

def define (name : String) (v : Value) (scope : Scope) : Scope :=
  { scope with bindings := scope.bindings.set name v }

def setParent (parent : EnvId) (scope : Scope) : Scope := { scope with parent := some parent }

/-- Cuts a link to an environment other than the first `made`. -/
def cutLink (made : Nat) (scope : Scope) : Scope :=
  { scope with parent := scope.parent.filter (· < made) }

/-- The bindings of a new root: every operation under its own name. -/
def builtins : Bindings := Primitive.all.map fun p => (p.name, .ofPrimitive p)

@[simp] theorem define_bindings (name : String) (v : Value) (scope : Scope) :
    (scope.define name v).bindings = scope.bindings.set name v := rfl

@[simp] theorem define_parent (name : String) (v : Value) (scope : Scope) :
    (scope.define name v).parent = scope.parent := rfl

@[simp] theorem setParent_bindings (parent : EnvId) (scope : Scope) :
    (scope.setParent parent).bindings = scope.bindings := rfl

@[simp] theorem setParent_parent (parent : EnvId) (scope : Scope) :
    (scope.setParent parent).parent = some parent := rfl

@[simp] theorem cutLink_bindings (made : Nat) (scope : Scope) :
    (scope.cutLink made).bindings = scope.bindings := rfl

@[simp] theorem cutLink_parent (made : Nat) (scope : Scope) :
    (scope.cutLink made).parent = scope.parent.filter (· < made) := rfl

theorem lt_of_mem_cutLink_parent {made : Nat} {scope : Scope} {parent : EnvId}
    (hparent : parent ∈ (scope.cutLink made).parent) : parent < made := by
  rw [cutLink_parent, Option.mem_filter_iff] at hparent
  exact of_decide_eq_true hparent.2

/-- A link to an environment that has been made is kept. -/
theorem cutLink_eq_self {made : Nat} {scope : Scope}
    (hmade : ∀ parent ∈ scope.parent, parent < made) : scope.cutLink made = scope := by
  obtain ⟨bindings, link⟩ := scope
  cases link with
  | none => rfl
  | some parent => simp [cutLink, Option.filter, hmade parent rfl]

end Scope

end QuoteLisp
