import QuoteLisp.Scope

/-!
# Parts of values

A value occurs within another if it is that value or occurs within an item of a list, within the
body of a closure or within a value that the closure carries. `Everywhere P` says of a value that
all values within it have the property `P`.
-/

namespace QuoteLisp.Value

/-- The first value occurs in the second, at any depth. -/
inductive Within (part : Value) : Value → Prop
  | self : Within part part
  | sexpr {items : List Value} {v : Value} (hmem : v ∈ items) (hpart : Within part v) :
    Within part (.sexpr items)
  | qexpr {items : List Value} {v : Value} (hmem : v ∈ items) (hpart : Within part v) :
    Within part (.qexpr items)
  | body {formals : List String} {body : List Value} {captured : Bindings} {link : Option EnvId}
    {v : Value} (hmem : v ∈ body) (hpart : Within part v) :
    Within part (.closure formals body captured link)
  | captured {formals : List String} {body : List Value} {captured : Bindings}
    {link : Option EnvId} {binding : String × Value} (hmem : binding ∈ captured)
    (hpart : Within part binding.2) : Within part (.closure formals body captured link)

/-- The property holds of the value and of all its parts. -/
def Everywhere (P : Value → Prop) (v : Value) : Prop := ∀ part : Value, part.Within v → P part

variable {P : Value → Prop}

/-! ## Parts by kind of value -/

theorem everywhere_iff_self {v : Value} (honly : ∀ part : Value, part.Within v → part = v) :
    Everywhere P v ↔ P v := by
  refine ⟨fun h => h v .self, fun h part hpart => ?_⟩
  rw [honly part hpart]
  exact h

@[simp] theorem everywhere_number {n : Int64} : Everywhere P (.number n) ↔ P (.number n) :=
  everywhere_iff_self fun _ hpart => by cases hpart; rfl

@[simp] theorem everywhere_string {text : String} :
    Everywhere P (.string text) ↔ P (.string text) :=
  everywhere_iff_self fun _ hpart => by cases hpart; rfl

@[simp] theorem everywhere_symbol {name : String} :
    Everywhere P (.symbol name) ↔ P (.symbol name) :=
  everywhere_iff_self fun _ hpart => by cases hpart; rfl

@[simp] theorem everywhere_error {e : EvalError} : Everywhere P (.error e) ↔ P (.error e) :=
  everywhere_iff_self fun _ hpart => by cases hpart; rfl

@[simp] theorem everywhere_builtin {b : Builtin} : Everywhere P (.builtin b) ↔ P (.builtin b) :=
  everywhere_iff_self fun _ hpart => by cases hpart; rfl

@[simp] theorem everywhere_sexpr {items : List Value} :
    Everywhere P (.sexpr items) ↔ P (.sexpr items) ∧ ∀ v ∈ items, Everywhere P v := by
  constructor
  · exact fun h => ⟨h _ .self, fun v hmem part hpart => h part (.sexpr hmem hpart)⟩
  · rintro ⟨hself, hitems⟩ part hpart
    cases hpart with
    | self => exact hself
    | sexpr hmem hpart => exact hitems _ hmem part hpart

@[simp] theorem everywhere_qexpr {items : List Value} :
    Everywhere P (.qexpr items) ↔ P (.qexpr items) ∧ ∀ v ∈ items, Everywhere P v := by
  constructor
  · exact fun h => ⟨h _ .self, fun v hmem part hpart => h part (.qexpr hmem hpart)⟩
  · rintro ⟨hself, hitems⟩ part hpart
    cases hpart with
    | self => exact hself
    | qexpr hmem hpart => exact hitems _ hmem part hpart

@[simp] theorem everywhere_closure {formals : List String} {body : List Value}
    {captured : Bindings} {link : Option EnvId} :
    Everywhere P (.closure formals body captured link) ↔
      P (.closure formals body captured link) ∧ (∀ v ∈ body, Everywhere P v) ∧
        ∀ binding ∈ captured, Everywhere P binding.2 := by
  constructor
  · exact fun h => ⟨h _ .self, fun v hmem part hpart => h part (.body hmem hpart),
      fun binding hmem part hpart => h part (.captured hmem hpart)⟩
  · rintro ⟨hself, hbody, hcaptured⟩ part hpart
    cases hpart with
    | self => exact hself
    | body hmem hpart => exact hbody _ hmem part hpart
    | captured hmem hpart => exact hcaptured _ hmem part hpart

/-! ## Induction -/

theorem sizeOf_lt_of_mem_captured {binding : String × Value} {captured : Bindings}
    (hmem : binding ∈ captured) : sizeOf binding.2 < sizeOf captured := by
  have hlt := List.sizeOf_lt_of_mem hmem
  obtain ⟨name, v⟩ := binding
  simp only [Prod.mk.sizeOf_spec] at hlt ⊢
  omega

/-- Induction over values: lists and closures owe the property if all their parts have it. -/
@[elab_as_elim] theorem induct {motive : Value → Prop} (number : ∀ n, motive (.number n))
    (string : ∀ text, motive (.string text)) (symbol : ∀ name, motive (.symbol name))
    (error : ∀ e, motive (.error e))
    (sexpr : ∀ items, (∀ v ∈ items, motive v) → motive (.sexpr items))
    (qexpr : ∀ items, (∀ v ∈ items, motive v) → motive (.qexpr items))
    (builtin : ∀ b, motive (.builtin b))
    (closure : ∀ (formals : List String) (body : List Value) (captured : Bindings)
      (link : Option EnvId), (∀ v ∈ body, motive v) → (∀ binding ∈ captured, motive binding.2) →
      motive (.closure formals body captured link)) (v : Value) : motive v :=
  match v with
  | .number n => number n
  | .string text => string text
  | .symbol name => symbol name
  | .error e => error e
  | .sexpr items =>
    sexpr items fun v _ => induct number string symbol error sexpr qexpr builtin closure v
  | .qexpr items =>
    qexpr items fun v _ => induct number string symbol error sexpr qexpr builtin closure v
  | .builtin b => builtin b
  | .closure formals body captured link =>
    closure formals body captured link
      (fun v _ => induct number string symbol error sexpr qexpr builtin closure v)
      (fun binding _ => induct number string symbol error sexpr qexpr builtin closure binding.2)
  termination_by sizeOf v
  decreasing_by
    · have hlt : sizeOf v < sizeOf items := List.sizeOf_lt_of_mem ‹_›
      simp only [Value.sexpr.sizeOf_spec]
      omega
    · have hlt : sizeOf v < sizeOf items := List.sizeOf_lt_of_mem ‹_›
      simp only [Value.qexpr.sizeOf_spec]
      omega
    · have hlt : sizeOf v < sizeOf body := List.sizeOf_lt_of_mem ‹_›
      simp only [Value.closure.sizeOf_spec]
      omega
    · have hlt : sizeOf binding.2 < sizeOf captured := sizeOf_lt_of_mem_captured ‹_›
      simp only [Value.closure.sizeOf_spec]
      omega
/-! ## Names -/

/-- The names that a value holds besides those of its parts: that of a symbol, or those that a
closure binds when it is called. -/
def ownNames : Value → List String
  | symbol name => [name]
  | closure formals _ captured _ => formals ++ Bindings.names captured
  | _ => []

/-- The name stands nowhere in the value: not as a symbol, quoted or not, and neither in a closure's
formals, nor in its body, nor in what it carries. -/
def Avoids (name : String) (v : Value) : Prop := v.Everywhere fun part => name ∉ part.ownNames

end QuoteLisp.Value
