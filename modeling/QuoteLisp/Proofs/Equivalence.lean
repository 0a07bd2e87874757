import QuoteLisp.Proofs.ReadBack

/-!
# Equality is an equivalence

Equality passes over two things: the operation behind a builtin function, which goes by its name,
and the link of a closure. Once both are removed everywhere in a value, equal values are the same
(`Value.beq_iff_bare_eq`), so equality is an equivalence. Neither of the two is printed, and neither
has a say in the kind of a value, so equal values are alike in all that a program can show.
-/

namespace QuoteLisp

namespace Value

/-! ## What equality sees -/

mutual

/-- The value with one and the same operation behind all builtin functions, and without links. -/
def bare : Value → Value
  | number n => number n
  | string text => string text
  | symbol name => symbol name
  | error e => error e
  | sexpr items => sexpr (bareItems items)
  | qexpr items => qexpr (bareItems items)
  | builtin b => builtin ⟨b.name, .list⟩
  | closure formals body captured _ =>
    closure formals (bareItems body) (bareBindings captured) none
  termination_by structural v => v

def bareItems : List Value → List Value
  | [] => []
  | item :: items => bare item :: bareItems items
  termination_by structural items => items

def bareBindings : List (String × Value) → List (String × Value)
  | [] => []
  | (name, v) :: rest => (name, bare v) :: bareBindings rest
  termination_by structural bindings => bindings

end

theorem bareItems_eq_map (items : List Value) : bareItems items = items.map bare := by
  induction items with
  | nil => rfl
  | cons item items ih => rw [bareItems, ih, List.map_cons]

theorem bareBindings_eq_map (bindings : Bindings) :
    bareBindings bindings = bindings.map (Prod.map id bare) := by
  induction bindings with
  | nil => rfl
  | cons binding rest ih =>
    rw [bareBindings, ih, List.map_cons]
    rfl

@[simp] theorem bare_sexpr (items : List Value) :
    (sexpr items).bare = sexpr (items.map bare) := by
  rw [bare, bareItems_eq_map]

@[simp] theorem bare_qexpr (items : List Value) :
    (qexpr items).bare = qexpr (items.map bare) := by
  rw [bare, bareItems_eq_map]

@[simp] theorem bare_closure (formals : List String) (body : List Value) (captured : Bindings)
    (link : Option EnvId) :
    (closure formals body captured link).bare =
      closure formals (body.map bare) (captured.map (Prod.map id bare)) none := by
  rw [bare, bareItems_eq_map, bareBindings_eq_map]

/-- Lists are related item by item if their images are the same, provided that this is how their
items are related. -/
theorem forall₂_iff_map_eq {α β : Type} {R : α → α → Prop} {f : α → β} {xs ys : List α}
    (h : ∀ x ∈ xs, ∀ y, R x y ↔ f x = f y) : List.Forall₂ R xs ys ↔ xs.map f = ys.map f := by
  induction xs generalizing ys with
  | nil => simp [eq_comm]
  | cons x xs ih =>
    obtain ⟨hx, hxs⟩ := List.forall_mem_cons.1 h
    cases ys with
    | nil => simp
    | cons y ys => simp [hx, ih hxs]

theorem beqItems_iff_of_mem {xs ys : List Value}
    (h : ∀ x ∈ xs, ∀ y, beq x y = true ↔ x.bare = y.bare) :
    beqItems xs ys = true ↔ xs.map bare = ys.map bare := by
  rw [beqItems_iff, forall₂_iff_map_eq h]

theorem beqBindings_iff_of_mem {xs ys : Bindings}
    (h : ∀ x ∈ xs, ∀ y : Value, beq x.2 y = true ↔ x.2.bare = y.bare) :
    beqBindings xs ys = true ↔ xs.map (Prod.map id bare) = ys.map (Prod.map id bare) := by
  rw [beqBindings_iff]
  apply forall₂_iff_map_eq
  intro x hx y
  rw [h x hx y.2, Prod.ext_iff]
  rfl

/-- Equality is identity up to links and the operations behind names. -/
theorem beq_iff_bare_eq {v w : Value} : beq v w = true ↔ v.bare = w.bare := by
  induction v using Value.induct generalizing w with
  | number | string | symbol | error | builtin => cases w <;> simp [beq, bare]
  | sexpr items ih | qexpr items ih =>
    have hitems : ∀ others, beqItems items others = true ↔ items.map bare = others.map bare :=
      fun _ => beqItems_iff_of_mem fun x hx _ => ih x hx
    cases w <;> simp [beq, bare, bareItems_eq_map, hitems]
  | closure formals body captured link ihbody ihcaptured =>
    have hbody : ∀ others, beqItems body others = true ↔ body.map bare = others.map bare :=
      fun _ => beqItems_iff_of_mem fun x hx _ => ihbody x hx
    have hcaptured : ∀ others, beqBindings captured others = true ↔
        captured.map (Prod.map id bare) = others.map (Prod.map id bare) :=
      fun _ => beqBindings_iff_of_mem fun x hx _ => ihcaptured x hx
    cases w with
    | closure => simp only [beq, Bool.and_eq_true, beq_iff_eq, hbody, hcaptured, bare_closure,
        closure.injEq, and_true, and_assoc]
    | _ => simp [beq, bare]

theorem beqBindings_iff_map_eq {xs ys : Bindings} :
    beqBindings xs ys = true ↔ xs.map (Prod.map id bare) = ys.map (Prod.map id bare) :=
  beqBindings_iff_of_mem fun _ _ _ => beq_iff_bare_eq

/-! ## What values show -/

theorem chars_bare (v : Value) : v.bare.chars = v.chars := by
  have hmap : ∀ items : List Value, (∀ v ∈ items, v.bare.chars = v.chars) →
      (items.map bare).map chars = items.map chars := by
    intro items ih
    rw [List.map_map]
    exact List.map_congr_left ih
  induction v using Value.induct with
  | number | string | symbol | error | builtin => rfl
  | sexpr items ih => rw [bare_sexpr, chars_sexpr, chars_sexpr, hmap items ih]
  | qexpr items ih => rw [bare_qexpr, chars_qexpr, chars_qexpr, hmap items ih]
  | closure formals body captured link ihbody =>
    rw [bare_closure, chars_closure, chars_closure, lambdaExpr, lambdaExpr]
    simp only [chars_sexpr, List.map_cons, chars_qexpr, hmap body ihbody]

theorem typeName_bare (v : Value) : v.bare.typeName = v.typeName := by
  cases v <;> rfl

theorem isError_bare (v : Value) : v.bare.isError = v.isError := by
  cases v <;> rfl

theorem isUnit_bare (v : Value) : v.bare.isUnit = v.isUnit := by
  cases v with
  | sexpr items => cases items <;> rfl
  | _ => rfl

/-- Equality of values is an equivalence, and so is that of the bindings that scopes consist of.
Equal values have the same text and the same type name, and if one of them is an error or the empty
expression, so is the other. -/
theorem equality_is_equivalence :
    (Equivalence fun v w : Value => (v == w) = true) ∧
    (Equivalence fun bs cs : Bindings => beqBindings bs cs = true) ∧
    ∀ v w : Value, (v == w) = true →
      v.text = w.text ∧ v.typeName = w.typeName ∧ v.isUnit = w.isUnit ∧
        v.isError = w.isError := by
  have hvalues : (fun v w : Value => (v == w) = true) = fun v w => v.bare = w.bare := by
    funext v w
    exact propext beq_iff_bare_eq
  have hbindings : (fun bs cs : Bindings => beqBindings bs cs = true) =
      fun bs cs => bs.map (Prod.map id bare) = cs.map (Prod.map id bare) := by
    funext bs cs
    exact propext beqBindings_iff_map_eq
  refine ⟨?_, ?_, fun v w h => ?_⟩
  · rw [hvalues]
    exact eq_equivalence.comap bare
  · rw [hbindings]
    exact eq_equivalence.comap (List.map (Prod.map id bare))
  · have hsame : v.bare = w.bare := beq_iff_bare_eq.1 h
    rw [text, text, ← chars_bare v, ← typeName_bare v, ← isUnit_bare v, ← isError_bare v, hsame,
      chars_bare, typeName_bare, isUnit_bare, isError_bare]
    exact ⟨rfl, rfl, rfl, rfl⟩

/-- Closures with different links that carry, in a list, different operations under one name. -/
theorem equality_is_equivalence_of_closures :
    let closure (link : EnvId) (p : Primitive) : Value :=
      .closure ["x"] [.symbol "f", .symbol "x"] [("f", .qexpr [.builtin ⟨"g", p⟩])] (some link)
    let v := closure 0 .head
    let w := closure 1 .tail
    (v == w) = true ∧ (w == v) = true ∧ v.text = w.text ∧ v.typeName = w.typeName := by
  intro closure v w
  obtain ⟨hequivalence, -, hshown⟩ := equality_is_equivalence
  have hvw : (v == w) = true := rfl
  obtain ⟨htext, htype, -, -⟩ := hshown v w hvw
  exact ⟨hvw, hequivalence.symm hvw, htext, htype⟩

end Value

end QuoteLisp
