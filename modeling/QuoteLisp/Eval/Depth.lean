import QuoteLisp.Eval

/-!
# The depth bound

An evaluation that finishes within a bound finishes with the same result within every larger one
(`eval_mono`), so "the evaluation finishes" needs no particular bound.
-/

namespace QuoteLisp

/-- The second evaluator finishes whenever the first does, and then they agree. -/
def Evaluator.Le (e₁ e₂ : Evaluator) : Prop :=
  ∀ env v store r, e₁ env v store = some r → e₂ env v store = some r

variable {e₁ e₂ : Evaluator}

theorem evalItems_mono (h : e₁.Le e₂) (env : EnvId) (items : List Value) :
    ∀ store r, evalItems e₁ env items store = some r → evalItems e₂ env items store = some r := by
  induction items with
  | nil => exact fun _ _ hr => hr
  | cons item items ih =>
    intro store r hr
    rw [evalItems] at hr ⊢
    cases hitem : e₁ env item store with
    | none => simp [hitem] at hr
    | some p =>
      rw [h _ _ _ _ hitem]
      simp only [hitem] at hr ⊢
      cases herror : p.1.error? with
      | some e => simpa [herror] using hr
      | none =>
        simp only [herror] at hr ⊢
        cases hitems : evalItems e₁ env items p.2 with
        | none => simp [hitems] at hr
        | some q => rw [ih _ _ hitems]; simpa [hitems] using hr

theorem Primitive.run_mono (h : e₁.Le e₂) (p : Primitive) (env : EnvId) (args : List Value)
    (store : Store) (r : Except Fault Value × Store) (hr : p.run e₁ env args store = some r) :
    p.run e₂ env args store = some r := by
  cases p with
  | eval =>
    simp only [run] at hr ⊢
    split <;> rename_i hargs <;> simp only [hargs] at hr
    · exact hr
    · obtain ⟨q, hq, rfl⟩ := Option.map_eq_some_iff.1 hr
      rw [h _ _ _ _ hq]
      rfl
  | _ => exact hr

theorem call_mono (h : e₁.Le e₂) (env : EnvId) (f : Value) (args : List Value) (store : Store)
    (r : Value × Store) (hr : call e₁ env f args store = some r) :
    call e₂ env f args store = some r := by
  cases f with
  | builtin b =>
    obtain ⟨q, hq, rfl⟩ := Option.map_eq_some_iff.1 hr
    rw [call, b.primitive.run_mono h _ _ _ _ hq]
    rfl
  | closure formals body captured link =>
    simp only [call, callClosure] at hr ⊢
    split <;> rename_i hlength <;> simp only [hlength, if_true, if_false] at hr
    · obtain ⟨q, hq, rfl⟩ := Option.map_eq_some_iff.1 hr
      rw [h _ _ _ _ hq]
      rfl
    · exact hr
  | _ => exact hr

theorem applyItems_mono (h : e₁.Le e₂) (env : EnvId) (store : Store) (vs : List Value)
    (r : Value × Store) (hr : applyItems e₁ env store vs = some r) :
    applyItems e₂ env store vs = some r := by
  rcases vs with _ | ⟨f, _ | ⟨arg, args⟩⟩
  · exact hr
  · exact hr
  · exact call_mono h env f (arg :: args) store r hr

theorem evalExpr_mono (h : e₁.Le e₂) (env : EnvId) (items : List Value) (store : Store)
    (r : Value × Store) (hr : evalExpr e₁ env items store = some r) :
    evalExpr e₂ env items store = some r := by
  rw [evalExpr] at hr ⊢
  cases hitems : evalItems e₁ env items store with
  | none => simp [hitems] at hr
  | some q =>
    rw [evalItems_mono h _ _ _ _ hitems]
    simp only [hitems] at hr
    obtain ⟨_ | vs, mid⟩ := q
    · exact hr
    · exact applyItems_mono h env mid vs r hr

theorem step_mono (h : e₁.Le e₂) : (step e₁).Le (step e₂) := by
  intro env v store r hr
  cases v with
  | sexpr items => exact evalExpr_mono h env items store r hr
  | _ => exact hr

theorem eval_le_succ (depth : Nat) : (eval depth).Le (eval (depth + 1)) := by
  induction depth with
  | zero => exact fun _ _ _ _ h => by cases h
  | succ depth ih => exact step_mono ih

/-- A larger bound keeps a finished result. -/
theorem eval_mono {m n : Nat} (h : m ≤ n) : (eval m).Le (eval n) := by
  induction h with
  | refl => exact fun _ _ _ _ h => h
  | step _ ih => exact fun _ _ _ _ h => eval_le_succ _ _ _ _ _ (ih _ _ _ _ h)

end QuoteLisp
