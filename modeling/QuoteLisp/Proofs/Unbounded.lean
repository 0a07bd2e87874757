import QuoteLisp.Eval.Depth
import QuoteLisp.Proofs.Inversion

/-!
# Evaluation without bounds

Whether an evaluation finishes, and with what, is a question that no bound belongs to: `Evaluates`
asks for any that suffices. An expression is evaluated by first evaluating its items and then making
the result of their outcome (`evaluates_sexpr_iff`), and items are evaluated one by one
(`evaluatesItems_cons_iff`). These rules bring the bounds of parts together once and for all.
-/

namespace QuoteLisp

variable {env : EnvId} {store mid after : Store} {v r : Value} {items vs : List Value}
  {outcome : Except EvalError (List Value)}

/-! ## Values -/

/-- The evaluation finishes with this result, within some bound. -/
def Evaluates (env : EnvId) (v : Value) (store : Store) (r : Value) (after : Store) : Prop :=
  ∃ depth, eval depth env v store = some (r, after)

theorem Evaluates.exists_bound (h : Evaluates env v store r after) :
    ∃ bound, ∀ depth, bound ≤ depth → eval depth env v store = some (r, after) := by
  obtain ⟨bound, hbound⟩ := h
  exact ⟨bound, fun depth hdepth => eval_mono hdepth _ _ _ _ hbound⟩

/-- No bound gives another result. -/
theorem Evaluates.eq_of_eval (h : Evaluates env v store r after) {depth : Nat} {p : Value × Store}
    (hp : eval depth env v store = some p) : p = (r, after) := by
  obtain ⟨bound, hbound⟩ := h.exists_bound
  have hlater := eval_mono (Nat.le_max_left depth bound) _ _ _ _ hp
  rw [hbound _ (Nat.le_max_right depth bound)] at hlater
  exact (Option.some.inj hlater).symm

/-- An evaluation that finishes within every positive bound has the one result. -/
theorem evaluates_iff_of_eval {w : Value}
    (h : ∀ depth, eval (depth + 1) env v store = some (w, mid)) :
    Evaluates env v store r after ↔ r = w ∧ after = mid := by
  constructor
  · rintro ⟨_ | depth, heval⟩
    · cases heval
    · rw [h] at heval
      cases heval
      exact ⟨rfl, rfl⟩
  · rintro ⟨rfl, rfl⟩
    exact ⟨1, h 0⟩

/-! ## Expressions -/

/-- The items are evaluated with this outcome, within some bound. -/
def EvaluatesItems (env : EnvId) (items : List Value) (store : Store)
    (outcome : Except EvalError (List Value)) (after : Store) : Prop :=
  ∃ depth, evalItems (eval depth) env items store = some (outcome, after)

/-- An expression whose items have this outcome ends with this result. -/
def Concludes (env : EnvId) (store : Store) (r : Value) (after : Store) :
    Except EvalError (List Value) → Prop
  | .error e => r = .error e ∧ after = store
  | .ok vs => ∃ depth, applyItems (eval depth) env store vs = some (r, after)

theorem evaluates_sexpr_iff :
    Evaluates env (.sexpr items) store r after ↔
      ∃ outcome mid, EvaluatesItems env items store outcome mid ∧
        Concludes env mid r after outcome := by
  constructor
  · rintro ⟨_ | depth, h⟩
    · cases h
    · rw [eval_succ, step, evalExpr] at h
      rcases hitems : evalItems (eval depth) env items store with _ | ⟨e | vs, mid⟩
      · rw [hitems] at h
        cases h
      · rw [hitems] at h
        cases h
        exact ⟨.error e, after, ⟨depth, hitems⟩, rfl, rfl⟩
      · rw [hitems] at h
        exact ⟨.ok vs, mid, ⟨depth, hitems⟩, depth, h⟩
  · rintro ⟨e | vs, mid, ⟨depth, hitems⟩, hconcludes⟩
    · obtain ⟨rfl, rfl⟩ := hconcludes
      exact ⟨depth + 1, by rw [eval_succ, step, evalExpr, hitems]⟩
    · -- one bound that does for the items and for the call
      obtain ⟨bound, happly⟩ := hconcludes
      refine ⟨max depth bound + 1, ?_⟩
      rw [eval_succ, step, evalExpr,
        evalItems_mono (eval_mono (Nat.le_max_left depth bound)) _ _ _ _ hitems]
      exact applyItems_mono (eval_mono (Nat.le_max_right depth bound)) _ _ _ _ happly

theorem evaluatesItems_nil_iff :
    EvaluatesItems env [] store outcome after ↔ outcome = .ok [] ∧ after = store := by
  constructor
  · rintro ⟨depth, h⟩
    cases h
    exact ⟨rfl, rfl⟩
  · rintro ⟨rfl, rfl⟩
    exact ⟨0, rfl⟩

theorem evaluatesItems_cons_iff :
    EvaluatesItems env (v :: vs) store outcome after ↔
      (∃ e, Evaluates env v store (.error e) after ∧ outcome = .error e) ∨
      ∃ r mid rest, Evaluates env v store r mid ∧ r.error? = none ∧
        EvaluatesItems env vs mid rest after ∧ outcome = rest.map (r :: ·) := by
  constructor
  · rintro ⟨depth, h⟩
    obtain ⟨e, hv, rfl⟩ | ⟨r, mid, rest, hv, hr, hvs, rfl⟩ := evalItems_cons_eq_some_iff.1 h
    · exact .inl ⟨e, ⟨depth, hv⟩, rfl⟩
    · exact .inr ⟨r, mid, rest, ⟨depth, hv⟩, hr, ⟨depth, hvs⟩, rfl⟩
  · rintro (⟨e, ⟨depth, hv⟩, rfl⟩ | ⟨r, mid, rest, ⟨depth, hv⟩, hr, ⟨bound, hvs⟩, rfl⟩)
    · exact ⟨depth, evalItems_cons_eq_some_iff.2 (.inl ⟨e, hv, rfl⟩)⟩
    · refine ⟨max depth bound, evalItems_cons_eq_some_iff.2 (.inr ⟨r, mid, rest, ?_, hr, ?_, rfl⟩)⟩
      · exact eval_mono (Nat.le_max_left depth bound) _ _ _ _ hv
      · exact evalItems_mono (eval_mono (Nat.le_max_right depth bound)) _ _ _ _ hvs

end QuoteLisp
