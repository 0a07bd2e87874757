import QuoteLisp.Proofs.Action

/-!
# Why operations refuse

An operation refuses its arguments for one of a few reasons (`Primitive.Refuses`), and the fault
tells which: an argument of another type than it takes, something else among names to bind, a number
of arguments that it does not take, or a computation without result.
-/

namespace QuoteLisp

/-! ## Arithmetic -/

/-- The faults of arithmetic on numbers. -/
inductive Fault.IsArithmetic : Fault → Prop
  | divisionByZero : IsArithmetic .divisionByZero
  | moduloByZero : IsArithmetic .moduloByZero
  | overflow (op : ArithOp) : IsArithmetic (.integerOverflow op.noun)
  | negation : IsArithmetic (.integerOverflow "negation")

theorem Value.number?_eq_some_iff {v : Value} {n : Int64} : v.number? = some n ↔ v = .number n := by
  cases v <;> simp [number?]

namespace ArithOp

variable {op : ArithOp} {args : List Value} {ns : List Int64} {fault : Fault}

theorem eq_of_checked_eq_error {noun : String} {n : Int} (h : checked noun n = .error fault) :
    fault = .integerOverflow noun := by
  rw [checked] at h
  split at h
  · cases h
  · cases h
    rfl

theorem isArithmetic_of_apply {a b : Int64} (h : op.apply a b = .error fault) :
    fault.IsArithmetic := by
  have hchecked : ∀ {op : ArithOp} {n : Int}, checked op.noun n = .error fault →
      fault.IsArithmetic := by
    intro op n h
    rw [eq_of_checked_eq_error h]
    exact .overflow op
  cases op with
  | add | subtract | multiply => exact hchecked h
  | divide =>
    rw [apply] at h
    split at h
    · cases h
      exact .divisionByZero
    · exact hchecked h
  | remainder =>
    rw [apply] at h
    split at h
    · cases h
      exact .moduloByZero
    · split at h
      · rename_i hquotient
        cases h
        exact hchecked hquotient
      · exact hchecked h

theorem isArithmetic_of_fold {first : Int64} (h : op.fold first ns = .error fault) :
    fault.IsArithmetic := by
  induction ns generalizing first with
  | nil => cases h
  | cons n ns ih =>
    rw [fold] at h
    split at h
    · rename_i happly
      cases h
      exact isArithmetic_of_apply happly
    · exact ih h

theorem compute_eq_error (h : op.compute ns = .error fault) :
    ns = [] ∧ fault = .wrongArgumentCount op.name 1 0 ∨ fault.IsArithmetic := by
  cases ns with
  | nil =>
    cases h
    exact .inl ⟨rfl, rfl⟩
  | cons n ns =>
    cases ns with
    | nil =>
      rw [compute] at h
      split at h
      · rw [eq_of_checked_eq_error h]
        exact .inr .negation
      · cases h
    | cons m ns => exact .inr (isArithmetic_of_fold h)

/-- The first argument that is no number decides. -/
theorem operands_eq_error_iff :
    op.operands args = .error fault ↔ ∃ (ns : List Int64) (v : Value) (behind : List Value),
      args = ns.map .number ++ v :: behind ∧ v.number? = none ∧
        fault = .wrongArgumentType op.name "Number" v.typeName := by
  induction args with
  | nil => simp [operands]
  | cons arg args ih =>
    rw [operands]
    cases hnumber : arg.number? with
    | none =>
      constructor
      · intro h
        cases h
        exact ⟨[], arg, args, rfl, hnumber, rfl⟩
      · rintro ⟨ns, v, behind, hargs, -, rfl⟩
        cases ns with
        | nil =>
          cases hargs
          rfl
        | cons n ns =>
          obtain ⟨rfl, -⟩ := List.cons.inj hargs
          cases hnumber
    | some n =>
      obtain rfl := Value.number?_eq_some_iff.1 hnumber
      constructor
      · intro h
        cases hrest : op.operands args with
        | ok ns =>
          rw [hrest] at h
          cases h
        | error other =>
          rw [hrest] at h
          cases h
          obtain ⟨ns, v, behind, rfl, hv⟩ := ih.1 hrest
          exact ⟨n :: ns, v, behind, rfl, hv⟩
      · rintro ⟨ns, v, behind, hargs, hv, hfault⟩
        cases ns with
        | nil =>
          cases hargs
          cases hv
        | cons m ns =>
          obtain ⟨-, hrest⟩ := List.cons.inj hargs
          rw [ih.2 ⟨ns, v, behind, hrest, hv, hfault⟩]

theorem operands_eq_ok_iff : op.operands args = .ok ns ↔ args = ns.map .number := by
  induction args generalizing ns with
  | nil => cases ns <;> simp [operands]
  | cons arg args ih =>
    rw [operands]
    cases arg with
    | number n =>
      simp only [Value.number?]
      cases hrest : op.operands args with
      | error fault =>
        have hnot : ∀ ms : List Int64, args ≠ ms.map .number := by
          intro ms hms
          rw [ih.2 hms] at hrest
          cases hrest
        cases ns <;> simp [hnot]
      | ok ms =>
        rw [ih.1 hrest]
        cases ns with
        | nil => simp
        | cons m rest => simp [List.map_inj_right]
    | _ => cases ns <;> simp [Value.number?]

theorem run_eq_error (h : op.run args = .error fault) :
    (∃ v ∈ args, v.number? = none ∧ fault = .wrongArgumentType op.name "Number" v.typeName) ∨
      args = [] ∧ fault = .wrongArgumentCount op.name 1 0 ∨ fault.IsArithmetic := by
  rw [run] at h
  split at h
  · rename_i hoperands
    cases h
    obtain ⟨ns, v, behind, rfl, hv⟩ := operands_eq_error_iff.1 hoperands
    exact .inl ⟨v, by simp, hv⟩
  · rename_i ns hoperands
    obtain ⟨rfl, hfault⟩ | hfault := compute_eq_error (Except.map_eq_error_iff.1 h)
    · exact .inr (.inl ⟨operands_eq_ok_iff.1 hoperands, hfault⟩)
    · exact .inr (.inr hfault)

end ArithOp

/-! ## Operations -/

/-- Why an operation refuses its arguments. -/
inductive Primitive.Refuses (p : Primitive) (args : List Value) : Fault → Prop
  | notAList {v : Value} (hmem : v ∈ args) (hv : v.typeName ≠ "Q-Expression") :
    Refuses p args (.wrongArgumentType p.name "Q-Expression" v.typeName)
  | notANumber {v : Value} (hmem : v ∈ args) (hv : v.typeName ≠ "Number") :
    Refuses p args (.wrongArgumentType p.name "Number" v.typeName)
  | notASymbol {v : Value} (hv : v.typeName ≠ "Symbol") :
    Refuses p args (.notASymbol p.name v.typeName)
  | count {expected : Nat} (hne : expected ≠ args.length) :
    Refuses p args (.wrongArgumentCount p.name expected args.length)
  | bindingCount {symbols values : Nat} (hp : p = define ∨ p = assign) (hne : symbols ≠ values) :
    Refuses p args (.wrongBindingCount p.name symbols values)
  | emptyList (hp : p = head ∨ p = tail ∨ p = function) : Refuses p args (.emptyList p.name)
  | arithmetic {fault : Fault} (hfault : fault.IsArithmetic) : Refuses p args fault

namespace Primitive

variable {p : Primitive} {args items : List Value} {fault : Fault}

theorem refuses_of_quotedItems {v : Value} (hmem : v ∈ args)
    (h : quotedItems p.name v = .error fault) : p.Refuses args fault := by
  cases v with
  | qexpr items => cases h
  | _ =>
    cases h
    exact .notAList hmem (by simp [Value.typeName])

theorem refuses_of_symbolNames (h : symbolNames p.name items = .error fault) :
    p.Refuses args fault := by
  induction items with
  | nil => cases h
  | cons item items ih =>
    cases item with
    | symbol name => exact ih (Except.map_eq_error_iff.1 h)
    | _ =>
      cases h
      exact .notASymbol (by simp [Value.typeName])

theorem refuses_of_soleList (h : soleList p.name args = .error fault) : p.Refuses args fault := by
  match args with
  | [v] => exact refuses_of_quotedItems (List.mem_singleton_self v) h
  | [] | _ :: _ :: _ =>
    cases h
    exact .count (by simp)

theorem refuses_of_joinLists {vs : List Value} (hvs : ∀ v ∈ vs, v ∈ args)
    (h : joinLists p.name vs = .error fault) : p.Refuses args fault := by
  induction vs with
  | nil => cases h
  | cons v vs ih =>
    obtain ⟨hv, hvs⟩ := List.forall_mem_cons.1 hvs
    obtain hfirst | ⟨items, -, h⟩ := Except.bind_eq_error_iff.1 h
    · exact refuses_of_quotedItems hv hfirst
    · obtain hrest | ⟨_, -, h⟩ := Except.bind_eq_error_iff.1 h
      · exact ih hvs hrest
      · cases h

theorem refuses_of_definitions (hp : p = define ∨ p = assign)
    (h : definitions p.name args = .error fault) : p.Refuses args fault := by
  cases args with
  | nil =>
    cases h
    exact .count (by simp)
  | cons first values =>
    obtain hfirst | ⟨items, -, h⟩ := Except.bind_eq_error_iff.1 h
    · exact refuses_of_quotedItems List.mem_cons_self hfirst
    · obtain hnames | ⟨names, -, h⟩ := Except.bind_eq_error_iff.1 h
      · exact refuses_of_symbolNames hnames
      · split at h
        · cases h
        · cases h
          exact .bindingCount hp ‹_›

theorem refuses_of_formalsAndBody (h : formalsAndBody p.name args = .error fault) :
    p.Refuses args fault := by
  match args with
  | [formals, body] =>
    obtain hformals | ⟨items, -, h⟩ := Except.bind_eq_error_iff.1 h
    · exact refuses_of_quotedItems List.mem_cons_self hformals
    · obtain hbody | ⟨_, -, h⟩ := Except.bind_eq_error_iff.1 h
      · exact refuses_of_quotedItems (by simp) hbody
      · obtain hnames | ⟨_, -, h⟩ := Except.bind_eq_error_iff.1 h
        · exact refuses_of_symbolNames hnames
        · cases h
  | [] | [_] | _ :: _ :: _ :: _ =>
    cases h
    exact .count (by simp)

theorem refuses_of_run {op : ArithOp} (h : op.run args = .error fault) :
    (arith op).Refuses args fault := by
  obtain ⟨v, hmem, hnumber, rfl⟩ | ⟨rfl, rfl⟩ | hfault := ArithOp.run_eq_error h
  · refine .notANumber hmem ?_
    cases v with
    | number n => cases hnumber
    | _ => simp [Value.typeName]
  · exact .count (by simp)
  · exact .arithmetic hfault

/-- What an operation refuses, it refuses for one of these reasons. -/
theorem refuses_of_action (h : p.action args = .error fault) : p.Refuses args fault := by
  cases p with
  | list => cases h
  | head =>
    rw [action] at h
    split at h
    · rename_i hitems
      cases h
      exact refuses_of_soleList hitems
    · cases h
      exact .emptyList (.inl rfl)
    · cases h
  | tail =>
    rw [action] at h
    split at h
    · rename_i hitems
      cases h
      exact refuses_of_soleList hitems
    · cases h
      exact .emptyList (.inr (.inl rfl))
    · cases h
  | eval => exact refuses_of_soleList (Except.map_eq_error_iff.1 h)
  | join => exact refuses_of_joinLists (fun _ hv => hv) (Except.map_eq_error_iff.1 h)
  | arith op => exact refuses_of_run (Except.map_eq_error_iff.1 h)
  | define => exact refuses_of_definitions (.inl rfl) (Except.map_eq_error_iff.1 h)
  | assign => exact refuses_of_definitions (.inr rfl) (Except.map_eq_error_iff.1 h)
  | lambda => exact refuses_of_formalsAndBody (Except.map_eq_error_iff.1 h)
  | function =>
    rw [action] at h
    split at h
    · rename_i hparts
      cases h
      exact refuses_of_formalsAndBody hparts
    · cases h
      exact .emptyList (.inr (.inr rfl))
    · cases h

end Primitive

end QuoteLisp
