import Mathlib.Data.List.Induction
import QuoteLisp.Proofs.Literals
import QuoteLisp.Proofs.Refusals

/-!
# Exact arithmetic

The result of an operation is that of a left fold over exact integers, as long as every step of it
has one: the divisor is not zero, the exact value is a machine number, and the least machine number
is not divided by minus one (`ArithOp.Fits`). Otherwise the first step that has none decides the
error. Arguments that are no numbers come before all of this.
-/

namespace QuoteLisp

/-! ## Machine numbers -/

namespace Word

theorem toInt_ofInt {n : Int} (h : InRange n) : (Int64.ofInt n).toInt = n := by
  unfold InRange at h
  rw [Int64.toInt_minValue, Int64.toInt_maxValue] at h
  exact Int64.toInt_ofInt_of_le h.1 (by omega)

theorem inRange_neg_iff (n : Int64) : InRange (-n.toInt) ↔ n ≠ Int64.minValue := by
  have hn := inRange_toInt n
  unfold InRange at hn ⊢
  rw [Ne, ← Int64.toInt_inj]
  rw [Int64.toInt_minValue, Int64.toInt_maxValue] at *
  omega

/-- Only the least number divided by minus one leaves the range. -/
theorem inRange_tdiv_iff (a b : Int64) :
    InRange (a.toInt.tdiv b.toInt) ↔ ¬ (a.toInt = Int64.minValue.toInt ∧ b.toInt = -1) := by
  have ha := inRange_toInt a
  unfold InRange at ha ⊢
  rw [Int64.toInt_minValue, Int64.toInt_maxValue] at *
  by_cases hone : b.toInt.natAbs = 1
  · obtain hb | hb : b.toInt = 1 ∨ b.toInt = -1 := by omega
    · rw [hb, Int.tdiv_one]
      omega
    · rw [hb, Int.tdiv_neg, Int.tdiv_one]
      omega
  · -- any other quotient is at most half as large as the dividend
    have hhalf : a.toInt.natAbs / b.toInt.natAbs ≤ a.toInt.natAbs / 2 := by
      obtain hzero | htwo : b.toInt.natAbs = 0 ∨ 2 ≤ b.toInt.natAbs := by omega
      · rw [hzero, Nat.div_zero]
        exact Nat.zero_le _
      · exact Nat.div_le_div_left htwo (by decide)
    have habs : (a.toInt.tdiv b.toInt).natAbs = a.toInt.natAbs / b.toInt.natAbs :=
      Int.natAbs_tdiv a.toInt b.toInt
    omega

theorem inRange_tmod (a : Int64) {b : Int64} (hb : b.toInt ≠ 0) :
    InRange (a.toInt.tmod b.toInt) := by
  have hrange := inRange_toInt b
  have habs := Int.natAbs_tmod a.toInt b.toInt
  have hlt := Nat.mod_lt a.toInt.natAbs (show 0 < b.toInt.natAbs by omega)
  unfold InRange at hrange ⊢
  rw [Int64.toInt_minValue, Int64.toInt_maxValue] at *
  omega

end Word

namespace ArithOp

variable {op : ArithOp} {a b n : Int64} {ns front : List Int64}

/-! ## Single steps -/

/-- The exact value of a step. A quotient is that of the absolute values, negative if the operands
differ in sign, and a remainder has the sign of the dividend. -/
def exact (op : ArithOp) (a b : Int) : Int :=
  match op with
  | add => a + b
  | subtract => a - b
  | multiply => a * b
  | divide => a.sign * b.sign * (a.natAbs / b.natAbs : Nat)
  | remainder => a.sign * (a.natAbs % b.natAbs : Nat)

theorem exact_divide (a b : Int) : divide.exact a b = a.tdiv b := by
  unfold exact
  -- both sides change their sign with each operand, so natural numbers are left, and zeros
  obtain ⟨m, rfl | rfl⟩ := a.eq_nat_or_neg <;> obtain ⟨k, rfl | rfl⟩ := b.eq_nat_or_neg <;>
    rcases Nat.eq_zero_or_pos m with rfl | hm <;> rcases Nat.eq_zero_or_pos k with rfl | hk <;>
    simp [Int.neg_tdiv, Int.tdiv_neg, Int.sign_natCast_of_ne_zero, Nat.ne_of_gt, *]

theorem exact_remainder (a b : Int) : remainder.exact a b = a.tmod b := by
  unfold exact
  -- here the divisor's sign makes no difference to either side
  obtain ⟨m, rfl | rfl⟩ := a.eq_nat_or_neg <;> obtain ⟨k, rfl | rfl⟩ := b.eq_nat_or_neg <;>
    rcases Nat.eq_zero_or_pos m with rfl | hm <;>
    simp [Int.neg_tmod, Int.tmod_neg, Int.tmod_eq_emod_of_nonneg, Int.sign_natCast_of_ne_zero,
      Nat.ne_of_gt, *]

/-- The operations whose second operand is a divisor. -/
def divides : ArithOp → Bool
  | divide => true
  | remainder => true
  | _ => false

/-- The step has a result. -/
structure Fits (op : ArithOp) (a b : Int) : Prop where
  divisor_ne_zero : op.divides = true → b ≠ 0
  not_least_by_minus_one : op.divides = true → ¬ (a = Int64.minValue.toInt ∧ b = -1)
  inRange : Word.InRange (op.exact a b)

theorem fits_iff_of_not_divides {x y : Int} (hop : op.divides = false) :
    op.Fits x y ↔ Word.InRange (op.exact x y) := by
  refine ⟨Fits.inRange, fun h => ⟨?_, ?_, h⟩⟩ <;> simp [hop]

/-- For division and remainder alike it is the quotient that has to be in range. -/
theorem fits_iff_of_divides (hop : op.divides = true) :
    op.Fits a.toInt b.toInt ↔ b.toInt ≠ 0 ∧ Word.InRange (a.toInt.tdiv b.toInt) := by
  rw [Word.inRange_tdiv_iff]
  constructor
  · intro h
    exact ⟨h.divisor_ne_zero hop, h.not_least_by_minus_one hop⟩
  · rintro ⟨hzero, hleast⟩
    refine ⟨fun _ => hzero, fun _ => hleast, ?_⟩
    cases op with
    | divide =>
      rw [exact_divide]
      exact (Word.inRange_tdiv_iff a b).2 hleast
    | remainder =>
      rw [exact_remainder]
      exact Word.inRange_tmod a hzero
    | add | subtract | multiply => cases hop

/-- The fault of a step without result. -/
def failure (op : ArithOp) (b : Int) : Fault :=
  match op with
  | divide => if b = 0 then .divisionByZero else .integerOverflow divide.noun
  | remainder => if b = 0 then .moduloByZero else .integerOverflow remainder.noun
  | other => .integerOverflow other.noun

theorem checked_of_inRange (noun : String) {m : Int} (h : Word.InRange m) :
    ∃ c, checked noun m = .ok c ∧ c.toInt = m := by
  refine ⟨Int64.ofInt m, ?_, Word.toInt_ofInt h⟩
  rw [checked, Word.ofInt?, if_pos h]

theorem checked_of_not_inRange (noun : String) {m : Int} (h : ¬ Word.InRange m) :
    checked noun m = .error (.integerOverflow noun) := by
  rw [checked, Word.ofInt?, if_neg h]

theorem toInt_eq_zero_iff : b.toInt = 0 ↔ b = 0 := by
  rw [← Int64.toInt_inj]
  rfl

theorem apply_of_fits (h : op.Fits a.toInt b.toInt) :
    ∃ c, op.apply a b = .ok c ∧ c.toInt = op.exact a.toInt b.toInt := by
  cases op with
  | add | subtract | multiply => exact checked_of_inRange _ h.inRange
  | divide =>
    rw [apply, if_neg (toInt_eq_zero_iff.not.1 (h.divisor_ne_zero rfl)), ← exact_divide]
    exact checked_of_inRange _ h.inRange
  | remainder =>
    obtain ⟨quotient, hquotient, -⟩ :=
      checked_of_inRange remainder.noun ((fits_iff_of_divides rfl).1 h).2
    rw [apply, if_neg (toInt_eq_zero_iff.not.1 (h.divisor_ne_zero rfl)), hquotient,
      ← exact_remainder]
    exact checked_of_inRange _ h.inRange

theorem apply_of_not_fits (h : ¬ op.Fits a.toInt b.toInt) :
    op.apply a b = .error (op.failure b.toInt) := by
  cases op with
  | add | subtract | multiply =>
    rw [fits_iff_of_not_divides rfl] at h
    exact checked_of_not_inRange _ h
  | divide =>
    rw [fits_iff_of_divides rfl] at h
    rw [apply, failure]
    by_cases hzero : b.toInt = 0
    · rw [if_pos hzero, if_pos (toInt_eq_zero_iff.1 hzero)]
    · rw [if_neg hzero, if_neg (toInt_eq_zero_iff.not.1 hzero)]
      exact checked_of_not_inRange _ fun hquotient => h ⟨hzero, hquotient⟩
  | remainder =>
    rw [fits_iff_of_divides rfl] at h
    rw [apply, failure]
    by_cases hzero : b.toInt = 0
    · rw [if_pos hzero, if_pos (toInt_eq_zero_iff.1 hzero)]
    · rw [if_neg hzero, if_neg (toInt_eq_zero_iff.not.1 hzero),
        checked_of_not_inRange _ fun hquotient => h ⟨hzero, hquotient⟩]

/-! ## All steps -/

/-- The exact value of a left fold. -/
def total (op : ArithOp) (n : Int64) (ns : List Int64) : Int :=
  (ns.map Int64.toInt).foldl op.exact n.toInt

/-- Every step has a result, each applied to the exact value of those before it. -/
def StepsFit (op : ArithOp) (n : Int64) (ns : List Int64) : Prop :=
  ∀ front b behind, ns = front ++ b :: behind → op.Fits (op.total n front) b.toInt

theorem total_concat (op : ArithOp) (n b : Int64) (front : List Int64) :
    op.total n (front ++ [b]) = op.exact (op.total n front) b.toInt := by
  simp [total]

theorem stepsFit_nil (op : ArithOp) (n : Int64) : op.StepsFit n [] := by
  intro front b behind h
  simp at h

theorem stepsFit_concat_iff :
    op.StepsFit n (front ++ [b]) ↔ op.StepsFit n front ∧ op.Fits (op.total n front) b.toInt := by
  constructor
  · intro h
    refine ⟨fun first c rest hsplit => ?_, h front b [] rfl⟩
    exact h first c (rest ++ [b]) (by simp [hsplit])
  · rintro ⟨hfront, hlast⟩ first c rest hsplit
    -- the step is the last one or one of those in front of it
    rcases List.eq_nil_or_concat rest with rfl | ⟨rest, d, rfl⟩
    · obtain ⟨rfl, hbc⟩ := List.append_inj' hsplit rfl
      cases hbc
      exact hlast
    · refine hfront first c rest ?_
      have hsame : front ++ [b] = (first ++ c :: rest) ++ [d] := by simp [hsplit]
      exact (List.append_inj' hsame rfl).1

theorem fold_append (op : ArithOp) (n : Int64) (front behind : List Int64) :
    op.fold n (front ++ behind) =
      match op.fold n front with
      | .error fault => .error fault
      | .ok r => op.fold r behind := by
  induction front generalizing n with
  | nil => rfl
  | cons m front ih =>
    rw [List.cons_append, fold, fold]
    cases op.apply n m with
    | error fault => rfl
    | ok next => exact ih next

theorem fold_of_stepsFit (h : op.StepsFit n ns) :
    ∃ r, op.fold n ns = .ok r ∧ r.toInt = op.total n ns := by
  induction ns using List.reverseRecOn with
  | nil => exact ⟨n, rfl, rfl⟩
  | append_singleton front b ih =>
    obtain ⟨hfront, hlast⟩ := stepsFit_concat_iff.1 h
    obtain ⟨r, hr, htotal⟩ := ih hfront
    rw [← htotal] at hlast
    obtain ⟨c, hc, hexact⟩ := apply_of_fits hlast
    refine ⟨c, ?_, by rw [total_concat, ← htotal, hexact]⟩
    simp only [fold_append, hr, fold, hc]

/-- The first step without result decides. -/
theorem fold_of_not_fits (hfront : op.StepsFit n front)
    (h : ¬ op.Fits (op.total n front) b.toInt) (behind : List Int64) :
    op.fold n (front ++ b :: behind) = .error (op.failure b.toInt) := by
  obtain ⟨r, hr, htotal⟩ := fold_of_stepsFit hfront
  rw [← htotal] at h
  simp only [fold_append, hr, fold, apply_of_not_fits h]

theorem exists_first_of_not_stepsFit (h : ¬ op.StepsFit n ns) :
    ∃ front b behind, ns = front ++ b :: behind ∧ op.StepsFit n front ∧
      ¬ op.Fits (op.total n front) b.toInt := by
  induction ns using List.reverseRecOn with
  | nil => exact absurd (stepsFit_nil op n) h
  | append_singleton ms c ih =>
    by_cases hms : op.StepsFit n ms
    · exact ⟨ms, c, [], rfl, hms, fun hlast => h (stepsFit_concat_iff.2 ⟨hms, hlast⟩)⟩
    · obtain ⟨front, b, behind, rfl, hfront, hb⟩ := ih hms
      exact ⟨front, b, behind ++ [c], by simp, hfront, hb⟩

theorem stepsFit_of_fold {r : Int64} (h : op.fold n ns = .ok r) : op.StepsFit n ns := by
  by_contra hns
  obtain ⟨front, b, behind, rfl, hfront, hb⟩ := exists_first_of_not_stepsFit hns
  rw [fold_of_not_fits hfront hb] at h
  cases h

/-! ## All arguments -/

theorem run_numbers (op : ArithOp) (ns : List Int64) :
    op.run (ns.map .number) = (op.compute ns).map .number := by
  rw [run, operands_eq_ok_iff.2 rfl]

theorem run_eq_fold (h : op = subtract → ns ≠ []) :
    op.run ((n :: ns).map .number) = (op.fold n ns).map .number := by
  rw [run_numbers]
  cases ns with
  | nil => rw [compute, if_neg fun hop => h hop rfl, fold]
  | cons m ns => rfl

theorem run_negate (n : Int64) :
    subtract.run [.number n] = (checked "negation" (-n.toInt)).map .number :=
  run_numbers subtract [n]

theorem run_negate_of_ne (h : n ≠ Int64.minValue) :
    ∃ r, subtract.run [.number n] = .ok (.number r) ∧ r.toInt = -n.toInt := by
  obtain ⟨r, hr, hneg⟩ := checked_of_inRange "negation" ((Word.inRange_neg_iff n).2 h)
  exact ⟨r, by rw [run_negate, hr]; rfl, hneg⟩

theorem run_negate_eq_error_iff :
    subtract.run [.number n] = .error (.integerOverflow "negation") ↔ n = Int64.minValue := by
  constructor
  · intro h
    by_contra hne
    obtain ⟨r, hr, -⟩ := run_negate_of_ne hne
    rw [hr] at h
    cases h
  · intro h
    rw [run_negate, checked_of_not_inRange _ ((Word.inRange_neg_iff n).not_left.2 h)]
    rfl

theorem run_eq_total_iff (h : op = subtract → ns ≠ []) :
    (∃ r, op.run ((n :: ns).map .number) = .ok (.number r) ∧ r.toInt = op.total n ns) ↔
      op.StepsFit n ns := by
  rw [run_eq_fold h]
  constructor
  · rintro ⟨r, hr, -⟩
    obtain ⟨m, hm, -⟩ := Except.map_eq_ok_iff.1 hr
    exact stepsFit_of_fold hm
  · intro hns
    obtain ⟨r, hr, htotal⟩ := fold_of_stepsFit hns
    exact ⟨r, by rw [hr]; rfl, htotal⟩

/-! ## The main result -/

/-- The first argument that is no number is refused before anything is computed, and so is an empty
list of arguments. A lone operand of a subtraction is negated, which only the least number does not
survive. In all other cases the operation gives the exact value of the left fold if every step has a
result, and else the fault of the first step that has none. The store plays no part. -/
theorem run_is_exact_or_first_failure (op : ArithOp) (args : List Value) :
    (∀ evaluate env store,
      (Primitive.arith op).run evaluate env args store = some (op.run args, store)) ∧
    (∀ (ns : List Int64) v behind, args = ns.map .number ++ v :: behind → (∀ n, v ≠ .number n) →
      ∃ fault, op.run args = .error fault ∧ fault.kind = .typeMismatch "Number" v.typeName) ∧
    (args = [] → ∃ fault, op.run args = .error fault ∧
      fault.kind = .arityMismatch op.name 1 0) ∧
    (op = subtract → ∀ n, args = [.number n] →
      (n ≠ Int64.minValue → ∃ r, op.run args = .ok (.number r) ∧ r.toInt = -n.toInt) ∧
      (op.run args = .error (.integerOverflow "negation") ↔ n = Int64.minValue)) ∧
    ∀ n ns, args = (n :: ns).map .number → (op = subtract → ns ≠ []) →
      ((∃ r, op.run args = .ok (.number r) ∧ r.toInt = op.total n ns) ↔ op.StepsFit n ns) ∧
      ∀ front b behind, ns = front ++ b :: behind → op.StepsFit n front →
        ¬ op.Fits (op.total n front) b.toInt → op.run args = .error (op.failure b.toInt) := by
  refine ⟨fun evaluate env store => rfl, ?_, ?_, ?_, ?_⟩
  · rintro ns v behind rfl hv
    have hnone : v.number? = none :=
      Option.eq_none_iff_forall_ne_some.2 fun n hn => hv n (Value.number?_eq_some_iff.1 hn)
    refine ⟨.wrongArgumentType op.name "Number" v.typeName, ?_, rfl⟩
    rw [run, operands_eq_error_iff.2 ⟨ns, v, behind, rfl, hnone, rfl⟩]
  · rintro rfl
    exact ⟨.wrongArgumentCount op.name 1 0, rfl, rfl⟩
  · rintro rfl n rfl
    exact ⟨run_negate_of_ne, run_negate_eq_error_iff⟩
  · rintro n ns rfl hns
    refine ⟨run_eq_total_iff hns, ?_⟩
    rintro front b behind rfl hfront hb
    rw [run_eq_fold hns, fold_of_not_fits hfront hb]
    rfl

/-- A sum that leaves the range although it ends within, a remainder whose exact value is zero, the
negation of the least number, a product of three numbers, and a string behind a division by zero. -/
theorem run_is_exact_or_first_failure_at_the_ends :
    add.run [.number Int64.maxValue, .number 1, .number (-1)] =
        .error (.integerOverflow "addition") ∧
      remainder.run [.number Int64.minValue, .number (-1)] =
        .error (.integerOverflow "remainder") ∧
      subtract.run [.number Int64.minValue] = .error (.integerOverflow "negation") ∧
      (∃ r, multiply.run [.number 3, .number (-5), .number 7] = .ok (.number r) ∧
        r.toInt = -105) ∧
      ∃ fault, divide.run [.number 1, .number 0, .string "x"] = .error fault ∧
        fault.kind = .typeMismatch "Number" "String" := by
  refine ⟨?_, ?_, ?_, ?_, ?_⟩
  · obtain ⟨-, -, -, -, hfold⟩ := run_is_exact_or_first_failure add
      [.number Int64.maxValue, .number 1, .number (-1)]
    exact (hfold Int64.maxValue [1, -1] rfl (by decide)).2 [] 1 [-1] rfl (stepsFit_nil _ _)
      fun h => absurd h.inRange (by decide)
  · obtain ⟨-, -, -, -, hfold⟩ := run_is_exact_or_first_failure remainder
      [.number Int64.minValue, .number (-1)]
    exact (hfold Int64.minValue [-1] rfl (by decide)).2 [] (-1) [] rfl (stepsFit_nil _ _)
      fun h => h.not_least_by_minus_one rfl ⟨rfl, by decide⟩
  · obtain ⟨-, -, -, hnegate, -⟩ := run_is_exact_or_first_failure subtract
      [.number Int64.minValue]
    exact (hnegate rfl Int64.minValue rfl).2.2 rfl
  · obtain ⟨-, -, -, -, hfold⟩ := run_is_exact_or_first_failure multiply
      [.number 3, .number (-5), .number 7]
    have hfits : multiply.StepsFit 3 ([] ++ [-5] ++ [7]) := by
      rw [stepsFit_concat_iff, stepsFit_concat_iff, fits_iff_of_not_divides rfl,
        fits_iff_of_not_divides rfl]
      exact ⟨⟨stepsFit_nil _ _, by decide⟩, by decide⟩
    exact (hfold 3 [-5, 7] rfl (by decide)).1.2 hfits
  · obtain ⟨-, htypes, -⟩ := run_is_exact_or_first_failure divide
      [.number 1, .number 0, .string "x"]
    exact htypes [1, 0] (.string "x") [] rfl (by simp)

end ArithOp

end QuoteLisp
