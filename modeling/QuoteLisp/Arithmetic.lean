import QuoteLisp.Value
import QuoteLisp.Word

/-!
# Arithmetic

Every operation works on exact integers and reports a result that is no machine number. The operands
are taken from left to right, so the first step that fails decides the error.
-/

namespace QuoteLisp

namespace ArithOp

/-- What the operation is called when its result is too large. -/
def noun : ArithOp → String
  | add => "addition"
  | subtract => "subtraction"
  | multiply => "multiplication"
  | divide => "division"
  | remainder => "remainder"

/-- The machine number that is exactly `n`, or an overflow in the operation called `noun`. -/
def checked (noun : String) (n : Int) : Except Fault Int64 :=
  match Word.ofInt? n with
  | some w => .ok w
  | none => .error (.integerOverflow noun)

/-- One step. Division truncates toward zero, and a remainder has the sign of the dividend; where
the quotient is too large the remainder is refused as well. -/
def apply (op : ArithOp) (a b : Int64) : Except Fault Int64 :=
  match op with
  | add => checked add.noun (a.toInt + b.toInt)
  | subtract => checked subtract.noun (a.toInt - b.toInt)
  | multiply => checked multiply.noun (a.toInt * b.toInt)
  | divide => if b = 0 then .error .divisionByZero else checked divide.noun (a.toInt.tdiv b.toInt)
  | remainder =>
    if b = 0 then .error .moduloByZero
    else
      match checked remainder.noun (a.toInt.tdiv b.toInt) with
      | .error fault => .error fault
      | .ok _ => checked remainder.noun (a.toInt.tmod b.toInt)

/-- Applies the operation to a first operand and the remaining ones in turn. -/
def fold (op : ArithOp) (first : Int64) : List Int64 → Except Fault Int64
  | [] => .ok first
  | n :: ns =>
    match op.apply first n with
    | .error fault => .error fault
    | .ok next => fold op next ns

/-- The operands as numbers, or the fault of the first that is none. -/
def operands (op : ArithOp) : List Value → Except Fault (List Int64)
  | [] => .ok []
  | v :: vs =>
    match v.number? with
    | none => .error (.wrongArgumentType op.name "Number" v.typeName)
    | some n =>
      match operands op vs with
      | .error fault => .error fault
      | .ok ns => .ok (n :: ns)

/-- The result of the operation on numbers. A lone operand of a subtraction is negated. -/
def compute (op : ArithOp) : List Int64 → Except Fault Int64
  | [] => .error (.wrongArgumentCount op.name 1 0)
  | [n] => if op = subtract then checked "negation" (-n.toInt) else .ok n
  | n :: ns => op.fold n ns

/-- The result of the operation on any arguments. -/
def run (op : ArithOp) (args : List Value) : Except Fault Value :=
  match op.operands args with
  | .error fault => .error fault
  | .ok ns => (op.compute ns).map Value.number

end ArithOp

end QuoteLisp
