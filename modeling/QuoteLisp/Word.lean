/-!
# Machine numbers and their decimal text

The numbers of the language are 64-bit signed integers. `Word.ofInt?` takes an exact integer back to
them, `Word.digits` writes one and `Word.parse?` reads one.
-/

namespace QuoteLisp

namespace Word

/-- Whether an exact integer is a 64-bit signed one. -/
def InRange (n : Int) : Prop := Int64.minValue.toInt ≤ n ∧ n ≤ Int64.maxValue.toInt

instance (n : Int) : Decidable (InRange n) := inferInstanceAs (Decidable (_ ∧ _))

/-- The machine number that is exactly `n`, if there is one. -/
def ofInt? (n : Int) : Option Int64 := if InRange n then some (Int64.ofInt n) else none

/-- The decimal text of a number, without leading zeros or a plus sign. -/
def digits (n : Int64) : List Char :=
  match n.toInt with
  | .ofNat m => Nat.toDigits 10 m
  | .negSucc m => '-' :: Nat.toDigits 10 (m + 1)

/-- The value of one or more decimal digits. -/
def natural? (cs : List Char) : Option Nat :=
  if !cs.isEmpty && cs.all Char.isDigit then some (Nat.ofDigitChars 10 cs 0) else none

/-- The value of decimal digits behind at most one sign. -/
def integer? : List Char → Option Int
  | [] => none
  | c :: cs =>
    if c = '-' then (natural? cs).map fun n => -(n : Int)
    else if c = '+' then (natural? cs).map fun n => (n : Int)
    else (natural? (c :: cs)).map fun n => (n : Int)

/-- Reads a decimal text. Texts of another form, and values outside the range, are refused. -/
def parse? (cs : List Char) : Option Int64 := (integer? cs).bind ofInt?

end Word

end QuoteLisp
