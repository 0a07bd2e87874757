import Mathlib.Data.Nat.Digits.Lemmas
import QuoteLisp.Proofs.Exactness
import QuoteLisp.Proofs.Munch

/-!
# Number literals

A numeral has any number of digits, zeros in front included, and its value is that of its digits at
their places (`Word.decimal`). Reading finds exactly this value where it is a machine number, and
otherwise refuses the numeral with its own text (`Value.IsExact`). The digits can also be taken up
one by one in machine numbers (`Word.accumulate?`): a step of this loop leaves the range only if the
whole value does, since no later digit leads back (`Word.ofInt?_signed_eq_none_of_le`).
-/

namespace QuoteLisp

namespace Word

variable {negative : Bool} {n : Int64} {m m' : Nat} {cs ds : List Char}

/-! ## Values by place -/

/-- What a decimal digit counts at the last place. -/
def digit (c : Char) : Nat := c.toNat - '0'.toNat

/-- The value of decimal digits: the last counts ones, the one in front of it tens, and so on. -/
def places (ds : List Char) : Nat := Nat.ofDigits 10 (ds.reverse.map digit)

/-- A size on one side of zero. -/
def signed (negative : Bool) (m : Nat) : Int := if negative then -(m : Int) else m

/-- The exact value of a numeral. -/
def decimal (cs : List Char) : Int :=
  if cs.head? = some '-' then signed true (places cs.tail) else signed false (places cs)

theorem places_cons (d : Char) (ds : List Char) :
    places (d :: ds) = places ds + 10 ^ ds.length * digit d := by
  unfold places
  rw [List.map_reverse, List.map_cons, Nat.ofDigits_reverse_cons, List.length_map,
    ← List.map_reverse]

theorem ofDigitChars_eq_places (ds : List Char) : Nat.ofDigitChars 10 ds 0 = places ds := by
  induction ds with
  | nil => rfl
  | cons d ds ih =>
    rw [Nat.ofDigitChars_cons, Nat.ofDigitChars_eq_ofDigitChars_zero, ih, places_cons, Nat.mul_zero,
      Nat.zero_add, Nat.add_comm]
    rfl

theorem head?_ne_minus (hds : ∀ d ∈ ds, d.isDigit = true) : ds.head? ≠ some '-' := by
  intro h
  have hminus := hds '-' (List.mem_of_head? h)
  exact absurd hminus (by decide)

theorem natural?_eq_places (hne : ds ≠ []) (hds : ∀ d ∈ ds, d.isDigit = true) :
    natural? ds = some (places ds) := by
  unfold natural?
  rw [if_pos (by simpa [hne] using hds), ofDigitChars_eq_places]

theorem integer?_eq_decimal (h : IsDecimal cs) : integer? cs = some (decimal cs) := by
  obtain ⟨ds, hne, hds, rfl | rfl⟩ := h
  · have hminus := head?_ne_minus hds
    unfold decimal
    rw [if_neg hminus]
    obtain ⟨d, ds, rfl⟩ := List.exists_cons_of_ne_nil hne
    have hplus : d ≠ '+' := by
      rintro rfl
      exact absurd (hds '+' List.mem_cons_self) (by decide)
    rw [integer?, if_neg (by simpa using hminus), if_neg hplus, natural?_eq_places hne hds]
    rfl
  · rw [integer?, if_pos rfl, natural?_eq_places hne hds]
    rfl

/-! ## Machine numbers -/

theorem inRange_iff {d : Int} : InRange d ↔ -2 ^ 63 ≤ d ∧ d ≤ 2 ^ 63 - 1 := by
  unfold InRange
  rw [Int64.toInt_minValue, Int64.toInt_maxValue]

theorem ofInt?_eq_some_iff {d : Int} : ofInt? d = some n ↔ n.toInt = d := by
  constructor
  · intro h
    unfold ofInt? at h
    split at h
    · rename_i hd
      rw [← Option.some.inj h]
      exact toInt_ofInt hd
    · cases h
  · rintro rfl
    exact ofInt?_toInt n

theorem ofInt?_eq_none_iff {d : Int} : ofInt? d = none ↔ ¬ InRange d := by
  unfold ofInt?
  split <;> simp_all

/-- A numeral is read as the machine number of exactly its value. -/
theorem parse?_eq_ofInt?_decimal (h : IsDecimal cs) : parse? cs = ofInt? (decimal cs) := by
  rw [parse?, integer?_eq_decimal h, Option.bind_some]

/-- A numeral that is no machine number stands for an integer out of range. -/
theorem exists_not_inRange (hnumeral : isNumeral cs = true) (hrange : parse? cs = none) :
    ∃ d, integer? cs = some d ∧ ¬ InRange d := by
  have h := isNumeral_iff.1 hnumeral
  rw [parse?_eq_ofInt?_decimal h, ofInt?_eq_none_iff] at hrange
  exact ⟨decimal cs, integer?_eq_decimal h, hrange⟩

/-! ## Digit by digit -/

/-- A machine number with one more digit behind it, on the same side of zero. Each of the two steps
has to stay in range. -/
def push? (negative : Bool) (n : Int64) (c : Char) : Option Int64 :=
  (ofInt? (n.toInt * 10)).bind fun tens => ofInt? (tens.toInt + signed negative (digit c))

/-- Takes up digits behind a machine number, up to the first step that leaves the range. -/
def accumulate? (negative : Bool) (n : Int64) : List Char → Option Int64
  | [] => some n
  | c :: cs => (push? negative n c).bind fun next => accumulate? negative next cs

/-- On either side of zero the machine numbers go on without a gap. -/
theorem inRange_signed_of_le (hle : m ≤ m') (h : InRange (signed negative m')) :
    InRange (signed negative m) := by
  unfold InRange signed at *
  rw [Int64.toInt_minValue, Int64.toInt_maxValue] at *
  cases negative <;> simp only [if_true, if_false, Bool.false_eq_true] at * <;> omega

/-- What leaves the range is not led back by a larger size. -/
theorem ofInt?_signed_eq_none_of_le (hle : m ≤ m') (h : ofInt? (signed negative m) = none) :
    ofInt? (signed negative m') = none := by
  rw [ofInt?_eq_none_iff] at h ⊢
  exact mt (inRange_signed_of_le hle) h

theorem le_ofDigitChars (ds : List Char) (m : Nat) : m ≤ Nat.ofDigitChars 10 ds m := by
  have hpos : 0 < 10 ^ ds.length := Nat.pow_pos (by omega)
  rw [Nat.ofDigitChars_eq_ofDigitChars_zero]
  exact Nat.le_add_right_of_le (Nat.le_mul_of_pos_left m hpos)

/-- One more digit is taken up exactly if the value that it makes is in range. -/
theorem push?_eq_ofInt? (hn : n.toInt = signed negative m) (c : Char) :
    push? negative n c = ofInt? (signed negative (10 * m + digit c)) := by
  have htens : n.toInt * 10 = signed negative (10 * m) := by
    rw [hn]
    unfold signed
    split <;> omega
  have hsum : signed negative (10 * m) + signed negative (digit c) =
      signed negative (10 * m + digit c) := by
    unfold signed
    split <;> omega
  unfold push?
  rw [htens]
  cases h : ofInt? (signed negative (10 * m)) with
  | some tens => rw [Option.bind_some, ofInt?_eq_some_iff.1 h, hsum]
  | none => exact (ofInt?_signed_eq_none_of_le (Nat.le_add_right _ _) h).symm

/-- The loop ends with the exact value of all digits, or refuses it if it is out of range. -/
theorem accumulate?_eq_ofInt? (hn : n.toInt = signed negative m) (ds : List Char) :
    accumulate? negative n ds = ofInt? (signed negative (Nat.ofDigitChars 10 ds m)) := by
  induction ds generalizing n m with
  | nil => exact (ofInt?_eq_some_iff.2 hn).symm
  | cons d ds ih =>
    rw [accumulate?, push?_eq_ofInt? hn, Nat.ofDigitChars_cons]
    cases h : ofInt? (signed negative (10 * m + digit d)) with
    | some next => exact ih (ofInt?_eq_some_iff.1 h)
    -- a value out of range stays so, whatever digits follow
    | none => exact (ofInt?_signed_eq_none_of_le (le_ofDigitChars ds _) h).symm

/-- Reads a numeral digit by digit. -/
def loop? (cs : List Char) : Option Int64 :=
  if cs.head? = some '-' then accumulate? true 0 cs.tail else accumulate? false 0 cs

theorem parse?_eq_loop? (h : IsDecimal cs) : parse? cs = loop? cs := by
  have hzero : ∀ negative, (0 : Int64).toInt = signed negative 0 := by decide
  rw [parse?_eq_ofInt?_decimal h]
  unfold decimal loop?
  split
  · rw [accumulate?_eq_ofInt? (hzero true), ofDigitChars_eq_places]
  · rw [accumulate?_eq_ofInt? (hzero false), ofDigitChars_eq_places]

/-! ## Written numbers -/

theorem isDecimal_digits (n : Int64) : IsDecimal (digits n) :=
  isNumeral_iff.1 (isNumeral_digits n)

theorem decimal_digits (n : Int64) : decimal (digits n) = n.toInt := by
  have hvalue := integer?_eq_decimal (isDecimal_digits n)
  rw [integer?_digits] at hvalue
  exact (Option.some.inj hvalue).symm

end Word

/-! ## Literals -/

/-- The value is what a numeral stands for: the number of exactly its decimal value if that is a
machine number, with both bounds, and otherwise the error that carries the numeral. -/
structure Value.IsExact (numeral : String) (v : Value) : Prop where
  exact : ∀ n : Int64, v = .number n ↔ n.toInt = Word.decimal numeral.toList
  number : (∃ n, v = .number n) ↔
    -2 ^ 63 ≤ Word.decimal numeral.toList ∧ Word.decimal numeral.toList ≤ 2 ^ 63 - 1
  error : v = .ofFault (.invalidNumberLiteral numeral) ↔
    ¬ (-2 ^ 63 ≤ Word.decimal numeral.toList ∧ Word.decimal numeral.toList ≤ 2 ^ 63 - 1)

theorem Value.isExact_ofNumeral {numeral : String} (h : IsDecimal numeral.toList) :
    (ofNumeral numeral).IsExact numeral := by
  rw [ofNumeral, Word.parse?_eq_ofInt?_decimal h]
  cases hvalue : Word.ofInt? (Word.decimal numeral.toList) with
  | some n =>
    have hn := Word.ofInt?_eq_some_iff.1 hvalue
    have hrange := Word.inRange_iff.1 (Word.inRange_toInt n)
    rw [hn] at hrange
    refine ⟨fun m => ?_, iff_of_true ⟨n, rfl⟩ hrange,
      iff_of_false Value.noConfusion (not_not_intro hrange)⟩
    rw [Value.number.injEq, ← hn, Int64.toInt_inj, eq_comm]
  | none =>
    have hout := Word.ofInt?_eq_none_iff.1 hvalue
    have hrange := mt Word.inRange_iff.2 hout
    refine ⟨fun m => iff_of_false Value.noConfusion fun hm => ?_,
      iff_of_false (fun hnumber => hnumber.elim fun _ => Value.noConfusion) hrange,
      iff_of_true rfl hrange⟩
    exact hout (hm ▸ Word.inRange_toInt m)

/-- A numeral that stands alone is one token. -/
theorem Token.lex_numeral {numeral : String} (h : IsDecimal numeral.toList) :
    lex numeral = .ok [⟨.number, numeral, ⟨0, byteLength numeral.toList⟩⟩] := by
  have hnumeral := isNumeral_iff.2 h
  have hword := all_isWordChar_of_isNumeral hnumeral
  have htoken : Lexeme.toToken ⟨.number, numeral.toList⟩ 0 =
      ⟨.number, numeral, ⟨0, byteLength numeral.toList⟩⟩ := by
    unfold Lexeme.toToken
    rw [String.ofList_toList, Nat.zero_add]
  rw [← htoken]
  unfold lex
  generalize numeral.toList = cs at *
  cases cs with
  | nil => cases hnumeral
  | cons c cs =>
    have hblank := isBlank_of_isWordChar (List.all_eq_true.1 hword c List.mem_cons_self)
    have hscan := Lexeme.scan_word hword endsWord_nil
    rw [if_pos hnumeral] at hscan
    exact (lexesTo_of_scan hblank hscan 0).lexFrom_eq_ok

theorem readSource_numeral {numeral : String} (h : IsDecimal numeral.toList) :
    readSource numeral = .ok [.ofNumeral numeral] := by
  refine readSource_eq_ok_iff.2 ⟨_, lexes_of_lexFrom (Token.lex_numeral h), .atom ?_ .nil⟩
  exact congrArg (fun text => some (Value.ofNumeral text)) String.ofList_toList

/-- Number literals are exact, whatever their length. Every number token of a source is a numeral
and reads as what that stands for. Every numeral is such a token, and is read as if its digits were
taken up one by one in machine numbers. Every number prints as a numeral that reads back. -/
theorem numerals_read_exactly :
    (∀ source tokens, Token.lex source = .ok tokens → ∀ token ∈ tokens, token.kind = .number →
      IsDecimal token.text.toList ∧
        ∃ v, (Node.ofToken token).read = some v ∧ v.IsExact token.text) ∧
    (∀ numeral : String, IsDecimal numeral.toList →
      Token.lex numeral = .ok [⟨.number, numeral, ⟨0, byteLength numeral.toList⟩⟩] ∧
        (∃ v, readSource numeral = .ok [v] ∧ v.IsExact numeral) ∧
        Word.parse? numeral.toList = Word.loop? numeral.toList) ∧
    ∀ n : Int64,
      Token.lex (Value.number n).text =
        .ok [⟨.number, (Value.number n).text, ⟨0, byteLength (Value.number n).text.toList⟩⟩] ∧
      readSource (Value.number n).text = .ok [.number n] := by
  refine ⟨fun source tokens hlex token htoken hkind => ?_, fun numeral h => ?_, fun n => ?_⟩
  · have haccepts := Token.accepts_of_mem_lex hlex token htoken
    rw [hkind] at haccepts
    have hdecimal := isNumeral_iff.1 haccepts
    refine ⟨hdecimal, _, ?_, Value.isExact_ofNumeral hdecimal⟩
    unfold Node.ofToken
    rw [hkind]
    rfl
  · have hexact := Value.isExact_ofNumeral h
    exact ⟨Token.lex_numeral h, ⟨_, readSource_numeral h, hexact⟩, Word.parse?_eq_loop? h⟩
  · have hchars : (Value.number n).text.toList = Word.digits n := String.toList_ofList
    have hdecimal : IsDecimal (Value.number n).text.toList := hchars ▸ Word.isDecimal_digits n
    have hvalue : n.toInt = Word.decimal (Value.number n).text.toList := by
      rw [hchars, Word.decimal_digits]
    refine ⟨Token.lex_numeral hdecimal, ?_⟩
    rw [readSource_numeral hdecimal, ((Value.isExact_ofNumeral hdecimal).exact n).2 hvalue]

/-- The least number behind zeros, and the one below it as an operand. -/
theorem numerals_read_exactly_at_the_end :
    let below : Token := ⟨.number, "-9223372036854775809", ⟨3, 23⟩⟩
    Token.lex "(+ -9223372036854775809)" =
      .ok [⟨.opening .round, "(", ⟨0, 1⟩⟩, ⟨.symbol, "+", ⟨1, 2⟩⟩, below,
        ⟨.closing .round, ")", ⟨23, 24⟩⟩] ∧
    (Node.ofToken below).read = some (.ofFault (.invalidNumberLiteral below.text)) ∧
    IsDecimal "-0009223372036854775808".toList ∧
    readSource "-0009223372036854775808" = .ok [.number Int64.minValue] := by
  intro below
  have hlex : Token.lex "(+ -9223372036854775809)" =
      .ok [⟨.opening .round, "(", ⟨0, 1⟩⟩, ⟨.symbol, "+", ⟨1, 2⟩⟩, below,
        ⟨.closing .round, ")", ⟨23, 24⟩⟩] := Except.eq_ok_of_toOption (by decide +kernel)
  have hdecimal : IsDecimal "-0009223372036854775808".toList :=
    isNumeral_iff.1 (by decide +kernel)
  have hbelow : ¬ (-2 ^ 63 ≤ Word.decimal below.text.toList ∧
      Word.decimal below.text.toList ≤ 2 ^ 63 - 1) := by decide +kernel
  have hleast : Int64.minValue.toInt = Word.decimal "-0009223372036854775808".toList := by
    decide +kernel
  obtain ⟨-, v, hv, hexact⟩ := numerals_read_exactly.1 _ _ hlex below (by simp) rfl
  obtain ⟨-, ⟨w, hw, hexact'⟩, -⟩ := numerals_read_exactly.2.1 _ hdecimal
  rw [hexact.error.2 hbelow] at hv
  rw [(hexact'.exact _).2 hleast] at hw
  exact ⟨hlex, hv, hdecimal, hw⟩

end QuoteLisp
