import QuoteLisp.Proofs.Lexing
import QuoteLisp.Text.Quoted
import QuoteLisp.Word

/-!
# Literals

Numbers and strings survive being written and read: `Word.parse?_digits` for the decimal text of a
machine number, `Quoted.unquote_quote` for the literal of a text. Both written forms are single
tokens for the lexer: a word is one in front of anything that ends it (`Lexeme.scan_word`), and a
string literal in front of anything (`Lexeme.scan_quote`).
-/

namespace QuoteLisp

/-! ## Numbers -/

namespace Word

theorem natural?_toDigits (m : Nat) : natural? (Nat.toDigits 10 m) = some m := by
  have hempty : (Nat.toDigits 10 m).isEmpty = false :=
    List.isEmpty_eq_false_iff.2 Nat.toDigits_ne_nil
  have hdigits : (Nat.toDigits 10 m).all Char.isDigit = true :=
    List.all_eq_true.2 fun c hc => Nat.isDigit_of_mem_toDigits (by omega) (by omega) hc
  rw [natural?, hempty, hdigits, Nat.ofDigitChars_ten_toDigits]
  rfl

/-- The decimal text of a natural number starts with a digit and goes on with digits. -/
theorem toDigits_eq_cons (m : Nat) :
    ∃ c cs, Nat.toDigits 10 m = c :: cs ∧ c.isDigit = true ∧ cs.all Char.isDigit = true := by
  obtain ⟨c, cs, hcs⟩ := List.exists_cons_of_ne_nil (Nat.toDigits_ne_nil (n := m) (b := 10))
  have hdigit : ∀ d ∈ c :: cs, d.isDigit = true := fun d hd =>
    Nat.isDigit_of_mem_toDigits (by omega) (by omega) (hcs ▸ hd)
  exact ⟨c, cs, hcs, hdigit c List.mem_cons_self,
    List.all_eq_true.2 fun d hd => hdigit d (List.mem_cons_of_mem _ hd)⟩

theorem integer?_digits (n : Int64) : integer? (digits n) = some n.toInt := by
  unfold digits
  split <;> rename_i m hm
  · obtain ⟨c, cs, hcs, hc, -⟩ := toDigits_eq_cons m
    have hminus : c ≠ '-' := by rintro rfl; exact absurd hc (by decide)
    have hplus : c ≠ '+' := by rintro rfl; exact absurd hc (by decide)
    have hnatural := natural?_toDigits m
    rw [hcs] at hnatural ⊢
    rw [integer?, if_neg hminus, if_neg hplus, hnatural, hm]
    rfl
  · rw [integer?, if_pos rfl, natural?_toDigits, hm]
    rfl

theorem inRange_toInt (n : Int64) : InRange n.toInt := ⟨n.minValue_le_toInt, n.toInt_le⟩

theorem ofInt?_toInt (n : Int64) : ofInt? n.toInt = some n := by
  rw [ofInt?, if_pos (inRange_toInt n), Int64.ofInt_toInt]

/-- A number reads back from its decimal text. -/
theorem parse?_digits (n : Int64) : parse? (digits n) = some n := by
  rw [parse?, integer?_digits, Option.bind_some, ofInt?_toInt]

theorem isNumeral_digits (n : Int64) : isNumeral (digits n) = true := by
  unfold digits
  split <;> rename_i m _
  · obtain ⟨c, cs, hcs, hc, hall⟩ := toDigits_eq_cons m
    have hminus : c ≠ '-' := by rintro rfl; exact absurd hc (by decide)
    rw [hcs, isNumeral, if_neg hminus, List.all_cons, hc, hall]
    rfl
  · obtain ⟨c, cs, hcs, hc, hall⟩ := toDigits_eq_cons (m + 1)
    rw [hcs, isNumeral, if_pos rfl, List.all_cons, hc, hall]
    rfl

end Word

/-! ## Words -/

/-- A text that can stand behind a word without becoming part of it. -/
def EndsWord (rest : List Char) : Prop := ∀ c ∈ rest.head?, isWordChar c = false

theorem endsWord_nil : EndsWord [] := by
  intro c hc
  cases hc

theorem endsWord_cons {c : Char} (h : isWordChar c = false) (rest : List Char) :
    EndsWord (c :: rest) := by
  intro d hd
  cases hd
  exact h

theorem isWordChar_of_isDigit {c : Char} (h : c.isDigit = true) : isWordChar c = true := by
  simp [isWordChar, Char.isAlphanum, h]

theorem all_isWordChar_of_isNumeral {cs : List Char} (h : isNumeral cs = true) :
    cs.all isWordChar = true := by
  have hdigits : ∀ ds : List Char, ds.all Char.isDigit = true → ds.all isWordChar = true :=
    fun ds hds => List.all_eq_true.2 fun d hd => isWordChar_of_isDigit (List.all_eq_true.1 hds d hd)
  cases cs with
  | nil => rfl
  | cons c cs =>
    rw [isNumeral] at h
    split at h
    · rename_i hc
      rw [Bool.and_eq_true] at h
      rw [List.all_cons, hc, hdigits cs h.2]
      rfl
    · exact hdigits (c :: cs) h

namespace Lexeme

theorem takeWhile_word {cs rest : List Char} (hcs : cs.all isWordChar = true)
    (hrest : EndsWord rest) : (cs ++ rest).takeWhile isWordChar = cs := by
  rw [List.takeWhile_append_of_pos (List.all_eq_true.1 hcs)]
  cases rest with
  | nil => simp
  | cons c rest => simp [hrest c rfl]

theorem dropWhile_word {cs rest : List Char} (hcs : cs.all isWordChar = true)
    (hrest : EndsWord rest) : (cs ++ rest).dropWhile isWordChar = rest := by
  rw [List.dropWhile_append_of_pos (List.all_eq_true.1 hcs)]
  cases rest with
  | nil => rfl
  | cons c rest => simp [hrest c rfl]

/-- A word in front of a text that ends it is scanned whole. -/
theorem scan_word {c : Char} {cs rest : List Char} (hword : (c :: cs).all isWordChar = true)
    (hrest : EndsWord rest) :
    scan c (cs ++ rest) =
      .ok (⟨if isNumeral (c :: cs) then .number else .symbol, c :: cs⟩, rest) := by
  rw [List.all_cons, Bool.and_eq_true] at hword
  obtain ⟨hc, hcs⟩ := hword
  have hne : ∀ d : Char, isWordChar d = false → c ≠ d := by
    rintro d hd rfl
    rw [hc] at hd
    cases hd
  rw [scan, if_neg (hne _ (by decide)), if_neg (hne _ (by decide)), if_neg (hne _ (by decide)),
    if_neg (hne _ (by decide)), if_neg (hne _ (by decide)), if_neg (hne _ (by decide)), if_pos hc,
    takeWhile_word hcs hrest, dropWhile_word hcs hrest]

end Lexeme

/-! ## Character codes -/

namespace Quoted

theorem hexFrom?_append (high : Nat) (cs ds : List Char) :
    hexFrom? high (cs ++ ds) = (hexFrom? high cs).bind fun value => hexFrom? value ds := by
  induction cs generalizing high with
  | nil => rfl
  | cons c cs ih =>
    rw [List.cons_append, hexFrom?, hexFrom?]
    cases hexDigit? c with
    | none => rfl
    | some d => exact ih _

theorem hexDigit?_digitChar {d : Nat} (hd : d < 16) : hexDigit? d.digitChar = some d := by
  have hall : ∀ d : Fin 16, hexDigit? d.val.digitChar = some d.val := by decide
  exact hall ⟨d, hd⟩

theorem hexFrom?_toDigits (n : Nat) : hexFrom? 0 (Nat.toDigits 16 n) = some n := by
  induction n using Nat.strongRecOn with
  | ind n ih =>
    rw [Nat.toDigits_eq_if (by omega)]
    split
    · rename_i hlt
      rw [hexFrom?, hexDigit?_digitChar hlt]
      simp [hexFrom?]
    · rename_i hge
      rw [hexFrom?_append, ih (n / 16) (by omega), Option.bind_some, hexFrom?,
        hexDigit?_digitChar (Nat.mod_lt n (by omega))]
      simp only [Option.bind_some, hexFrom?, Nat.div_add_mod]

/-- Every character of a hexadecimal text is a hexadecimal digit. -/
theorem isSome_hexDigit?_of_mem_toDigits {n : Nat} {c : Char} (hc : c ∈ Nat.toDigits 16 n) :
    (hexDigit? c).isSome = true := by
  induction n using Nat.strongRecOn with
  | ind n ih =>
    rw [Nat.toDigits_eq_if (by omega)] at hc
    split at hc
    · rename_i hlt
      rw [List.mem_singleton.1 hc, hexDigit?_digitChar hlt]
      rfl
    · rename_i hge
      rcases List.mem_append.1 hc with hc | hc
      · exact ih (n / 16) (by omega) hc
      · rw [List.mem_singleton.1 hc, hexDigit?_digitChar (Nat.mod_lt n (by omega))]
        rfl

theorem ne_of_mem_toDigits {n : Nat} {c d : Char} (hc : c ∈ Nat.toDigits 16 n)
    (hd : hexDigit? d = none) : c ≠ d := by
  rintro rfl
  have := isSome_hexDigit?_of_mem_toDigits hc
  rw [hd] at this
  cases this

theorem hex?_toDigits (n : Nat) : hex? (Nat.toDigits 16 n) = some n := by
  obtain ⟨c, cs, hcs⟩ := List.exists_cons_of_ne_nil (Nat.toDigits_ne_nil (n := n) (b := 16))
  have hplus : c ≠ '+' := ne_of_mem_toDigits (hcs ▸ List.mem_cons_self) (by decide)
  rw [hcs, hex?, if_neg (fun h => hplus h.1), ← hcs, hexFrom?_toDigits]

theorem scalar?_toNat (c : Char) : scalar? c.toNat = some c := by
  have hvalid : c.toNat.isValidChar := c.valid
  rw [scalar?, if_pos hvalid, Char.ofNat_toNat]

/-- A character code is read up to the first bracket that closes, whatever follows it. -/
theorem codePoint?_of_hex {hex : List Char} {scalar : Char} (hclose : '\x7d' ∉ hex)
    (hscalar : (hex? hex).bind scalar? = some scalar) (rest : List Char) :
    codePoint? ('\x7b' :: (hex ++ '\x7d' :: rest)) = some (scalar, rest) := by
  have hinner : ∀ d ∈ hex, (d != '\x7d') = true := fun d hd => by
    simpa using ne_of_mem_of_not_mem hd hclose
  rw [codePoint?, if_pos rfl, List.dropWhile_append_of_pos hinner,
    List.takeWhile_append_of_pos hinner]
  simp [hscalar]

theorem codePoint?_code (c : Char) (rest : List Char) :
    codePoint? ('\x7b' :: (Nat.toDigits 16 c.toNat ++ '\x7d' :: rest)) = some (c, rest) := by
  apply codePoint?_of_hex
  · exact fun hclose => ne_of_mem_toDigits hclose (by decide) rfl
  · rw [hex?_toDigits, Option.bind_some, scalar?_toNat]

/-! ## String literals -/

theorem unescape_of_plain {c : Char} (hc : c ≠ '\\') (rest : List Char) :
    unescape (c :: rest) = c :: unescape rest := by
  rw [unescape.eq_def]
  simp only [if_neg hc]

theorem unescape_of_escaped {c : Char} (hc : c ≠ 'u') (rest : List Char) :
    unescape ('\\' :: c :: rest) = escaped c :: unescape rest := by
  rw [unescape.eq_def]
  simp only [if_true, if_neg hc]

theorem unescape_of_codePoint {c : Char} {cs rest : List Char}
    (h : codePoint? cs = some (c, rest)) :
    unescape ('\\' :: 'u' :: cs) = c :: unescape rest := by
  rw [unescape.eq_def]
  simp only [if_true]
  split
  · rename_i h'
    rw [h] at h'
    cases h'
    rfl
  · rename_i h'
    rw [h] at h'
    cases h'

theorem unescape_of_malformed {cs : List Char} (h : codePoint? cs = none) :
    unescape ('\\' :: 'u' :: cs) = 'u' :: unescape cs := by
  rw [unescape.eq_def]
  simp only [if_true]
  split
  · rename_i h'
    rw [h] at h'
    cases h'
  · rfl

/-- The ways in which a character can be written between quotes. -/
theorem escape_cases (c : Char) :
    (∃ d, escape c = ['\\', d] ∧ escaped d = c ∧ d ≠ 'u' ∧ d ≠ '\n') ∨
    escape c = '\\' :: 'u' :: '\x7b' :: Nat.toDigits 16 c.toNat ++ ['\x7d'] ∨
    escape c = [c] ∧ c ≠ '"' ∧ c ≠ '\\' := by
  unfold escape
  split
  · rename_i hc
    exact .inl ⟨'"', rfl, by rw [hc]; rfl, by decide, by decide⟩
  split
  · rename_i hc
    exact .inl ⟨'\\', rfl, by rw [hc]; rfl, by decide, by decide⟩
  split
  · rename_i hc
    exact .inl ⟨'n', rfl, by rw [hc]; rfl, by decide, by decide⟩
  split
  · rename_i hc
    exact .inl ⟨'t', rfl, by rw [hc]; rfl, by decide, by decide⟩
  split
  · rename_i hc
    exact .inl ⟨'r', rfl, by rw [hc]; rfl, by decide, by decide⟩
  split
  · rename_i hc
    exact .inl ⟨'0', rfl, by rw [hc]; rfl, by decide, by decide⟩
  split
  · exact .inr (.inl rfl)
  · rename_i hquote hslash _ _ _ _ _
    exact .inr (.inr ⟨rfl, hquote, hslash⟩)

theorem unescape_escape_append (c : Char) (rest : List Char) :
    unescape (escape c ++ rest) = c :: unescape rest := by
  rcases escape_cases c with ⟨d, hescape, hd, hu, -⟩ | hescape | ⟨hescape, -, hslash⟩
  · rw [hescape, List.cons_append, List.singleton_append, unescape_of_escaped hu, hd]
  · rw [hescape]
    have hcode := codePoint?_code c rest
    simpa using unescape_of_codePoint hcode
  · rw [hescape, List.singleton_append, unescape_of_plain hslash]

theorem unescape_flatMap_escape (cs : List Char) : unescape (cs.flatMap escape) = cs := by
  induction cs with
  | nil => rw [List.flatMap_nil, unescape]
  | cons c cs ih => rw [List.flatMap_cons, unescape_escape_append, ih]

/-- Of a text in quotes exactly the outer quotes are taken off. -/
theorem stripQuotes_quoted (inner : List Char) : stripQuotes ('"' :: (inner ++ ['"'])) = inner := by
  rw [stripQuotes, if_pos ⟨rfl, List.getLast?_concat⟩, List.dropLast_concat]

theorem stripQuotes_quote (cs : List Char) : stripQuotes (quote cs) = cs.flatMap escape :=
  stripQuotes_quoted (cs.flatMap escape)

/-- A text reads back from its literal. -/
theorem unquote_quote (cs : List Char) : unquote (quote cs) = cs := by
  rw [unquote, stripQuotes_quote, unescape_flatMap_escape]

theorem stringPieces_plain_append {cs : List Char} (hcs : ∀ c ∈ cs, c ≠ '"' ∧ c ≠ '\\')
    (rest : List Char) :
    stringPieces (cs ++ rest) = (cs ++ (stringPieces rest).1, (stringPieces rest).2) := by
  induction cs with
  | nil => rfl
  | cons c cs ih =>
    obtain ⟨⟨hquote, hslash⟩, hcs⟩ := List.forall_mem_cons.1 hcs
    rw [List.cons_append, stringPieces_of_plain hquote hslash, ih hcs]
    rfl

/-- A written character is made of complete pieces. -/
theorem stringPieces_escape_append (c : Char) (rest : List Char) :
    stringPieces (escape c ++ rest) =
      (escape c ++ (stringPieces rest).1, (stringPieces rest).2) := by
  rcases escape_cases c with ⟨d, hescape, -, -, hd⟩ | hescape | ⟨hescape, hquote, hslash⟩
  · rw [hescape, List.cons_append, List.singleton_append, stringPieces_of_escape hd]
    rfl
  · have hplain : ∀ d ∈ '\x7b' :: Nat.toDigits 16 c.toNat ++ ['\x7d'], d ≠ '"' ∧ d ≠ '\\' := by
      intro d hd
      simp only [List.cons_append, List.mem_cons, List.mem_append, List.not_mem_nil, or_false] at hd
      rcases hd with rfl | hd | rfl
      · decide
      · exact ⟨ne_of_mem_toDigits hd (by decide), ne_of_mem_toDigits hd (by decide)⟩
      · decide
    rw [hescape, List.cons_append, List.cons_append, List.cons_append, List.cons_append,
      stringPieces_of_escape (by decide), ← List.cons_append, stringPieces_plain_append hplain]
    rfl
  · rw [hescape]
    exact stringPieces_plain_append (by simp [hquote, hslash]) rest

theorem stringPieces_flatMap_escape (cs rest : List Char) :
    stringPieces (cs.flatMap escape ++ '"' :: rest) = (cs.flatMap escape, '"' :: rest) := by
  induction cs with
  | nil => exact stringPieces_of_quote rest
  | cons c cs ih =>
    rw [List.flatMap_cons, List.append_assoc, stringPieces_escape_append, ih]

end Quoted

/-- A string literal is scanned whole. -/
theorem Lexeme.scan_quote (cs rest : List Char) :
    scan '"' (cs.flatMap Quoted.escape ++ '"' :: rest) =
      .ok (⟨.string, Quoted.quote cs⟩, rest) := by
  rw [scan, if_neg (by decide), if_neg (by decide), if_neg (by decide), if_neg (by decide),
    if_pos rfl, Quoted.stringPieces_flatMap_escape]
  rfl

end QuoteLisp
