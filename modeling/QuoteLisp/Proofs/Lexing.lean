import QuoteLisp.Token.Lexer

/-!
# What the lexer finds

`TokenKind.Accepts` is the class of texts of each kind of token. The lexer only makes tokens whose
text is in the class of their kind (`Token.accepts_of_mem_lex`), and a token in front of a text is
taken off by one scan (`Token.lexFrom_of_scan`). What is kept by a blank and by a lexeme in front
holds of all texts that are cut (`Token.lexFrom_induction`), or of all that are not
(`Token.lexFrom_error_induction`).
-/

namespace QuoteLisp

/-! ## The classes of token texts -/

/-- The texts that a kind of token can have. -/
def TokenKind.Accepts : TokenKind → List Char → Prop
  | opening bracket, cs => cs = [bracket.opener]
  | closing bracket, cs => cs = [bracket.closer]
  | number, cs => isNumeral cs = true
  | string, cs => ∃ inner, cs = '"' :: inner ++ ['"'] ∧ stringPieces inner = (inner, [])
  | symbol, cs => isSymbolName cs = true
  | comment, cs => ∃ line, cs = ';' :: line ∧ line.all isLineChar = true

theorem stringPieces_of_quote (cs : List Char) : stringPieces ('"' :: cs) = ([], '"' :: cs) := by
  rw [stringPieces.eq_def]
  rfl

theorem stringPieces_of_plain {c : Char} (hquote : c ≠ '"') (hslash : c ≠ '\\') (cs : List Char) :
    stringPieces (c :: cs) = (c :: (stringPieces cs).1, (stringPieces cs).2) := by
  rw [stringPieces.eq_def]
  simp only [if_neg hquote, if_neg hslash]

theorem stringPieces_of_escape {c : Char} (hc : c ≠ '\n') (cs : List Char) :
    stringPieces ('\\' :: c :: cs) = ('\\' :: c :: (stringPieces cs).1, (stringPieces cs).2) := by
  rw [stringPieces.eq_def]
  simp [hc]

/-- The pieces that a string literal is cut into are complete: nothing of them is left over when
they stand alone. -/
theorem stringPieces_fst (cs : List Char) :
    stringPieces (stringPieces cs).1 = ((stringPieces cs).1, []) := by
  fun_induction stringPieces cs with
  | case1 => rfl
  | case2 => rfl
  | case3 => rfl
  | case4 => rfl
  | case5 d ds hd _ ih => rw [stringPieces_of_escape hd, ih]
  | case6 c cs hquote hslash ih => rw [stringPieces_of_plain hquote hslash, ih]

namespace Lexeme

variable {c : Char} {cs rest : List Char} {lexeme : Lexeme}

/-- A scan finds a text of the kind that it reports. -/
theorem accepts_of_scan (h : scan c cs = .ok (lexeme, rest)) : lexeme.kind.Accepts lexeme.text := by
  unfold scan at h
  repeat' split at h
  all_goals cases h
  · rename_i hc
    exact congrArg ([·]) hc
  · rename_i hc
    exact congrArg ([·]) hc
  · rename_i hc
    exact congrArg ([·]) hc
  · rename_i hc
    exact congrArg ([·]) hc
  · rename_i hc _ _
    subst hc
    exact ⟨_, rfl, stringPieces_fst cs⟩
  · rename_i hc
    subst hc
    exact ⟨_, rfl, List.all_takeWhile⟩
  · rename_i hc
    have hword : (c :: cs.takeWhile isWordChar).all isWordChar = true := by
      rw [List.all_cons, hc, List.all_takeWhile]
      rfl
    by_cases hnumeral : isNumeral (c :: cs.takeWhile isWordChar) = true
    · rw [if_pos hnumeral]
      exact hnumeral
    · rw [if_neg hnumeral]
      simp only [Bool.not_eq_true] at hnumeral
      simp only [TokenKind.Accepts, isSymbolName, hword, hnumeral]
      rfl

end Lexeme

/-! ## The whole text -/

namespace Token

theorem lexFrom_of_blank {c : Char} (hc : isBlank c = true) (position : Nat) (cs : List Char) :
    lexFrom position (c :: cs) = lexFrom (position + c.utf8Size) cs := by
  rw [lexFrom, if_pos hc]

/-- The lexeme at the head of a text becomes the first token. -/
theorem lexFrom_of_scan {c : Char} {cs rest : List Char} {lexeme : Lexeme}
    (hc : isBlank c = false) (hscan : Lexeme.scan c cs = .ok (lexeme, rest)) (position : Nat) :
    lexFrom position (c :: cs) =
      (lexFrom (position + byteLength lexeme.text) rest).map (lexeme.toToken position :: ·) := by
  rw [lexFrom, if_neg (by simp [hc])]
  split
  · rename_i h
    rw [hscan] at h
    cases h
  · rename_i h
    rw [hscan] at h
    cases h
    split <;> rename_i h <;> rw [h] <;> rfl

theorem lexFrom_of_fault {c : Char} {cs : List Char} {fault : LexFault} (hc : isBlank c = false)
    (hscan : Lexeme.scan c cs = .error fault) (position : Nat) :
    lexFrom position (c :: cs) = .error (fault.toParseError position) := by
  rw [lexFrom, if_neg (by simp [hc])]
  split
  · rename_i h
    rw [hscan] at h
    cases h
    rfl
  · rename_i h
    rw [hscan] at h
    cases h

/-- What holds of an empty text and its tokens, and is kept when a blank or a lexeme is put in
front, holds of every text that is cut into tokens. -/
theorem lexFrom_induction {motive : Nat → List Char → List Token → Prop}
    (nil : ∀ position, motive position [] [])
    (blank : ∀ {position : Nat} {c : Char} {cs : List Char} {tokens : List Token},
      isBlank c = true → motive (position + c.utf8Size) cs tokens →
      motive position (c :: cs) tokens)
    (scan : ∀ {position : Nat} {c : Char} {cs rest : List Char} {lexeme : Lexeme}
      {tokens : List Token}, isBlank c = false → Lexeme.scan c cs = .ok (lexeme, rest) →
      motive (position + byteLength lexeme.text) rest tokens →
      motive position (c :: cs) (lexeme.toToken position :: tokens))
    {position : Nat} {cs : List Char} {tokens : List Token}
    (h : lexFrom position cs = .ok tokens) : motive position cs tokens := by
  induction position, cs using lexFrom.induct generalizing tokens with
  | case1 position =>
    rw [lexFrom] at h
    cases h
    exact nil position
  | case2 position c cs hc ih =>
    rw [lexFrom_of_blank hc] at h
    exact blank hc (ih h)
  | case3 position c cs hc fault hscan =>
    rw [lexFrom_of_fault (by simpa using hc) hscan] at h
    cases h
  | case4 position c cs hc lexeme rest hscan e hrest ih =>
    rw [lexFrom_of_scan (by simpa using hc) hscan, hrest] at h
    cases h
  | case5 position c cs hc lexeme rest hscan found hrest ih =>
    rw [lexFrom_of_scan (by simpa using hc) hscan, hrest] at h
    cases h
    exact scan (by simpa using hc) hscan (ih hrest)

/-- What holds of a text that begins with a fault, and is kept when a blank or a lexeme is put in
front, holds of every text that is not cut into tokens. -/
theorem lexFrom_error_induction {motive : Nat → List Char → ParseError → Prop}
    (fault : ∀ {position : Nat} {c : Char} {cs : List Char} {fault : LexFault}, isBlank c = false →
      Lexeme.scan c cs = .error fault → motive position (c :: cs) (fault.toParseError position))
    (blank : ∀ {position : Nat} {c : Char} {cs : List Char} {e : ParseError},
      isBlank c = true → motive (position + c.utf8Size) cs e → motive position (c :: cs) e)
    (scan : ∀ {position : Nat} {c : Char} {cs rest : List Char} {lexeme : Lexeme} {e : ParseError},
      isBlank c = false → Lexeme.scan c cs = .ok (lexeme, rest) → rest ≠ [] →
      motive (position + byteLength lexeme.text) rest e → motive position (c :: cs) e)
    {position : Nat} {cs : List Char} {e : ParseError}
    (h : lexFrom position cs = .error e) : motive position cs e := by
  induction position, cs using lexFrom.induct with
  | case1 position =>
    rw [lexFrom] at h
    cases h
  | case2 position c cs hc ih =>
    rw [lexFrom_of_blank hc] at h
    exact blank hc (ih h)
  | case3 position c cs hc found hscan =>
    rw [lexFrom_of_fault (by simpa using hc) hscan] at h
    cases h
    exact fault (by simpa using hc) hscan
  | case4 position c cs hc lexeme rest hscan e hrest ih =>
    have hne : rest ≠ [] := by
      rintro rfl
      rw [lexFrom] at hrest
      cases hrest
    rw [lexFrom_of_scan (by simpa using hc) hscan, hrest] at h
    cases h
    exact scan (by simpa using hc) hscan hne (ih hrest)
  | case5 position c cs hc lexeme rest hscan found hrest ih =>
    rw [lexFrom_of_scan (by simpa using hc) hscan, hrest] at h
    cases h

theorem accepts_of_mem_lexFrom {position : Nat} {cs : List Char} {tokens : List Token}
    (h : lexFrom position cs = .ok tokens) :
    ∀ token ∈ tokens, token.kind.Accepts token.text.toList := by
  refine lexFrom_induction
    (motive := fun _ _ tokens => ∀ token ∈ tokens, token.kind.Accepts token.text.toList)
    (fun _ => by simp) (fun _ ih => ih) ?_ h
  intro position c cs rest lexeme tokens _ hscan ih
  refine List.forall_mem_cons.2 ⟨?_, ih⟩
  simpa [Lexeme.toToken] using Lexeme.accepts_of_scan hscan

/-- Every token of a source is of the class that its kind says. -/
theorem accepts_of_mem_lex {source : String} {tokens : List Token}
    (h : lex source = .ok tokens) : ∀ token ∈ tokens, token.kind.Accepts token.text.toList :=
  accepts_of_mem_lexFrom h

/-! ## Texts in front of others -/

/-- The text `cs`, at a byte offset and in front of `rest`, is cut into `tokens`. -/
def LexesTo (position : Nat) (cs rest : List Char) (tokens : List Token) : Prop :=
  lexFrom position (cs ++ rest) = (lexFrom (position + byteLength cs) rest).map (tokens ++ ·)

theorem lexesTo_nil (position : Nat) (rest : List Char) : LexesTo position [] rest [] := by
  show lexFrom position rest = (lexFrom position rest).map id
  cases lexFrom position rest <;> rfl

theorem lexesTo_of_blank {c : Char} (hc : isBlank c = true) (position : Nat) (rest : List Char) :
    LexesTo position [c] rest [] := by
  have hnil := lexesTo_nil (position + c.utf8Size) rest
  rw [LexesTo, List.singleton_append, lexFrom_of_blank hc]
  exact hnil

theorem lexesTo_of_scan {kind : TokenKind} {c : Char} {cs rest : List Char}
    (hc : isBlank c = false) (hscan : Lexeme.scan c (cs ++ rest) = .ok (⟨kind, c :: cs⟩, rest))
    (position : Nat) :
    LexesTo position (c :: cs) rest [Lexeme.toToken ⟨kind, c :: cs⟩ position] :=
  lexFrom_of_scan hc hscan position

theorem LexesTo.append {position : Nat} {as bs rest : List Char} {tokens tokens' : List Token}
    (ha : LexesTo position as (bs ++ rest) tokens)
    (hb : LexesTo (position + byteLength as) bs rest tokens') :
    LexesTo position (as ++ bs) rest (tokens ++ tokens') := by
  unfold LexesTo at ha hb ⊢
  rw [List.append_assoc, ha, hb, byteLength_append, ← Nat.add_assoc]
  cases lexFrom (position + byteLength as + byteLength bs) rest <;> simp [Except.map]

theorem LexesTo.lexFrom_eq_ok {position : Nat} {cs : List Char} {tokens : List Token}
    (h : LexesTo position cs [] tokens) : lexFrom position cs = .ok tokens := by
  unfold LexesTo at h
  rw [lexFrom, List.append_nil] at h
  simpa [Except.map] using h

end Token

end QuoteLisp
