import QuoteLisp.Proofs.Brackets
import QuoteLisp.Proofs.Lexemes

/-!
# Sources that can be repaired

Text behind a source can prolong its last token and change nothing else. So an error at a character
that starts no token, or at a closing bracket that does not fit, stays whatever follows, while a
source that only lacks closing brackets is repaired by them: the brackets that are open at its end,
innermost first, each closed in its turn.
-/

namespace QuoteLisp

open Token OpenBracket

/-- Whether an error is there to stay, whatever text follows the source. -/
def ParseError.isFinal : ParseError → Bool
  | unexpectedCharacter _ _ => true
  | unexpectedCloser _ _ => true
  | mismatchedCloser _ _ _ => true
  | unterminatedString _ => false
  | unclosedBracket _ _ => false

/-! ## Longer texts -/

section Longer

variable {position : Nat} {c : Char} {cs rest more : List Char} {lexeme : Lexeme}

theorem Lexeme.scan_eq_unexpected {found : Char} (h : scan c cs = .error (.unexpected found))
    (more : List Char) : scan c more = .error (.unexpected found) := by
  unfold scan at h
  repeat' split at h
  all_goals cases h
  rename_i hround hround' hcurly hcurly' hquote hsemicolon hword
  rw [scan, if_neg hround, if_neg hround', if_neg hcurly, if_neg hcurly', if_neg hquote,
    if_neg hsemicolon, if_neg hword]

/-- The first token stays the same in a longer text, unless it is all of the text and goes on. -/
theorem Token.lexFrom_append_of_scan (hc : isBlank c = false)
    (hscan : Lexeme.scan c cs = .ok (lexeme, rest)) (hmore : rest = [] → lexeme.kind.EndsAt more)
    (position : Nat) :
    lexFrom position (c :: cs ++ more) =
      (lexFrom (position + byteLength lexeme.text) (rest ++ more)).map
        (lexeme.toToken position :: ·) :=
  lexFrom_of_scan hc (Lexeme.scan_append_of_endsAt hscan hmore) position

/-- A character that starts no token starts none in a longer text either. -/
theorem Token.lexFrom_append_of_isFinal {e : ParseError} (h : lexFrom position cs = .error e)
    (hfinal : e.isFinal = true) (more : List Char) : lexFrom position (cs ++ more) = .error e := by
  revert hfinal
  refine lexFrom_error_induction (motive := fun position cs e =>
    e.isFinal = true → lexFrom position (cs ++ more) = .error e) ?_ ?_ ?_ h
  · intro position c cs fault hc hscan hfinal
    cases fault with
    | unterminated text => cases hfinal
    | unexpected found =>
      have hscan' := Lexeme.scan_eq_unexpected hscan (cs ++ more)
      rw [List.cons_append, lexFrom_of_fault hc hscan']
  · intro position c cs e hc ih hfinal
    rw [List.cons_append, lexFrom_of_blank hc, ih hfinal]
  · intro position c cs rest lexeme e hc hscan hne ih hfinal
    rw [lexFrom_append_of_scan hc hscan fun hrest => absurd hrest hne, ih hfinal]
    rfl

/-- Lexing fails where no token starts, and not at a blank. -/
theorem Token.exists_scan_of_lexFrom {e : ParseError} (h : lexFrom position cs = .error e) :
    ∃ c rest fault place, isBlank c = false ∧ Lexeme.scan c rest = .error fault ∧
      e = fault.toParseError place :=
  lexFrom_error_induction (motive := fun _ _ e => ∃ c rest fault place, isBlank c = false ∧
      Lexeme.scan c rest = .error fault ∧ e = fault.toParseError place)
    (fun hc hscan => ⟨_, _, _, _, hc, hscan, rfl⟩) (fun _ ih => ih) (fun _ _ _ ih => ih) h

/-- The tokens up to a bracket stay the same in a longer text. -/
theorem Token.lexFrom_append_of_bracket {token : Token} {before behind tokens : List Token}
    (hbracket : ∀ rest, token.kind.EndsAt rest)
    (h : lexFrom position cs = .ok (before ++ token :: behind))
    (hlonger : lexFrom position (cs ++ more) = .ok tokens) :
    ∃ others, tokens = before ++ token :: others := by
  induction position, cs using lexFrom.induct generalizing before tokens with
  | case1 position =>
    rw [lexFrom] at h
    simp at h
  | case2 position c cs hc ih =>
    rw [lexFrom_of_blank hc] at h
    rw [List.cons_append, lexFrom_of_blank hc] at hlonger
    exact ih h hlonger
  | case3 position c cs hc fault hscan =>
    rw [lexFrom_of_fault (by simpa using hc) hscan] at h
    cases h
  | case4 position c cs hc lexeme rest hscan e hrest ih =>
    rw [lexFrom_of_scan (by simpa using hc) hscan, hrest] at h
    cases h
  | case5 position c cs hc lexeme rest hscan found hrest ih =>
    have hblank : isBlank c = false := by simpa using hc
    rw [lexFrom_of_scan hblank hscan, hrest] at h
    have htokens : lexeme.toToken position :: found = before ++ token :: behind := Except.ok.inj h
    cases before with
    | nil =>
      obtain ⟨rfl, rfl⟩ := List.cons.inj htokens
      rw [lexFrom_append_of_scan hblank hscan fun _ => hbracket more] at hlonger
      obtain ⟨others, -, rfl⟩ := Except.map_eq_ok_iff.1 hlonger
      exact ⟨others, rfl⟩
    | cons first before =>
      obtain ⟨rfl, rfl⟩ := List.cons.inj htokens
      have hne : rest = [] → lexeme.kind.EndsAt more := by
        rintro rfl
        rw [lexFrom] at hrest
        simp at hrest
      rw [lexFrom_append_of_scan hblank hscan hne] at hlonger
      obtain ⟨longer, hrest', rfl⟩ := Except.map_eq_ok_iff.1 hlonger
      obtain ⟨others, rfl⟩ := ih hrest hrest'
      exact ⟨others, rfl⟩

end Longer

/-! ## Brackets that do not fit -/

/-- What is wrong with brackets shows at a closing one, whatever follows. -/
theorem OpenBracket.exists_closing_of_scan_error {opened : List OpenBracket} {tokens : List Token}
    {e : ParseError} (h : scan opened tokens = .error e) :
    ∃ before token behind bracket, tokens = before ++ token :: behind ∧
      token.kind = .closing bracket ∧
      ∀ others, scan opened (before ++ token :: others) = .error e := by
  obtain ⟨before, token, behind, mid, rfl, hscan, hnext⟩ := scan_eq_error_iff.1 h
  obtain ⟨bracket, hkind, -⟩ := next_eq_error_iff.1 hnext
  refine ⟨before, token, behind, bracket, rfl, hkind, fun others => ?_⟩
  exact scan_eq_error_iff.2 ⟨before, token, others, mid, rfl, hscan, hnext⟩

/-- Brackets that do not fit are reported as that. -/
theorem OpenBracket.exists_closer_of_scan_error {opened : List OpenBracket} {tokens : List Token}
    {e : ParseError} (h : scan opened tokens = .error e) :
    (∃ found span, e = .unexpectedCloser found span) ∨
      ∃ bracket found span, e = .mismatchedCloser bracket found span := by
  obtain ⟨_, token, _, _, -, -, hnext⟩ := scan_eq_error_iff.1 h
  obtain ⟨found, -, ⟨-, rfl⟩ | ⟨top, outer, -, -, rfl⟩⟩ := next_eq_error_iff.1 hnext
  · exact .inl ⟨found, token.span, rfl⟩
  · exact .inr ⟨top.bracket, found, token.span, rfl⟩

/-- Closing brackets close what is open, innermost first. -/
theorem OpenBracket.scan_closers {opened : List OpenBracket} {tokens : List Token}
    (h : tokens.map Token.kind = opened.map fun o => .closing o.bracket) :
    scan opened tokens = .ok [] := by
  induction opened generalizing tokens with
  | nil =>
    obtain rfl := List.map_eq_nil_iff.1 h
    rfl
  | cons innermost outer ih =>
    obtain ⟨token, rest, rfl, hkind, hrest⟩ := List.map_eq_cons_iff.1 h
    rw [scan_of_next (next_closing hkind innermost.span outer), ih hrest]

/-! ## Sources -/

theorem lexes_closers (brackets : List Bracket) :
    Lexes (brackets.map Bracket.closer)
      (brackets.map fun bracket => ⟨.closing bracket, [bracket.closer]⟩) := by
  induction brackets with
  | nil => exact .nil
  | cons bracket brackets ih => cases bracket <;> exact .scan rfl rfl ih

namespace Node

variable {source : String} {e : ParseError}

/-- A source that only lacks closing brackets has tokens, and brackets that fit so far. -/
theorem exists_scan_of_unclosed {bracket : Bracket} {span : Span}
    (h : parse source = .error (.unclosedBracket bracket span)) :
    ∃ tokens opened, Token.lex source = .ok tokens ∧ scan [] tokens = .ok opened := by
  obtain hlex | ⟨tokens, hlex, hcheck⟩ := parse_eq_error_iff.1 h
  · obtain ⟨_, _, fault, _, -, -, hfault⟩ := exists_scan_of_lexFrom hlex
    cases fault <;> cases hfault
  · obtain hscan | ⟨innermost, outer, hscan, -⟩ := check_eq_error_iff.1 hcheck
    · obtain ⟨_, _, he⟩ | ⟨_, _, _, he⟩ := exists_closer_of_scan_error hscan <;> cases he
    · exact ⟨tokens, _, hlex, hscan⟩

/-- A source that only lacks closing brackets is repaired by those of the brackets that are open at
its end. -/
theorem exists_parse_append_closers {bracket : Bracket} {span : Span}
    (h : parse source = .error (.unclosedBracket bracket span)) :
    ∃ closers : List Bracket, ∃ node,
      parse (source ++ "\n" ++ String.ofList (closers.map Bracket.closer)) = .ok node := by
  obtain ⟨tokens, opened, hlex, hscan⟩ := exists_scan_of_unclosed h
  let closers := opened.map OpenBracket.bracket
  have hbreak : Lexes ('\n' :: closers.map Bracket.closer) _ := .blank rfl (lexes_closers closers)
  have hlexes := (lexes_of_lexFrom hlex).append (breaksLine_newline _) hbreak
  obtain ⟨longer, hlonger, hlexemes⟩ := hlexes.exists_lexFrom 0
  -- the longer source has the same lexemes, in tokens of their own, and then those of the closers
  obtain ⟨same, behind, rfl, hsame, hbehind⟩ := List.map_eq_append_iff.1 hlexemes
  have hkinds : tokens.map Token.kind = same.map Token.kind := by
    have hmap := congrArg (List.map Lexeme.kind) hsame
    simpa [Token.lexeme, Function.comp_def] using hmap.symm
  have halike := alike_scan hkinds (rfl : SameBrackets [] [])
  rw [hscan] at halike
  obtain ⟨opened', hscan', hbrackets⟩ := halike.exists_of_ok
  have hclosers : behind.map Token.kind = opened'.map fun o => .closing o.bracket := by
    have hmap := congrArg (List.map Lexeme.kind) hbehind
    have hopened := congrArg (List.map TokenKind.closing) hbrackets
    rw [List.map_map, List.map_map] at hmap hopened
    rw [List.map_map] at hmap
    exact hmap.trans hopened
  refine ⟨closers, exists_parse_iff.2 ⟨same ++ behind, by simpa [Token.lex] using hlonger, ?_⟩⟩
  rw [check, scan_append, hscan']
  show scan opened' behind >>= finish = .ok ()
  rw [scan_closers hclosers]
  rfl

/-- An error that is there to stay is not made up for by text behind the source. -/
theorem exists_parse_append_error (h : parse source = .error e) (hfinal : e.isFinal = true)
    (text : String) : ∃ e', parse (source ++ text) = .error e' := by
  simp only [parse_eq_error_iff, Token.lex, String.toList_append] at h ⊢
  obtain hlex | ⟨tokens, hlex, hcheck⟩ := h
  · exact ⟨e, .inl (lexFrom_append_of_isFinal hlex hfinal text.toList)⟩
  · obtain hscan | ⟨innermost, outer, -, rfl⟩ := check_eq_error_iff.1 hcheck
    · obtain ⟨before, token, behind, bracket, rfl, hkind, hothers⟩ :=
        exists_closing_of_scan_error hscan
      cases hlonger : lexFrom 0 (source.toList ++ text.toList) with
      | error e' => exact ⟨e', .inl rfl⟩
      | ok longer =>
        have hends : ∀ rest, token.kind.EndsAt rest := by simp [hkind, TokenKind.EndsAt]
        obtain ⟨others, rfl⟩ := lexFrom_append_of_bracket hends hlex hlonger
        exact ⟨e, .inr ⟨_, rfl, check_eq_error_iff.2 (.inl (hothers others))⟩⟩
    · cases hfinal

/-- Failures are told apart by whether they can be repaired. If only closing brackets are missing,
then some closing brackets on a line of their own make the source parse. If a character starts no
token, or a closing bracket is unexpected or of the wrong kind, then no longer source parses. -/
theorem parse_failure_is_repairable_or_final (source : String) :
    (∀ bracket span, parse source = .error (.unclosedBracket bracket span) →
      ∃ closers : List Bracket, ∃ node,
        parse (source ++ "\n" ++ String.ofList (closers.map Bracket.closer)) = .ok node) ∧
    ∀ e, parse source = .error e → e.isFinal = true →
      ∀ text, ∃ e', parse (source ++ text) = .error e' :=
  ⟨fun _ _ => exists_parse_append_closers, fun _ => exists_parse_append_error⟩

/-- Two brackets are open behind a comment that holds a third, and a word that text could prolong
stands behind a bracket too many. -/
theorem parse_failure_behind_comment_and_before_word :
    let lacking := "(a \x7bb;)"
    let extra := "a\x7db"
    parse lacking = .error (.unclosedBracket .curly ⟨3, 4⟩) ∧
      (∃ closers : List Bracket, ∃ node,
        parse (lacking ++ "\n" ++ String.ofList (closers.map Bracket.closer)) = .ok node) ∧
      parse extra = .error (.unexpectedCloser .curly ⟨1, 2⟩) ∧
      ∀ text, ∃ e, parse (extra ++ text) = .error e := by
  intro lacking extra
  have hopen : parse lacking = .error (.unclosedBracket .curly ⟨3, 4⟩) := by
    have hlex : Token.lex lacking = .ok [⟨.opening .round, "(", ⟨0, 1⟩⟩, ⟨.symbol, "a", ⟨1, 2⟩⟩,
        ⟨.opening .curly, "\x7b", ⟨3, 4⟩⟩, ⟨.symbol, "b", ⟨4, 5⟩⟩, ⟨.comment, ";)", ⟨5, 7⟩⟩] :=
      Except.eq_ok_of_toOption (by decide +kernel)
    exact parse_eq_error_iff.2 (.inr ⟨_, hlex, rfl⟩)
  have hextra : parse extra = .error (.unexpectedCloser .curly ⟨1, 2⟩) := by
    have hlex : Token.lex extra = .ok [⟨.symbol, "a", ⟨0, 1⟩⟩,
        ⟨.closing .curly, "\x7d", ⟨1, 2⟩⟩, ⟨.symbol, "b", ⟨2, 3⟩⟩] :=
      Except.eq_ok_of_toOption (by decide +kernel)
    exact parse_eq_error_iff.2 (.inr ⟨_, hlex, rfl⟩)
  have hrepaired := (parse_failure_is_repairable_or_final lacking).1 _ _ hopen
  have hfinal := (parse_failure_is_repairable_or_final extra).2 _ hextra rfl
  exact ⟨hopen, hrepaired, hextra, hfinal⟩

end Node

end QuoteLisp
