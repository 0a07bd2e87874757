import QuoteLisp.Proofs.Brackets
import QuoteLisp.Proofs.Pieces

/-!
# Layout

What a source means is decided by its lexemes other than comments: how they are laid out, and what
comments stand between them, changes neither whether the source parses, nor what is wrong with it
if it does not, nor what it reads as and evaluates to if it does. Only the places that errors name
depend on the layout.
-/

namespace QuoteLisp

open Node OpenBracket

/-- The lexemes of some tokens that are not comments. -/
def Token.significant (tokens : List Token) : List Lexeme :=
  (tokens.filter (·.kind != .comment)).map Token.lexeme

/-! ## Comments -/

/-- Comments open and close no brackets. -/
theorem OpenBracket.scan_filter_comment (opened : List OpenBracket) (tokens : List Token) :
    scan opened (tokens.filter (·.kind != .comment)) = scan opened tokens := by
  induction tokens generalizing opened with
  | nil => rfl
  | cons token tokens ih =>
    by_cases hkind : token.kind = .comment
    · have hnext : next opened token = .ok opened :=
        next_of_no_bracket (by simp [hkind]) (by simp [hkind]) opened
      rw [List.filter_cons_of_neg (by simp [hkind]), scan_of_next hnext, ih]
    · rw [List.filter_cons_of_pos (by simp [hkind]), scan_cons, scan_cons]
      simp only [ih]

/-- Comments have no value. -/
theorem Reads.filter_comment {lexemes : List Lexeme} {values : List Value}
    (h : Reads lexemes values) : Reads (lexemes.filter (·.kind != .comment)) values := by
  induction h with
  | nil => exact .nil
  | comment hkind _ ih =>
    rw [List.filter_cons_of_neg (by simp [hkind])]
    exact ih
  | @atom lexeme _ _ _ hvalue _ ih =>
    have hkind : lexeme.kind ≠ .comment := by
      intro hkind
      simp [Lexeme.value?, hkind] at hvalue
    rw [List.filter_cons_of_pos (by simp [hkind])]
    exact .atom hvalue ih
  | list hopener hcloser _ _ ihitems ihrest =>
    rw [List.filter_append, List.filter_cons_of_pos (by simp [hopener]),
      List.filter_cons_of_pos (by simp [hcloser])]
    exact .list hopener hcloser ihitems ihrest

/-- Lexemes spell one sequence of values at most. -/
theorem Reads.unique {lexemes : List Lexeme} {values others : List Value} (h : Reads lexemes values)
    (hothers : Reads lexemes others) : values = others := by
  let tokens := lexemes.map (Lexeme.toToken · 0)
  have htokens : tokens.map Token.lexeme = lexemes := by
    simp [tokens, Function.comp_def]
  obtain ⟨nodes, hnodes, rfl⟩ := h.exists_spells htokens
  obtain ⟨nodes', hnodes', rfl⟩ := hothers.exists_spells htokens
  rw [← ofTokens_eq_ok_iff_spells] at hnodes hnodes'
  rw [Except.ok.inj (hnodes.symm.trans hnodes')]

/-! ## Sources -/

variable {first second : String} {tokens others : List Token}

theorem Token.significant_eq_filter (tokens : List Token) :
    significant tokens = (tokens.map Token.lexeme).filter (·.kind != .comment) := by
  rw [significant, List.filter_map]
  rfl

theorem OpenBracket.alike_check_of_significant
    (hsame : Token.significant tokens = Token.significant others) :
    Alike (fun _ _ => True) (check [] tokens) (check [] others) := by
  have hkinds := congrArg (List.map Lexeme.kind) hsame
  simp only [Token.significant, List.map_map] at hkinds
  have halike := alike_check hkinds
  rwa [check, scan_filter_comment, check, scan_filter_comment] at halike

theorem readAll_eq_of_significant {items items' : List Node} (hitems : Spells items tokens)
    (hitems' : Spells items' others)
    (hsame : Token.significant tokens = Token.significant others) :
    readAll items = readAll items' := by
  have hreads := hitems.reads.filter_comment
  have hreads' := hitems'.reads.filter_comment
  rw [← Token.significant_eq_filter] at hreads hreads'
  rw [hsame] at hreads
  exact hreads.unique hreads'

/-- Layout and comments never change meaning. Of two sources that are cut into the same lexemes,
comments aside, either both fail with the same error, at places of their own, or both parse, read
as the same value, and are the same as lines and as programs in every session. -/
theorem layout_never_changes_meaning (hfirst : Token.lex first = .ok tokens)
    (hsecond : Token.lex second = .ok others)
    (hsame : Token.significant tokens = Token.significant others) :
    (∃ e span, parse first = .error e ∧ parse second = .error (e.moveTo span)) ∨
      ∃ node node' v, parse first = .ok node ∧ parse second = .ok node' ∧
        node.read = some v ∧ node'.read = some v ∧
        ∀ depth (session : Session),
          session.evalLine depth first = session.evalLine depth second ∧
            session.evalProgram depth first = session.evalProgram depth second := by
  have halike := alike_check_of_significant hsame
  generalize hcheck : check [] tokens = outcome at halike
  generalize hcheck' : check [] others = outcome' at halike
  cases halike with
  | error e span =>
    refine .inl ⟨e, span, ?_, ?_⟩
    · exact parse_eq_error_iff.2 (.inr ⟨tokens, hfirst, hcheck⟩)
    · exact parse_eq_error_iff.2 (.inr ⟨others, hsecond, hcheck'⟩)
  | ok =>
    obtain ⟨node, hnode⟩ := exists_parse_iff.2 ⟨tokens, hfirst, hcheck⟩
    obtain ⟨node', hnode'⟩ := exists_parse_iff.2 ⟨others, hsecond, hcheck'⟩
    obtain ⟨_, items, hlex, hitems, rfl⟩ := parse_eq_ok_iff.1 hnode
    obtain ⟨_, items', hlex', hitems', rfl⟩ := parse_eq_ok_iff.1 hnode'
    cases hfirst.symm.trans hlex
    cases hsecond.symm.trans hlex'
    have hread := readAll_eq_of_significant hitems hitems' hsame
    have hreadFirst := readSource_of_parse_program hnode
    have hreadSecond := readSource_of_parse_program hnode'
    rw [← hread] at hreadSecond
    refine .inr ⟨_, _, _, hnode, hnode', read_program _ items, ?_, fun depth session => ⟨?_, ?_⟩⟩
    · rw [read_program, hread]
    · rw [Session.evalLine_of_readSource hreadFirst, Session.evalLine_of_readSource hreadSecond]
    · rw [Session.evalProgram_of_readSource hreadFirst,
        Session.evalProgram_of_readSource hreadSecond]

/-- A list of two symbols, and the same with comments behind each bracket and each symbol; and a
list that is closed by the wrong bracket, and the same behind a comment that holds the right one. -/
theorem layout_with_comments_at_brackets :
    let tight := "(a b)"
    let loose := "(;(\n\ta;\rb ;)\n);"
    let wrong := "(\x7d"
    let hidden := "; )\n( ;)\n\x7d"
    (∃ node node' v, parse tight = .ok node ∧ parse loose = .ok node' ∧
      node.read = some v ∧ node'.read = some v ∧
      ∀ depth (session : Session), session.evalLine depth tight = session.evalLine depth loose ∧
        session.evalProgram depth tight = session.evalProgram depth loose) ∧
      ∃ e span, parse wrong = .error e ∧ parse hidden = .error (e.moveTo span) := by
  intro tight loose wrong hidden
  have htight : Token.lex tight = .ok [⟨.opening .round, "(", ⟨0, 1⟩⟩, ⟨.symbol, "a", ⟨1, 2⟩⟩,
      ⟨.symbol, "b", ⟨3, 4⟩⟩, ⟨.closing .round, ")", ⟨4, 5⟩⟩] :=
    Except.eq_ok_of_toOption (by decide +kernel)
  have hloose : Token.lex loose = .ok [⟨.opening .round, "(", ⟨0, 1⟩⟩, ⟨.comment, ";(", ⟨1, 3⟩⟩,
      ⟨.symbol, "a", ⟨5, 6⟩⟩, ⟨.comment, ";", ⟨6, 7⟩⟩, ⟨.symbol, "b", ⟨8, 9⟩⟩,
      ⟨.comment, ";)", ⟨10, 12⟩⟩, ⟨.closing .round, ")", ⟨13, 14⟩⟩, ⟨.comment, ";", ⟨14, 15⟩⟩] :=
    Except.eq_ok_of_toOption (by decide +kernel)
  have hwrong : Token.lex wrong = .ok [⟨.opening .round, "(", ⟨0, 1⟩⟩,
      ⟨.closing .curly, "\x7d", ⟨1, 2⟩⟩] :=
    Except.eq_ok_of_toOption (by decide +kernel)
  have hhidden : Token.lex hidden = .ok [⟨.comment, "; )", ⟨0, 3⟩⟩, ⟨.opening .round, "(", ⟨4, 5⟩⟩,
      ⟨.comment, ";)", ⟨6, 8⟩⟩, ⟨.closing .curly, "\x7d", ⟨9, 10⟩⟩] :=
    Except.eq_ok_of_toOption (by decide +kernel)
  constructor
  · obtain ⟨e, span, herror, -⟩ | hok := layout_never_changes_meaning htight hloose (by decide)
    · obtain ⟨node, hnode⟩ := exists_parse_iff.2 ⟨_, htight, rfl⟩
      cases hnode.symm.trans herror
    · exact hok
  · obtain herror | ⟨node, _, _, hnode, -⟩ :=
      layout_never_changes_meaning hwrong hhidden (by decide)
    · exact herror
    · have herror := parse_eq_error_iff.2 (.inr ⟨_, hwrong, rfl⟩)
      cases hnode.symm.trans herror

end QuoteLisp
