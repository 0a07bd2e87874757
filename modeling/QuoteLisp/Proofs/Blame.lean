import QuoteLisp.Proofs.Brackets
import QuoteLisp.Proofs.Grammar

/-!
# Which bracket is blamed

Tokens that spell nodes are balanced. Any tokens whose brackets fit so far are balanced but for the
brackets that are open behind them, and these are what the scan of `OpenBracket.scan` has on its
stack (`OpenBracket.scan_eq_ok_iff`). So the error that the descent reports, from whatever depth,
names the first closing bracket that does not fit the innermost open one, or else the innermost
bracket left open (`OpenBracket.Blames`).
-/

namespace QuoteLisp

open Node OpenBracket

/-! ## Open brackets -/

/-- Balanced tokens leave the open brackets as they are. -/
theorem Node.Spells.scan_eq_ok {nodes : List Node} {tokens : List Token} (h : Spells nodes tokens)
    (opened : List OpenBracket) : scan opened tokens = .ok opened := by
  induction h generalizing opened with
  | nil => rfl
  | atom token hatom _ ih =>
    have hnext : next opened token = .ok opened := by
      apply next_of_no_bracket <;> rintro bracket hkind <;> rw [hkind] at hatom <;> cases hatom
    rw [scan_of_next hnext, ih]
  | list bracket opener closer hopener hcloser _ _ ihitems ihnodes =>
    rw [List.cons_append, scan_of_next (next_opening hopener opened), scan_append, ihitems]
    show scan (⟨bracket, opener.span⟩ :: opened) (closer :: _) = _
    rw [scan_of_next (next_closing hcloser opener.span opened), ihnodes]

namespace OpenBracket

/-- The brackets that some tokens open and do not close, innermost first: between one of them and
the next, and behind the innermost, stand balanced tokens. -/
inductive LeavesOpen : List Token → List OpenBracket → Prop
  | balanced {nodes : List Node} {tokens : List Token} (h : Spells nodes tokens) :
    LeavesOpen tokens []
  | opened {before inner : List Token} {opener : Token} {bracket : Bracket}
    {outer : List OpenBracket} {nodes : List Node} (hbefore : LeavesOpen before outer)
    (hopener : opener.kind = .opening bracket) (hinner : Spells nodes inner) :
    LeavesOpen (before ++ opener :: inner) (⟨bracket, opener.span⟩ :: outer)

variable {tokens : List Token} {opened : List OpenBracket} {e : ParseError}

theorem LeavesOpen.append {nodes : List Node} {more : List Token} (h : LeavesOpen tokens opened)
    (hmore : Spells nodes more) : LeavesOpen (tokens ++ more) opened := by
  cases h with
  | balanced htokens => exact .balanced (htokens.append hmore)
  | opened hbefore hopener hinner =>
    rw [List.append_assoc, List.cons_append]
    exact .opened hbefore hopener (hinner.append hmore)

/-- One token more opens a bracket, closes the innermost one, or does neither. -/
theorem LeavesOpen.next {token : Token} {after : List OpenBracket} (h : LeavesOpen tokens opened)
    (hnext : next opened token = .ok after) : LeavesOpen (tokens ++ [token]) after := by
  cases hkind : token.kind with
  | opening bracket =>
    rw [next_opening hkind] at hnext
    cases hnext
    exact .opened h hkind .nil
  | closing found =>
    cases h with
    | balanced =>
      rw [next_unexpected hkind] at hnext
      cases hnext
    | @opened before inner opener bracket outer nodes hbefore hopener hinner =>
      by_cases hfound : found = bracket
      · subst hfound
        rw [next_closing hkind] at hnext
        cases hnext
        have hlist := Spells.list found opener token hopener hkind hinner .nil
        rw [List.append_assoc]
        exact hbefore.append hlist
      · rw [next_mismatch hkind hfound] at hnext
        cases hnext
  | _ =>
    rw [next_of_no_bracket (by simp [hkind]) (by simp [hkind])] at hnext
    cases hnext
    exact h.append (.atom token (by rw [hkind]; rfl) .nil)

theorem LeavesOpen.scan {more : List Token} {after : List OpenBracket}
    (h : LeavesOpen tokens opened) (hscan : scan opened more = .ok after) :
    LeavesOpen (tokens ++ more) after := by
  induction more generalizing tokens opened with
  | nil =>
    cases hscan
    rwa [List.append_nil]
  | cons token more ih =>
    rw [scan_cons, Except.bind_eq_ok_iff] at hscan
    obtain ⟨mid, hnext, hmore⟩ := hscan
    rw [List.append_cons]
    exact ih (h.next hnext) hmore

/-- The stack of the scan holds exactly the brackets that are open. -/
theorem scan_eq_ok_iff : OpenBracket.scan [] tokens = .ok opened ↔ LeavesOpen tokens opened := by
  constructor
  · intro h
    exact (LeavesOpen.balanced .nil).scan h
  · intro h
    induction h with
    | balanced h => exact h.scan_eq_ok []
    | opened _ hopener hinner ih =>
      rw [scan_append, ih]
      show OpenBracket.scan _ (_ :: _) = _
      rw [scan_of_next (next_opening hopener _), hinner.scan_eq_ok]

/-! ## Blame -/

/-- What is wrong with the brackets of some tokens: the first closing bracket that is not that of
the innermost open one or, if there is none, the innermost bracket that is open at the end. -/
inductive Blames (tokens : List Token) : ParseError → Prop
  | unexpected {before behind : List Token} {closer : Token} {found : Bracket}
    (htokens : tokens = before ++ closer :: behind) (hcloser : closer.kind = .closing found)
    (hopen : LeavesOpen before []) : Blames tokens (.unexpectedCloser found closer.span)
  | mismatched {before behind : List Token} {closer : Token} {found : Bracket}
    {top : OpenBracket} {outer : List OpenBracket}
    (htokens : tokens = before ++ closer :: behind) (hcloser : closer.kind = .closing found)
    (hopen : LeavesOpen before (top :: outer)) (hne : found ≠ top.bracket) :
    Blames tokens (.mismatchedCloser top.bracket found closer.span)
  | unclosed {top : OpenBracket} {outer : List OpenBracket}
    (hopen : LeavesOpen tokens (top :: outer)) :
    Blames tokens (.unclosedBracket top.bracket top.span)

theorem check_eq_error_iff_blames : check [] tokens = .error e ↔ Blames tokens e := by
  rw [check_eq_error_iff, scan_eq_error_iff]
  simp only [next_eq_error_iff, scan_eq_ok_iff]
  constructor
  · rintro (⟨before, closer, behind, mid, htokens, hopen, found, hcloser, hwhy⟩ |
      ⟨top, outer, hopen, rfl⟩)
    · obtain ⟨rfl, rfl⟩ | ⟨top, outer, rfl, hne, rfl⟩ := hwhy
      · exact .unexpected htokens hcloser hopen
      · exact .mismatched htokens hcloser hopen hne
    · exact .unclosed hopen
  · intro h
    cases h with
    | unexpected htokens hcloser hopen =>
      exact .inl ⟨_, _, _, _, htokens, hopen, _, hcloser, .inl ⟨rfl, rfl⟩⟩
    | mismatched htokens hcloser hopen hne =>
      exact .inl ⟨_, _, _, _, htokens, hopen, _, hcloser, .inr ⟨_, _, rfl, hne, rfl⟩⟩
    | unclosed hopen => exact .inr ⟨_, _, hopen, rfl⟩

end OpenBracket

namespace Node

/-- The tree of a source that is cut into tokens is refused exactly as a scan of the tokens with a
stack of open brackets refuses them, where every bracket is the character that its token consists
of; and the scan blames the first closing bracket that does not fit or else the innermost bracket
left open. A source that is not cut into tokens is refused for the character at which lexing fails,
whatever brackets stand in front of it. -/
theorem brackets_fail_as_stack_machine (source : String) :
    (∀ tokens, Token.lex source = .ok tokens →
      (∀ token ∈ tokens, ∀ bracket,
        (token.kind = .opening bracket → token.text.toList = [bracket.opener]) ∧
        (token.kind = .closing bracket → token.text.toList = [bracket.closer])) ∧
      (∀ e, parse source = .error e ↔ check [] tokens = .error e) ∧
      ((∃ node, parse source = .ok node) ↔ check [] tokens = .ok ()) ∧
      ∀ e, check [] tokens = .error e ↔ Blames tokens e) ∧
    ∀ e, Token.lex source = .error e → parse source = .error e := by
  constructor
  · intro tokens hlex
    refine ⟨fun token htoken bracket => ?_, fun e => ?_, ?_, fun e => check_eq_error_iff_blames⟩
    · have haccepts := Token.accepts_of_mem_lex hlex token htoken
      constructor <;> intro hkind <;> rwa [hkind] at haccepts
    · simp [parse_eq_error_iff, hlex]
    · simp [exists_parse_iff, hlex]
  · intro e hlex
    exact parse_eq_error_iff.2 (.inl hlex)

/-- Three brackets are open where the wrong one is closed, which is blamed on the innermost; one is
left open behind another that is closed; and a string that is never closed is reported although a
closing bracket stands in front of it. -/
theorem brackets_fail_with_several_open :
    let wrong := "(a \x7bb (c\x7d))"
    let lacking := "(\x7b(\"é\")"
    let unlexed := ")(\"é"
    parse wrong = .error (.mismatchedCloser .round .curly ⟨8, 9⟩) ∧
      parse lacking = .error (.unclosedBracket .curly ⟨1, 2⟩) ∧
      parse unlexed = .error (.unterminatedString ⟨2, 5⟩) := by
  intro wrong lacking unlexed
  have hwrong : Token.lex wrong = .ok [⟨.opening .round, "(", ⟨0, 1⟩⟩, ⟨.symbol, "a", ⟨1, 2⟩⟩,
      ⟨.opening .curly, "\x7b", ⟨3, 4⟩⟩, ⟨.symbol, "b", ⟨4, 5⟩⟩, ⟨.opening .round, "(", ⟨6, 7⟩⟩,
      ⟨.symbol, "c", ⟨7, 8⟩⟩, ⟨.closing .curly, "\x7d", ⟨8, 9⟩⟩, ⟨.closing .round, ")", ⟨9, 10⟩⟩,
      ⟨.closing .round, ")", ⟨10, 11⟩⟩] :=
    Except.eq_ok_of_toOption (by decide +kernel)
  have hlacking : Token.lex lacking = .ok [⟨.opening .round, "(", ⟨0, 1⟩⟩,
      ⟨.opening .curly, "\x7b", ⟨1, 2⟩⟩, ⟨.opening .round, "(", ⟨2, 3⟩⟩,
      ⟨.string, "\"é\"", ⟨3, 7⟩⟩, ⟨.closing .round, ")", ⟨7, 8⟩⟩] :=
    Except.eq_ok_of_toOption (by decide +kernel)
  have hunlexed : Token.lex ")(\"é" = .error (.unterminatedString ⟨2, 5⟩) := by
    show Token.lexFrom 0 [')', '(', '"', 'é'] = _
    rw [Token.lexFrom_of_scan rfl rfl, Token.lexFrom_of_scan rfl rfl,
      Token.lexFrom_of_fault rfl rfl]
    rfl
  obtain ⟨-, hwrongFails, -⟩ := (brackets_fail_as_stack_machine wrong).1 _ hwrong
  obtain ⟨-, hlackingFails, -⟩ := (brackets_fail_as_stack_machine lacking).1 _ hlacking
  exact ⟨(hwrongFails _).2 rfl, (hlackingFails _).2 rfl,
    (brackets_fail_as_stack_machine unlexed).2 _ hunlexed⟩

end Node

end QuoteLisp
