import QuoteLisp.Node.Parser
import QuoteLisp.Proofs.Except

/-!
# Open brackets

Read from left to right, tokens open and close brackets. `OpenBracket.scan` goes through them with
the brackets that are open, innermost first, and refuses a closing bracket that does not fit;
`OpenBracket.check` also refuses what is still open at the end. The descent refuses the same tokens
with the same error, whatever expressions it reads on the way (`Node.ofTokens_eq_check`).
-/

namespace QuoteLisp

theorem TokenKind.closer?_eq_some_iff {kind : TokenKind} {bracket : Bracket} :
    kind.closer? = some bracket ↔ kind = .closing bracket := by
  cases kind <;> simp [closer?]

/-- A bracket that has been opened, and where. -/
structure OpenBracket where
  bracket : Bracket
  span : Span
  deriving DecidableEq

namespace OpenBracket

/-- The open brackets behind a token, given those in front of it. -/
def next (opened : List OpenBracket) (token : Token) : Except ParseError (List OpenBracket) :=
  match token.kind with
  | .opening bracket => .ok (⟨bracket, token.span⟩ :: opened)
  | .closing found =>
    match opened with
    | [] => .error (.unexpectedCloser found token.span)
    | innermost :: outer =>
      if found = innermost.bracket then .ok outer
      else .error (.mismatchedCloser innermost.bracket found token.span)
  | _ => .ok opened

/-- The open brackets behind some tokens. -/
def scan (opened : List OpenBracket) (tokens : List Token) :
    Except ParseError (List OpenBracket) :=
  tokens.foldlM next opened

/-- At the end no bracket may be open. -/
def finish : List OpenBracket → Except ParseError Unit
  | [] => .ok ()
  | innermost :: _ => .error (.unclosedBracket innermost.bracket innermost.span)

/-- Whether tokens close all open brackets, and no others. -/
def check (opened : List OpenBracket) (tokens : List Token) : Except ParseError Unit :=
  scan opened tokens >>= finish

/-! ## One token -/

section Scan

variable {token : Token} {bracket found : Bracket} {opened outer : List OpenBracket}
  {e : ParseError}

theorem scan_cons (opened : List OpenBracket) (token : Token) (tokens : List Token) :
    scan opened (token :: tokens) = next opened token >>= fun after => scan after tokens :=
  List.foldlM_cons

theorem scan_append (opened : List OpenBracket) (tokens more : List Token) :
    scan opened (tokens ++ more) = scan opened tokens >>= fun after => scan after more :=
  List.foldlM_append

theorem next_opening (hkind : token.kind = .opening bracket) (opened : List OpenBracket) :
    next opened token = .ok (⟨bracket, token.span⟩ :: opened) := by
  rw [next, hkind]

theorem next_closing (hkind : token.kind = .closing bracket) (span : Span)
    (outer : List OpenBracket) : next (⟨bracket, span⟩ :: outer) token = .ok outer := by
  rw [next, hkind]
  exact if_pos rfl

theorem next_mismatch (hkind : token.kind = .closing found) (hne : found ≠ bracket) (span : Span)
    (outer : List OpenBracket) :
    next (⟨bracket, span⟩ :: outer) token =
      .error (.mismatchedCloser bracket found token.span) := by
  rw [next, hkind]
  exact if_neg hne

theorem next_unexpected (hkind : token.kind = .closing found) :
    next [] token = .error (.unexpectedCloser found token.span) := by
  rw [next, hkind]

theorem next_of_no_bracket (hopening : ∀ bracket, token.kind ≠ .opening bracket)
    (hclosing : ∀ bracket, token.kind ≠ .closing bracket) (opened : List OpenBracket) :
    next opened token = .ok opened := by
  rw [next]
  cases hkind : token.kind <;> simp_all

theorem scan_of_next (hnext : next opened token = .ok outer) (tokens : List Token) :
    scan opened (token :: tokens) = scan outer tokens := by
  rw [scan_cons, hnext]
  rfl

theorem scan_of_next_error (hnext : next opened token = .error e) (tokens : List Token) :
    scan opened (token :: tokens) = .error e := by
  rw [scan_cons, hnext]
  rfl

/-- A token is refused if it closes a bracket that is not the innermost open one. -/
theorem next_eq_error_iff :
    next opened token = .error e ↔ ∃ found, token.kind = .closing found ∧
      (opened = [] ∧ e = .unexpectedCloser found token.span ∨
        ∃ top outer, opened = top :: outer ∧ found ≠ top.bracket ∧
          e = .mismatchedCloser top.bracket found token.span) := by
  constructor
  · intro h
    unfold next at h
    split at h
    · cases h
    · rename_i found hkind
      refine ⟨found, hkind, ?_⟩
      split at h
      · cases h
        exact .inl ⟨rfl, rfl⟩
      · split at h
        · cases h
        · rename_i top outer hne
          cases h
          exact .inr ⟨top, outer, rfl, hne, rfl⟩
    · cases h
  · rintro ⟨found, hkind, ⟨rfl, rfl⟩ | ⟨top, outer, rfl, hne, rfl⟩⟩
    · exact next_unexpected hkind
    · exact next_mismatch hkind hne top.span outer

/-- A scan fails at the first token that is refused, whatever follows it. -/
theorem scan_eq_error_iff {tokens : List Token} :
    scan opened tokens = .error e ↔ ∃ before token behind mid,
      tokens = before ++ token :: behind ∧ scan opened before = .ok mid ∧
        next mid token = .error e := by
  constructor
  · intro h
    induction tokens generalizing opened with
    | nil => cases h
    | cons token tokens ih =>
      cases hnext : next opened token with
      | error e' =>
        rw [scan_of_next_error hnext] at h
        cases h
        exact ⟨[], token, tokens, opened, rfl, rfl, hnext⟩
      | ok after =>
        rw [scan_of_next hnext] at h
        obtain ⟨before, closer, behind, mid, rfl, hscan, hcloser⟩ := ih h
        refine ⟨token :: before, closer, behind, mid, rfl, ?_, hcloser⟩
        rw [scan_of_next hnext, hscan]
  · rintro ⟨before, token, behind, mid, rfl, hscan, hnext⟩
    rw [scan_append, hscan]
    exact scan_of_next_error hnext behind

theorem check_of_scan {tokens rest : List Token} (hscan : scan opened tokens = scan outer rest) :
    check opened tokens = check outer rest := by
  rw [check, check, hscan]

theorem check_eq_error_iff {tokens : List Token} :
    check opened tokens = .error e ↔ scan opened tokens = .error e ∨
      ∃ innermost outer, scan opened tokens = .ok (innermost :: outer) ∧
        e = .unclosedBracket innermost.bracket innermost.span := by
  rw [check, Except.bind_eq_error_iff]
  refine or_congr_right ⟨?_, ?_⟩
  · rintro ⟨_ | ⟨innermost, outer⟩, hscan, hfinish⟩
    · cases hfinish
    · cases hfinish
      exact ⟨innermost, outer, hscan, rfl⟩
  · rintro ⟨innermost, outer, hscan, rfl⟩
    exact ⟨_, hscan, rfl⟩

end Scan

end OpenBracket

/-! ## The descent -/

namespace Descent

open OpenBracket

/-- Behind a node that was read the scan goes on with `outer` open, and a fault is the one that the
brackets have. -/
structure Follows (opened outer : List OpenBracket) {tokens : List Token}
    (outcome : Except Refusal (Parsed tokens)) : Prop where
  ok : ∀ parsed, outcome = .ok parsed → scan opened tokens = scan outer parsed.rest
  fault : ∀ e, outcome = .error (.fault e) → check opened tokens = .error e

theorem Follows.of_ok {opened outer : List OpenBracket} {tokens : List Token}
    {parsed : Parsed tokens} (h : scan opened tokens = scan outer parsed.rest) :
    Follows opened outer (.ok parsed) := by
  constructor
  · intro other hother
    cases hother
    exact h
  · intro e he
    cases he

theorem Follows.of_error {opened outer : List OpenBracket} {tokens : List Token}
    {refusal : Refusal} (h : ∀ e, refusal = .fault e → check opened tokens = .error e) :
    Follows opened outer (.error refusal : Except Refusal (Parsed tokens)) := by
  constructor
  · intro parsed hparsed
    cases hparsed
  · intro e he
    cases he
    exact h e rfl

/-- An expression leaves the open brackets as they are, and the rest of a list closes one. -/
theorem follows_of_expr_and_list :
    (∀ tokens outer, Follows outer outer (expr tokens)) ∧
    ∀ bracket opener done tokens outer,
      Follows (⟨bracket, opener.span⟩ :: outer) outer (list bracket opener done tokens) := by
  apply expr.mutual_induct
  case case1 =>
    intro outer
    rw [expr]
    refine .of_error fun e he => ?_
    cases he
  case case2 =>
    intro token tokens bracket hkind refusal hlist ih outer
    have hscan := scan_of_next (next_opening hkind outer) tokens
    rw [expr]
    simp only [hkind, hlist]
    refine .of_error fun e he => ?_
    rw [check_of_scan hscan]
    exact (ih outer).fault e (he ▸ hlist)
  case case3 =>
    intro token tokens bracket hkind found hlist ih outer
    have hscan := scan_of_next (next_opening hkind outer) tokens
    rw [expr]
    simp only [hkind, hlist]
    exact .of_ok (hscan.trans ((ih outer).ok found hlist))
  case case4 =>
    intro token tokens bracket hkind outer
    rw [expr]
    simp only [hkind]
    refine .of_error fun e he => ?_
    cases he
  case case5 =>
    intro token tokens hopening hclosing outer
    have hscan := scan_of_next (next_of_no_bracket hopening hclosing outer) tokens
    have hexpr : expr (token :: tokens) = .ok ⟨.ofToken token, tokens, Nat.lt_succ_self _⟩ := by
      rw [expr]
      cases hkind : token.kind <;> simp_all
    rw [hexpr]
    exact .of_ok hscan
  case case6 =>
    intro bracket opener done outer
    rw [list]
    refine .of_error fun e he => ?_
    cases he
    rfl
  case case7 =>
    intro opener done token tokens found hcloser outer
    have hkind := TokenKind.closer?_eq_some_iff.1 hcloser
    have hscan := scan_of_next (next_closing hkind opener.span outer) tokens
    rw [list]
    simp only [hcloser, if_true]
    exact .of_ok hscan
  case case8 =>
    intro bracket opener done token tokens found hcloser hne outer
    have hkind := TokenKind.closer?_eq_some_iff.1 hcloser
    have hscan := scan_of_next_error (next_mismatch hkind hne opener.span outer) tokens
    rw [list]
    simp only [hcloser, if_neg hne]
    refine .of_error fun e he => ?_
    cases he
    rw [check, hscan]
    rfl
  case case9 =>
    intro bracket opener done token tokens hcloser refusal hexpr ih outer
    rw [list]
    simp only [hcloser, hexpr]
    exact .of_error fun e he => (ih _).fault e (he ▸ hexpr)
  case case10 =>
    intro bracket opener done token tokens hcloser item hexpr refusal hlist ihexpr ihlist outer
    rw [list]
    simp only [hcloser, hexpr, hlist]
    refine .of_error fun e he => ?_
    rw [check_of_scan ((ihexpr _).ok item hexpr)]
    exact (ihlist outer).fault e (he ▸ hlist)
  case case11 =>
    intro bracket opener done token tokens hcloser item hexpr found hlist ihexpr ihlist outer
    rw [list]
    simp only [hcloser, hexpr, hlist]
    exact .of_ok (((ihexpr _).ok item hexpr).trans ((ihlist outer).ok found hlist))

/-- A whole source is refused for its brackets alone. -/
theorem check_of_program (done : List Node) (tokens : List Token) :
    (∀ nodes, program done tokens = .ok nodes → check [] tokens = .ok ()) ∧
      ∀ e, program done tokens = .error (.fault e) → check [] tokens = .error e := by
  fun_induction program done tokens with
  | case1 done =>
    constructor
    · intro nodes _
      rfl
    · intro e he
      cases he
  | case2 done token tokens found hcloser =>
    have hkind := TokenKind.closer?_eq_some_iff.1 hcloser
    constructor
    · intro nodes hnodes
      cases hnodes
    · intro e he
      cases he
      rw [check, scan_of_next_error (next_unexpected hkind)]
      rfl
  | case3 done token tokens hcloser refusal hexpr =>
    constructor
    · intro nodes hnodes
      cases hnodes
    · intro e he
      cases he
      exact (follows_of_expr_and_list.1 _ []).fault e hexpr
  | case4 done token tokens hcloser item hexpr ih =>
    rw [check_of_scan ((follows_of_expr_and_list.1 _ []).ok item hexpr)]
    exact ih

end Descent

namespace Node

open OpenBracket

variable {source : String} {e : ParseError}

/-- The nodes of some tokens are refused exactly as their brackets are. -/
theorem ofTokens_eq_check (tokens : List Token) :
    (ofTokens tokens).map (fun _ => ()) = check [] tokens := by
  obtain ⟨hok, hfault⟩ := Descent.check_of_program [] tokens
  unfold ofTokens
  split
  · rename_i items h
    exact (hok items h).symm
  · rename_i e h
    exact (hfault e h).symm
  · rename_i next h
    exact absurd h (Descent.program_ne_misplaced [] tokens next)

/-- A source is refused for the first character that starts no token, or else for its brackets. -/
theorem parse_eq_check (source : String) :
    (parse source).map (fun _ => ()) = Token.lex source >>= check [] := by
  rw [parse]
  cases Token.lex source with
  | error e => rfl
  | ok tokens =>
    show _ = check [] tokens
    rw [← ofTokens_eq_check]
    show (ofTokens tokens >>= _).map _ = _
    cases ofTokens tokens <;> rfl

theorem parse_eq_error_iff :
    parse source = .error e ↔ Token.lex source = .error e ∨
      ∃ tokens, Token.lex source = .ok tokens ∧ check [] tokens = .error e := by
  rw [← Except.bind_eq_error_iff, ← parse_eq_check]
  cases parse source <;> simp [Except.map]

theorem exists_parse_iff :
    (∃ node, parse source = .ok node) ↔
      ∃ tokens, Token.lex source = .ok tokens ∧ check [] tokens = .ok () := by
  rw [← Except.bind_eq_ok_iff, ← parse_eq_check]
  cases parse source <;> simp [Except.map]

end Node

/-! ## Brackets in other places -/

/-- The same error at another place. -/
def ParseError.moveTo (span : Span) : ParseError → ParseError
  | unexpectedCharacter found _ => unexpectedCharacter found span
  | unterminatedString _ => unterminatedString span
  | unclosedBracket bracket _ => unclosedBracket bracket span
  | unexpectedCloser bracket _ => unexpectedCloser bracket span
  | mismatchedCloser opened found _ => mismatchedCloser opened found span

namespace OpenBracket

/-- Two outcomes are related results, or the same error at two places. -/
inductive Alike {α : Type} (R : α → α → Prop) : Except ParseError α → Except ParseError α → Prop
  | ok {a b : α} (h : R a b) : Alike R (.ok a) (.ok b)
  | error (e : ParseError) (span : Span) : Alike R (.error e) (.error (e.moveTo span))

theorem Alike.bind {α β : Type} {R : α → α → Prop} {S : β → β → Prop} {x y : Except ParseError α}
    {f g : α → Except ParseError β} (h : Alike R x y) (hfg : ∀ a b, R a b → Alike S (f a) (g b)) :
    Alike S (x >>= f) (y >>= g) := by
  cases h with
  | ok h => exact hfg _ _ h
  | error e span => exact .error e span

theorem Alike.exists_of_ok {α : Type} {R : α → α → Prop} {a : α} {y : Except ParseError α}
    (h : Alike R (.ok a) y) : ∃ b, y = .ok b ∧ R a b := by
  cases h with
  | ok h => exact ⟨_, rfl, h⟩

/-- The same brackets, opened at any places. -/
def SameBrackets (opened others : List OpenBracket) : Prop :=
  opened.map bracket = others.map bracket

variable {opened others : List OpenBracket}

theorem alike_next {token other : Token} (hkind : token.kind = other.kind)
    (h : SameBrackets opened others) :
    Alike SameBrackets (next opened token) (next others other) := by
  cases htoken : token.kind with
  | opening bracket =>
    rw [next_opening htoken, next_opening (hkind.symm.trans htoken)]
    exact .ok (congrArg (bracket :: ·) h)
  | closing found =>
    have hother : other.kind = .closing found := hkind.symm.trans htoken
    cases opened with
    | nil =>
      obtain rfl := List.map_eq_nil_iff.1 h.symm
      rw [next_unexpected htoken, next_unexpected hother]
      exact .error (.unexpectedCloser found token.span) other.span
    | cons innermost outer =>
      obtain ⟨top, rest, rfl, hbracket, hrest⟩ := List.map_eq_cons_iff.1 h.symm
      obtain ⟨bracket, span⟩ := innermost
      obtain ⟨_, span'⟩ := top
      cases hbracket
      by_cases hfound : found = bracket
      · subst hfound
        rw [next_closing htoken, next_closing hother]
        exact .ok hrest.symm
      · rw [next_mismatch htoken hfound, next_mismatch hother hfound]
        exact .error (.mismatchedCloser bracket found token.span) other.span
  | _ =>
    rw [next_of_no_bracket (by simp [htoken]) (by simp [htoken]),
      next_of_no_bracket (by simp [← hkind, htoken]) (by simp [← hkind, htoken])]
    exact .ok h

theorem alike_scan {tokens tokens' : List Token}
    (hkinds : tokens.map Token.kind = tokens'.map Token.kind) (h : SameBrackets opened others) :
    Alike SameBrackets (scan opened tokens) (scan others tokens') := by
  induction tokens generalizing tokens' opened others with
  | nil =>
    obtain rfl := List.map_eq_nil_iff.1 hkinds.symm
    exact .ok h
  | cons token tokens ih =>
    obtain ⟨token', rest, rfl, hkind, hrest⟩ := List.map_eq_cons_iff.1 hkinds.symm
    rw [scan_cons, scan_cons]
    exact (alike_next hkind.symm h).bind fun _ _ hnext => ih hrest.symm hnext

theorem alike_finish (h : SameBrackets opened others) :
    Alike (fun _ _ => True) (finish opened) (finish others) := by
  cases opened with
  | nil =>
    obtain rfl := List.map_eq_nil_iff.1 h.symm
    exact .ok trivial
  | cons innermost outer =>
    obtain ⟨top, rest, rfl, hbracket, -⟩ := List.map_eq_cons_iff.1 h.symm
    rw [finish, finish, hbracket]
    exact .error (.unclosedBracket innermost.bracket innermost.span) top.span

/-- Whether brackets fit, and how they do not, is decided by the kinds of tokens. -/
theorem alike_check {tokens tokens' : List Token}
    (hkinds : tokens.map Token.kind = tokens'.map Token.kind) :
    Alike (fun _ _ => True) (check [] tokens) (check [] tokens') :=
  (alike_scan hkinds rfl).bind fun _ _ => alike_finish

end OpenBracket

end QuoteLisp
