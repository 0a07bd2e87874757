import QuoteLisp.Proofs.Lexemes
import QuoteLisp.Proofs.Places

/-!
# The longest tokens

What the lexer should find, said without it. `TokenKind.Matches` gives the class of texts of each
kind of token, and `Lexeme.LongestIn` says that no longer token starts where a lexeme does. A scan
finds exactly that lexeme (`Lexeme.scan_eq_ok_iff`), or reports that no token starts there
(`Lexeme.not_matches_of_scan`). Over a whole text this is maximal munch (`MaximalMunch`): the
tokens stand in order, each is the longest at its place, and everything else is blank. The lexer
returns exactly the one list of tokens with this property (`Token.lexFrom_eq_ok_iff`).
-/

namespace QuoteLisp

/-! ## The classes of token texts -/

/-- What can stand between the quotes of a string literal: complete pieces. -/
inductive IsStringBody : List Char → Prop
  | nil : IsStringBody []
  | plain {c : Char} {cs : List Char} (hquote : c ≠ '"') (hslash : c ≠ '\\')
    (hcs : IsStringBody cs) : IsStringBody (c :: cs)
  | escape {c : Char} {cs : List Char} (hc : c ≠ '\n') (hcs : IsStringBody cs) :
    IsStringBody ('\\' :: c :: cs)

/-- One or more digits behind an optional minus sign. -/
def IsDecimal (cs : List Char) : Prop :=
  ∃ digits, digits ≠ [] ∧ (∀ d ∈ digits, d.isDigit = true) ∧ (cs = digits ∨ cs = '-' :: digits)

/-- The texts of a kind of token. -/
def TokenKind.Matches : TokenKind → List Char → Prop
  | opening bracket, cs => cs = [bracket.opener]
  | closing bracket, cs => cs = [bracket.closer]
  | number, cs => IsDecimal cs
  | string, cs => ∃ body, cs = '"' :: (body ++ ['"']) ∧ IsStringBody body
  | symbol, cs => cs ≠ [] ∧ (∀ c ∈ cs, isWordChar c = true) ∧ ¬ IsDecimal cs
  | comment, cs => ∃ line, cs = ';' :: line ∧ '\r' ∉ line ∧ '\n' ∉ line

theorem isNumeral_iff {cs : List Char} : isNumeral cs = true ↔ IsDecimal cs := by
  constructor
  · intro h
    cases cs with
    | nil => cases h
    | cons c cs =>
      rw [isNumeral] at h
      split at h
      · rename_i hc
        obtain ⟨hne, hdigits⟩ := Bool.and_eq_true_iff.1 h
        exact ⟨cs, by simpa using hne, List.all_eq_true.1 hdigits, .inr (by rw [hc])⟩
      · exact ⟨c :: cs, List.cons_ne_nil c cs, List.all_eq_true.1 h, .inl rfl⟩
  · rintro ⟨digits, hne, hdigits, rfl | rfl⟩
    · obtain ⟨d, ds, rfl⟩ := List.exists_cons_of_ne_nil hne
      have hminus : d ≠ '-' := by
        rintro rfl
        exact absurd (hdigits '-' List.mem_cons_self) (by decide)
      rw [isNumeral, if_neg hminus]
      exact List.all_eq_true.2 hdigits
    · rw [isNumeral, if_pos rfl, List.all_eq_true.2 hdigits]
      simpa using hne

/-! ## String bodies -/

theorem isStringBody_stringPieces (cs : List Char) : IsStringBody (stringPieces cs).1 := by
  fun_induction stringPieces cs with
  | case1 => exact .nil
  | case2 => exact .nil
  | case3 => exact .nil
  | case4 => exact .nil
  | case5 d ds hd _ ih => exact .escape hd ih
  | case6 c cs hquote hslash ih => exact .plain hquote hslash ih

/-- The pieces of a text begin with any string body that it begins with. -/
theorem IsStringBody.stringPieces_append {body : List Char} (h : IsStringBody body)
    (rest : List Char) :
    stringPieces (body ++ rest) = (body ++ (stringPieces rest).1, (stringPieces rest).2) := by
  induction h with
  | nil => rfl
  | plain hquote hslash _ ih =>
    rw [List.cons_append, stringPieces_of_plain hquote hslash, ih]
    rfl
  | escape hc _ ih =>
    rw [List.cons_append, List.cons_append, stringPieces_of_escape hc, ih]
    rfl

/-- The longest string body at the head of a text. -/
structure IsLongestBody (body cs : List Char) : Prop where
  isPrefix : body <+: cs
  isBody : IsStringBody body
  longest : ∀ other, other <+: cs → IsStringBody other → other.length ≤ body.length

theorem isLongestBody_stringPieces (cs : List Char) : IsLongestBody (stringPieces cs).1 cs where
  isPrefix := ⟨_, QuoteLisp.stringPieces_append cs⟩
  isBody := isStringBody_stringPieces cs
  longest := by
    rintro other ⟨rest, rfl⟩ hother
    rw [hother.stringPieces_append, List.length_append]
    omega

/-! ## One lexeme -/

theorem TokenKind.Accepts.matches {kind : TokenKind} {cs : List Char} (h : kind.Accepts cs) :
    kind.Matches cs := by
  cases kind with
  | opening => exact h
  | closing => exact h
  | number => exact isNumeral_iff.1 h
  | string =>
    obtain ⟨inner, rfl, hinner⟩ := h
    refine ⟨inner, rfl, ?_⟩
    have hbody := isStringBody_stringPieces inner
    rwa [hinner] at hbody
  | symbol =>
    simp only [TokenKind.Accepts, isSymbolName, Bool.and_eq_true, Bool.not_eq_true'] at h
    obtain ⟨⟨hne, hword⟩, hnumeral⟩ := h
    refine ⟨by simpa using hne, List.all_eq_true.1 hword, fun hdecimal => ?_⟩
    rw [isNumeral_iff.2 hdecimal] at hnumeral
    cases hnumeral
  | comment =>
    obtain ⟨line, rfl, hline⟩ := h
    have hchar := List.all_eq_true.1 hline
    exact ⟨line, rfl, fun h => absurd (hchar _ h) (by decide),
      fun h => absurd (hchar _ h) (by decide)⟩

theorem TokenKind.Matches.exists_cons {kind : TokenKind} {cs : List Char} (h : kind.Matches cs) :
    ∃ c rest, cs = c :: rest ∧ isBlank c = false := by
  cases kind with
  | opening bracket => exact ⟨_, [], h, by cases bracket <;> decide⟩
  | closing bracket => exact ⟨_, [], h, by cases bracket <;> decide⟩
  | number =>
    have hnumeral := isNumeral_iff.2 h
    have hword := List.all_eq_true.1 (all_isWordChar_of_isNumeral hnumeral)
    have hne : cs ≠ [] := by rintro rfl; cases hnumeral
    obtain ⟨c, rest, rfl⟩ := List.exists_cons_of_ne_nil hne
    exact ⟨c, rest, rfl, isBlank_of_isWordChar (hword c List.mem_cons_self)⟩
  | string =>
    obtain ⟨body, rfl, -⟩ := h
    exact ⟨'"', body ++ ['"'], rfl, by decide⟩
  | symbol =>
    obtain ⟨c, rest, rfl⟩ := List.exists_cons_of_ne_nil h.1
    exact ⟨c, rest, rfl, isBlank_of_isWordChar (h.2.1 c List.mem_cons_self)⟩
  | comment =>
    obtain ⟨line, rfl, -⟩ := h
    exact ⟨';', line, rfl, by decide⟩

/-- A run of characters in a class is no longer than the longest one. -/
theorem length_le_length_takeWhile {p : Char → Bool} {run cs : List Char}
    (hrun : ∀ c ∈ run, p c = true) (hstarts : run <+: cs) :
    run.length ≤ (cs.takeWhile p).length := by
  obtain ⟨rest, rfl⟩ := hstarts
  rw [List.takeWhile_append_of_pos hrun, List.length_append]
  omega

namespace Lexeme

variable {c : Char} {cs rest : List Char} {lexeme : Lexeme}

theorem scan_of_isWordChar (hc : isWordChar c = true) (cs : List Char) :
    scan c cs =
      .ok (⟨if isNumeral (c :: cs.takeWhile isWordChar) then .number else .symbol,
        c :: cs.takeWhile isWordChar⟩, cs.dropWhile isWordChar) := by
  have hword : (c :: cs.takeWhile isWordChar).all isWordChar = true := by
    rw [List.all_cons, hc, List.all_takeWhile]
    rfl
  have hends : EndsWord (cs.dropWhile isWordChar) := by
    intro d hd
    have hhead := List.head?_dropWhile_not isWordChar cs
    rw [Option.mem_def.1 hd] at hhead
    exact hhead
  have hscan := scan_word hword hends
  rwa [List.takeWhile_append_dropWhile] at hscan

/-- A word is scanned together with all that follows in it. -/
theorem exists_scan_of_word {word : List Char} {kind : TokenKind} (hne : word ≠ [])
    (hword : ∀ d ∈ word, isWordChar d = true)
    (hkind : (if isNumeral word then .number else .symbol) = kind) (hstarts : word <+: c :: cs) :
    ∃ lexeme rest, scan c cs = .ok (lexeme, rest) ∧ word.length ≤ lexeme.text.length ∧
      (lexeme.text = word → lexeme.kind = kind) := by
  obtain ⟨d, ds, rfl⟩ := List.exists_cons_of_ne_nil hne
  obtain ⟨rfl, hds⟩ := List.cons_prefix_cons.1 hstarts
  obtain ⟨hd, htail⟩ := List.forall_mem_cons.1 hword
  refine ⟨_, _, scan_of_isWordChar hd cs, ?_, ?_⟩
  · exact Nat.succ_le_succ (length_le_length_takeWhile htail hds)
  · intro htext
    rw [← hkind, ← htext]

/-- Where a token starts a scan finds one that is no shorter, and of the same kind if it is no
longer. -/
theorem exists_scan_of_matches {kind : TokenKind} {text : List Char} (h : kind.Matches text)
    (hstarts : text <+: c :: cs) :
    ∃ lexeme rest, scan c cs = .ok (lexeme, rest) ∧ text.length ≤ lexeme.text.length ∧
      (lexeme.text = text → lexeme.kind = kind) := by
  cases kind with
  | opening bracket =>
    subst h
    obtain ⟨rfl, -⟩ := List.cons_prefix_cons.1 hstarts
    cases bracket <;> exact ⟨_, cs, rfl, Nat.le_refl 1, fun _ => rfl⟩
  | closing bracket =>
    subst h
    obtain ⟨rfl, -⟩ := List.cons_prefix_cons.1 hstarts
    cases bracket <;> exact ⟨_, cs, rfl, Nat.le_refl 1, fun _ => rfl⟩
  | number =>
    have hnumeral := isNumeral_iff.2 h
    have hword := List.all_eq_true.1 (all_isWordChar_of_isNumeral hnumeral)
    exact exists_scan_of_word (by rintro rfl; cases hnumeral) hword (if_pos hnumeral) hstarts
  | symbol =>
    obtain ⟨hne, hword, hdecimal⟩ := h
    exact exists_scan_of_word hne hword (if_neg (mt isNumeral_iff.1 hdecimal)) hstarts
  | string =>
    obtain ⟨body, rfl, hbody⟩ := h
    obtain ⟨rfl, rest, rfl⟩ := List.cons_prefix_cons.1 hstarts
    have hpieces : stringPieces (body ++ ['"'] ++ rest) = (body, '"' :: rest) := by
      rw [List.append_assoc, hbody.stringPieces_append, List.singleton_append,
        stringPieces_of_quote, List.append_nil]
    refine ⟨⟨.string, '"' :: body ++ ['"']⟩, rest, ?_, Nat.le_refl _, fun _ => rfl⟩
    unfold scan
    rw [hpieces]
    rfl
  | comment =>
    obtain ⟨line, rfl, hreturn, hfeed⟩ := h
    obtain ⟨rfl, hline⟩ := List.cons_prefix_cons.1 hstarts
    have hchar : ∀ d ∈ line, isLineChar d = true := by
      intro d hd
      have hd₁ : d ≠ '\r' := by rintro rfl; exact hreturn hd
      have hd₂ : d ≠ '\n' := by rintro rfl; exact hfeed hd
      simp [isLineChar, hd₁, hd₂]
    refine ⟨⟨.comment, ';' :: cs.takeWhile isLineChar⟩, _, rfl, ?_, fun _ => rfl⟩
    exact Nat.succ_le_succ (length_le_length_takeWhile hchar hline)

/-- The lexeme is the longest token at the head of the text. -/
structure LongestIn (lexeme : Lexeme) (cs : List Char) : Prop where
  isPrefix : lexeme.text <+: cs
  inClass : lexeme.kind.Matches lexeme.text
  longest : ∀ kind text, text <+: cs → TokenKind.Matches kind text →
    text.length ≤ lexeme.text.length

/-- The longest token of a text is the longest in any part of it that holds the token. -/
theorem LongestIn.shorten {cs' : List Char} (h : lexeme.LongestIn cs') (hcs : cs <+: cs')
    (htext : lexeme.text <+: cs) : lexeme.LongestIn cs :=
  ⟨htext, h.inClass, fun kind text hstarts => h.longest kind text (hstarts.trans hcs)⟩

theorem LongestIn.isBlank_head (h : lexeme.LongestIn (c :: cs)) : isBlank c = false := by
  obtain ⟨d, text, htext, hd⟩ := h.inClass.exists_cons
  have hstarts := h.isPrefix
  rw [htext] at hstarts
  obtain ⟨rfl, -⟩ := List.cons_prefix_cons.1 hstarts
  exact hd

/-- A scan finds the longest token at the head of a text. -/
theorem scan_eq_ok_iff :
    scan c cs = .ok (lexeme, rest) ↔
      lexeme.LongestIn (c :: cs) ∧ lexeme.text ++ rest = c :: cs := by
  constructor
  · intro h
    refine ⟨⟨⟨rest, scan_append h⟩, (accepts_of_scan h).matches, fun kind text hstarts htext => ?_⟩,
      scan_append h⟩
    obtain ⟨found, rest', hscan, hle, -⟩ := exists_scan_of_matches htext hstarts
    cases h.symm.trans hscan
    exact hle
  · rintro ⟨h, hrest⟩
    obtain ⟨found, rest', hscan, hle, hkind⟩ := exists_scan_of_matches h.inClass h.isPrefix
    have hfound := scan_append hscan
    have hge := h.longest _ _ ⟨rest', hfound⟩ (accepts_of_scan hscan).matches
    obtain ⟨htext, rfl⟩ := List.append_inj (hfound.trans hrest.symm) (by omega)
    have heq : found = lexeme := by
      cases found
      cases lexeme
      simp_all
    rw [hscan, heq]

/-- Where a scan fails no token starts. -/
theorem not_matches_of_scan {fault : LexFault} (h : scan c cs = .error fault) (kind : TokenKind)
    {text : List Char} (hstarts : text <+: c :: cs) : ¬ kind.Matches text := by
  intro htext
  obtain ⟨found, rest, hscan, -⟩ := exists_scan_of_matches htext hstarts
  cases h.symm.trans hscan

theorem scan_eq_error {fault : LexFault} (h : scan c cs = .error fault) :
    fault = if c = '"' then .unterminated (c :: (stringPieces cs).1) else .unexpected c := by
  unfold scan at h
  repeat' split at h
  all_goals cases h
  · rename_i hc _ _
    rw [if_pos hc]
  · rename_i hc _ _
    rw [if_neg hc]

end Lexeme

/-! ## The whole text -/

open Token

/-- The token stands in a text that starts at a byte offset, and is the longest at its place. -/
def Token.LongestAt (token : Token) (position : Nat) (cs : List Char) : Prop :=
  ∃ before after, cs = before ++ after ∧ token.lexeme.LongestIn after ∧
    token.span.start = position + byteLength before ∧
    token.span.stop = token.span.start + byteLength token.text.toList

/-- The tokens of a text that starts at a byte offset: each is the longest at its place, they stand
in order, and all characters between them are blanks. -/
structure MaximalMunch (position : Nat) (cs : List Char) (tokens : List Token) : Prop where
  longest : ∀ token ∈ tokens, token.LongestAt position cs
  increasing : tokens.Pairwise fun token later => token.span.stop ≤ later.span.start
  blank : ∀ before c after, cs = before ++ c :: after →
    (∀ token ∈ tokens, ¬ token.span.Contains (position + byteLength before)) → isBlank c = true

section

variable {position : Nat} {front cs rest : List Char} {token : Token} {tokens : List Token}

namespace Token

theorem LongestAt.cuts (h : token.LongestAt position cs) :
    token.span.Cuts position cs token.text.toList := by
  obtain ⟨before, after, rfl, hlongest, hstart, hstop⟩ := h
  obtain ⟨rest, rfl⟩ := hlongest.isPrefix
  exact ⟨before, rest, rfl, hstart, hstop⟩

theorem LongestAt.inClass (h : token.LongestAt position cs) :
    token.kind.Matches token.text.toList := by
  obtain ⟨before, after, -, hlongest, -, -⟩ := h
  exact hlongest.inClass

theorem LongestAt.start_lt_stop (h : token.LongestAt position cs) :
    token.span.start < token.span.stop := by
  obtain ⟨c, rest, htext, -⟩ := h.inClass.exists_cons
  exact h.cuts.start_lt_stop (by rw [htext]; exact List.cons_ne_nil c rest)

theorem LongestAt.position_le (h : token.LongestAt position cs) : position ≤ token.span.start := by
  obtain ⟨before, after, -, -, hstart, -⟩ := h
  omega

/-- A token behind the first characters of a text is one of the rest. -/
theorem longestAt_append_iff :
    token.LongestAt (position + byteLength front) cs ↔
      token.LongestAt position (front ++ cs) ∧
        position + byteLength front ≤ token.span.start := by
  constructor
  · rintro ⟨before, after, rfl, hlongest, hstart, hstop⟩
    refine ⟨⟨front ++ before, after, by simp, hlongest, ?_, hstop⟩, by omega⟩
    rw [byteLength_append]
    omega
  · rintro ⟨⟨before, after, hcs, hlongest, hstart, hstop⟩, hle⟩
    obtain ⟨es, rfl, rfl⟩ := exists_eq_append_of_byteLength_le hcs (by omega)
    refine ⟨es, after, rfl, hlongest, ?_, hstop⟩
    rw [byteLength_append] at hstart
    omega

/-- A token at the very start of a text is the longest lexeme there. -/
theorem LongestAt.longestIn (h : token.LongestAt position cs)
    (hstart : token.span.start = position) : token.lexeme.LongestIn cs := by
  obtain ⟨before, after, rfl, hlongest, hbefore, -⟩ := h
  obtain rfl : before = [] := eq_nil_of_byteLength (by omega)
  exact hlongest

theorem LongestAt.eq_toToken (h : token.LongestAt position cs)
    (hstart : token.span.start = position) : token = token.lexeme.toToken position := by
  obtain ⟨before, after, -, -, -, hstop⟩ := h
  obtain ⟨kind, text, start, stop⟩ := token
  obtain rfl : start = position := hstart
  obtain rfl : stop = start + byteLength text.toList := hstop
  simp [Lexeme.toToken, lexeme]

end Token

namespace MaximalMunch

theorem nil (position : Nat) : MaximalMunch position [] [] :=
  ⟨by simp, .nil, by simp⟩

/-- The tokens behind the first characters of a text are those of the rest. -/
theorem behind {firsts : List Token} (h : MaximalMunch position (front ++ cs) (firsts ++ tokens))
    (hfirsts : ∀ token ∈ firsts, token.span.stop ≤ position + byteLength front)
    (htokens : ∀ token ∈ tokens, position + byteLength front ≤ token.span.start) :
    MaximalMunch (position + byteLength front) cs tokens where
  longest token htoken :=
    longestAt_append_iff.2 ⟨h.longest token (List.mem_append_right _ htoken), htokens token htoken⟩
  increasing := (List.pairwise_append.1 h.increasing).2.1
  blank before c after hcs houtside := by
    refine h.blank (front ++ before) c after (by rw [hcs, List.append_assoc]) ?_
    rw [byteLength_append, ← Nat.add_assoc]
    refine List.forall_mem_append.2 ⟨fun token htoken hcontains => ?_, houtside⟩
    have hstop := hfirsts token htoken
    have hlt := hcontains.2
    omega

/-- A blank in front changes nothing. -/
theorem cons_blank {c : Char} (hc : isBlank c = true)
    (h : MaximalMunch (position + c.utf8Size) cs tokens) :
    MaximalMunch position (c :: cs) tokens where
  longest token htoken := by
    have hlongest : token.LongestAt (position + byteLength [c]) cs := h.longest token htoken
    exact (longestAt_append_iff.1 hlongest).1
  increasing := h.increasing
  blank before d after hcs houtside := by
    cases before with
    | nil =>
      obtain ⟨rfl, -⟩ := List.cons.inj hcs
      exact hc
    | cons e before =>
      obtain ⟨rfl, htail⟩ := List.cons.inj hcs
      refine h.blank before d after htail ?_
      rwa [byteLength_cons, ← Nat.add_assoc] at houtside

/-- The longest lexeme in front of a text becomes its first token. -/
theorem cons_token {lexeme : Lexeme} (hlexeme : lexeme.LongestIn (lexeme.text ++ rest))
    (h : MaximalMunch (position + byteLength lexeme.text) rest tokens) :
    MaximalMunch position (lexeme.text ++ rest) (lexeme.toToken position :: tokens) where
  longest := by
    refine List.forall_mem_cons.2 ⟨⟨[], _, rfl, ?_, rfl, ?_⟩, fun token htoken => ?_⟩
    · rwa [Lexeme.lexeme_toToken]
    · simp [Lexeme.toToken]
    · exact (longestAt_append_iff.1 (h.longest token htoken)).1
  increasing := by
    refine List.pairwise_cons.2 ⟨fun token htoken => ?_, h.increasing⟩
    exact (h.longest token htoken).position_le
  blank before c after hcs houtside := by
    obtain ⟨hfirst, hothers⟩ := List.forall_mem_cons.1 houtside
    -- a character that the first token does not contain stands behind it
    have hle : byteLength lexeme.text ≤ byteLength before := by
      have hout : ¬ (position ≤ position + byteLength before ∧
          position + byteLength before < position + byteLength lexeme.text) := hfirst
      omega
    obtain ⟨es, rfl, hrest⟩ := exists_eq_append_of_byteLength_le hcs hle
    refine h.blank es c after hrest ?_
    rwa [byteLength_append, ← Nat.add_assoc] at hothers

/-- Where a text does not begin with a blank it begins with its first token. -/
theorem exists_cons {c : Char} (h : MaximalMunch position (c :: cs) tokens)
    (hc : isBlank c = false) :
    ∃ token rest, tokens = token :: rest ∧ token.span.start = position := by
  have hcovered : ∃ token ∈ tokens, token.span.Contains position := by
    apply Classical.byContradiction
    intro hnone
    have hblank := h.blank [] c cs rfl fun token htoken hcontains =>
      hnone ⟨token, htoken, hcontains⟩
    rw [hc] at hblank
    cases hblank
  obtain ⟨token, htoken, hstart, -⟩ := hcovered
  cases tokens with
  | nil => cases htoken
  | cons first others =>
    refine ⟨first, others, rfl, ?_⟩
    have hfirst := h.longest first List.mem_cons_self
    have hposition := hfirst.position_le
    have hlt := hfirst.start_lt_stop
    obtain rfl | hother := List.mem_cons.1 htoken
    · omega
    · have hbefore := (List.pairwise_cons.1 h.increasing).1 token hother
      omega

/-- No token starts at a blank. -/
theorem of_cons_blank {c : Char} (hc : isBlank c = true)
    (h : MaximalMunch position (c :: cs) tokens) :
    MaximalMunch (position + c.utf8Size) cs tokens := by
  have hcons : MaximalMunch position ([c] ++ cs) ([] ++ tokens) := h
  refine hcons.behind (by simp) fun token htoken => ?_
  obtain ⟨before, after, hcs, hlongest, hstart, -⟩ := h.longest token htoken
  cases before with
  | nil =>
    obtain rfl : c :: cs = after := hcs
    rw [hlongest.isBlank_head] at hc
    cases hc
  | cons e before =>
    obtain ⟨rfl, -⟩ := List.cons.inj hcs
    rw [hstart, byteLength_cons, byteLength_cons, byteLength_nil]
    omega

/-- Behind its first token a text goes on with the others. -/
theorem of_cons_token {lexeme : Lexeme}
    (h : MaximalMunch position (lexeme.text ++ rest) (lexeme.toToken position :: tokens)) :
    MaximalMunch (position + byteLength lexeme.text) rest tokens := by
  have hcons : MaximalMunch position (lexeme.text ++ rest)
    ([lexeme.toToken position] ++ tokens) := h
  refine hcons.behind (fun token htoken => ?_) (List.pairwise_cons.1 h.increasing).1
  rw [List.mem_singleton.1 htoken]
  exact Nat.le_refl _

/-- The bytes outside of the tokens are blank. -/
theorem mem_blankBytes (h : MaximalMunch 0 cs tokens) {i : Nat} {b : UInt8}
    (hb : (Utf8.encode cs)[i]? = some b) (houtside : ∀ token ∈ tokens, ¬ token.span.Contains i) :
    b ∈ blankBytes := by
  obtain ⟨before, c, after, rfl, hle, hlt, hmem⟩ := exists_char_of_getElem?_encode hb
  refine mem_blankBytes_of_isBlank (h.blank before c after rfl fun token htoken => ?_) hmem
  intro hcontains
  rw [Nat.zero_add] at hcontains
  have hcuts := (h.longest token htoken).cuts
  exact houtside token htoken (hcuts.contains_of_contains hcontains hle hlt)

/-- The first token is what a scan finds. -/
theorem exists_of_scan {c : Char} {lexeme : Lexeme} (h : MaximalMunch position (c :: cs) tokens)
    (hc : isBlank c = false) (hscan : Lexeme.scan c cs = .ok (lexeme, rest)) :
    ∃ others, tokens = lexeme.toToken position :: others ∧
      MaximalMunch (position + byteLength lexeme.text) rest others := by
  obtain ⟨token, others, rfl, hstart⟩ := h.exists_cons hc
  have htoken := h.longest token List.mem_cons_self
  have hlongest := htoken.longestIn hstart
  obtain ⟨behind, htext⟩ := hlongest.isPrefix
  have hfound := Lexeme.scan_eq_ok_iff.2 ⟨hlongest, htext⟩
  cases hscan.symm.trans hfound
  have heq := htoken.eq_toToken hstart
  rw [← htext, heq, Lexeme.lexeme_toToken] at h
  exact ⟨others, by rw [← heq], h.of_cons_token⟩

end MaximalMunch

namespace Token

theorem maximalMunch_of_lexFrom (h : lexFrom position cs = .ok tokens) :
    MaximalMunch position cs tokens := by
  refine lexFrom_induction MaximalMunch.nil (fun hc => .cons_blank hc) ?_ h
  intro position c cs rest lexeme tokens _ hscan hrest
  obtain ⟨hlongest, htext⟩ := Lexeme.scan_eq_ok_iff.1 hscan
  rw [← htext] at hlongest ⊢
  exact hrest.cons_token hlongest

theorem lexFrom_of_maximalMunch (h : MaximalMunch position cs tokens) :
    lexFrom position cs = .ok tokens := by
  induction position, cs using lexFrom.induct generalizing tokens with
  | case1 position =>
    cases tokens with
    | nil => rw [lexFrom]
    | cons token tokens =>
      have htoken := h.longest token List.mem_cons_self
      have hlt := htoken.start_lt_stop
      have hle := htoken.cuts.stop_le
      have hge := htoken.position_le
      rw [byteLength_nil] at hle
      omega
  | case2 position c cs hc ih =>
    rw [lexFrom_of_blank hc]
    exact ih (h.of_cons_blank hc)
  | case3 position c cs hc fault hscan =>
    obtain ⟨token, others, rfl, hstart⟩ := h.exists_cons (by simpa using hc)
    have hlongest := (h.longest token List.mem_cons_self).longestIn hstart
    exact absurd hlongest.inClass (Lexeme.not_matches_of_scan hscan _ hlongest.isPrefix)
  | case4 position c cs hc lexeme rest hscan e hrest ih =>
    obtain ⟨others, rfl, hothers⟩ := h.exists_of_scan (by simpa using hc) hscan
    rw [ih hothers] at hrest
    cases hrest
  | case5 position c cs hc lexeme rest hscan found hrest ih =>
    obtain ⟨others, rfl, hothers⟩ := h.exists_of_scan (by simpa using hc) hscan
    rw [lexFrom_of_scan (by simpa using hc) hscan, ih hothers]
    rfl

/-- The lexer returns the one list of tokens that maximal munch allows. -/
theorem lexFrom_eq_ok_iff : lexFrom position cs = .ok tokens ↔ MaximalMunch position cs tokens :=
  ⟨maximalMunch_of_lexFrom, lexFrom_of_maximalMunch⟩

/-! ## Texts that are not cut -/

/-- A failure comes from a fault behind a text that is cut into tokens. -/
theorem exists_fault_of_lexFrom {e : ParseError} (h : lexFrom position cs = .error e) :
    ∃ before c rest fault, cs = before ++ c :: rest ∧ isBlank c = false ∧
      Lexeme.scan c rest = .error fault ∧
      e = fault.toParseError (position + byteLength before) ∧
      ∃ tokens, MaximalMunch position before tokens := by
  refine lexFrom_error_induction (motive := fun position cs e => ∃ before c rest fault,
    cs = before ++ c :: rest ∧ isBlank c = false ∧ Lexeme.scan c rest = .error fault ∧
      e = fault.toParseError (position + byteLength before) ∧
      ∃ tokens, MaximalMunch position before tokens) ?_ ?_ ?_ h
  · intro position c cs fault hc hscan
    exact ⟨[], c, cs, fault, rfl, hc, hscan, rfl, [], .nil position⟩
  · rintro position c _ _ hc ⟨before, d, rest, fault, rfl, hd, hscan, rfl, tokens, htokens⟩
    refine ⟨c :: before, d, rest, fault, rfl, hd, hscan, ?_, tokens, htokens.cons_blank hc⟩
    rw [byteLength_cons, Nat.add_assoc]
  · rintro position c cs _ lexeme _ hc hscan -
      ⟨before, d, rest, fault, rfl, hd, hfault, rfl, tokens, htokens⟩
    obtain ⟨hlongest, htext⟩ := Lexeme.scan_eq_ok_iff.1 hscan
    refine ⟨lexeme.text ++ before, d, rest, fault, by rw [← htext, List.append_assoc], hd, hfault,
      by rw [byteLength_append, Nat.add_assoc], lexeme.toToken position :: tokens, ?_⟩
    -- the lexeme stays the longest one when the text is cut off behind it
    refine htokens.cons_token (hlongest.shorten ?_ (List.prefix_append _ _))
    rw [← htext, List.prefix_append_right_inj]
    exact List.prefix_append _ _

/-- Where and why a text is not cut into tokens: the text in front of the place is, the character
there is no blank, and no token starts with it. A quote starts a string literal that ends behind
its last complete piece; any other character is unexpected. -/
def FailsAt (cs : List Char) (e : ParseError) : Prop :=
  ∃ before c rest, cs = before ++ c :: rest ∧ e.span.start = byteLength before ∧
    (∃ tokens, lex (String.ofList before) = .ok tokens) ∧ isBlank c = false ∧
    (∀ kind text, text <+: c :: rest → ¬ TokenKind.Matches kind text) ∧
    if c = '"' then
      ∃ pieces, IsLongestBody pieces rest ∧
        e = .unterminatedString ⟨byteLength before, byteLength (before ++ c :: pieces)⟩
    else e = .unexpectedCharacter c ⟨byteLength before, byteLength (before ++ [c])⟩

theorem failsAt_of_lexFrom {e : ParseError} (h : lexFrom 0 cs = .error e) : FailsAt cs e := by
  obtain ⟨before, c, rest, fault, hcs, hc, hscan, rfl, tokens, htokens⟩ := exists_fault_of_lexFrom h
  refine ⟨before, c, rest, hcs, ?_, ⟨tokens, ?_⟩, hc,
    fun kind text => Lexeme.not_matches_of_scan hscan kind, ?_⟩
  · cases fault <;> exact Nat.zero_add _
  · rw [lex, String.toList_ofList]
    exact lexFrom_of_maximalMunch htokens
  · rw [Lexeme.scan_eq_error hscan]
    by_cases hquote : c = '"'
    · rw [if_pos hquote, if_pos hquote]
      refine ⟨(stringPieces rest).1, isLongestBody_stringPieces rest, ?_⟩
      rw [LexFault.toParseError, byteLength_append, Nat.zero_add]
    · rw [if_neg hquote, if_neg hquote, LexFault.toParseError, byteLength_append, byteLength_cons,
        byteLength_nil, Nat.zero_add, Nat.add_zero]

/-! ## The lexer -/

/-- The lexer returns some tokens exactly if each of them is the longest at its place, they stand
in order and blanks are all that is left. They are then not empty, each holds the bytes at its
span and is of its class, and the bytes outside of their spans are blank. Where the lexer fails the
text is cut up to a character that starts no token. -/
theorem lex_eq_maximal_munch (source : String) :
    (∀ tokens, lex source = .ok tokens ↔ MaximalMunch 0 source.toList tokens) ∧
    (∀ tokens, lex source = .ok tokens →
      (∀ token ∈ tokens, token.span.start < token.span.stop ∧
        token.span.Cuts 0 source.toList token.text.toList ∧
        (Utf8.encode source.toList).extract token.span.start token.span.stop =
          Utf8.encode token.text.toList ∧
        token.kind.Matches token.text.toList) ∧
      ∀ i b, (Utf8.encode source.toList)[i]? = some b →
        (∀ token ∈ tokens, ¬ token.span.Contains i) → b ∈ blankBytes) ∧
    ∀ e, lex source = .error e → FailsAt source.toList e := by
  refine ⟨fun tokens => lexFrom_eq_ok_iff, fun tokens h => ?_, fun e => failsAt_of_lexFrom⟩
  have hmunch := maximalMunch_of_lexFrom h
  constructor
  · intro token htoken
    have hlongest := hmunch.longest token htoken
    exact ⟨hlongest.start_lt_stop, hlongest.cuts, hlongest.cuts.extract_encode, hlongest.inClass⟩
  · intro i b hb houtside
    exact hmunch.mem_blankBytes hb houtside

/-- A tab, a return and a line feed between tokens and tokens without any blank between them, a
literal with an escaped quote and a comment, both with characters of two bytes; a literal that an
escaped line feed breaks, and a character of three bytes that starts no token. -/
theorem lex_eq_maximal_munch_of_words :
    MaximalMunch 0 "(-12\t\"é\\\"\"-x\r;(λ\n)".toList
      [⟨.opening .round, "(", ⟨0, 1⟩⟩, ⟨.number, "-12", ⟨1, 4⟩⟩, ⟨.string, "\"é\\\"\"", ⟨5, 11⟩⟩,
        ⟨.symbol, "-x", ⟨11, 13⟩⟩, ⟨.comment, ";(λ", ⟨14, 18⟩⟩, ⟨.closing .round, ")", ⟨19, 20⟩⟩] ∧
    FailsAt "( \"é\\\nb\"".toList (.unterminatedString ⟨2, 5⟩) ∧
    FailsAt "()€".toList (.unexpectedCharacter '€' ⟨2, 5⟩) := by
  have hwords : lex "(-12\t\"é\\\"\"-x\r;(λ\n)" = .ok
      [⟨.opening .round, "(", ⟨0, 1⟩⟩, ⟨.number, "-12", ⟨1, 4⟩⟩, ⟨.string, "\"é\\\"\"", ⟨5, 11⟩⟩,
        ⟨.symbol, "-x", ⟨11, 13⟩⟩, ⟨.comment, ";(λ", ⟨14, 18⟩⟩,
        ⟨.closing .round, ")", ⟨19, 20⟩⟩] :=
    Except.eq_ok_of_toOption (by decide +kernel)
  have hliteral : lex "( \"é\\\nb\"" = .error (.unterminatedString ⟨2, 5⟩) := by
    show lexFrom 0 ['(', ' ', '"', 'é', '\\', '\n', 'b', '"'] = _
    rw [lexFrom_of_scan rfl rfl, lexFrom_of_blank rfl, lexFrom_of_fault rfl rfl]
    rfl
  have hcharacter : lex "()€" = .error (.unexpectedCharacter '€' ⟨2, 5⟩) := by
    show lexFrom 0 ['(', ')', '€'] = _
    rw [lexFrom_of_scan rfl rfl, lexFrom_of_scan rfl rfl, lexFrom_of_fault rfl rfl]
    rfl
  exact ⟨((lex_eq_maximal_munch _).1 _).1 hwords, (lex_eq_maximal_munch _).2.2 _ hliteral,
    (lex_eq_maximal_munch _).2.2 _ hcharacter⟩

end Token

end

end QuoteLisp
