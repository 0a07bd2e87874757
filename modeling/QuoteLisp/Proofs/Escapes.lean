import QuoteLisp.Proofs.Munch

/-!
# Escapes and pieces

Two scanners walk over a string literal. The lexer cuts it into pieces (`IsPiece`), and
`Quoted.unescape` resolves its escapes in rounds (`Quoted.Next`), of which one can take several
pieces: a character code goes up to its closing bracket. What both share is the string body: a round
that starts at one takes off a string body and leaves one (`Quoted.Next.isStringBody`). Hence a run
over a literal only stops between pieces, and never at a lone backslash (`Quoted.InStep`).
-/

namespace QuoteLisp

/-! ## String bodies -/

theorem isStringBody_plain_iff {c : Char} {cs : List Char} (hslash : c ≠ '\\') :
    IsStringBody (c :: cs) ↔ c ≠ '"' ∧ IsStringBody cs := by
  constructor
  · intro h
    cases h with
    | plain hquote _ hcs => exact ⟨hquote, hcs⟩
    | escape => exact absurd rfl hslash
  · rintro ⟨hquote, hcs⟩
    exact .plain hquote hslash hcs

theorem isStringBody_escape_iff {c : Char} {cs : List Char} :
    IsStringBody ('\\' :: c :: cs) ↔ c ≠ '\n' ∧ IsStringBody cs := by
  constructor
  · intro h
    cases h with
    | plain _ hslash _ => exact absurd rfl hslash
    | escape hc hcs => exact ⟨hc, hcs⟩
  · rintro ⟨hc, hcs⟩
    exact .escape hc hcs

/-- Characters other than quotes and backslashes are pieces of their own. -/
theorem isStringBody_plain_append_iff {front rest : List Char}
    (h : ∀ c ∈ front, c ≠ '"' ∧ c ≠ '\\') : IsStringBody (front ++ rest) ↔ IsStringBody rest := by
  induction front with
  | nil => rfl
  | cons c front ih =>
    obtain ⟨⟨hquote, hslash⟩, hfront⟩ := List.forall_mem_cons.1 h
    rw [List.cons_append, isStringBody_plain_iff hslash, ih hfront, and_iff_right hquote]

theorem IsStringBody.append {front rest : List Char} (hfront : IsStringBody front)
    (hrest : IsStringBody rest) : IsStringBody (front ++ rest) := by
  induction hfront with
  | nil => exact hrest
  | plain hquote hslash _ ih => exact .plain hquote hslash ih
  | escape hc _ ih => exact .escape hc ih

theorem isStringBody_flatMap {α : Type} {f : α → List Char} {as : List α}
    (h : ∀ a ∈ as, IsStringBody (f a)) : IsStringBody (as.flatMap f) := by
  induction as with
  | nil => exact .nil
  | cons a as ih =>
    obtain ⟨ha, has⟩ := List.forall_mem_cons.1 h
    exact ha.append (ih has)

theorem not_isStringBody_slash : ¬ IsStringBody ['\\'] := by
  intro h
  cases h with
  | plain _ hslash _ => exact hslash rfl

/-! ## Pieces -/

/-- A piece of a string literal: a character other than a quote and a backslash, or a backslash and
the character behind it, which is no line feed. -/
inductive IsPiece : List Char → Prop
  | plain {c : Char} (hquote : c ≠ '"') (hslash : c ≠ '\\') : IsPiece [c]
  | escape {c : Char} (hc : c ≠ '\n') : IsPiece ['\\', c]

theorem IsPiece.isStringBody {piece : List Char} (h : IsPiece piece) : IsStringBody piece := by
  cases h with
  | plain hquote hslash => exact .plain hquote hslash .nil
  | escape hc => exact .escape hc .nil

/-- The string bodies are the texts that are cut into pieces. -/
theorem isStringBody_iff_exists_pieces {cs : List Char} :
    IsStringBody cs ↔
      ∃ pieces : List (List Char), cs = pieces.flatten ∧ ∀ piece ∈ pieces, IsPiece piece := by
  constructor
  · intro h
    induction h with
    | nil => exact ⟨[], rfl, by simp⟩
    | @plain c cs hquote hslash _ ih =>
      obtain ⟨pieces, rfl, hpieces⟩ := ih
      exact ⟨[c] :: pieces, rfl, List.forall_mem_cons.2 ⟨.plain hquote hslash, hpieces⟩⟩
    | @escape c cs hc _ ih =>
      obtain ⟨pieces, rfl, hpieces⟩ := ih
      exact ⟨['\\', c] :: pieces, rfl, List.forall_mem_cons.2 ⟨.escape hc, hpieces⟩⟩
  · rintro ⟨pieces, rfl, hpieces⟩
    rw [← List.flatMap_id]
    exact isStringBody_flatMap fun piece hpiece => (hpieces piece hpiece).isStringBody

/-- Two pieces at the head of one text are the same. -/
theorem IsPiece.eq_of_append_eq {piece piece' cs cs' : List Char} (h : IsPiece piece)
    (h' : IsPiece piece') (heq : piece ++ cs = piece' ++ cs') : piece = piece' ∧ cs = cs' := by
  cases h with
  | plain hquote hslash =>
    cases h' with
    | plain _ _ => simpa using heq
    | escape _ => exact absurd (List.cons.inj heq).1 hslash
  | escape hc =>
    cases h' with
    | plain hquote hslash => exact absurd (List.cons.inj heq).1.symm hslash
    | escape _ => simpa [and_assoc] using heq

theorem IsPiece.ne_nil {piece : List Char} (h : IsPiece piece) : piece ≠ [] := by
  cases h <;> exact List.cons_ne_nil _ _

/-- A text is cut into pieces in one way only. -/
theorem pieces_eq_of_flatten_eq {pieces pieces' : List (List Char)}
    (h : ∀ piece ∈ pieces, IsPiece piece) (h' : ∀ piece ∈ pieces', IsPiece piece)
    (heq : pieces.flatten = pieces'.flatten) : pieces = pieces' := by
  induction pieces generalizing pieces' with
  | nil =>
    have hnil := List.flatten_eq_nil_iff.1 heq.symm
    refine (List.eq_nil_iff_forall_not_mem.2 fun piece hpiece => ?_).symm
    exact (h' piece hpiece).ne_nil (hnil piece hpiece)
  | cons piece pieces ih =>
    obtain ⟨hpiece, hpieces⟩ := List.forall_mem_cons.1 h
    cases pieces' with
    | nil => exact absurd (List.append_eq_nil_iff.1 heq).1 hpiece.ne_nil
    | cons piece' pieces' =>
      obtain ⟨hpiece', hpieces'⟩ := List.forall_mem_cons.1 h'
      obtain ⟨rfl, hrest⟩ := hpiece.eq_of_append_eq hpiece' heq
      rw [ih hpieces hpieces' hrest]

namespace Quoted

/-! ## Character codes -/

/-- Where a character code is read it stands in brackets, up to the first that closes. -/
theorem exists_hex_of_codePoint? {cs rest : List Char} {scalar : Char}
    (h : codePoint? cs = some (scalar, rest)) :
    ∃ hex, cs = '\x7b' :: (hex ++ '\x7d' :: rest) ∧ '\x7d' ∉ hex ∧
      (hex? hex).bind scalar? = some scalar := by
  unfold codePoint? at h
  split at h
  · cases h
  split at h
  · rename_i c cs hc
    split at h
    · cases h
    · rename_i close behind hdrop
      obtain ⟨found, hfound, heq⟩ := Option.map_eq_some_iff.1 h
      cases heq
      have hcut := List.takeWhile_append_dropWhile (p := (· != '\x7d')) (l := cs)
      have hclose := List.head?_dropWhile_not (· != '\x7d') cs
      rw [hdrop] at hcut hclose
      obtain rfl : close = '\x7d' := by simpa using hclose
      refine ⟨_, by rw [hc, hcut], fun hmem => ?_, hfound⟩
      have hinner := List.all_eq_true.1 List.all_takeWhile _ hmem
      exact absurd hinner (by decide)
  · cases h

theorem isSome_hexDigit?_of_hexFrom? {high value : Nat} {cs : List Char}
    (h : hexFrom? high cs = some value) : ∀ c ∈ cs, (hexDigit? c).isSome = true := by
  induction cs generalizing high with
  | nil => simp
  | cons c cs ih =>
    obtain ⟨d, hd, hcs⟩ := Option.bind_eq_some_iff.1 h
    exact List.forall_mem_cons.2 ⟨by rw [hd]; rfl, ih hcs⟩

theorem plain_of_hex? {value : Nat} {hex : List Char} (h : hex? hex = some value) :
    ∀ c ∈ hex, c ≠ '"' ∧ c ≠ '\\' := by
  have hdigit : ∀ c, (hexDigit? c).isSome = true → c ≠ '"' ∧ c ≠ '\\' := by
    intro c hc
    constructor <;> rintro rfl <;> exact absurd hc (by decide)
  unfold hex? at h
  split at h
  · simp
  split at h
  · rename_i c cs hplus
    have hcs := isSome_hexDigit?_of_hexFrom? h
    refine List.forall_mem_cons.2 ⟨?_, fun d hd => hdigit d (hcs d hd)⟩
    rw [hplus.1]
    decide
  · have hcs := isSome_hexDigit?_of_hexFrom? h
    exact fun d hd => hdigit d (hcs d hd)

/-- A character code has no quote and no backslash in its brackets. -/
theorem plain_of_scalar {hex : List Char} {scalar : Char}
    (h : (hex? hex).bind scalar? = some scalar) :
    ∀ c ∈ '\x7b' :: (hex ++ ['\x7d']), c ≠ '"' ∧ c ≠ '\\' := by
  obtain ⟨value, hvalue, -⟩ := Option.bind_eq_some_iff.1 h
  refine List.forall_mem_cons.2 ⟨by decide, List.forall_mem_append.2 ⟨plain_of_hex? hvalue, ?_⟩⟩
  exact List.forall_mem_singleton.2 (by decide)

/-! ## Rounds -/

/-- What one round of `unescape` finds at the head of a text. -/
inductive Round where
  /-- A character other than a backslash. -/
  | plain (c : Char)
  /-- A backslash and a character other than the letter u. -/
  | escape (c : Char)
  /-- A character code, with the text in its brackets and the character that it is for. -/
  | code (hex : List Char) (scalar : Char)
  /-- A backslash and the letter u, with no character code behind them. -/
  | malformed
  /-- A backslash at the very end. -/
  | dangling
  deriving DecidableEq

/-- The text that a round takes off. -/
def Round.taken : Round → List Char
  | plain c => [c]
  | escape c => ['\\', c]
  | code hex _ => '\\' :: 'u' :: '\x7b' :: (hex ++ ['\x7d'])
  | malformed => ['\\', 'u']
  | dangling => ['\\']

/-- The character that a round writes. -/
def Round.written : Round → Char
  | plain c => c
  | escape c => escaped c
  | code _ scalar => scalar
  | malformed => 'u'
  | dangling => '\\'

/-- The round of `unescape` at the head of a text, and the text that it goes on with. -/
inductive Next : List Char → Round → List Char → Prop
  | plain {c : Char} {rest : List Char} (hc : c ≠ '\\') : Next (c :: rest) (.plain c) rest
  | escape {c : Char} {rest : List Char} (hc : c ≠ 'u') :
    Next ('\\' :: c :: rest) (.escape c) rest
  | code {cs hex rest : List Char} {scalar : Char} (hcs : cs = '\x7b' :: (hex ++ '\x7d' :: rest))
    (hclose : '\x7d' ∉ hex) (hscalar : (hex? hex).bind scalar? = some scalar) :
    Next ('\\' :: 'u' :: cs) (.code hex scalar) rest
  | malformed {rest : List Char} (hcode : codePoint? rest = none) :
    Next ('\\' :: 'u' :: rest) .malformed rest
  | dangling : Next ['\\'] .dangling []

/-- The rounds of `unescape` over a whole text. -/
inductive Rounds : List Char → List Round → Prop
  | nil : Rounds [] []
  | cons {cs rest : List Char} {round : Round} {rounds : List Round} (hnext : Next cs round rest)
    (hrest : Rounds rest rounds) : Rounds cs (round :: rounds)

variable {cs rest : List Char} {round : Round} {rounds before after : List Round}

theorem Next.taken_append (h : Next cs round rest) : round.taken ++ rest = cs := by
  cases h with
  | code hcs => simp [Round.taken, hcs]
  | _ => rfl

/-- A round does what the branch of `unescape` does that it stands for. -/
theorem Next.unescape_eq (h : Next cs round rest) :
    unescape cs = round.written :: unescape rest := by
  cases h with
  | plain hc => exact unescape_of_plain hc rest
  | escape hc => exact unescape_of_escaped hc rest
  | code hcs hclose hscalar =>
    rw [hcs]
    exact unescape_of_codePoint (codePoint?_of_hex hclose hscalar rest)
  | malformed hcode => exact unescape_of_malformed hcode
  | dangling =>
    rw [unescape.eq_def, unescape.eq_def]
    rfl

/-- `unescape` comes to an end in rounds, one for each step of its recursion. -/
theorem exists_rounds (cs : List Char) : ∃ rounds, Rounds cs rounds := by
  fun_induction unescape cs with
  | case1 => exact ⟨[], .nil⟩
  | case2 => exact ⟨_, .cons .dangling .nil⟩
  | case3 ds scalar rest hcode ih =>
    obtain ⟨rounds, hrounds⟩ := ih
    obtain ⟨hex, hds, hclose, hscalar⟩ := exists_hex_of_codePoint? hcode
    exact ⟨_, .cons (.code hds hclose hscalar) hrounds⟩
  | case4 ds hcode ih =>
    obtain ⟨rounds, hrounds⟩ := ih
    exact ⟨_, .cons (.malformed hcode) hrounds⟩
  | case5 d ds hd ih =>
    obtain ⟨rounds, hrounds⟩ := ih
    exact ⟨_, .cons (.escape hd) hrounds⟩
  | case6 c cs hc ih =>
    obtain ⟨rounds, hrounds⟩ := ih
    exact ⟨_, .cons (.plain hc) hrounds⟩

/-- At most one round can start at the head of a text. Behind a backslash and the letter u it is
`codePoint?` that decides between the two that could. -/
theorem Next.unique {round' : Round} {rest' : List Char} (h : Next cs round rest)
    (h' : Next cs round' rest') : round = round' ∧ rest = rest' := by
  cases h with
  | plain hc =>
    cases h' with
    | plain => exact ⟨rfl, rfl⟩
    | _ => exact absurd rfl hc
  | escape hc =>
    cases h' with
    | plain hc' => exact absurd rfl hc'
    | escape => exact ⟨rfl, rfl⟩
    | _ => exact absurd rfl hc
  | code hcs hclose hscalar =>
    have hcode := codePoint?_of_hex hclose hscalar rest
    rw [← hcs] at hcode
    cases h' with
    | plain hc' => exact absurd rfl hc'
    | escape hc' => exact absurd rfl hc'
    | malformed hcode' => cases hcode.symm.trans hcode'
    | code hcs' hclose' hscalar' =>
      have hcode' := codePoint?_of_hex hclose' hscalar' rest'
      rw [← hcs'] at hcode'
      cases hcode.symm.trans hcode'
      have hhex := List.append_cancel_right (List.cons.inj (hcs.symm.trans hcs')).2
      exact ⟨by rw [hhex], rfl⟩
  | malformed hcode =>
    cases h' with
    | plain hc' => exact absurd rfl hc'
    | escape hc' => exact absurd rfl hc'
    | malformed => exact ⟨rfl, rfl⟩
    | code hcs' hclose' hscalar' =>
      rw [hcs', codePoint?_of_hex hclose' hscalar'] at hcode
      cases hcode
  | dangling =>
    cases h' with
    | plain hc' => exact absurd rfl hc'
    | dangling => exact ⟨rfl, rfl⟩

theorem Rounds.unique {rounds' : List Round} (h : Rounds cs rounds) (h' : Rounds cs rounds') :
    rounds = rounds' := by
  induction h generalizing rounds' with
  | nil =>
    cases h' with
    | nil => rfl
    | cons hnext _ => cases hnext
  | cons hnext _ ih =>
    cases h' with
    | nil => cases hnext
    | cons hnext' hrest' =>
      obtain ⟨rfl, rfl⟩ := hnext.unique hnext'
      rw [ih hrest']

theorem Rounds.unescape_eq (h : Rounds cs rounds) : unescape cs = rounds.map Round.written := by
  induction h with
  | nil => rw [unescape, List.map_nil]
  | cons hnext _ ih => rw [hnext.unescape_eq, ih, List.map_cons]

theorem Rounds.flatMap_taken (h : Rounds cs rounds) : rounds.flatMap Round.taken = cs := by
  induction h with
  | nil => rfl
  | cons hnext _ ih => rw [List.flatMap_cons, ih, hnext.taken_append]

/-- Behind its first rounds a run goes on with the text that they have left. -/
theorem Rounds.behind (h : Rounds cs (before ++ after)) :
    Rounds (after.flatMap Round.taken) after := by
  induction before generalizing cs with
  | nil =>
    rw [List.nil_append] at h
    rwa [h.flatMap_taken]
  | cons round before ih =>
    cases h with
    | cons _ hrest => exact ih hrest

/-- What every round keeps holds wherever a round of a run starts. -/
theorem Rounds.exists_next {P : List Char → Prop}
    (hkeeps : ∀ {cs round rest}, Next cs round rest → P cs → P rest) (h : Rounds cs rounds)
    (hcs : P cs) : ∀ round ∈ rounds, ∃ start rest, P start ∧ Next start round rest := by
  induction h with
  | nil => simp
  | cons hnext _ ih => exact List.forall_mem_cons.2 ⟨⟨_, _, hcs, hnext⟩, ih (hkeeps hnext hcs)⟩

/-! ## Rounds over pieces -/

/-- A round that starts at a string body takes off one and leaves one. -/
theorem Next.isStringBody (h : Next cs round rest) (hbody : IsStringBody cs) :
    IsStringBody round.taken ∧ IsStringBody rest := by
  cases h with
  | plain hc =>
    obtain ⟨hquote, hrest⟩ := (isStringBody_plain_iff hc).1 hbody
    exact ⟨.plain hquote hc .nil, hrest⟩
  | escape hc =>
    obtain ⟨hfeed, hrest⟩ := isStringBody_escape_iff.1 hbody
    exact ⟨.escape hfeed .nil, hrest⟩
  | code hcs hclose hscalar =>
    have hplain := plain_of_scalar hscalar
    obtain ⟨hfeed, hbehind⟩ := isStringBody_escape_iff.1 hbody
    rw [hcs, List.append_cons, ← List.cons_append] at hbehind
    refine ⟨.escape hfeed ?_, (isStringBody_plain_append_iff hplain).1 hbehind⟩
    rw [← List.append_nil ('\x7b' :: _), isStringBody_plain_append_iff hplain]
    exact .nil
  | malformed hcode =>
    obtain ⟨hfeed, hrest⟩ := isStringBody_escape_iff.1 hbody
    exact ⟨.escape hfeed .nil, hrest⟩
  | dangling => exact absurd hbody not_isStringBody_slash

/-- The run of `unescape` over pieces keeps to them: it never finds a lone backslash, and whatever
rounds are over, the rest of the run is the run over the pieces that are left. -/
structure InStep (pieces : List (List Char)) (rounds : List Round) : Prop where
  runs : Rounds pieces.flatten rounds
  only : ∀ other, Rounds pieces.flatten other → other = rounds
  result : unescape pieces.flatten = rounds.map Round.written
  notDangling : Round.dangling ∉ rounds
  resumes : ∀ before after, rounds = before ++ after → ∃ front behind, pieces = front ++ behind ∧
    before.flatMap Round.taken = front.flatten ∧ Rounds behind.flatten after ∧
    unescape pieces.flatten = before.map Round.written ++ unescape behind.flatten
  codes : ∀ hex scalar, Round.code hex scalar ∈ rounds →
    ∀ c ∈ '\x7b' :: (hex ++ ['\x7d']), c ≠ '"' ∧ c ≠ '\\'

/-- The run over pieces keeps to them, since each of its rounds takes off a string body. -/
theorem exists_inStep {pieces : List (List Char)} (hpieces : ∀ piece ∈ pieces, IsPiece piece) :
    ∃ rounds, InStep pieces rounds := by
  obtain ⟨rounds, hruns⟩ := exists_rounds pieces.flatten
  have hbody := isStringBody_iff_exists_pieces.2 ⟨pieces, rfl, hpieces⟩
  have hnext := hruns.exists_next (fun hnext hbody => (hnext.isStringBody hbody).2) hbody
  have htaken : ∀ round ∈ rounds, IsStringBody round.taken := by
    intro round hround
    obtain ⟨start, rest, hstart, hnext⟩ := hnext round hround
    exact (hnext.isStringBody hstart).1
  refine ⟨rounds, hruns, fun other hother => hother.unique hruns, hruns.unescape_eq, ?_, ?_, ?_⟩
  · intro hround
    exact not_isStringBody_slash (htaken _ hround)
  · -- both parts of the run take off pieces, and the text is cut into pieces in one way only
    rintro before after rfl
    obtain ⟨hbefore, hafter⟩ := List.forall_mem_append.1 htaken
    obtain ⟨front, hfront, hfronts⟩ :=
      isStringBody_iff_exists_pieces.1 (isStringBody_flatMap hbefore)
    obtain ⟨behind, hbehind, hbehinds⟩ :=
      isStringBody_iff_exists_pieces.1 (isStringBody_flatMap hafter)
    have hleft : Rounds behind.flatten after := hbehind ▸ hruns.behind
    refine ⟨front, behind, ?_, hfront, hleft, ?_⟩
    · apply pieces_eq_of_flatten_eq hpieces (List.forall_mem_append.2 ⟨hfronts, hbehinds⟩)
      rw [← hruns.flatMap_taken, List.flatMap_append, hfront, hbehind, List.flatten_append]
    · rw [hruns.unescape_eq, hleft.unescape_eq, List.map_append]
  · intro hex scalar hround
    obtain ⟨start, rest, -, hnext⟩ := hnext _ hround
    cases hnext with
    | code _ _ hscalar => exact plain_of_scalar hscalar

end Quoted

open Quoted

/-- Both scanners agree on every string literal of a source. Between its outer quotes, which are all
that is taken off, the lexer finds nothing but pieces, and the escapes are resolved in step with
them. -/
theorem escapes_keep_to_pieces {source : String} {tokens : List Token}
    (hlex : Token.lex source = .ok tokens) {token : Token} (htoken : token ∈ tokens)
    (hkind : token.kind = .string) :
    ∃ pieces rounds, token.text.toList = '"' :: (pieces.flatten ++ ['"']) ∧
      stripQuotes token.text.toList = pieces.flatten ∧ (∀ piece ∈ pieces, IsPiece piece) ∧
      stringPieces pieces.flatten = (pieces.flatten, []) ∧ InStep pieces rounds ∧
      (Node.ofToken token).read = some (.string (String.ofList (rounds.map Round.written))) := by
  have haccepts := Token.accepts_of_mem_lex hlex token htoken
  rw [hkind] at haccepts
  obtain ⟨inner, htext, hinner⟩ := haccepts
  have hbody := isStringBody_stringPieces inner
  rw [hinner] at hbody
  obtain ⟨pieces, rfl, hpieces⟩ := isStringBody_iff_exists_pieces.1 hbody
  obtain ⟨rounds, hrounds⟩ := exists_inStep hpieces
  have hstrip : stripQuotes token.text.toList = pieces.flatten := by
    rw [htext]
    exact stripQuotes_quoted pieces.flatten
  refine ⟨pieces, rounds, htext, hstrip, hpieces, hinner, hrounds, ?_⟩
  rw [← hrounds.result, ← hstrip]
  unfold Node.ofToken
  rw [hkind]
  rfl

/-- A literal in which a code is opened in front of an escaped quote and closed only behind it, so
that it is none, and a code of five digits right in front of the last quote. -/
theorem escapes_keep_to_pieces_in_broken_code :
    let token : Token := ⟨.string, "\"\\u\x7b4\\\"\x7d\\u\x7b1F600\x7d\"", ⟨5, 23⟩⟩
    Token.lex "head \"\\u\x7b4\\\"\x7d\\u\x7b1F600\x7d\"" =
      .ok [⟨.symbol, "head", ⟨0, 4⟩⟩, token] ∧
    ∃ pieces, token.text.toList = '"' :: (pieces.flatten ++ ['"']) ∧
      (∀ piece ∈ pieces, IsPiece piece) ∧
      InStep pieces [.malformed, .plain '\x7b', .plain '4', .escape '"', .plain '\x7d',
        .code ['1', 'F', '6', '0', '0'] '😀'] := by
  intro token
  have hlex : Token.lex "head \"\\u\x7b4\\\"\x7d\\u\x7b1F600\x7d\"" =
      .ok [⟨.symbol, "head", ⟨0, 4⟩⟩, token] := Except.eq_ok_of_toOption (by decide +kernel)
  obtain ⟨pieces, rounds, htext, hstrip, hpieces, -, hrounds, -⟩ :=
    escapes_keep_to_pieces hlex (List.mem_cons_of_mem _ List.mem_cons_self) rfl
  have hinner : stripQuotes token.text.toList = ['\\', 'u', '\x7b', '4', '\\', '"', '\x7d', '\\',
      'u', '\x7b', '1', 'F', '6', '0', '0', '\x7d'] := by decide +kernel
  have hruns : Rounds (stripQuotes token.text.toList) [.malformed, .plain '\x7b', .plain '4',
      .escape '"', .plain '\x7d', .code ['1', 'F', '6', '0', '0'] '😀'] := by
    rw [hinner]
    refine .cons (.malformed (by decide +kernel)) (.cons (.plain (by decide)) ?_)
    refine .cons (.plain (by decide)) (.cons (.escape (by decide)) (.cons (.plain (by decide)) ?_))
    exact .cons (.code rfl (by decide) (by decide +kernel)) .nil
  rw [hstrip] at hruns
  rw [hrounds.only _ hruns]
  exact ⟨hlex, pieces, htext, hpieces, hrounds⟩

end QuoteLisp
