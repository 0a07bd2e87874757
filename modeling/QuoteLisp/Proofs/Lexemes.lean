import QuoteLisp.Proofs.RoundTrip

/-!
# Sources without places

What a source says depends on its lexemes alone, and not on where they stand. `Lexes cs lexemes`
says that the text `cs` is cut into `lexemes`, and `Reads lexemes values` derives values from
lexemes by the grammar of expressions. A source reads as some values exactly when it is cut into
lexemes that do (`readSource_eq_ok_iff`), and `Value.IsRead` says which values these can be.

A text in front of a line break is cut as if it stood alone, whatever follows (`Lexes.append`).
-/

namespace QuoteLisp

open Node Token

/-! ## Lexemes of a text -/

/-- A token without its place. -/
def Token.lexeme (token : Token) : Lexeme := ⟨token.kind, token.text.toList⟩

@[simp] theorem Lexeme.lexeme_toToken (lexeme : Lexeme) (position : Nat) :
    (lexeme.toToken position).lexeme = lexeme := by
  simp [Token.lexeme, Lexeme.toToken]

/-- The text is cut into these lexemes. -/
inductive Lexes : List Char → List Lexeme → Prop
  | nil : Lexes [] []
  | blank {c : Char} {cs : List Char} {lexemes : List Lexeme} (hc : isBlank c = true)
    (hrest : Lexes cs lexemes) : Lexes (c :: cs) lexemes
  | scan {c : Char} {cs rest : List Char} {lexeme : Lexeme} {lexemes : List Lexeme}
    (hc : isBlank c = false) (hscan : Lexeme.scan c cs = .ok (lexeme, rest))
    (hrest : Lexes rest lexemes) : Lexes (c :: cs) (lexeme :: lexemes)

theorem lexes_of_lexFrom {position : Nat} {cs : List Char} {tokens : List Token}
    (h : lexFrom position cs = .ok tokens) : Lexes cs (tokens.map Token.lexeme) := by
  refine lexFrom_induction (motive := fun _ cs tokens => Lexes cs (tokens.map Token.lexeme))
    (fun _ => .nil) .blank ?_ h
  intro position c cs rest lexeme tokens hc hscan ih
  rw [List.map_cons, Lexeme.lexeme_toToken]
  exact .scan hc hscan ih

/-- The lexemes of a text become tokens wherever the text starts. -/
theorem Lexes.exists_lexFrom {cs : List Char} {lexemes : List Lexeme} (h : Lexes cs lexemes)
    (position : Nat) :
    ∃ tokens, lexFrom position cs = .ok tokens ∧ tokens.map Token.lexeme = lexemes := by
  induction h generalizing position with
  | nil => exact ⟨[], by rw [lexFrom], rfl⟩
  | @blank c cs lexemes hc _ ih =>
    obtain ⟨tokens, hlex, hlexemes⟩ := ih (position + c.utf8Size)
    exact ⟨tokens, by rw [lexFrom_of_blank hc, hlex], hlexemes⟩
  | @scan c cs rest lexeme lexemes hc hscan _ ih =>
    obtain ⟨tokens, hlex, hlexemes⟩ := ih (position + byteLength lexeme.text)
    refine ⟨lexeme.toToken position :: tokens, ?_, ?_⟩
    · rw [lexFrom_of_scan hc hscan, hlex]
      rfl
    · rw [List.map_cons, Lexeme.lexeme_toToken, hlexemes]

/-- The text of every lexeme is of the class that its kind says. -/
theorem Lexes.accepts {cs : List Char} {lexemes : List Lexeme} (h : Lexes cs lexemes) :
    ∀ lexeme ∈ lexemes, lexeme.kind.Accepts lexeme.text := by
  induction h with
  | nil => simp
  | blank _ _ ih => exact ih
  | scan _ hscan _ ih => exact List.forall_mem_cons.2 ⟨Lexeme.accepts_of_scan hscan, ih⟩

/-! ## Values of lexemes -/

/-- The value that a lexeme stands for by itself; brackets and comments stand for none. -/
def Lexeme.value? (lexeme : Lexeme) : Option Value :=
  match lexeme.kind with
  | .number => some (.ofNumeral (String.ofList lexeme.text))
  | .string => some (.string (String.ofList (Quoted.unquote lexeme.text)))
  | .symbol => some (.symbol (String.ofList lexeme.text))
  | _ => none

theorem read_ofToken (token : Token) : (ofToken token).read = token.lexeme.value? := by
  obtain ⟨kind, text, span⟩ := token
  have htext : String.ofList text.toList = text := String.ofList_toList
  cases kind with
  | number => exact congrArg (fun text => some (Value.ofNumeral text)) htext.symm
  | symbol => exact congrArg (fun text => some (Value.symbol text)) htext.symm
  | _ => rfl

/-- The lexemes spell expressions with these values. -/
inductive Reads : List Lexeme → List Value → Prop
  | nil : Reads [] []
  | comment {lexeme : Lexeme} {lexemes : List Lexeme} {values : List Value}
    (hkind : lexeme.kind = .comment) (hrest : Reads lexemes values) :
    Reads (lexeme :: lexemes) values
  | atom {lexeme : Lexeme} {v : Value} {lexemes : List Lexeme} {values : List Value}
    (hvalue : lexeme.value? = some v) (hrest : Reads lexemes values) :
    Reads (lexeme :: lexemes) (v :: values)
  | list {bracket : Bracket} {opener closer : Lexeme} {inner lexemes : List Lexeme}
    {items values : List Value} (hopener : opener.kind = .opening bracket)
    (hcloser : closer.kind = .closing bracket) (hinner : Reads inner items)
    (hrest : Reads lexemes values) :
    Reads (opener :: inner ++ closer :: lexemes) (.list bracket items :: values)

theorem Reads.append {lexemes lexemes' : List Lexeme} {values values' : List Value}
    (h : Reads lexemes values) (h' : Reads lexemes' values') :
    Reads (lexemes ++ lexemes') (values ++ values') := by
  induction h with
  | nil => exact h'
  | comment hkind _ ih => exact .comment hkind ih
  | atom hvalue _ ih => exact .atom hvalue ih
  | list hopener hcloser hinner _ _ ih => simpa using Reads.list hopener hcloser hinner ih

theorem Node.Spells.reads {nodes : List Node} {tokens : List Token} (h : Spells nodes tokens) :
    Reads (tokens.map Token.lexeme) (readAll nodes) := by
  induction h with
  | nil => exact .nil
  | atom token hatom _ ih =>
    have hread := read_ofToken token
    rw [readAll_eq_filterMap] at ih ⊢
    cases hvalue : token.lexeme.value? with
    | some v =>
      rw [hvalue] at hread
      rw [List.filterMap_cons_some hread]
      exact .atom hvalue ih
    | none =>
      have hcomment : token.lexeme.kind = .comment := by
        cases hkind : token.kind <;>
          simp_all [TokenKind.nodeKind, NodeKind.isAtom, Token.lexeme, Lexeme.value?]
      rw [hvalue] at hread
      rw [List.filterMap_cons_none hread]
      exact .comment hcomment ih
  | list bracket opener closer hopener hcloser _ _ ihitems ihnodes =>
    have hopener' : opener.lexeme.kind = .opening bracket := hopener
    have hcloser' : closer.lexeme.kind = .closing bracket := hcloser
    have hlist := Reads.list hopener' hcloser' ihitems ihnodes
    rw [readAll_eq_filterMap, List.filterMap_cons_some (read_list hopener hcloser),
      ← readAll_eq_filterMap]
    simpa using hlist

/-- Lexemes that read as values do so wherever they stand. -/
theorem Reads.exists_spells {lexemes : List Lexeme} {values : List Value} (h : Reads lexemes values)
    {tokens : List Token} (htokens : tokens.map Token.lexeme = lexemes) :
    ∃ nodes, Spells nodes tokens ∧ readAll nodes = values := by
  induction h generalizing tokens with
  | nil =>
    obtain rfl := List.map_eq_nil_iff.1 htokens
    exact ⟨[], .nil, rfl⟩
  | comment hkind _ ih =>
    obtain ⟨token, rest, rfl, rfl, hrest⟩ := List.map_eq_cons_iff.1 htokens
    obtain ⟨nodes, hnodes, rfl⟩ := ih hrest
    have hcomment : token.kind = .comment := hkind
    have hread : (ofToken token).read = none := by rw [ofToken, hcomment]; rfl
    refine ⟨ofToken token :: nodes, .atom token (by rw [hcomment]; rfl) hnodes, ?_⟩
    rw [readAll_eq_filterMap, List.filterMap_cons_none hread, ← readAll_eq_filterMap]
  | atom hvalue _ ih =>
    obtain ⟨token, rest, rfl, rfl, hrest⟩ := List.map_eq_cons_iff.1 htokens
    obtain ⟨nodes, hnodes, rfl⟩ := ih hrest
    have hatom : token.kind.nodeKind.isAtom = true := by
      cases hkind : token.kind <;> simp_all [Lexeme.value?, Token.lexeme] <;> rfl
    refine ⟨ofToken token :: nodes, .atom token hatom hnodes, ?_⟩
    rw [readAll_eq_filterMap, List.filterMap_cons_some ((read_ofToken token).trans hvalue),
      ← readAll_eq_filterMap]
  | @list bracket _ _ _ _ _ _ hopener hcloser _ _ ihitems ihnodes =>
    rw [List.cons_append] at htokens
    obtain ⟨opener, _, rfl, rfl, hbehind⟩ := List.map_eq_cons_iff.1 htokens
    obtain ⟨inner, _, rfl, hinner, hclosed⟩ := List.map_eq_append_iff.1 hbehind
    obtain ⟨closer, rest, rfl, rfl, hrest⟩ := List.map_eq_cons_iff.1 hclosed
    obtain ⟨items, hitems, rfl⟩ := ihitems hinner
    obtain ⟨nodes, hnodes, rfl⟩ := ihnodes hrest
    have hlist := Spells.list bracket opener closer hopener hcloser hitems hnodes
    refine ⟨_, hlist, ?_⟩
    rw [readAll_eq_filterMap, List.filterMap_cons_some (read_list hopener hcloser),
      ← readAll_eq_filterMap]

/-! ## Sources -/

theorem readSource_of_parse {source : String} {node : Node} (h : parse source = .ok node) :
    readSource source = .ok (readAll node.children) := by
  rw [readSource, h]

theorem readSource_of_parse_program {source : String} {size : Nat} {items : List Node}
    (h : parse source = .ok (program size items)) : readSource source = .ok (readAll items) := by
  rw [readSource_of_parse h]
  exact congrArg Except.ok (readAll_between rfl rfl items)

/-- A source reads as the values of its lexemes. -/
theorem readSource_eq_ok_iff {source : String} {values : List Value} :
    readSource source = .ok values ↔
      ∃ lexemes, Lexes source.toList lexemes ∧ Reads lexemes values := by
  constructor
  · intro h
    cases hparse : parse source with
    | error e =>
      rw [readSource, hparse] at h
      cases h
    | ok node =>
      obtain ⟨tokens, items, hlex, hspells, rfl⟩ := parse_eq_ok_iff.1 hparse
      cases (readSource_of_parse_program hparse).symm.trans h
      exact ⟨_, lexes_of_lexFrom hlex, hspells.reads⟩
  · rintro ⟨lexemes, hlexes, hreads⟩
    obtain ⟨tokens, hlex, htokens⟩ := hlexes.exists_lexFrom 0
    obtain ⟨items, hspells, rfl⟩ := hreads.exists_spells htokens
    exact readSource_of_parse_program (parse_eq_ok_iff.2 ⟨tokens, items, hlex, hspells, rfl⟩)

/-! ## What a source can hold -/

/-- A value that can be read: made of lists of both kinds, of numbers, strings and symbols, and of
the errors that stand for numbers out of range. -/
inductive Value.IsRead : Value → Prop
  | number (n : Int64) : IsRead (.number n)
  | outOfRange {literal : String} (hnumeral : isNumeral literal.toList = true)
    (hrange : Word.parse? literal.toList = none) :
    IsRead (.ofFault (.invalidNumberLiteral literal))
  | string (text : String) : IsRead (.string text)
  | symbol {name : String} (hname : isSymbolName name.toList = true) : IsRead (.symbol name)
  | sexpr {items : List Value} (hitems : ∀ v ∈ items, IsRead v) : IsRead (.sexpr items)
  | qexpr {items : List Value} (hitems : ∀ v ∈ items, IsRead v) : IsRead (.qexpr items)

theorem Lexeme.isRead_of_value? {lexeme : Lexeme} {v : Value}
    (haccepts : lexeme.kind.Accepts lexeme.text) (hvalue : lexeme.value? = some v) : v.IsRead := by
  obtain ⟨kind, cs⟩ := lexeme
  have htext : (String.ofList cs).toList = cs := String.toList_ofList
  cases kind with
  | number =>
    cases hvalue
    rw [Value.ofNumeral]
    split
    · exact .number _
    · rename_i hrange
      exact .outOfRange (htext.symm ▸ haccepts) hrange
  | string =>
    cases hvalue
    exact .string _
  | symbol =>
    cases hvalue
    exact .symbol (htext.symm ▸ haccepts)
  | opening | closing | comment => cases hvalue

theorem Reads.isRead {lexemes : List Lexeme} {values : List Value} (h : Reads lexemes values)
    (haccepts : ∀ lexeme ∈ lexemes, lexeme.kind.Accepts lexeme.text) :
    ∀ v ∈ values, v.IsRead := by
  induction h with
  | nil => simp
  | comment _ _ ih => exact ih (List.forall_mem_cons.1 haccepts).2
  | atom hvalue _ ih =>
    obtain ⟨hfirst, hrest⟩ := List.forall_mem_cons.1 haccepts
    exact List.forall_mem_cons.2 ⟨Lexeme.isRead_of_value? hfirst hvalue, ih hrest⟩
  | @list bracket _ _ _ _ _ _ _ _ _ _ ihitems ihrest =>
    obtain ⟨hinner, hclosed⟩ := List.forall_mem_append.1 haccepts
    have hitems := ihitems (List.forall_mem_cons.1 hinner).2
    refine List.forall_mem_cons.2 ⟨?_, ihrest (List.forall_mem_cons.1 hclosed).2⟩
    cases bracket with
    | round => exact .sexpr hitems
    | curly => exact .qexpr hitems

theorem isRead_of_readSource {source : String} {values : List Value}
    (h : readSource source = .ok values) : ∀ v ∈ values, v.IsRead := by
  obtain ⟨lexemes, hlexes, hreads⟩ := readSource_eq_ok_iff.1 h
  exact hreads.isRead hlexes.accepts

/-! ## Line breaks -/

/-- A text that can stand behind any other without becoming part of it. -/
def BreaksLine (rest : List Char) : Prop := ∀ c ∈ rest.head?, isLineChar c = false

theorem breaksLine_newline (rest : List Char) : BreaksLine ('\n' :: rest) := by
  intro c hc
  cases hc
  rfl

theorem BreaksLine.endsWord {rest : List Char} (h : BreaksLine rest) : EndsWord rest := by
  intro c hc
  have hline := h c hc
  simp only [isLineChar, Bool.not_eq_false', Bool.or_eq_true, beq_iff_eq] at hline
  rcases hline with rfl | rfl <;> decide

/-- What a run of characters stops at also stops it in a longer text. -/
theorem takeWhile_append_of_head {p : Char → Bool} {cs more : List Char}
    (hmore : cs.dropWhile p = [] → ∀ c ∈ more.head?, p c = false) :
    (cs ++ more).takeWhile p = cs.takeWhile p := by
  induction cs with
  | nil => cases more <;> simp_all
  | cons c cs ih =>
    rw [List.dropWhile_cons] at hmore
    rw [List.cons_append, List.takeWhile_cons, List.takeWhile_cons]
    split
    · rename_i hc
      rw [if_pos hc] at hmore
      rw [ih hmore]
    · rfl

theorem dropWhile_append_of_head {p : Char → Bool} {cs more : List Char}
    (hmore : cs.dropWhile p = [] → ∀ c ∈ more.head?, p c = false) :
    (cs ++ more).dropWhile p = cs.dropWhile p ++ more := by
  have hcut := List.takeWhile_append_dropWhile (p := p) (l := cs ++ more)
  have hcut' := List.takeWhile_append_dropWhile (p := p) (l := cs)
  rw [takeWhile_append_of_head hmore] at hcut
  rw [← List.append_cancel_left_eq (cs.takeWhile p), hcut, ← List.append_assoc, hcut']

/-- A string literal ends at its quote, whatever follows. -/
theorem stringPieces_append_of_closed {cs rest : List Char}
    (h : (stringPieces cs).2 = '"' :: rest) (more : List Char) :
    stringPieces (cs ++ more) = ((stringPieces cs).1, '"' :: rest ++ more) := by
  fun_induction stringPieces cs with
  | case1 => cases h
  | case2 cs =>
    cases h
    exact stringPieces_of_quote (rest ++ more)
  | case3 => cases h
  | case4 => cases h
  | case5 d ds hd _ ih =>
    rw [List.cons_append, List.cons_append, stringPieces_of_escape hd, ih h]
  | case6 c cs hquote hslash ih =>
    rw [List.cons_append, stringPieces_of_plain hquote hslash, ih h]

/-- A token of this kind does not go on into the text. -/
def TokenKind.EndsAt : TokenKind → List Char → Prop
  | number, rest => EndsWord rest
  | symbol, rest => EndsWord rest
  | comment, rest => BreaksLine rest
  | _, _ => True

theorem BreaksLine.endsAt {rest : List Char} (h : BreaksLine rest) (kind : TokenKind) :
    kind.EndsAt rest := by
  cases kind with
  | number => exact h.endsWord
  | symbol => exact h.endsWord
  | comment => exact h
  | _ => trivial

/-- A scan that stops inside a text finds the same lexeme in a longer one, and so does a scan that
stops at the end if the lexeme does not go on into what follows. -/
theorem Lexeme.scan_append_of_endsAt {c : Char} {cs rest more : List Char} {lexeme : Lexeme}
    (h : scan c cs = .ok (lexeme, rest)) (hmore : rest = [] → lexeme.kind.EndsAt more) :
    scan c (cs ++ more) = .ok (lexeme, rest ++ more) := by
  unfold scan at h
  repeat' split at h
  all_goals cases h
  · rename_i hc
    rw [scan, if_pos hc]
  · rename_i hround hc
    rw [scan, if_neg hround, if_pos hc]
  · rename_i hround hround' hc
    rw [scan, if_neg hround, if_neg hround', if_pos hc]
  · rename_i hround hround' hcurly hc
    rw [scan, if_neg hround, if_neg hround', if_neg hcurly, if_pos hc]
  · rename_i hround hround' hcurly hcurly' hc _ hclosed
    rw [scan, if_neg hround, if_neg hround', if_neg hcurly, if_neg hcurly', if_pos hc,
      stringPieces_append_of_closed hclosed]
    rfl
  · rename_i hround hround' hcurly hcurly' hquote hc
    rw [scan, if_neg hround, if_neg hround', if_neg hcurly, if_neg hcurly', if_neg hquote,
      if_pos hc, takeWhile_append_of_head hmore, dropWhile_append_of_head hmore]
  · rename_i hround hround' hcurly hcurly' hquote hsemicolon hc
    have hword : cs.dropWhile isWordChar = [] → EndsWord more := by
      intro hrest
      have hends := hmore hrest
      split at hends <;> exact hends
    rw [scan, if_neg hround, if_neg hround', if_neg hcurly, if_neg hcurly', if_neg hquote,
      if_neg hsemicolon, if_pos hc, takeWhile_append_of_head hword, dropWhile_append_of_head hword]

/-- A text in front of a line break is cut as if it stood alone. -/
theorem Lexes.append {as bs : List Char} {xs ys : List Lexeme} (ha : Lexes as xs)
    (hbreak : BreaksLine bs) (hb : Lexes bs ys) : Lexes (as ++ bs) (xs ++ ys) := by
  induction ha with
  | nil => exact hb
  | blank hc _ ih => exact .blank hc ih
  | scan hc hscan _ ih =>
    exact .scan hc (Lexeme.scan_append_of_endsAt hscan fun _ => hbreak.endsAt _) ih

end QuoteLisp
