import QuoteLisp.Proofs.Grammar
import QuoteLisp.Proofs.Literals
import QuoteLisp.Value.Printer
import QuoteLisp.Value.Reader

/-!
# Printing and reading

`Writes cs values` says that the text `cs` stands for the values `values` wherever it stands in
front of something that cannot continue its last word. Texts that write values can be put side by
side with a space between them (`Writes.append`) and enclosed in brackets (`Writes.enclose`), so the
printed text of a value made of numbers, strings, symbols and lists writes that value
(`writes_chars`), and the whole text parses and reads back to it.
-/

namespace QuoteLisp

open Node Token

/-! ## Reading the leaves -/

/-- The list that a bracket encloses. -/
def Value.list : Bracket → List Value → Value
  | .round => .sexpr
  | .curly => .qexpr

theorem readAll_between {first last : Node} (hfirst : first.read = none) (hlast : last.read = none)
    (items : List Node) : readAll (first :: items ++ [last]) = readAll items := by
  simp [readAll_eq_filterMap, hfirst, hlast]

theorem read_ofToken_of_delimiter {token : Token} (h : token.kind.nodeKind = .delimiter) :
    (ofToken token).read = none := by
  rw [ofToken, h]
  rfl

theorem read_list {bracket : Bracket} {opener closer : Token} {items : List Node}
    (hopener : opener.kind = .opening bracket) (hcloser : closer.kind = .closing bracket) :
    (Node.list bracket opener closer items).read = some (.list bracket (readAll items)) := by
  have hfirst : (ofToken opener).read = none :=
    read_ofToken_of_delimiter (by rw [hopener]; rfl)
  have hlast : (ofToken closer).read = none :=
    read_ofToken_of_delimiter (by rw [hcloser]; rfl)
  have hitems := readAll_between hfirst hlast items
  cases bracket with
  | round => exact congrArg (fun values => some (Value.sexpr values)) hitems
  | curly => exact congrArg (fun values => some (Value.qexpr values)) hitems

theorem read_program (size : Nat) (items : List Node) :
    (Node.program size items).read = some (.sexpr (readAll items)) :=
  congrArg (fun values => some (Value.sexpr values)) (readAll_between rfl rfl items)

/-! ## Texts that write values -/

/-- In front of any text that ends a word, `cs` is cut into tokens that spell nodes which read as
`values`. -/
def Writes (cs : List Char) (values : List Value) : Prop :=
  ∀ position rest, EndsWord rest → ∃ tokens nodes,
    LexesTo position cs rest tokens ∧ Spells nodes tokens ∧ readAll nodes = values

theorem writes_nil : Writes [] [] :=
  fun position rest _ => ⟨[], [], lexesTo_nil position rest, .nil, rfl⟩

/-- A single token writes the value of its leaf. -/
theorem writes_of_scan {kind : TokenKind} {c : Char} {cs : List Char} {v : Value}
    (hc : isBlank c = false) (hatom : kind.nodeKind.isAtom = true)
    (hscan : ∀ rest, EndsWord rest → Lexeme.scan c (cs ++ rest) = .ok (⟨kind, c :: cs⟩, rest))
    (hread : ∀ span, (leaf kind.nodeKind (String.ofList (c :: cs)) span).read = some v) :
    Writes (c :: cs) [v] := by
  intro position rest hrest
  have hlex := lexesTo_of_scan hc (hscan rest hrest) position
  have hspells := Spells.atom (Lexeme.toToken ⟨kind, c :: cs⟩ position) hatom .nil
  refine ⟨_, _, hlex, hspells, ?_⟩
  have hleaf : (ofToken (Lexeme.toToken ⟨kind, c :: cs⟩ position)).read = some v := hread _
  rw [readAll_eq_filterMap, List.filterMap_cons_some hleaf, List.filterMap_nil]

theorem Writes.append {as bs : List Char} {xs ys : List Value} (ha : Writes as xs)
    (hb : Writes bs ys) : Writes (as ++ ' ' :: bs) (xs ++ ys) := by
  intro position rest hrest
  have hspace : EndsWord (' ' :: bs ++ rest) := endsWord_cons (by decide) _
  obtain ⟨tokens, nodes, hlex, hspells, hread⟩ := ha position _ hspace
  obtain ⟨tokens', nodes', hlex', hspells', hread'⟩ :=
    hb (position + byteLength as + byteLength [' ']) rest hrest
  have hblank := lexesTo_of_blank (c := ' ') (by decide) (position + byteLength as) (bs ++ rest)
  refine ⟨_, _, hlex.append (hblank.append hlex'), hspells.append hspells', ?_⟩
  rw [readAll_eq_filterMap, List.filterMap_append, ← readAll_eq_filterMap,
    ← readAll_eq_filterMap, hread, hread']

/-- The token of an opening bracket at a byte offset. -/
def Bracket.openerAt (bracket : Bracket) (position : Nat) : Token :=
  Lexeme.toToken ⟨.opening bracket, [bracket.opener]⟩ position

/-- The token of a closing bracket at a byte offset. -/
def Bracket.closerAt (bracket : Bracket) (position : Nat) : Token :=
  Lexeme.toToken ⟨.closing bracket, [bracket.closer]⟩ position

theorem lexesTo_opener (bracket : Bracket) (position : Nat) (rest : List Char) :
    LexesTo position [bracket.opener] rest [bracket.openerAt position] :=
  lexesTo_of_scan (by cases bracket <;> decide) (by cases bracket <;> rfl) position

theorem lexesTo_closer (bracket : Bracket) (position : Nat) (rest : List Char) :
    LexesTo position [bracket.closer] rest [bracket.closerAt position] :=
  lexesTo_of_scan (by cases bracket <;> decide) (by cases bracket <;> rfl) position

theorem Writes.enclose {cs : List Char} {values : List Value} (h : Writes cs values)
    (bracket : Bracket) : Writes (Value.enclose bracket cs) [.list bracket values] := by
  intro position rest _
  have hends : EndsWord ([bracket.closer] ++ rest) :=
    endsWord_cons (by cases bracket <;> decide) rest
  obtain ⟨tokens, nodes, hlex, hspells, hread⟩ :=
    h (position + byteLength [bracket.opener]) _ hends
  have hopener := lexesTo_opener bracket position (cs ++ [bracket.closer] ++ rest)
  have hcloser :=
    lexesTo_closer bracket (position + byteLength [bracket.opener] + byteLength cs) rest
  have hlist := Spells.list bracket (bracket.openerAt position)
    (bracket.closerAt (position + byteLength [bracket.opener] + byteLength cs)) rfl rfl hspells .nil
  refine ⟨_, _, hopener.append (hlex.append hcloser), hlist, ?_⟩
  rw [readAll_eq_filterMap, List.filterMap_cons_some (read_list rfl rfl), List.filterMap_nil, hread]

theorem spaced_cons_cons (cs ds : List Char) (texts : List (List Char)) :
    Value.spaced (cs :: ds :: texts) = cs ++ ' ' :: Value.spaced (ds :: texts) := by
  simp [Value.spaced, List.intercalate]

/-- Items that print as texts which write them are written with spaces between them. -/
theorem writes_spaced {items : List Value} (h : ∀ item ∈ items, Writes item.chars [item]) :
    Writes (Value.spaced (items.map Value.chars)) items := by
  induction items with
  | nil => exact writes_nil
  | cons item items ih =>
    obtain ⟨hitem, hitems⟩ := List.forall_mem_cons.1 h
    cases items with
    | nil => simpa [Value.spaced, List.intercalate] using hitem
    | cons next items =>
      have happend := hitem.append (ih hitems)
      rw [List.map_cons, ← spaced_cons_cons] at happend
      exact happend

/-! ## Printed values -/

namespace Value

/-- A value that can be written down: it is made of numbers, strings, symbols with names that the
lexer reads as one symbol, and lists of both kinds. -/
inductive IsWritable : Value → Prop where
  | number (n : Int64) : IsWritable (.number n)
  | string (text : String) : IsWritable (.string text)
  | symbol (name : String) (h : isSymbolName name.toList = true) : IsWritable (.symbol name)
  | sexpr (items : List Value) (h : ∀ item ∈ items, IsWritable item) : IsWritable (.sexpr items)
  | qexpr (items : List Value) (h : ∀ item ∈ items, IsWritable item) : IsWritable (.qexpr items)

@[simp] theorem isWritable_number (n : Int64) : (number n).IsWritable := .number n

@[simp] theorem isWritable_string (text : String) : (string text).IsWritable := .string text

@[simp] theorem isWritable_symbol {name : String} :
    (symbol name).IsWritable ↔ isSymbolName name.toList = true :=
  ⟨fun h => by cases h; assumption, .symbol name⟩

@[simp] theorem isWritable_sexpr {items : List Value} :
    (sexpr items).IsWritable ↔ ∀ v ∈ items, v.IsWritable :=
  ⟨fun h => by cases h; assumption, .sexpr items⟩

@[simp] theorem isWritable_qexpr {items : List Value} :
    (qexpr items).IsWritable ↔ ∀ v ∈ items, v.IsWritable :=
  ⟨fun h => by cases h; assumption, .qexpr items⟩

end Value

theorem isBlank_of_isWordChar {c : Char} (h : isWordChar c = true) : isBlank c = false := by
  rw [← Bool.not_eq_true]
  intro hblank
  simp only [isBlank, Bool.or_eq_true, beq_iff_eq] at hblank
  rcases hblank with (((rfl | rfl) | rfl) | rfl) | rfl <;> exact absurd h (by decide)

/-- A word writes the value that its leaf reads as. -/
theorem writes_word {kind : TokenKind} {cs : List Char} {v : Value} (hne : cs ≠ [])
    (hword : cs.all isWordChar = true) (hkind : kind = if isNumeral cs then .number else .symbol)
    (hread : ∀ span, (leaf kind.nodeKind (String.ofList cs) span).read = some v) :
    Writes cs [v] := by
  obtain ⟨c, cs, rfl⟩ := List.exists_cons_of_ne_nil hne
  have hblank : isBlank c = false := isBlank_of_isWordChar (List.all_eq_true.1 hword c (by simp))
  have hatom : kind.nodeKind.isAtom = true := by
    rw [hkind]
    split <;> rfl
  refine writes_of_scan hblank hatom (fun rest hrest => ?_) hread
  rw [Lexeme.scan_word hword hrest, hkind]

theorem writes_number (n : Int64) : Writes (Word.digits n) [.number n] := by
  have hnumeral := Word.isNumeral_digits n
  have hne : Word.digits n ≠ [] := by
    intro h
    rw [h] at hnumeral
    cases hnumeral
  have hword := all_isWordChar_of_isNumeral hnumeral
  refine writes_word hne hword (if_pos hnumeral).symm fun span => ?_
  show some (Value.ofNumeral (String.ofList (Word.digits n))) = some (.number n)
  rw [Value.ofNumeral, String.toList_ofList, Word.parse?_digits]

theorem writes_symbol {name : String} (h : isSymbolName name.toList = true) :
    Writes name.toList [.symbol name] := by
  simp only [isSymbolName, Bool.and_eq_true, Bool.not_eq_true', List.isEmpty_eq_false_iff] at h
  obtain ⟨⟨hne, hword⟩, hnumeral⟩ := h
  refine writes_word hne hword (if_neg (by simp [hnumeral])).symm fun span => ?_
  show some (Value.symbol (String.ofList name.toList)) = some (.symbol name)
  rw [String.ofList_toList]

theorem writes_string (text : String) : Writes (Quoted.quote text.toList) [.string text] := by
  have hread : ∀ span, (leaf .string (String.ofList (Quoted.quote text.toList)) span).read =
      some (.string text) := by
    intro span
    show some (Value.string (String.ofList (Quoted.unquote (String.ofList _).toList))) = _
    rw [String.toList_ofList, Quoted.unquote_quote, String.ofList_toList]
  have hscan : ∀ rest, Lexeme.scan '"' (text.toList.flatMap Quoted.escape ++ ['"'] ++ rest) =
      .ok (⟨.string, Quoted.quote text.toList⟩, rest) := by
    intro rest
    rw [List.append_assoc]
    exact Lexeme.scan_quote text.toList rest
  exact writes_of_scan (by decide) rfl (fun rest _ => hscan rest) hread

/-- The printed text of a writable value writes it. -/
theorem Value.IsWritable.writes_chars {v : Value} (h : v.IsWritable) : Writes v.chars [v] := by
  induction h with
  | number n =>
    rw [chars_number]
    exact writes_number n
  | string text =>
    rw [chars_string]
    exact writes_string text
  | symbol name hname =>
    rw [chars_symbol]
    exact writes_symbol hname
  | sexpr items _ ih =>
    rw [chars_sexpr]
    exact (writes_spaced ih).enclose .round
  | qexpr items _ ih =>
    rw [chars_qexpr]
    exact (writes_spaced ih).enclose .curly

theorem Writes.exists_program {cs : List Char} {values : List Value} (h : Writes cs values) :
    ∃ size items, Node.parse (String.ofList cs) = .ok (program size items) ∧
      readAll items = values := by
  obtain ⟨tokens, items, hlex, hspells, hread⟩ := h 0 [] endsWord_nil
  have htokens : Token.lex (String.ofList cs) = .ok tokens := by
    rw [Token.lex, String.toList_ofList]
    exact hlex.lexFrom_eq_ok
  exact ⟨_, items, parse_eq_ok_iff.2 ⟨tokens, items, htokens, hspells, rfl⟩, hread⟩

theorem Writes.parse {cs : List Char} {values : List Value} (h : Writes cs values) :
    ∃ node, Node.parse (String.ofList cs) = .ok node ∧ node.read = some (.sexpr values) := by
  obtain ⟨size, items, hparse, hread⟩ := h.exists_program
  exact ⟨_, hparse, by rw [read_program, hread]⟩

theorem Writes.readSource {cs : List Char} {values : List Value} (h : Writes cs values) :
    readSource (String.ofList cs) = .ok values := by
  obtain ⟨size, items, hparse, hread⟩ := h.exists_program
  have hitems : readAll (program size items).children = readAll items :=
    readAll_between rfl rfl items
  rw [QuoteLisp.readSource, hparse]
  exact congrArg Except.ok (hitems.trans hread)

theorem readSource_spaced {source : String} {items : List Value} (h : ∀ v ∈ items, v.IsWritable)
    (hsource : Value.spaced (items.map Value.chars) = source.toList) :
    readSource source = .ok items := by
  have hread := (writes_spaced fun v hv => (h v hv).writes_chars).readSource
  rwa [hsource, String.ofList_toList] at hread

/-- A writable value reads back from its printed text, as the only expression of the source. -/
theorem read_parse_text {v : Value} (h : v.IsWritable) :
    ∃ node, Node.parse v.text = .ok node ∧ node.read = some (.sexpr [v]) :=
  h.writes_chars.parse

/-- The least number, a text with quotes and a control character, and empty lists of both kinds. -/
theorem read_parse_text_nested :
    let v : Value := .sexpr [.symbol "\\", .qexpr [.symbol "x1", .symbol "-"],
      .qexpr [.number Int64.minValue, .string "\"\\\n\x1bé", .sexpr [], .qexpr [.sexpr []]]]
    v.IsWritable ∧ ∃ node, Node.parse v.text = .ok node ∧ node.read = some (.sexpr [v]) := by
  intro v
  have hunit : Value.IsWritable (.sexpr []) := .sexpr [] (by simp)
  have hformals : Value.IsWritable (.qexpr [.symbol "x1", .symbol "-"]) := by
    refine .qexpr _ (List.forall_mem_cons.2 ⟨.symbol "x1" (by decide), ?_⟩)
    exact List.forall_mem_singleton.2 (.symbol "-" (by decide))
  have hbody : Value.IsWritable
      (.qexpr [.number Int64.minValue, .string "\"\\\n\x1bé", .sexpr [], .qexpr [.sexpr []]]) := by
    refine .qexpr _ (List.forall_mem_cons.2 ⟨.number _, List.forall_mem_cons.2 ⟨.string _, ?_⟩⟩)
    refine List.forall_mem_cons.2 ⟨hunit, List.forall_mem_singleton.2 (.qexpr _ ?_)⟩
    exact List.forall_mem_singleton.2 hunit
  have h : v.IsWritable := by
    refine .sexpr _ (List.forall_mem_cons.2 ⟨.symbol "\\" (by decide), ?_⟩)
    exact List.forall_mem_cons.2 ⟨hformals, List.forall_mem_singleton.2 hbody⟩
  exact ⟨h, read_parse_text h⟩

end QuoteLisp
