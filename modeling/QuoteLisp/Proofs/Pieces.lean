import QuoteLisp.Proofs.Lexemes
import QuoteLisp.Session

/-!
# Sources in pieces

Sources that parse can be put one behind the other with line breaks between them: the whole reads as
the expressions of all pieces, so evaluating it is evaluating the pieces in turn
(`Session.evalProgram_intercalate`). A source that parses can also be put in round brackets: as a
program it then is what it was as a line (`Session.evalProgram_bracketed`). In both cases the line
break ends whatever the piece ends with, be it a comment, a word or a string.
-/

namespace QuoteLisp

open Node

/-! ## Reading -/

variable {source first second : String} {items xs ys : List Value}

theorem readSource_append (hfirst : readSource first = .ok xs)
    (hsecond : readSource second = .ok ys) :
    readSource (first ++ "\n" ++ second) = .ok (xs ++ ys) := by
  obtain ⟨lexemes, hlexes, hreads⟩ := readSource_eq_ok_iff.1 hfirst
  obtain ⟨lexemes', hlexes', hreads'⟩ := readSource_eq_ok_iff.1 hsecond
  refine readSource_eq_ok_iff.2 ⟨lexemes ++ lexemes', ?_, hreads.append hreads'⟩
  have hbreak : Lexes ('\n' :: second.toList) lexemes' := .blank rfl hlexes'
  simpa using hlexes.append (breaksLine_newline second.toList) hbreak

theorem readSource_bracketed (hsource : readSource source = .ok items) :
    readSource ("(" ++ source ++ "\n)") = .ok [.sexpr items] := by
  obtain ⟨lexemes, hlexes, hreads⟩ := readSource_eq_ok_iff.1 hsource
  let opener : Lexeme := ⟨.opening .round, ['(']⟩
  let closer : Lexeme := ⟨.closing .round, [')']⟩
  have hcloser : Lexes ['\n', ')'] [closer] := .blank rfl (.scan rfl rfl .nil)
  have hinside := hlexes.append (breaksLine_newline [')']) hcloser
  have hall : Lexes ('(' :: (source.toList ++ ['\n', ')'])) (opener :: (lexemes ++ [closer])) :=
    .scan rfl rfl hinside
  have hlist : Reads (opener :: lexemes ++ [closer]) [.list .round items] :=
    .list rfl rfl hreads .nil
  exact readSource_eq_ok_iff.2 ⟨_, by simpa using hall, hlist⟩

theorem exists_parse_of_readSource (hsource : readSource source = .ok items) :
    ∃ node, parse source = .ok node := by
  rw [readSource] at hsource
  split at hsource
  · cases hsource
  · exact ⟨_, ‹_›⟩

/-- Every expression below a node reads as one value. -/
theorem length_readAll_children (node : Node) :
    (readAll node.children).length = node.expressions.length := by
  rw [readAll_eq_filterMap, expressions]
  induction node.children with
  | nil => rfl
  | cons child children ih =>
    have hread := isSome_read child
    cases hvalue : child.read with
    | none =>
      rw [hvalue] at hread
      rw [List.filterMap_cons_none hvalue, List.filter_cons_of_neg (by simp [← hread]), ih]
    | some v =>
      rw [hvalue] at hread
      rw [List.filterMap_cons_some hvalue, List.filter_cons_of_pos (by simp [← hread]),
        List.length_cons, List.length_cons, ih]

theorem readSource_empty : readSource "" = .ok [] :=
  readSource_eq_ok_iff.2 ⟨[], .nil, .nil⟩

theorem exists_readSource_intercalate {sources : List String}
    (hsources : ∀ source ∈ sources, ∃ items, readSource source = .ok items) :
    ∃ items, readSource ("\n".intercalate sources) = .ok items := by
  induction sources with
  | nil => exact ⟨[], readSource_empty⟩
  | cons source sources ih =>
    obtain ⟨⟨items, hitems⟩, hsources⟩ := List.forall_mem_cons.1 hsources
    cases sources with
    | nil =>
      rw [String.intercalate_singleton]
      exact ⟨items, hitems⟩
    | cons next sources =>
      obtain ⟨others, hothers⟩ := ih hsources
      rw [String.intercalate_cons_cons]
      exact ⟨_, readSource_append hitems hothers⟩

/-! ## Evaluating -/

namespace Session

variable {depth : Nat} {session : Session}

theorem evalProgram_of_readSource (hread : readSource source = .ok items) :
    session.evalProgram depth source = session.evalEach depth items := by
  rw [evalProgram, hread]

theorem evalLine_of_readSource (hread : readSource source = .ok items) :
    session.evalLine depth source = session.eval depth (.sexpr items) := by
  rw [evalLine, hread]

theorem evalEach_append (depth : Nat) (vs ws : List Value) (session : Session) :
    session.evalEach depth (vs ++ ws) =
      (session.evalEach depth vs).bind fun x =>
        (x.2.evalEach depth ws).map fun y => (x.1 ++ y.1, y.2) := by
  induction vs generalizing session with
  | nil =>
    rw [evalEach, Option.bind_some, List.nil_append]
    rcases session.evalEach depth ws with _ | ⟨results, after⟩ <;> rfl
  | cons v vs ih =>
    rw [List.cons_append, evalEach, evalEach]
    rcases session.eval depth v with _ | ⟨r, mid⟩
    · rfl
    · simp only [ih]
      rcases mid.evalEach depth vs with _ | ⟨results, last⟩
      · rfl
      · simp only [Option.bind_some]
        rcases last.evalEach depth ws with _ | ⟨others, after⟩ <;> rfl

theorem evalEach_singleton (depth : Nat) (v : Value) (session : Session) :
    session.evalEach depth [v] =
      (session.eval depth v).map fun (r, after) => ([r], after) := by
  rw [evalEach]
  rcases session.eval depth v with _ | ⟨r, after⟩ <;> rfl

/-- An expression in brackets of its own has its own value, one level deeper. -/
theorem eval_sexpr_singleton (depth : Nat) (v : Value) (session : Session) :
    session.eval (depth + 1) (.sexpr [v]) = session.eval depth v := by
  rw [eval, eval, eval_succ, step, evalExpr, evalItems]
  rcases QuoteLisp.eval depth session.root v session.store with _ | ⟨r, after⟩
  · rfl
  · cases r <;> rfl

/-- Evaluates programs one after the other, each with results of its own. -/
def evalPrograms (depth : Nat) : List String → Session → Option (List (List Value) × Session)
  | [], session => some ([], session)
  | source :: sources, session =>
    match session.evalProgram depth source with
    | none => none
    | some (results, session) =>
      match evalPrograms depth sources session with
      | none => none
      | some (others, session) => some (results :: others, session)

theorem evalProgram_intercalate_of_readSource {sources : List String}
    (hsources : ∀ source ∈ sources, ∃ items, readSource source = .ok items) :
    session.evalProgram depth ("\n".intercalate sources) =
      (session.evalPrograms depth sources).map fun (pieces, after) => (pieces.flatten, after) := by
  induction sources generalizing session with
  | nil => exact evalProgram_of_readSource readSource_empty
  | cons source sources ih =>
    obtain ⟨⟨items, hitems⟩, hsources⟩ := List.forall_mem_cons.1 hsources
    rw [evalPrograms]
    cases sources with
    | nil =>
      rw [String.intercalate_singleton]
      rcases session.evalProgram depth source with _ | ⟨results, after⟩
      · rfl
      · simp [evalPrograms]
    | cons next sources =>
      obtain ⟨others, hothers⟩ := exists_readSource_intercalate hsources
      rw [String.intercalate_cons_cons,
        evalProgram_of_readSource (readSource_append hitems hothers), evalEach_append,
        evalProgram_of_readSource hitems]
      rcases session.evalEach depth items with _ | ⟨results, mid⟩
      · rfl
      · simp only [Option.bind_some]
        rw [← evalProgram_of_readSource hothers, ih hsources]
        rcases mid.evalPrograms depth (next :: sources) with _ | ⟨pieces, after⟩ <;> rfl

/-- A source with one expression, comments aside, is the same as a program and as a line. -/
theorem evalProgram_eq_evalLine {node : Node} (hparse : parse source = .ok node)
    (hsole : node.expressions.length = 1) (depth : Nat) (session : Session) :
    session.evalProgram depth source =
      (session.evalLine (depth + 1) source).map fun (r, after) => ([r], after) := by
  have hread := readSource_of_parse hparse
  obtain ⟨v, hv⟩ := List.length_eq_one_iff.1 ((length_readAll_children node).trans hsole)
  rw [hv] at hread
  rw [evalProgram_of_readSource hread, evalLine_of_readSource hread, evalEach_singleton,
    eval_sexpr_singleton]

/-- Sources that parse, joined by line breaks, evaluate as one program to the results of the single
sources evaluated in turn, one behind the other, and to the same session; within a bound, the one
finishes if and only if the other does. A source among them that has exactly one expression,
comments aside, gives the one result that it gives as a line. -/
theorem evalProgram_intercalate {sources : List String}
    (hsources : ∀ source ∈ sources, ∃ node, Node.parse source = .ok node) :
    (∀ depth (session : Session), session.evalProgram depth ("\n".intercalate sources) =
      (session.evalPrograms depth sources).map fun (pieces, after) => (pieces.flatten, after)) ∧
    ∀ source ∈ sources, ∀ node, Node.parse source = .ok node → node.expressions.length = 1 →
      ∀ depth (session : Session), session.evalProgram depth source =
        (session.evalLine (depth + 1) source).map fun (r, after) => ([r], after) := by
  refine ⟨fun depth session => ?_, fun source _ node => evalProgram_eq_evalLine⟩
  refine evalProgram_intercalate_of_readSource fun source hsource => ?_
  obtain ⟨node, hparse⟩ := hsources source hsource
  exact ⟨_, readSource_of_parse hparse⟩

/-- A definition in front of a comment, the defined name, and a string with a line break. -/
theorem evalProgram_intercalate_behind_comment :
    let sources := ["(def \x7bx\x7d 5);(", "x", "\"a\nb\""]
    let after : Session := ⟨Session.new.store.define 0 "x" (.number 5), 0⟩
    (∀ source ∈ sources, ∃ node, Node.parse source = .ok node) ∧
      Session.new.evalProgram 3 "(def \x7bx\x7d 5);(\nx\n\"a\nb\"" =
        some ([.unit, .number 5, .string "a\nb"], after) ∧
      (after.evalLine 2 "x").map (fun (r, last) => ([r], last)) = some ([.number 5], after) := by
  intro sources after
  have hdefinition : readSource "(def \x7bx\x7d 5);(" =
      .ok [.sexpr [.symbol "def", .qexpr [.symbol "x"], .number 5]] := by
    have hlexes : Lexes ['(', 'd', 'e', 'f', ' ', '\x7b', 'x', '\x7d', ' ', '5', ')', ';', '('] _ :=
      .scan rfl rfl <| .scan rfl rfl <| .blank rfl <| .scan rfl rfl <| .scan rfl rfl <|
        .scan rfl rfl <| .blank rfl <| .scan rfl rfl <| .scan rfl rfl <| .scan rfl rfl .nil
    have hquoted : Reads (⟨.opening .curly, ['\x7b']⟩ :: [⟨.symbol, ['x']⟩] ++
        ⟨.closing .curly, ['\x7d']⟩ :: [⟨.number, ['5']⟩])
        [.list .curly [.symbol "x"], .number 5] :=
      .list rfl rfl (.atom rfl .nil) (.atom rfl .nil)
    have hinside : Reads (⟨.symbol, ['d', 'e', 'f']⟩ :: _)
        [.symbol "def", .list .curly [.symbol "x"], .number 5] := .atom rfl hquoted
    have hcomment : Reads [⟨.comment, [';', '(']⟩] [] := .comment rfl .nil
    have hreads : Reads (⟨.opening .round, ['(']⟩ :: _ ++ ⟨.closing .round, [')']⟩ :: _)
        [.list .round [.symbol "def", .list .curly [.symbol "x"], .number 5]] :=
      .list rfl rfl hinside hcomment
    exact readSource_eq_ok_iff.2 ⟨_, hlexes, hreads⟩
  have hname : readSource "x" = .ok [.symbol "x"] := by
    have hlexes : Lexes ['x'] _ := .scan rfl rfl .nil
    exact readSource_eq_ok_iff.2 ⟨_, hlexes, .atom rfl .nil⟩
  have htext : readSource "\"a\nb\"" = .ok [.string "a\nb"] := by
    have hlexes : Lexes ['"', 'a', '\n', 'b', '"'] [⟨.string, ['"', 'a', '\n', 'b', '"']⟩] :=
      .scan rfl rfl .nil
    have hunquote : Quoted.unquote ['"', 'a', '\n', 'b', '"'] = ['a', '\n', 'b'] := by
      decide +kernel
    have hvalue : Lexeme.value? ⟨.string, ['"', 'a', '\n', 'b', '"']⟩ = some (.string "a\nb") :=
      congrArg (fun cs => some (Value.string (String.ofList cs))) hunquote
    exact readSource_eq_ok_iff.2 ⟨_, hlexes, .atom hvalue .nil⟩
  have hsources : ∀ source ∈ sources, ∃ node, Node.parse source = .ok node := by
    simp only [sources, List.forall_mem_cons]
    exact ⟨exists_parse_of_readSource hdefinition, exists_parse_of_readSource hname,
      exists_parse_of_readSource htext, by simp⟩
  obtain ⟨hwhole, hsole⟩ := evalProgram_intercalate hsources
  have hpieces : Session.new.evalPrograms 3 sources =
      some ([[.unit], [.number 5], [.string "a\nb"]], after) := by
    simp only [sources, evalPrograms, evalProgram, hdefinition, hname, htext]
    rfl
  refine ⟨hsources, (hwhole 3 Session.new).trans (by rw [hpieces]; rfl), ?_⟩
  obtain ⟨node, hparse⟩ := exists_parse_of_readSource hname
  have hone : node.expressions.length = 1 := by
    rw [readSource_of_parse hparse] at hname
    rw [← length_readAll_children, Except.ok.inj hname]
    rfl
  rw [← hsole "x" (by simp [sources]) node hparse hone 1 after, evalProgram_of_readSource hname]
  rfl

/-- A source that parses, put in round brackets behind which a line break ends it, has exactly one
result as a program: the one that the source has as a line, with the same session behind it. -/
theorem evalProgram_bracketed {node : Node} (hparse : Node.parse source = .ok node) (depth : Nat)
    (session : Session) :
    session.evalProgram depth ("(" ++ source ++ "\n)") =
      (session.evalLine depth source).map fun (r, after) => ([r], after) := by
  have hread := readSource_of_parse hparse
  rw [evalProgram_of_readSource (readSource_bracketed hread), evalLine_of_readSource hread,
    evalEach_singleton]

/-- A sum whose line ends in a comment that holds a bracket. -/
theorem evalProgram_bracketed_behind_comment :
    (∃ node, Node.parse "+ 1 2;)" = .ok node) ∧
      Session.new.evalProgram 2 "(+ 1 2;)\n)" = some ([.number 3], Session.new) := by
  have hread : readSource "+ 1 2;)" = .ok [.symbol "+", .number 1, .number 2] := by
    have hlexes : Lexes ['+', ' ', '1', ' ', '2', ';', ')'] _ :=
      .scan rfl rfl <| .blank rfl <| .scan rfl rfl <| .blank rfl <| .scan rfl rfl <|
        .scan rfl rfl .nil
    exact readSource_eq_ok_iff.2
      ⟨_, hlexes, .atom rfl (.atom rfl (.atom rfl (.comment rfl .nil)))⟩
  obtain ⟨node, hparse⟩ := exists_parse_of_readSource hread
  refine ⟨⟨node, hparse⟩, (evalProgram_bracketed hparse 2 Session.new).trans ?_⟩
  rw [evalLine_of_readSource hread]
  rfl

end Session

end QuoteLisp
