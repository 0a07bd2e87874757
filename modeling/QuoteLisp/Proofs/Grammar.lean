import QuoteLisp.Node.Parser
import QuoteLisp.Proofs.Except
import QuoteLisp.Proofs.Lexing

/-!
# The grammar of the tree

`Node.IsExpr` is the grammar of expressions, said of trees, and `Node.leaves` are the leaves of a
tree from left to right. The main result is that a source parses to a tree exactly when that tree is
a program of grammatical expressions whose leaves are the tokens of the source.

Between the two stands `Node.Spells`, which derives a sequence of nodes together with its tokens.
The descent finds only derivable nodes (`Descent.spells_of_program`) and finds every one of them
(`Node.Spells.program_append`), so there is at most one derivation for each sequence of tokens.
-/

namespace QuoteLisp

/-! ## The grammar -/

/-- The kinds of leaves that are expressions by themselves. -/
def NodeKind.isAtom : NodeKind → Bool
  | number => true
  | string => true
  | symbol => true
  | comment => true
  | _ => false

namespace Node

/-- An expression is a number, a string, a symbol, a comment, or a sequence of expressions between
two matching brackets. -/
inductive IsExpr : Node → Prop where
  | atom (kind : NodeKind) (text : String) (span : Span) (h : kind.isAtom = true) :
    IsExpr (leaf kind text span)
  | list (bracket : Bracket) (opener closer : Span) (items : List Node)
    (h : ∀ item ∈ items, IsExpr item) :
    IsExpr (branch bracket.nodeKind (opener.merge closer)
      (leaf .delimiter (String.singleton bracket.opener) opener :: items ++
        [leaf .delimiter (String.singleton bracket.closer) closer]))

mutual

/-- The nodes without children of a tree, from left to right. -/
def leaves : Node → List Node
  | ⟨kind, contents, span, []⟩ => [⟨kind, contents, span, []⟩]
  | ⟨_, _, _, child :: children⟩ => leaves child ++ leavesAll children
  termination_by structural node => node

def leavesAll : List Node → List Node
  | [] => []
  | node :: nodes => leaves node ++ leavesAll nodes
  termination_by structural nodes => nodes

end

theorem leavesAll_eq_flatMap (nodes : List Node) : leavesAll nodes = nodes.flatMap leaves := by
  induction nodes with
  | nil => rfl
  | cons node nodes ih => rw [leavesAll, ih, List.flatMap_cons]

@[simp] theorem leaves_leaf (kind : NodeKind) (text : String) (span : Span) :
    (leaf kind text span).leaves = [leaf kind text span] := rfl

@[simp] theorem leaves_branch (kind : NodeKind) (span : Span) (child : Node)
    (children : List Node) :
    (branch kind span (child :: children)).leaves = (child :: children).flatMap leaves := by
  rw [branch, leaves, leavesAll_eq_flatMap, List.flatMap_cons]

/-- The nodes are expressions that the tokens spell. -/
inductive Spells : List Node → List Token → Prop where
  | nil : Spells [] []
  | atom (token : Token) (h : token.kind.nodeKind.isAtom = true) {nodes : List Node}
    {tokens : List Token} (hnodes : Spells nodes tokens) :
    Spells (ofToken token :: nodes) (token :: tokens)
  | list (bracket : Bracket) (opener closer : Token) (hopener : opener.kind = .opening bracket)
    (hcloser : closer.kind = .closing bracket) {items nodes : List Node}
    {inner tokens : List Token} (hitems : Spells items inner) (hnodes : Spells nodes tokens) :
    Spells (Node.list bracket opener closer items :: nodes) (opener :: inner ++ closer :: tokens)

theorem Spells.append {nodes nodes' : List Node} {tokens tokens' : List Token}
    (h : Spells nodes tokens) (h' : Spells nodes' tokens') :
    Spells (nodes ++ nodes') (tokens ++ tokens') := by
  induction h with
  | nil => exact h'
  | atom token hkind _ ih => exact .atom token hkind ih
  | list bracket opener closer hopener hcloser hitems _ _ ih =>
    simpa using Spells.list bracket opener closer hopener hcloser hitems ih

end Node

/-! ## The descent finds derivable nodes -/

namespace Descent

open Node

/-- What `expr` and `list` read is derivable, and they take exactly its tokens. -/
theorem spells_of_expr_and_list :
    (∀ tokens parsed, expr tokens = .ok parsed →
      ∃ used, tokens = used ++ parsed.rest ∧ Spells [parsed.node] used) ∧
    ∀ bracket opener done tokens parsed, list bracket opener done tokens = .ok parsed →
      ∃ items inner closer, tokens = inner ++ closer :: parsed.rest ∧
        closer.kind = .closing bracket ∧ Spells items inner ∧
          parsed.node = Node.list bracket opener closer (done.reverse ++ items) := by
  apply expr.mutual_induct
  case case1 =>
    intro parsed h
    simp [expr] at h
  case case2 =>
    intro token tokens bracket hkind refusal hlist _ parsed h
    rw [expr] at h
    simp [hkind, hlist] at h
  case case3 =>
    intro token tokens bracket hkind found hlist ih parsed h
    rw [expr] at h
    simp only [hkind, hlist] at h
    cases h
    obtain ⟨items, inner, closer, htokens, hcloser, hitems, hnode⟩ := ih found hlist
    refine ⟨token :: inner ++ [closer], ?_, ?_⟩
    · simp [htokens]
    · rw [Parsed.behind_node, hnode]
      exact .list bracket token closer hkind hcloser hitems .nil
  case case4 =>
    intro token tokens bracket hkind parsed h
    rw [expr] at h
    simp [hkind] at h
  case case5 =>
    intro token tokens hopening hclosing parsed h
    have hatom : token.kind.nodeKind.isAtom = true := by
      cases hkind : token.kind <;> simp_all <;> rfl
    have hparsed : parsed = ⟨.ofToken token, tokens, Nat.lt_succ_self _⟩ := by
      rw [expr] at h
      cases hkind : token.kind <;> simp_all
    subst hparsed
    exact ⟨[token], rfl, .atom token hatom .nil⟩
  case case6 =>
    intro bracket opener done parsed h
    simp [list] at h
  case case7 =>
    intro opener done token tokens found hcloser parsed h
    rw [list] at h
    simp only [hcloser, if_true] at h
    cases h
    refine ⟨[], [], token, rfl, ?_, .nil, by simp⟩
    cases hkind : token.kind <;> simp_all [TokenKind.closer?]
  case case8 =>
    intro bracket opener done token tokens found hcloser hne parsed h
    rw [list] at h
    simp [hcloser, hne] at h
  case case9 =>
    intro bracket opener done token tokens hcloser refusal hexpr _ parsed h
    rw [list] at h
    simp [hcloser, hexpr] at h
  case case10 =>
    intro bracket opener done token tokens hcloser item hexpr refusal hlist _ _ parsed h
    rw [list] at h
    simp [hcloser, hexpr, hlist] at h
  case case11 =>
    intro bracket opener done token tokens hcloser item hexpr found hlist ihexpr ihlist parsed h
    rw [list] at h
    simp only [hcloser, hexpr, hlist] at h
    cases h
    obtain ⟨used, hused, hitem⟩ := ihexpr item hexpr
    obtain ⟨items, inner, closer, htokens, hclosing, hitems, hnode⟩ := ihlist found hlist
    refine ⟨item.node :: items, used ++ inner, closer, ?_, hclosing, hitem.append hitems, ?_⟩
    · rw [Parsed.behind_rest, List.append_assoc, ← htokens]
      exact hused
    · rw [Parsed.behind_node, hnode, List.reverse_cons, List.append_assoc]
      rfl

theorem spells_of_program {done nodes : List Node} {tokens : List Token}
    (h : program done tokens = .ok nodes) :
    ∃ items, nodes = done.reverse ++ items ∧ Spells items tokens := by
  fun_induction program done tokens with
  | case1 done =>
    cases h
    exact ⟨[], by simp, .nil⟩
  | case2 => cases h
  | case3 => cases h
  | case4 done token tokens hcloser item hexpr ih =>
    obtain ⟨items, rfl, hitems⟩ := ih h
    obtain ⟨used, hused, hitem⟩ := spells_of_expr_and_list.1 _ item hexpr
    have hspells := hitem.append hitems
    rw [← hused] at hspells
    exact ⟨item.node :: items, by simp, hspells⟩

/-! ## The descent finds every derivable node -/

/-- The outcome is this node, with these tokens left. -/
def Yields {tokens : List Token} (outcome : Except Refusal (Parsed tokens)) (node : Node)
    (rest : List Token) : Prop :=
  ∃ parsed, outcome = .ok parsed ∧ parsed.node = node ∧ parsed.rest = rest

theorem expr_atom {token : Token} (h : token.kind.nodeKind.isAtom = true) (rest : List Token) :
    Yields (expr (token :: rest)) (ofToken token) rest := by
  rw [expr]
  cases hkind : token.kind <;> simp [hkind, TokenKind.nodeKind, NodeKind.isAtom] at h
  all_goals exact ⟨_, rfl, rfl, rfl⟩

theorem expr_opening {bracket : Bracket} {opener : Token} {tokens rest : List Token} {node : Node}
    (hopener : opener.kind = .opening bracket)
    (h : Yields (list bracket opener [] tokens) node rest) :
    Yields (expr (opener :: tokens)) node rest := by
  obtain ⟨parsed, hlist, hnode, hrest⟩ := h
  rw [expr]
  simp only [hopener, hlist]
  exact ⟨_, rfl, hnode, hrest⟩

theorem list_closing {bracket : Bracket} {closer : Token} (hcloser : closer.kind = .closing bracket)
    (opener : Token) (done : List Node) (rest : List Token) :
    Yields (list bracket opener done (closer :: rest))
      (Node.list bracket opener closer done.reverse) rest := by
  rw [list]
  simp only [hcloser, TokenKind.closer?, if_true]
  exact ⟨_, rfl, rfl, rfl⟩

theorem list_item {token : Token} (hcloser : token.kind.closer? = none) {bracket : Bracket}
    {opener : Token} {done : List Node} {tokens between rest : List Token} {item node : Node}
    (hitem : Yields (expr (token :: tokens)) item between)
    (hlist : Yields (list bracket opener (item :: done) between) node rest) :
    Yields (list bracket opener done (token :: tokens)) node rest := by
  obtain ⟨read, hexpr, rfl, rfl⟩ := hitem
  obtain ⟨parsed, hlist, hnode, hrest⟩ := hlist
  rw [list]
  simp only [hcloser, hexpr, hlist]
  exact ⟨_, rfl, hnode, hrest⟩

theorem program_item {token : Token} (hcloser : token.kind.closer? = none) {done : List Node}
    {tokens between : List Token} {item : Node}
    (hitem : Yields (expr (token :: tokens)) item between) :
    program done (token :: tokens) = program (item :: done) between := by
  obtain ⟨read, hexpr, rfl, rfl⟩ := hitem
  rw [program]
  simp only [hcloser, hexpr]

end Descent

namespace Node

open Descent

theorem closer?_of_isAtom {kind : TokenKind} (h : kind.nodeKind.isAtom = true) :
    kind.closer? = none := by
  cases kind <;> simp_all [TokenKind.nodeKind, NodeKind.isAtom, TokenKind.closer?]

/-- Inside a list, the descent goes through derivable nodes to whatever follows them. -/
theorem Spells.list_append {nodes : List Node} {tokens : List Token} (h : Spells nodes tokens)
    {bracket : Bracket} {opener : Token} {done : List Node} {follow rest : List Token} {node : Node}
    (hfollow : Yields (Descent.list bracket opener (nodes.reverse ++ done) follow) node rest) :
    Yields (Descent.list bracket opener done (tokens ++ follow)) node rest := by
  induction h generalizing bracket opener done follow node rest with
  | nil => exact hfollow
  | atom token hkind _ ih =>
    refine list_item (closer?_of_isAtom hkind) (expr_atom hkind _) (ih ?_)
    simpa using hfollow
  | @list b first last hfirst hlast items nodes inner tokens _ _ ihitems ih =>
    have hitem : Yields (expr (first :: (inner ++ last :: (tokens ++ follow))))
        (Node.list b first last items) (tokens ++ follow) := by
      refine expr_opening hfirst (ihitems ?_)
      simpa using list_closing hlast first items.reverse (tokens ++ follow)
    have hcloser : first.kind.closer? = none := by rw [hfirst]; rfl
    rw [List.append_assoc, List.cons_append]
    refine list_item hcloser hitem (ih ?_)
    simpa using hfollow

/-- Outside of all lists, the descent goes through derivable nodes to whatever follows them. -/
theorem Spells.program_append {nodes : List Node} {tokens : List Token} (h : Spells nodes tokens)
    (done : List Node) (follow : List Token) :
    Descent.program done (tokens ++ follow) = Descent.program (nodes.reverse ++ done) follow := by
  induction h generalizing done follow with
  | nil => rfl
  | atom token hkind _ ih =>
    rw [List.cons_append, program_item (closer?_of_isAtom hkind) (expr_atom hkind _), ih]
    simp
  | @list b first last hfirst hlast items nodes inner tokens hitems _ _ ih =>
    have hitem : Yields (expr (first :: (inner ++ last :: (tokens ++ follow))))
        (Node.list b first last items) (tokens ++ follow) := by
      refine expr_opening hfirst (hitems.list_append ?_)
      simpa using list_closing hlast first items.reverse (tokens ++ follow)
    have hcloser : first.kind.closer? = none := by rw [hfirst]; rfl
    rw [List.append_assoc, List.cons_append]
    refine (program_item hcloser hitem).trans ?_
    rw [ih]
    simp

/-- The nodes of a sequence of tokens are exactly those that it spells. -/
theorem ofTokens_eq_ok_iff_spells {tokens : List Token} {items : List Node} :
    ofTokens tokens = .ok items ↔ Spells items tokens := by
  rw [ofTokens_eq_ok_iff]
  constructor
  · intro h
    obtain ⟨items', rfl, hitems⟩ := spells_of_program h
    exact hitems
  · intro h
    have hprogram := h.program_append [] []
    simpa [Descent.program] using hprogram

/-! ## Trees and their leaves -/

variable {token : Token} {tokens : List Token} {items : List Node}

/-- The leaves of some grammatical expressions are exactly these tokens. -/
structure Grammatical (items : List Node) (tokens : List Token) : Prop where
  isExpr : ∀ item ∈ items, item.IsExpr
  leaves : items.flatMap Node.leaves = tokens.map ofToken

theorem ofToken_eq_delimiter {c : Char} (hkind : token.kind.nodeKind = .delimiter)
    (htext : token.text.toList = [c]) :
    ofToken token = leaf .delimiter (String.singleton c) token.span := by
  have hsingleton : token.text = String.singleton c := by
    apply String.toList_inj.1
    rw [htext, String.toList_singleton]
  rw [ofToken, hkind, hsingleton]

/-- A delimiter leaf comes from a bracket token, and its text tells which one. -/
theorem kind_of_ofToken_eq_delimiter (haccepts : token.kind.Accepts token.text.toList) {c : Char}
    {span : Span} (h : ofToken token = leaf .delimiter (String.singleton c) span) :
    token.span = span ∧ ∃ bracket, token.kind = .opening bracket ∧ c = bracket.opener ∨
      token.kind = .closing bracket ∧ c = bracket.closer := by
  simp only [ofToken, leaf, Node.mk.injEq] at h
  obtain ⟨hkind, htext, hspan, -⟩ := h
  rw [htext, String.toList_singleton] at haccepts
  refine ⟨hspan, ?_⟩
  cases hk : token.kind with
  | opening bracket =>
    rw [hk] at haccepts
    exact ⟨bracket, .inl ⟨rfl, List.singleton_inj.1 haccepts⟩⟩
  | closing bracket =>
    rw [hk] at haccepts
    exact ⟨bracket, .inr ⟨rfl, List.singleton_inj.1 haccepts⟩⟩
  | _ => simp [hk, TokenKind.nodeKind] at hkind

theorem kind_of_ofToken_eq_opener (haccepts : token.kind.Accepts token.text.toList)
    {bracket : Bracket} {span : Span}
    (h : ofToken token = leaf .delimiter (String.singleton bracket.opener) span) :
    token.kind = .opening bracket := by
  obtain ⟨-, found, ⟨hkind, hc⟩ | ⟨-, hc⟩⟩ := kind_of_ofToken_eq_delimiter haccepts h
  · rw [hkind]
    cases bracket <;> cases found <;> first | rfl | simp [Bracket.opener] at hc
  · cases bracket <;> cases found <;> simp [Bracket.opener, Bracket.closer] at hc

theorem kind_of_ofToken_eq_closer (haccepts : token.kind.Accepts token.text.toList)
    {bracket : Bracket} {span : Span}
    (h : ofToken token = leaf .delimiter (String.singleton bracket.closer) span) :
    token.kind = .closing bracket := by
  obtain ⟨-, found, ⟨-, hc⟩ | ⟨hkind, hc⟩⟩ := kind_of_ofToken_eq_delimiter haccepts h
  · cases bracket <;> cases found <;> simp [Bracket.opener, Bracket.closer] at hc
  · rw [hkind]
    cases bracket <;> cases found <;> first | rfl | simp [Bracket.closer] at hc

theorem Spells.grammatical (h : Spells items tokens)
    (haccepts : ∀ token ∈ tokens, token.kind.Accepts token.text.toList) :
    Grammatical items tokens := by
  induction h with
  | nil => exact ⟨by simp, rfl⟩
  | atom token hkind _ ih =>
    obtain ⟨hexpr, hleaves⟩ := ih fun t ht => haccepts t (List.mem_cons_of_mem _ ht)
    refine ⟨List.forall_mem_cons.2 ⟨.atom _ _ _ hkind, hexpr⟩, ?_⟩
    rw [List.flatMap_cons, hleaves]
    rfl
  | @list bracket opener closer hopener hcloser items nodes inner tokens _ _ ihitems ihnodes =>
    have hopen : ofToken opener =
        leaf .delimiter (String.singleton bracket.opener) opener.span := by
      have htext := haccepts opener (by simp)
      rw [hopener] at htext
      exact ofToken_eq_delimiter (by rw [hopener]; rfl) htext
    have hclose : ofToken closer =
        leaf .delimiter (String.singleton bracket.closer) closer.span := by
      have htext := haccepts closer (by simp)
      rw [hcloser] at htext
      exact ofToken_eq_delimiter (by rw [hcloser]; rfl) htext
    obtain ⟨hitems, hinner⟩ := ihitems fun t ht => haccepts t (by simp [ht])
    obtain ⟨hnodes, htokens⟩ := ihnodes fun t ht => haccepts t (by simp [ht])
    refine ⟨List.forall_mem_cons.2 ⟨?_, hnodes⟩, ?_⟩
    · rw [Node.list, hopen, hclose]
      exact .list bracket opener.span closer.span items hitems
    · rw [List.flatMap_cons, htokens, Node.list, List.cons_append, leaves_branch]
      simp [hopen, hclose, hinner]

/-- Expressions that can each be derived from their own leaves are derived from all their leaves. -/
theorem spells_of_forall_mem
    (h : ∀ item ∈ items, ∀ tokens : List Token,
      (∀ token ∈ tokens, token.kind.Accepts token.text.toList) →
        item.leaves = tokens.map ofToken → Spells [item] tokens)
    (haccepts : ∀ token ∈ tokens, token.kind.Accepts token.text.toList)
    (hleaves : items.flatMap leaves = tokens.map ofToken) : Spells items tokens := by
  induction items generalizing tokens with
  | nil =>
    rw [List.flatMap_nil, eq_comm, List.map_eq_nil_iff] at hleaves
    subst hleaves
    exact .nil
  | cons item items ih =>
    rw [List.flatMap_cons, eq_comm, List.map_eq_append_iff] at hleaves
    obtain ⟨used, rest, rfl, hused, hrest⟩ := hleaves
    obtain ⟨hitem, hitems⟩ := List.forall_mem_cons.1 h
    have husedAccepts : ∀ token ∈ used, token.kind.Accepts token.text.toList :=
      fun t ht => haccepts t (List.mem_append_left _ ht)
    have hrestAccepts : ∀ token ∈ rest, token.kind.Accepts token.text.toList :=
      fun t ht => haccepts t (List.mem_append_right _ ht)
    exact (hitem used husedAccepts hused.symm).append (ih hitems hrestAccepts hrest.symm)

theorem IsExpr.spells {node : Node} (h : node.IsExpr) {tokens : List Token}
    (haccepts : ∀ token ∈ tokens, token.kind.Accepts token.text.toList)
    (hleaves : node.leaves = tokens.map ofToken) : Spells [node] tokens := by
  induction h generalizing tokens with
  | atom kind text span hkind =>
    rw [leaves_leaf, eq_comm, List.map_eq_singleton_iff] at hleaves
    obtain ⟨token, rfl, htoken⟩ := hleaves
    have hkind' : token.kind.nodeKind = kind := congrArg Node.kind htoken
    rw [← htoken]
    exact .atom token (hkind'.symm ▸ hkind) .nil
  | list bracket opener closer items _ ih =>
    rw [List.cons_append, leaves_branch, eq_comm] at hleaves
    simp only [List.flatMap_cons, List.flatMap_append, List.flatMap_nil, leaves_leaf,
      List.append_nil, List.singleton_append, List.map_eq_cons_iff, List.map_eq_append_iff,
      List.map_eq_nil_iff] at hleaves
    obtain ⟨first, _, rfl, hfirst, inner, _, rfl, hinner, last, _, rfl, hlast, rfl⟩ := hleaves
    have hopening := kind_of_ofToken_eq_opener (haccepts first (by simp)) hfirst
    have hclosing := kind_of_ofToken_eq_closer (haccepts last (by simp)) hlast
    have hopener : first.span = opener := congrArg Node.span hfirst
    have hcloser : last.span = closer := congrArg Node.span hlast
    have hitems : Spells items inner :=
      spells_of_forall_mem (fun item hitem _ => ih item hitem)
        (fun t ht => haccepts t (by simp [ht])) hinner.symm
    have hlist := Spells.list bracket first last hopening hclosing hitems .nil
    rw [Node.list, hfirst, hlast, hopener, hcloser] at hlist
    exact hlist

/-- Of tokens whose texts fit their kinds, being derived is being a grammatical tree with these
leaves. -/
theorem spells_iff_grammatical
    (haccepts : ∀ token ∈ tokens, token.kind.Accepts token.text.toList) :
    Spells items tokens ↔ Grammatical items tokens := by
  constructor
  · exact fun h => h.grammatical haccepts
  · rintro ⟨hexpr, hleaves⟩
    exact spells_of_forall_mem (fun item hitem _ => (hexpr item hitem).spells) haccepts hleaves

theorem parse_eq_ok_iff {source : String} {node : Node} :
    parse source = .ok node ↔ ∃ tokens items, Token.lex source = .ok tokens ∧
      Spells items tokens ∧ node = program (byteLength source.toList) items := by
  simp only [parse, Except.bind_eq_ok_iff, ofTokens_eq_ok_iff_spells]
  constructor
  · rintro ⟨tokens, hlex, items, hitems, hnode⟩
    exact ⟨tokens, items, hlex, hitems, (Except.ok.inj hnode).symm⟩
  · rintro ⟨tokens, items, hlex, hitems, rfl⟩
    exact ⟨tokens, hlex, items, hitems, rfl⟩

/-! ## The main result -/

/-- A source parses exactly to the program of grammatical expressions whose leaves are its tokens,
between two empty anchors. There is at most one such program, and no expression is ever asked for
where none starts. -/
theorem parse_eq_ok_iff_grammatical (source : String) :
    (∀ node, parse source = .ok node ↔
      ∃ tokens items, Token.lex source = .ok tokens ∧ Grammatical items tokens ∧
        node = branch .program ⟨0, byteLength source.toList⟩
          (leaf .delimiter "" (.point 0) :: items ++
            [leaf .delimiter "" (.point (byteLength source.toList))])) ∧
    ∀ tokens, Token.lex source = .ok tokens →
      (∀ items items', Grammatical items tokens → Grammatical items' tokens → items = items') ∧
        ∀ next, Descent.program [] tokens ≠ .error (.misplaced next) := by
  refine ⟨fun node => ?_, fun tokens hlex => ⟨fun items items' h h' => ?_, fun next => ?_⟩⟩
  · rw [parse_eq_ok_iff]
    refine exists_congr fun tokens => exists_congr fun items => and_congr_right fun hlex => ?_
    rw [spells_iff_grammatical (Token.accepts_of_mem_lex hlex)]
    rfl
  · have haccepts := Token.accepts_of_mem_lex hlex
    rw [← spells_iff_grammatical haccepts, ← ofTokens_eq_ok_iff_spells] at h h'
    exact Except.ok.inj (h.symm.trans h')
  · exact Descent.program_ne_misplaced [] tokens next

/-- One symbol in round brackets is a program, and the only one with its tokens. -/
theorem parse_bracketed_symbol :
    ∃ node tokens, parse "(a)" = .ok node ∧ Token.lex "(a)" = .ok tokens ∧
      (∀ items, Grammatical items tokens → items = [branch .sexpr ⟨0, 3⟩
        [leaf .delimiter "(" ⟨0, 1⟩, leaf .symbol "a" ⟨1, 2⟩, leaf .delimiter ")" ⟨2, 3⟩]]) ∧
      ∀ next, Descent.program [] tokens ≠ .error (.misplaced next) := by
  let tokens : List Token := [⟨.opening .round, "(", ⟨0, 1⟩⟩, ⟨.symbol, "a", ⟨1, 2⟩⟩,
    ⟨.closing .round, ")", ⟨2, 3⟩⟩]
  have hlex : Token.lex "(a)" = .ok tokens := by
    have hopener : Token.LexesTo 0 ['('] (['a', ')'] ++ []) [tokens[0]] :=
      Token.lexesTo_of_scan rfl rfl 0
    have hsymbol : Token.LexesTo 1 ['a'] ([')'] ++ []) [tokens[1]] :=
      Token.lexesTo_of_scan rfl rfl 1
    have hcloser : Token.LexesTo 2 [')'] [] [tokens[2]] := Token.lexesTo_of_scan rfl rfl 2
    have hrest : Token.LexesTo 1 (['a'] ++ [')']) [] ([tokens[1]] ++ [tokens[2]]) :=
      hsymbol.append hcloser
    have hall : Token.LexesTo 0 (['('] ++ ['a', ')']) [] ([tokens[0]] ++ [tokens[1], tokens[2]]) :=
      hopener.append hrest
    exact hall.lexFrom_eq_ok
  let list : Node := branch .sexpr ⟨0, 3⟩
    [leaf .delimiter "(" ⟨0, 1⟩, leaf .symbol "a" ⟨1, 2⟩, leaf .delimiter ")" ⟨2, 3⟩]
  have hlist : Grammatical [list] tokens := by
    have hsymbol : IsExpr (leaf .symbol "a" ⟨1, 2⟩) := .atom _ _ _ rfl
    have hexpr : IsExpr list :=
      .list .round ⟨0, 1⟩ ⟨2, 3⟩ [_] (List.forall_mem_singleton.2 hsymbol)
    exact ⟨List.forall_mem_singleton.2 hexpr, rfl⟩
  obtain ⟨hparse, hunique⟩ := parse_eq_ok_iff_grammatical "(a)"
  obtain ⟨hsame, hplaced⟩ := hunique tokens hlex
  refine ⟨_, tokens, (hparse _).2 ⟨tokens, [list], hlex, hlist, rfl⟩, hlex, ?_, hplaced⟩
  exact fun items hitems => hsame items [list] hitems hlist

end Node

end QuoteLisp
