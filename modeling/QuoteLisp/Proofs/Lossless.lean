import QuoteLisp.Proofs.Munch

/-!
# The tree keeps the source

Spans of a parsed tree say exactly where its parts stand. They are nested and in order because the
leaves are (`Node.InOrder`): every node starts with its first leaf and stops with its last
(`Node.Tight`), and the leaves of a subtree are among those of the whole tree
(`Node.IsSubtree.leaves_sublist`). The leaves are the tokens of the source between two anchors, so
nothing but blanks is left between them, and the source is put together again from both.
-/

namespace QuoteLisp

/-- A span and a later one are covered from the start of the one to the end of the other. -/
theorem Span.merge_of_le {span later : Span} (hspan : span.start ≤ span.stop)
    (hlater : later.start ≤ later.stop) (h : span.stop ≤ later.start) :
    span.merge later = ⟨span.start, later.stop⟩ := by
  rw [merge, Nat.min_eq_left (by omega), Nat.max_eq_right (by omega)]

namespace Node

/-! ## Subtrees -/

/-- A node of the tree, at any depth. -/
inductive IsSubtree : Node → Node → Prop
  | self (node : Node) : IsSubtree node node
  | child {node child root : Node} (hchild : child ∈ root.children) (h : IsSubtree node child) :
    IsSubtree node root

variable {node other root : Node}

theorem IsSubtree.trans (h : node.IsSubtree other) (h' : other.IsSubtree root) :
    node.IsSubtree root := by
  induction h' with
  | self => exact h
  | child hchild _ ih => exact .child hchild ih

theorem IsSubtree.of_mem_children (h : other.IsSubtree root) (hnode : node ∈ other.children) :
    node.IsSubtree root :=
  (IsSubtree.child hnode (.self node)).trans h

theorem IsSubtree.eq_leaf {kind : NodeKind} {text : String} {span : Span}
    (h : node.IsSubtree (leaf kind text span)) : node = leaf kind text span := by
  cases h with
  | self => rfl
  | child hchild _ => cases hchild

theorem leaves_of_no_children (h : node.children = []) : node.leaves = [node] := by
  obtain ⟨kind, contents, span, children⟩ := node
  cases h
  rfl

theorem leaves_of_children (h : node.children ≠ []) :
    node.leaves = node.children.flatMap leaves := by
  obtain ⟨kind, contents, span, _ | ⟨child, children⟩⟩ := node
  · exact absurd rfl h
  · rw [leaves, leavesAll_eq_flatMap, List.flatMap_cons]

/-- The leaves of a subtree are leaves of the tree, in the same order. -/
theorem IsSubtree.leaves_sublist (h : node.IsSubtree root) : node.leaves.Sublist root.leaves := by
  induction h with
  | self => exact .refl _
  | child hchild _ ih =>
    refine ih.trans ?_
    rw [leaves_of_children (List.ne_nil_of_mem hchild), List.flatMap_def]
    exact List.sublist_flatten_of_mem (List.mem_map_of_mem hchild)

/-- What stands below an expression is an expression or a bracket. -/
theorem IsExpr.of_isSubtree (hroot : root.IsExpr) (h : node.IsSubtree root) :
    node.IsExpr ∨ ∃ text span, node = leaf .delimiter text span := by
  induction h with
  | self => exact .inl hroot
  | child hchild hbelow ih =>
    cases hroot with
    | atom => cases hchild
    | list bracket opener closer items hitems =>
      rcases List.mem_append.1 hchild with hchild | hchild
      · rcases List.mem_cons.1 hchild with rfl | hchild
        · exact .inr ⟨_, _, hbelow.eq_leaf⟩
        · exact ih (hitems _ hchild)
      · obtain rfl := List.mem_singleton.1 hchild
        exact .inr ⟨_, _, hbelow.eq_leaf⟩

theorem isSubtree_program {size : Nat} {items : List Node} (hitems : ∀ item ∈ items, item.IsExpr)
    (h : node.IsSubtree (program size items)) :
    node = program size items ∨ node.IsExpr ∨ ∃ text span, node = leaf .delimiter text span := by
  cases h with
  | self => exact .inl rfl
  | child hchild hbelow =>
    right
    rcases List.mem_append.1 hchild with hchild | hchild
    · rcases List.mem_cons.1 hchild with rfl | hchild
      · exact .inr ⟨_, _, hbelow.eq_leaf⟩
      · exact (hitems _ hchild).of_isSubtree hbelow
    · obtain rfl := List.mem_singleton.1 hchild
      exact .inr ⟨_, _, hbelow.eq_leaf⟩

/-! ## Spans and leaves -/

/-- The spans of the nodes follow one another. -/
structure InOrder (nodes : List Node) : Prop where
  start_le_stop : ∀ node ∈ nodes, node.span.start ≤ node.span.stop
  increasing : nodes.Pairwise fun node later => node.span.stop ≤ later.span.start

theorem InOrder.sublist {nodes nodes' : List Node} (h : InOrder nodes')
    (hsub : nodes.Sublist nodes') : InOrder nodes :=
  ⟨fun node hnode => h.start_le_stop node (hsub.subset hnode), h.increasing.sublist hsub⟩

/-- A node starts with its first leaf, stops with its last and covers all of them. -/
structure Tight (node : Node) : Prop where
  first : ∃ leaf ∈ node.leaves, leaf.span.start = node.span.start
  last : ∃ leaf ∈ node.leaves, leaf.span.stop = node.span.stop
  covers : ∀ leaf ∈ node.leaves,
    node.span.start ≤ leaf.span.start ∧ leaf.span.stop ≤ node.span.stop

theorem tight_leaf (kind : NodeKind) (text : String) (span : Span) :
    (leaf kind text span).Tight := by
  refine ⟨⟨_, List.mem_singleton_self _, rfl⟩, ⟨_, List.mem_singleton_self _, rfl⟩, ?_⟩
  intro other hother
  rw [List.mem_singleton.1 hother]
  exact ⟨Nat.le_refl _, Nat.le_refl _⟩

/-- A sequence of nodes between two leaves, under a node from the start of the one to the end of
the other. -/
def between (kind : NodeKind) (opener closer : Node) (items : List Node) : Node :=
  branch kind ⟨opener.span.start, closer.span.stop⟩ (opener :: items ++ [closer])

variable {kind : NodeKind} {opener closer : Node} {items : List Node}

theorem leaves_between (hopener : opener.children = []) (hcloser : closer.children = []) :
    (between kind opener closer items).leaves = opener :: (items.flatMap leaves ++ [closer]) := by
  rw [between, List.cons_append, leaves_branch, List.flatMap_cons, List.flatMap_append,
    List.flatMap_singleton, leaves_of_no_children hopener, leaves_of_no_children hcloser,
    List.singleton_append]

theorem tight_between (hopener : opener.children = []) (hcloser : closer.children = [])
    (h : InOrder (between kind opener closer items).leaves) :
    (between kind opener closer items).Tight := by
  have hleaves : (between kind opener closer items).leaves = _ := leaves_between hopener hcloser
  rw [hleaves] at h
  refine ⟨⟨opener, by simp [hleaves], rfl⟩, ⟨closer, by simp [hleaves], rfl⟩, ?_⟩
  obtain ⟨hle, hpairs⟩ := h
  obtain ⟨hopened, hpairs⟩ := List.pairwise_cons.1 hpairs
  obtain ⟨-, -, hclosed⟩ := List.pairwise_append.1 hpairs
  have hopenerLe := hle opener (by simp)
  have hcloserLe := hle closer (by simp)
  have hboth := hopened closer (by simp)
  intro leaf hleaf
  rw [hleaves] at hleaf
  show opener.span.start ≤ leaf.span.start ∧ leaf.span.stop ≤ closer.span.stop
  rcases List.mem_cons.1 hleaf with rfl | hleaf
  · omega
  · have hbehind := hopened leaf hleaf
    rcases List.mem_append.1 hleaf with hmiddle | hlast
    · have hbefore := hclosed leaf hmiddle closer (by simp)
      omega
    · obtain rfl := List.mem_singleton.1 hlast
      omega

/-- An expression in order is an atom or a list between its brackets. -/
theorem IsExpr.eq_between (hnode : node.IsExpr) (h : InOrder node.leaves) :
    (∃ kind text span, kind.isAtom = true ∧ node = leaf kind text span) ∨
    ∃ (bracket : Bracket) (opener closer : Span) (items : List Node),
      node = between bracket.nodeKind (leaf .delimiter (String.singleton bracket.opener) opener)
        (leaf .delimiter (String.singleton bracket.closer) closer) items := by
  cases hnode with
  | atom kind text span hkind => exact .inl ⟨kind, text, span, hkind, rfl⟩
  | list bracket opener closer items =>
    refine .inr ⟨bracket, opener, closer, items, ?_⟩
    rw [List.cons_append, leaves_branch, List.flatMap_cons, List.flatMap_append] at h
    let first := leaf .delimiter (String.singleton bracket.opener) opener
    let last := leaf .delimiter (String.singleton bracket.closer) closer
    have hopener : opener.start ≤ opener.stop := h.start_le_stop first (by simp [first])
    have hcloser : closer.start ≤ closer.stop := h.start_le_stop last (by simp [last])
    have hboth : opener.stop ≤ closer.start :=
      (List.pairwise_append.1 h.increasing).2.2 first (by simp [first]) last (by simp [last])
    rw [Span.merge_of_le hopener hcloser hboth]
    rfl

theorem IsExpr.tight (hnode : node.IsExpr) (h : InOrder node.leaves) : node.Tight := by
  obtain ⟨kind, text, span, -, rfl⟩ | ⟨bracket, opener, closer, items, rfl⟩ := hnode.eq_between h
  · exact tight_leaf kind text span
  · exact tight_between rfl rfl h

/-- In a program in order all nodes are tight. -/
theorem IsSubtree.tight {size : Nat} (hitems : ∀ item ∈ items, item.IsExpr)
    (h : InOrder (program size items).leaves) (hnode : node.IsSubtree (program size items)) :
    node.Tight := by
  obtain rfl | hexpr | ⟨text, span, rfl⟩ := isSubtree_program hitems hnode
  · have hprogram : program size items = between .program (leaf .delimiter "" (.point 0))
      (leaf .delimiter "" (.point size)) items := rfl
    rw [hprogram] at h ⊢
    exact tight_between rfl rfl h
  · exact hexpr.tight (h.sublist hnode.leaves_sublist)
  · exact tight_leaf .delimiter text span

/-- The span of a tight node contains those of the tight nodes below it. -/
theorem Tight.encloses (hnode : node.Tight) (hother : other.Tight)
    (h : other.leaves.Sublist node.leaves) :
    node.span.start ≤ other.span.start ∧ other.span.stop ≤ node.span.stop := by
  obtain ⟨first, hfirst, hstart⟩ := hother.first
  obtain ⟨last, hlast, hstop⟩ := hother.last
  rw [← hstart, ← hstop]
  exact ⟨(hnode.covers first (h.subset hfirst)).1, (hnode.covers last (h.subset hlast)).2⟩

/-- Tight nodes stand in order if their leaves do. -/
theorem pairwise_of_tight {nodes : List Node} (htight : ∀ node ∈ nodes, node.Tight)
    (h : InOrder (nodes.flatMap leaves)) :
    nodes.Pairwise fun node later => node.span.stop ≤ later.span.start := by
  refine (List.pairwise_flatMap.1 h.increasing).2.imp_of_mem ?_
  intro node later hnode hlater hleaves
  obtain ⟨last, hlast, hstop⟩ := (htight node hnode).last
  obtain ⟨first, hfirst, hstart⟩ := (htight later hlater).first
  rw [← hstop, ← hstart]
  exact hleaves last hlast first hfirst

/-! ## Leaves and tokens -/

/-- Nodes between two empty leaves, one at the start of a text and one at its end. -/
def anchored (size : Nat) (nodes : List Node) : List Node :=
  leaf .delimiter "" (.point 0) :: (nodes ++ [leaf .delimiter "" (.point size)])

theorem leaves_program (size : Nat) (items : List Node) :
    (program size items).leaves = anchored size (items.flatMap leaves) :=
  leaves_between rfl rfl

theorem forall_mem_anchored {P : Node → Prop} {size : Nat} {tokens : List Token}
    (hfirst : P (leaf .delimiter "" (.point 0))) (hlast : P (leaf .delimiter "" (.point size)))
    (htokens : ∀ token ∈ tokens, P (ofToken token)) :
    ∀ node ∈ anchored size (tokens.map ofToken), P node :=
  List.forall_mem_cons.2 ⟨hfirst, List.forall_mem_append.2
    ⟨List.forall_mem_map.2 htokens, List.forall_mem_singleton.2 hlast⟩⟩

variable {cs : List Char} {tokens : List Token}

/-- Tokens in a text are in order between two anchors at its ends. -/
theorem inOrder_of_maximalMunch (h : MaximalMunch 0 cs tokens) :
    InOrder (anchored (byteLength cs) (tokens.map ofToken)) where
  start_le_stop := forall_mem_anchored (Nat.le_refl _) (Nat.le_refl _) fun token htoken =>
    Nat.le_of_lt (h.longest token htoken).start_lt_stop
  increasing := by
    refine List.pairwise_cons.2 ⟨fun node _ => Nat.zero_le _, List.pairwise_append.2
      ⟨h.increasing.map _ fun _ _ hle => hle, List.pairwise_singleton _ _, ?_⟩⟩
    intro node hnode anchor hanchor
    obtain ⟨token, htoken, rfl⟩ := List.mem_map.1 hnode
    have hstop := (h.longest token htoken).cuts.stop_le
    rw [List.mem_singleton.1 hanchor]
    show token.span.stop ≤ byteLength cs
    omega

theorem cuts_of_maximalMunch (h : MaximalMunch 0 cs tokens) :
    ∀ node ∈ anchored (byteLength cs) (tokens.map ofToken),
      node.span.Cuts 0 cs node.contents.toList := by
  refine forall_mem_anchored ⟨[], cs, rfl, rfl, rfl⟩ ⟨cs, [], ?_, ?_, rfl⟩ fun token htoken => ?_
  · exact (List.append_nil cs).symm
  · exact (Nat.zero_add _).symm
  · exact (h.longest token htoken).cuts

end Node

/-- A text is put together from its lexemes and the blanks in front of the first and behind each
of them. -/
theorem Lexes.exists_gaps {cs : List Char} {lexemes : List Lexeme} (h : Lexes cs lexemes) :
    ∃ (front : List Char) (gaps : List (List Char)),
      (∀ gap ∈ front :: gaps, gap.all isBlank = true) ∧
      gaps.length = lexemes.length ∧
      cs = front ++ (List.zipWith (fun lexeme gap => lexeme.text ++ gap) lexemes gaps).flatten := by
  induction h with
  | nil => exact ⟨[], [], by simp, rfl, rfl⟩
  | @blank c _ _ hc _ ih =>
    obtain ⟨front, gaps, hgaps, hlength, rfl⟩ := ih
    obtain ⟨hfront, hgaps⟩ := List.forall_mem_cons.1 hgaps
    refine ⟨c :: front, gaps, List.forall_mem_cons.2 ⟨?_, hgaps⟩, hlength, rfl⟩
    rw [List.all_cons, hc, hfront]
    rfl
  | scan _ hscan _ ih =>
    obtain ⟨front, gaps, hgaps, hlength, rfl⟩ := ih
    refine ⟨[], front :: gaps, List.forall_mem_cons.2 ⟨rfl, hgaps⟩, by simp [hlength], ?_⟩
    rw [← Lexeme.scan_append hscan, List.zipWith_cons_cons, List.flatten_cons, List.nil_append,
      List.append_assoc]

/-- The anchors add no text. -/
theorem Node.exists_gaps {cs : List Char} {tokens : List Token}
    (h : Lexes cs (tokens.map Token.lexeme)) (size : Nat) :
    ∃ gaps : List (List Char), gaps.length = (anchored size (tokens.map ofToken)).length ∧
      (∀ gap ∈ gaps, gap.all isBlank = true) ∧
      cs = (List.zipWith (fun leaf gap => leaf.contents.toList ++ gap)
        (anchored size (tokens.map ofToken)) gaps).flatten := by
  obtain ⟨front, gaps, hgaps, hlength, hcs⟩ := h.exists_gaps
  rw [List.length_map] at hlength
  refine ⟨front :: (gaps ++ [[]]), by simp [anchored, hlength], ?_, ?_⟩
  · obtain ⟨hfront, hgaps⟩ := List.forall_mem_cons.1 hgaps
    exact List.forall_mem_cons.2 ⟨hfront, List.forall_mem_append.2
      ⟨hgaps, List.forall_mem_singleton.2 rfl⟩⟩
  · rw [List.zipWith_map_left] at hcs
    rw [hcs, anchored, List.zipWith_cons_cons, List.zipWith_append (by simp [hlength]),
      List.zipWith_map_left, List.flatten_cons, List.flatten_append]
    exact (congrArg (front ++ ·) (List.append_nil _)).symm

/-! ## The main result -/

namespace Node

/-- Where a node stands in a source text: a list from its opening to its closing bracket, every
node around all below it, its children in order, and a leaf exactly where its text is. -/
structure LaidIn (node : Node) (cs : List Char) : Prop where
  bracketed : ∀ bracket : Bracket, node.kind = bracket.nodeKind → ∃ opener closer items,
    node = branch bracket.nodeKind ⟨opener.start, closer.stop⟩
      (leaf .delimiter (String.singleton bracket.opener) opener :: items ++
        [leaf .delimiter (String.singleton bracket.closer) closer])
  encloses : ∀ below : Node, below.IsSubtree node →
    node.span.start ≤ below.span.start ∧ below.span.stop ≤ node.span.stop
  ordered : node.children.Pairwise fun child later => child.span.stop ≤ later.span.start
  contents_at : node.children = [] → node.span.Cuts 0 cs node.contents.toList

theorem laidIn_of_isSubtree {size : Nat} {cs : List Char} {node : Node} {items : List Node}
    (hitems : ∀ item ∈ items, item.IsExpr) (horder : InOrder (program size items).leaves)
    (hcuts : ∀ leaf ∈ (program size items).leaves, leaf.span.Cuts 0 cs leaf.contents.toList)
    (hnode : node.IsSubtree (program size items)) : node.LaidIn cs where
  bracketed := by
    intro bracket hkind
    obtain rfl | hexpr | ⟨text, span, rfl⟩ := isSubtree_program hitems hnode
    · cases bracket <;> cases hkind
    · obtain ⟨kind, text, span, hatom, rfl⟩ | ⟨found, opener, closer, inner, rfl⟩ :=
        hexpr.eq_between (horder.sublist hnode.leaves_sublist)
      · obtain rfl : kind = bracket.nodeKind := hkind
        cases bracket <;> cases hatom
      · obtain rfl : found = bracket := by
          cases found <;> cases bracket <;> first | rfl | cases hkind
        exact ⟨opener, closer, inner, rfl⟩
    · cases bracket <;> cases hkind
  encloses := by
    intro below hbelow
    have htight := (hbelow.trans hnode).tight hitems horder
    exact (hnode.tight hitems horder).encloses htight hbelow.leaves_sublist
  ordered := by
    by_cases hchildren : node.children = []
    · rw [hchildren]
      exact .nil
    · refine pairwise_of_tight (fun child hchild => ?_) ?_
      · exact (hnode.of_mem_children hchild).tight hitems horder
      · rw [← leaves_of_children hchildren]
        exact horder.sublist hnode.leaves_sublist
  contents_at := by
    intro hchildren
    have hsub := hnode.leaves_sublist
    rw [leaves_of_no_children hchildren] at hsub
    exact hcuts node (hsub.subset List.mem_cons_self)

/-- The tree of a source covers all of it, its spans are nested and in order, every leaf holds the
text at its span, the first and the last leaf are empty anchors, and the source is its leaves with
blanks between them. -/
theorem parse_is_lossless {source : String} {root : Node} (h : parse source = .ok root) :
    root.span = ⟨0, byteLength source.toList⟩ ∧
    (∀ node : Node, node.IsSubtree root → node.LaidIn source.toList) ∧
    (∃ tokens, Token.lex source = .ok tokens ∧
      root.leaves = anchored (byteLength source.toList) (tokens.map ofToken)) ∧
    (∀ i b, (Utf8.encode source.toList)[i]? = some b →
      (∀ leaf ∈ root.leaves, ¬ leaf.span.Contains i) → b ∈ blankBytes) ∧
    ∃ gaps : List (List Char), gaps.length = root.leaves.length ∧
      (∀ gap ∈ gaps, gap.all isBlank = true) ∧
      source.toList = (List.zipWith (fun leaf gap => leaf.contents.toList ++ gap)
        root.leaves gaps).flatten := by
  obtain ⟨tokens, items, hlex, hspells, rfl⟩ := parse_eq_ok_iff.1 h
  obtain ⟨hitems, hleaves⟩ := hspells.grammatical (Token.accepts_of_mem_lex hlex)
  have hmunch := Token.maximalMunch_of_lexFrom hlex
  have hroot : (program (byteLength source.toList) items).leaves = _ := leaves_program _ items
  rw [hleaves] at hroot
  refine ⟨rfl, fun node => laidIn_of_isSubtree hitems ?_ ?_, ⟨tokens, hlex, hroot⟩, ?_, ?_⟩
  · rw [hroot]
    exact inOrder_of_maximalMunch hmunch
  · rw [hroot]
    exact cuts_of_maximalMunch hmunch
  · intro i b hb houtside
    refine hmunch.mem_blankBytes hb fun token htoken => houtside (ofToken token) ?_
    rw [hroot]
    exact List.mem_cons_of_mem _ (List.mem_append_left _ (List.mem_map_of_mem htoken))
  · rw [hroot]
    exact exists_gaps (lexes_of_lexFrom hlex) _

/-- A list in a list, with a character of two bytes in a literal and in a comment, and blanks on
all sides. -/
theorem parse_is_lossless_nested :
    ∃ root, parse " (a \x7b\"é\"\x7d;λ\n)\t" = .ok root ∧ root.span = ⟨0, 16⟩ ∧
      ∀ node : Node, node.IsSubtree root → node.LaidIn " (a \x7b\"é\"\x7d;λ\n)\t".toList := by
  have hlex : Token.lex " (a \x7b\"é\"\x7d;λ\n)\t" = .ok
      [⟨.opening .round, "(", ⟨1, 2⟩⟩, ⟨.symbol, "a", ⟨2, 3⟩⟩, ⟨.opening .curly, "\x7b", ⟨4, 5⟩⟩,
        ⟨.string, "\"é\"", ⟨5, 9⟩⟩, ⟨.closing .curly, "\x7d", ⟨9, 10⟩⟩, ⟨.comment, ";λ", ⟨10, 13⟩⟩,
        ⟨.closing .round, ")", ⟨14, 15⟩⟩] :=
    Except.eq_ok_of_toOption (by decide +kernel)
  have hparse := parse_eq_ok_iff.2 ⟨_, _, hlex, .list .round _ _ rfl rfl
    (.atom _ rfl (.list .curly _ _ rfl rfl (.atom _ rfl .nil) (.atom _ rfl .nil))) .nil, rfl⟩
  obtain ⟨hspan, hlaid, -⟩ := parse_is_lossless hparse
  exact ⟨_, hparse, hspan, hlaid⟩

end Node

end QuoteLisp
