import QuoteLisp.Proofs.CarryNothing
import QuoteLisp.Proofs.Congruence
import QuoteLisp.Proofs.Pieces

/-!
# Results can be read back

Operations take the names in their results from names in their arguments, and the first names come
from symbols that the lexer found. So every name in a session, that of a symbol as well as that of a
formal, is one that the lexer reads as a symbol. A result without errors and functions is therefore
writable, and its text reads back as that result.

A closure prints as the expression that makes it, and the text of a closure without errors and
functions in its body evaluates to that closure wherever `\` makes closures.
-/

namespace QuoteLisp

namespace Value

/-- Neither an error nor a function occurs in the value. -/
def IsData (v : Value) : Prop :=
  v.Everywhere fun part => part.isError = false ∧ part.isFunction = false

/-- The lexer reads every name in the value as a symbol. -/
def HasSymbolNames (v : Value) : Prop :=
  v.Everywhere fun part => ∀ name ∈ part.ownNames, isSymbolName name.toList = true

/-- A value whose names the lexer reads as symbols and whose closures carry nothing. -/
def IsSpelled (v : Value) : Prop := v.IsCaptureless ∧ v.HasSymbolNames

/-! ## Names in sessions -/

@[simp] theorem hasSymbolNames_error (e : EvalError) : (error e).HasSymbolNames := by
  simp [HasSymbolNames, ownNames]

@[simp] theorem hasSymbolNames_symbol {name : String} :
    (symbol name).HasSymbolNames ↔ isSymbolName name.toList = true := by
  simp [HasSymbolNames, ownNames]

@[simp] theorem hasSymbolNames_sexpr {items : List Value} :
    (sexpr items).HasSymbolNames ↔ ∀ v ∈ items, v.HasSymbolNames := by
  simp [HasSymbolNames, ownNames]

@[simp] theorem hasSymbolNames_qexpr {items : List Value} :
    (qexpr items).HasSymbolNames ↔ ∀ v ∈ items, v.HasSymbolNames := by
  simp [HasSymbolNames, ownNames]

@[simp] theorem hasSymbolNames_lambda {formals : List String} {body : List Value} :
    (lambda formals body).HasSymbolNames ↔
      (∀ name ∈ formals, isSymbolName name.toList = true) ∧ ∀ v ∈ body, v.HasSymbolNames := by
  simp [HasSymbolNames, ownNames, lambda, Bindings.names]

theorem IsCaptureless.eq_lambda {formals : List String} {body : List Value} {captured : Bindings}
    {link : Option EnvId} (h : (closure formals body captured link).IsCaptureless) :
    closure formals body captured link = .lambda formals body := by
  cases h
  rfl

theorem isSpelled_ofFault (fault : Fault) : (ofFault fault).IsSpelled :=
  ⟨.error _, hasSymbolNames_error _⟩

theorem hereditary_isSpelled : Hereditary IsSpelled where
  number n := ⟨.number n, by simp [HasSymbolNames, ownNames]⟩
  sexpr := by
    intro items
    simp only [IsSpelled, hereditary_isCaptureless.sexpr, hasSymbolNames_sexpr, forall_and]
  qexpr := by
    intro items
    simp only [IsSpelled, hereditary_isCaptureless.qexpr, hasSymbolNames_qexpr, forall_and]
  lambda := by
    intro formals body hformals hbody
    refine ⟨.lambda fun v hv => (hbody v hv).1, hasSymbolNames_lambda.2 ⟨fun name hname => ?_, ?_⟩⟩
    · exact hasSymbolNames_symbol.1 (hformals name hname).2
    · exact fun v hv => (hbody v hv).2
  body := by
    rintro formals body captured link ⟨hnothing, hnames⟩ v hv
    exact ⟨hereditary_isCaptureless.body hnothing v hv, (everywhere_closure.1 hnames).2.1 v hv⟩
  captured := by
    rintro formals body captured link ⟨⟨⟩, -⟩
    exact Bindings.all_nil
  unbound _ := isSpelled_ofFault _
  refused _ _ _ := isSpelled_ofFault _
  notAFunction _ _ := isSpelled_ofFault _
  wrongArity _ _ := isSpelled_ofFault _

end Value

open Value

theorem Value.IsRead.hasSymbolNames {v : Value} (h : v.IsRead) : v.HasSymbolNames := by
  induction h with
  | number | string => simp [HasSymbolNames, ownNames]
  | outOfRange => exact hasSymbolNames_error _
  | symbol hname => exact hasSymbolNames_symbol.2 hname
  | sexpr _ ih => exact hasSymbolNames_sexpr.2 ih
  | qexpr _ ih => exact hasSymbolNames_qexpr.2 ih

theorem keeps_isSpelled : Session.Keeps IsSpelled where
  toHereditary := hereditary_isSpelled
  builtin _ := ⟨.builtin _, by simp [HasSymbolNames, ofPrimitive, ownNames]⟩
  read hread v hv :=
    have hv := isRead_of_readSource hread v hv
    ⟨hv.isCaptureless, hv.hasSymbolNames⟩
  malformed _ := isSpelled_ofFault _

/-! ## Texts of results -/

namespace Value

theorem HasSymbolNames.isWritable {v : Value} (hnames : v.HasSymbolNames) (hdata : v.IsData) :
    v.IsWritable := by
  induction v using Value.induct with
  | number n => exact .number n
  | string text => exact .string text
  | symbol name => exact .symbol name (hasSymbolNames_symbol.1 hnames)
  | sexpr items ih =>
    have hnames := hasSymbolNames_sexpr.1 hnames
    have hdata := (everywhere_sexpr.1 hdata).2
    exact .sexpr items fun v hv => ih v hv (hnames v hv) (hdata v hv)
  | qexpr items ih =>
    have hnames := hasSymbolNames_qexpr.1 hnames
    have hdata := (everywhere_qexpr.1 hdata).2
    exact .qexpr items fun v hv => ih v hv (hnames v hv) (hdata v hv)
  | error e => cases (hdata _ .self).1
  | builtin b => cases (hdata _ .self).2
  | closure formals body captured link => cases (hdata _ .self).2

/-- The expression that makes a closure. -/
def lambdaExpr (formals : List String) (body : List Value) : Value :=
  sexpr [symbol "\\", qexpr (formals.map symbol), qexpr body]

/-- A closure prints as the expression that makes it. -/
theorem chars_closure (formals : List String) (body : List Value) (captured : Bindings)
    (link : Option EnvId) :
    (closure formals body captured link).chars = (lambdaExpr formals body).chars := by
  have hprinted : (closure formals body captured link).chars = enclose .round (spaced
      [['\\'], enclose .curly (spaced (formals.map String.toList)),
        enclose .curly (spaced (charsOfItems body))]) := rfl
  have hformals : (formals.map symbol).map chars = formals.map String.toList := by
    rw [List.map_map]
    exact List.map_congr_left fun name _ => chars_symbol name
  have hslash : "\\".toList = ['\\'] := rfl
  rw [hprinted, charsOfItems_eq_map, lambdaExpr, chars_sexpr, List.map_cons, List.map_cons,
    List.map_singleton, chars_symbol, chars_qexpr, chars_qexpr, hformals, hslash]

theorem isWritable_lambdaExpr {formals : List String} {body : List Value}
    (hformals : ∀ name ∈ formals, isSymbolName name.toList = true)
    (hbody : ∀ v ∈ body, v.IsWritable) : (lambdaExpr formals body).IsWritable := by
  refine .sexpr _ (List.forall_mem_cons.2 ⟨.symbol "\\" (by decide), ?_⟩)
  refine List.forall_mem_cons.2 ⟨.qexpr _ ?_, List.forall_mem_singleton.2 (.qexpr _ hbody)⟩
  exact List.forall_mem_map.2 fun name hname => .symbol name (hformals name hname)

/-- Every value equals itself in the language. -/
theorem beq_self (v : Value) : (v == v) = true := by
  show beq v v = true
  induction v using Value.induct with
  | number | string | symbol | error | builtin => simp [beq]
  | sexpr items ih | qexpr items ih => exact beqItems_iff.2 (List.forall₂_same.2 ih)
  | closure formals body captured link ihbody ihcaptured =>
    have hbody : beqItems body body = true := beqItems_iff.2 (List.forall₂_same.2 ihbody)
    have hcaptured : beqBindings captured captured = true :=
      beqBindings_iff.2 (List.forall₂_same.2 fun binding hmem => ⟨rfl, ihcaptured binding hmem⟩)
    simp [beq, hbody, hcaptured]

end Value

namespace Session

theorem eval_lambdaExpr {session : Session} {b : Builtin}
    (hget : session.get "\\" = .ok (.builtin b)) (hlambda : b.primitive = .lambda) (bound : Nat)
    (formals : List String) (body : List Value) :
    session.eval (bound + 2) (lambdaExpr formals body) = some (.lambda formals body, session) := by
  have hsymbol : QuoteLisp.eval (bound + 1) session.root (.symbol "\\") session.store =
      some (.builtin b, session.store) := by
    rw [eval_succ, step, show session.store.get session.root "\\" = _ from hget]
  have hitems : evalItems (QuoteLisp.eval (bound + 1)) session.root
      [.symbol "\\", .qexpr (formals.map .symbol), .qexpr body] session.store =
      some (.ok [.builtin b, .qexpr (formals.map .symbol), .qexpr body], session.store) := by
    rw [evalItems, hsymbol]
    rfl
  have haction : b.primitive.action [.qexpr (formals.map .symbol), .qexpr body] =
      .ok (.give (.lambda formals body)) := by
    rw [hlambda, Primitive.action, formalsAndBody_eq_ok_iff.2 rfl]
    rfl
  have hcall : call (QuoteLisp.eval (bound + 1)) session.root (.builtin b)
      [.qexpr (formals.map .symbol), .qexpr body] session.store =
      some (.lambda formals body, session.store) := by
    rw [call_builtin, haction]
    rfl
  rw [eval, lambdaExpr, eval_succ, step, evalExpr, hitems]
  simp only [applyItems, hcall]

/-- Results of a session can be given back to one. The text of a result without errors and functions
parses and reads as that result alone. The text of a closure without errors and functions in its
body, as a line, evaluates to that very closure in every session where `\` is bound to the operation
that makes closures, and leaves that session as it was. -/
theorem Reachable.results_read_back {session after : Session} (hsession : session.Reachable)
    {depth : Nat} {request : Request} {results : List Value}
    (hanswer : session.answer depth request = some (results, after)) {r : Value}
    (hr : r ∈ results) :
    (r.IsData → ∃ node, Node.parse r.text = .ok node ∧ node.read = some (.sexpr [r])) ∧
    ∀ formals body captured link, r = .closure formals body captured link →
      (∀ v ∈ body, v.IsData) → ∀ (other : Session) (b : Builtin),
        other.get "\\" = .ok (.builtin b) → b.primitive = .lambda → ∀ bound,
          other.evalLine (bound + 3) r.text = some (r, other) ∧ (r == r) = true := by
  have hstore := keeps_isSpelled.reachable hsession
  obtain ⟨-, hnothing, hnames⟩ := (keeps_isSpelled.answer hstore hanswer).2 r hr
  refine ⟨fun hdata => (hnames.isWritable hdata).writes_chars.parse, ?_⟩
  rintro formals body captured link rfl hdata other b hget hlambda bound
  have hclosure := hnothing.eq_lambda
  rw [hclosure] at hnames
  obtain ⟨hformals, hbody⟩ := hasSymbolNames_lambda.1 hnames
  have hwritable : (lambdaExpr formals body).IsWritable :=
    isWritable_lambdaExpr hformals fun v hv => (hbody v hv).isWritable (hdata v hv)
  have hread : readSource (closure formals body captured link).text =
      .ok [lambdaExpr formals body] := by
    rw [text, chars_closure]
    exact hwritable.writes_chars.readSource
  refine ⟨?_, beq_self _⟩
  rw [evalLine_of_readSource hread, eval_sexpr_singleton, eval_lambdaExpr hget hlambda, hclosure]

/-- A session defines a function and calls it. Both results can be read back: the list as it is, and
the function where `\` stands for the same operation registered under another name. -/
theorem results_read_back_of_definition :
    let source := "(fn \x7bf x y\x7d \x7blist y x\x7d) (f \"b\" \x7ba 1\x7d)"
    let f := Value.lambda ["x", "y"] [.symbol "list", .symbol "y", .symbol "x"]
    let pair := Value.qexpr [.qexpr [.symbol "a", .number 1], .string "b"]
    let other : Session := ⟨Session.new.store.define 0 "\\" (.builtin ⟨"make", .lambda⟩), 0⟩
    (∃ after, Session.new.answer 3 (.program source) = some ([f, pair], after)) ∧
      (∃ node, Node.parse pair.text = .ok node ∧ node.read = some (.sexpr [pair])) ∧
      other.evalLine 3 f.text = some (f, other) := by
  intro source f pair other
  let definition : Value := .sexpr [.symbol "fn", .qexpr [.symbol "f", .symbol "x", .symbol "y"],
    .qexpr [.symbol "list", .symbol "y", .symbol "x"]]
  let application : Value := .sexpr [.symbol "f", .string "b", .qexpr [.symbol "a", .number 1]]
  have hwritable : ∀ v ∈ [definition, application], v.IsWritable := by
    simp only [definition, application, List.forall_mem_cons, List.not_mem_nil, false_imp_iff,
      implies_true, isWritable_number, isWritable_string, isWritable_symbol, isWritable_sexpr,
      isWritable_qexpr]
    decide
  have hread : readSource source = .ok [definition, application] :=
    readSource_spaced hwritable (by decide +kernel)
  have hanswer := answer_eq 3 .new (.program source)
  rw [Request.source, hread] at hanswer
  have heval : Session.new.evalEach 3 [definition, application] = some ([f, pair], _) := rfl
  replace hanswer := hanswer.trans heval
  have hpair : pair.IsData := by simp [pair, IsData, isError, isFunction]
  have hbody : ∀ v ∈ [symbol "list", symbol "y", symbol "x"], v.IsData := by
    simp [IsData, isError, isFunction]
  obtain ⟨hdata, -⟩ := Reachable.new.results_read_back hanswer (List.mem_cons_of_mem f (.head []))
  obtain ⟨-, hclosure⟩ := Reachable.new.results_read_back hanswer List.mem_cons_self
  obtain ⟨hagain, -⟩ := hclosure _ _ _ _ rfl hbody other ⟨"make", .lambda⟩ rfl rfl 0
  exact ⟨⟨_, hanswer⟩, hdata hpair, hagain⟩

end Session

end QuoteLisp
