import QuoteLisp.Proofs.Numerals
import QuoteLisp.Proofs.ReadBack
import QuoteLisp.Proofs.Refusals

/-!
# Causes of errors

Few faults can arise in a session (`Fault.Arises`). Operations and calls see normal values only and
at least one argument, and the names they meet are those that the lexer finds. So every error in a
value of a session is rendered from such a fault, and this rules out every error whose kind
contradicts itself.
-/

namespace QuoteLisp

/-! ## Faults of sessions -/

/-- The faults that can arise in a session. -/
inductive Fault.Arises : Fault → Prop
  | unboundSymbol {name : String} (hname : isSymbolName name.toList = true) :
    Arises (.unboundSymbol name)
  | wrongArgumentType {p : Primitive} {expected : String} {v : Value}
    (hexpected : expected ∈ ["Number", "Q-Expression"]) (hv : v.isNormal = true)
    (hne : v.typeName ≠ expected) : Arises (.wrongArgumentType p.name expected v.typeName)
  | notAFunction {v : Value} (hv : v.isNormal = true) (hfunction : v.isFunction = false) :
    Arises (.notAFunction v.typeName)
  | notASymbol {p : Primitive} {v : Value} (hne : v.typeName ≠ "Symbol") :
    Arises (.notASymbol p.name v.typeName)
  | wrongArgumentCount {p : Primitive} {expected got : Nat} (hgot : got ≠ 0)
    (hne : expected ≠ got) : Arises (.wrongArgumentCount p.name expected got)
  | wrongCallArity {expected got : Nat} (hgot : got ≠ 0) (hne : expected ≠ got) :
    Arises (.wrongCallArity expected got)
  | wrongBindingCount {p : Primitive} {symbols values : Nat} (hp : p = .define ∨ p = .assign)
    (hne : symbols ≠ values) : Arises (.wrongBindingCount p.name symbols values)
  | emptyList {p : Primitive} (hp : p = .head ∨ p = .tail ∨ p = .function) :
    Arises (.emptyList p.name)
  | arithmetic {fault : Fault} (hfault : fault.IsArithmetic) : Arises fault
  | invalidNumberLiteral {literal : String} (hnumeral : isNumeral literal.toList = true)
    (hrange : Word.parse? literal.toList = none) : Arises (.invalidNumberLiteral literal)
  | malformed {source : String} {e : ParseError} (hread : readSource source = .error e) :
    Arises (.malformed e)

theorem Primitive.Refuses.arises {p : Primitive} {args : List Value} {fault : Fault}
    (h : p.Refuses args fault) (hargs : args ≠ []) (hnormal : ∀ v ∈ args, v.isNormal = true) :
    fault.Arises := by
  cases h with
  | notAList hmem hv => exact .wrongArgumentType (by simp) (hnormal _ hmem) hv
  | notANumber hmem hv => exact .wrongArgumentType (by simp) (hnormal _ hmem) hv
  | notASymbol hv => exact .notASymbol hv
  | count hne => exact .wrongArgumentCount (mt List.length_eq_zero_iff.1 hargs) hne
  | bindingCount hp hne => exact .wrongBindingCount hp hne
  | emptyList hp => exact .emptyList hp
  | arithmetic hfault => exact .arithmetic hfault

/-! ## Errors in values -/

namespace Value

/-- Every error in the value is rendered from a fault that can arise in a session. -/
def HasCauses (v : Value) : Prop :=
  v.Everywhere fun part => ∀ e, part = .error e → ∃ fault : Fault, fault.Arises ∧ e = fault.toError

theorem hasCauses_ofFault {fault : Fault} (h : fault.Arises) : (ofFault fault).HasCauses := by
  refine everywhere_error.2 fun e he => ?_
  cases he
  exact ⟨fault, h, rfl⟩

@[simp] theorem hasCauses_sexpr {items : List Value} :
    (sexpr items).HasCauses ↔ ∀ v ∈ items, v.HasCauses := by
  simp [HasCauses]

@[simp] theorem hasCauses_qexpr {items : List Value} :
    (qexpr items).HasCauses ↔ ∀ v ∈ items, v.HasCauses := by
  simp [HasCauses]

@[simp] theorem hasCauses_lambda {formals : List String} {body : List Value} :
    (lambda formals body).HasCauses ↔ ∀ v ∈ body, v.HasCauses := by
  simp [HasCauses, lambda]

theorem IsRead.hasCauses {v : Value} (h : v.IsRead) : v.HasCauses := by
  induction h with
  | number | string | symbol => simp [HasCauses]
  | outOfRange hnumeral hrange => exact hasCauses_ofFault (.invalidNumberLiteral hnumeral hrange)
  | sexpr _ ih => exact hasCauses_sexpr.2 ih
  | qexpr _ ih => exact hasCauses_qexpr.2 ih

/-- A spelled value whose errors have causes. -/
def IsSound (v : Value) : Prop := v.IsSpelled ∧ v.HasCauses

theorem isSound_ofFault {fault : Fault} (h : fault.Arises) : (ofFault fault).IsSound :=
  ⟨isSpelled_ofFault fault, hasCauses_ofFault h⟩

theorem hereditary_isSound : Hereditary IsSound where
  number n := ⟨hereditary_isSpelled.number n, by simp [HasCauses]⟩
  sexpr := by
    intro items
    simp only [IsSound, hereditary_isSpelled.sexpr, hasCauses_sexpr, forall_and]
  qexpr := by
    intro items
    simp only [IsSound, hereditary_isSpelled.qexpr, hasCauses_qexpr, forall_and]
  lambda := by
    intro formals body hformals hbody
    have hspelled : (lambda formals body).IsSpelled :=
      hereditary_isSpelled.lambda (fun name hname => (hformals name hname).1)
        fun v hv => (hbody v hv).1
    exact ⟨hspelled, hasCauses_lambda.2 fun v hv => (hbody v hv).2⟩
  body := by
    rintro formals body captured link ⟨hspelled, hcauses⟩ v hv
    exact ⟨hereditary_isSpelled.body hspelled v hv, (everywhere_closure.1 hcauses).2.1 v hv⟩
  captured := by
    -- a closure that carries nothing has no bindings to be bound
    rintro formals body captured link ⟨⟨⟨⟩, -⟩, -⟩
    exact Bindings.all_nil
  unbound hsymbol := isSound_ofFault (.unboundSymbol (hasSymbolNames_symbol.1 hsymbol.1.2))
  refused hargs hnormal haction :=
    have hrefuses := Primitive.refuses_of_action haction
    isSound_ofFault (hrefuses.arises hargs fun v hv => (hnormal v hv).1)
  notAFunction hf hfunction := isSound_ofFault (.notAFunction hf.1 hfunction)
  wrongArity hgot hne := isSound_ofFault (.wrongCallArity hgot hne)

end Value

open Value

theorem keeps_isSound : Session.Keeps IsSound where
  toHereditary := hereditary_isSound
  builtin p := ⟨keeps_isSpelled.builtin p, by simp [HasCauses, ofPrimitive]⟩
  read hread v hv :=
    ⟨keeps_isSpelled.read hread v hv, (isRead_of_readSource hread v hv).hasCauses⟩
  malformed hread := isSound_ofFault (.malformed hread)

/-! ## Kinds of errors -/

theorem Value.typeName_mem_of_isNormal {v : Value} (hv : v.isNormal = true) :
    v.typeName ∈ ["Number", "String", "S-Expression", "Q-Expression", "Function"] := by
  cases v with
  | symbol | error => cases hv
  | _ => simp [typeName]

theorem Value.typeName_mem_of_not_isFunction {v : Value} (hv : v.isNormal = true)
    (hfunction : v.isFunction = false) :
    v.typeName ∈ ["Number", "String", "S-Expression", "Q-Expression"] := by
  cases v with
  | symbol | error => cases hv
  | builtin | closure => cases hfunction
  | _ => simp [typeName]

/-- The details of the kind do not contradict each other, nor how an error of this kind comes
about. -/
def ErrorKind.IsConsistent : ErrorKind → Prop
  | notFound name => isSymbolName name.toList = true
  | typeMismatch expected got =>
    expected ∈ ["Number", "Q-Expression"] ∧ got ≠ expected ∧
      got ∈ ["Number", "String", "S-Expression", "Q-Expression", "Function"]
  | notAFunction got => got ∈ ["Number", "String", "S-Expression", "Q-Expression"]
  | notASymbol got => got ≠ "Symbol" ∧ ∃ v : Value, v.typeName = got
  | arityMismatch name expected got => expected ≠ got ∧ (got = 0 → name = "def" ∨ name = "=")
  | emptyList function => function = "head" ∨ function = "tail" ∨ function = "fn"
  | invalidNumberLiteral literal =>
    isNumeral literal.toList = true ∧
      ∃ n, Word.integer? literal.toList = some n ∧ ¬ Word.InRange n
  | divisionByZero | moduloByZero | integerOverflow _ | malformed _ => True

theorem Fault.Arises.isConsistent {fault : Fault} (h : fault.Arises) :
    fault.kind.IsConsistent := by
  cases h with
  | unboundSymbol hname => exact hname
  | wrongArgumentType hexpected hv hne => exact ⟨hexpected, hne, typeName_mem_of_isNormal hv⟩
  | notAFunction hv hfunction => exact typeName_mem_of_not_isFunction hv hfunction
  | @notASymbol p v hne => exact ⟨hne, v, rfl⟩
  | wrongArgumentCount hgot hne => exact ⟨hne, fun hzero => absurd hzero hgot⟩
  | wrongCallArity hgot hne => exact ⟨hne, fun hzero => absurd hzero hgot⟩
  | wrongBindingCount hp hne =>
    refine ⟨hne, fun _ => ?_⟩
    rcases hp with rfl | rfl
    · exact .inl rfl
    · exact .inr rfl
  | emptyList hp =>
    rcases hp with rfl | rfl | rfl
    · exact .inl rfl
    · exact .inr (.inl rfl)
    · exact .inr (.inr rfl)
  | arithmetic hfault => cases hfault <;> trivial
  | invalidNumberLiteral hnumeral hrange =>
    exact ⟨hnumeral, Word.exists_not_inRange hnumeral hrange⟩
  | malformed => trivial

namespace Session

/-- Every error that occurs in a result of a session, at any depth, is rendered from a fault, so its
kind and its message agree, and its kind is consistent. -/
theorem Reachable.errors_never_contradict {session after : Session} (hsession : session.Reachable)
    {depth : Nat} {request : Request} {results : List Value}
    (hanswer : session.answer depth request = some (results, after)) {r : Value}
    (hr : r ∈ results) {e : EvalError} (herror : (Value.error e).Within r) :
    (∃ fault : Fault, e = fault.toError) ∧ e.kind.IsConsistent := by
  have hstore := keeps_isSound.reachable hsession
  obtain ⟨-, -, hcauses⟩ := (keeps_isSound.answer hstore hanswer).2 r hr
  obtain ⟨fault, harises, rfl⟩ := hcauses _ herror e rfl
  exact ⟨⟨fault, rfl⟩, harises.isConsistent⟩

/-- A closure whose body holds a number below all machine numbers, and a definition that lists two
names and no value. -/
theorem errors_never_contradict_in_closure :
    let literal := "-9223372036854775809"
    let source := "(\\ \x7bx\x7d \x7bx -9223372036854775809\x7d)" ++ "\n" ++ "(def \x7ba b\x7d)"
    let f := Value.lambda ["x"] [.symbol "x", .ofFault (.invalidNumberLiteral literal)]
    let missing := Fault.wrongBindingCount "def" 2 0
    Session.new.answer 3 (.program source) = some ([f, .ofFault missing], .new) ∧
      (Value.ofFault (.invalidNumberLiteral literal)).Within f ∧
      (ErrorKind.invalidNumberLiteral literal).IsConsistent ∧ missing.kind.IsConsistent := by
  intro literal source f missing
  let outOfRange : Value := .ofFault (.invalidNumberLiteral literal)
  let makesF : Value :=
    .sexpr [.symbol "\\", .qexpr [.symbol "x"], .qexpr [.symbol "x", outOfRange]]
  let definition : Value := .sexpr [.symbol "def", .qexpr [.symbol "a", .symbol "b"]]
  have hmakesF : readSource "(\\ \x7bx\x7d \x7bx -9223372036854775809\x7d)" = .ok [makesF] := by
    let numeral : List Char := ['-', '9', '2', '2', '3', '3', '7', '2', '0', '3', '6', '8', '5',
      '4', '7', '7', '5', '8', '0', '9']
    have hlexes : Lexes (['(', '\\', ' ', '\x7b', 'x', '\x7d', ' ', '\x7b', 'x', ' '] ++ numeral ++
        ['\x7d', ')']) _ :=
      .scan rfl rfl <| .scan rfl rfl <| .blank rfl <| .scan rfl rfl <| .scan rfl rfl <|
        .scan rfl rfl <| .blank rfl <| .scan rfl rfl <| .scan rfl rfl <| .blank rfl <|
        .scan rfl rfl <| .scan rfl rfl <| .scan rfl rfl .nil
    have hrange : Word.parse? literal.toList = none := by decide +kernel
    have hnumeral : Lexeme.value? ⟨.number, numeral⟩ = some outOfRange := by
      show some (Value.ofNumeral literal) = _
      rw [Value.ofNumeral, hrange]
    have hbody : Reads (⟨.opening .curly, ['\x7b']⟩ :: [⟨.symbol, ['x']⟩, ⟨.number, numeral⟩] ++
        ⟨.closing .curly, ['\x7d']⟩ :: []) [.list .curly [.symbol "x", outOfRange]] :=
      .list rfl rfl (.atom rfl (.atom hnumeral .nil)) .nil
    have hformals : Reads (⟨.opening .curly, ['\x7b']⟩ :: [⟨.symbol, ['x']⟩] ++
        ⟨.closing .curly, ['\x7d']⟩ :: _)
        [.list .curly [.symbol "x"], .list .curly [.symbol "x", outOfRange]] :=
      .list rfl rfl (.atom rfl .nil) hbody
    have hinside : Reads (⟨.symbol, ['\\']⟩ :: _) (.symbol "\\" :: _) := .atom rfl hformals
    have hreads : Reads (⟨.opening .round, ['(']⟩ :: _ ++ ⟨.closing .round, [')']⟩ :: [])
        [.list .round _] := .list rfl rfl hinside .nil
    exact readSource_eq_ok_iff.2 ⟨_, hlexes, hreads⟩
  have hdefinition : readSource "(def \x7ba b\x7d)" = .ok [definition] := by
    refine readSource_spaced ?_ (by decide +kernel)
    simp only [definition, List.forall_mem_cons, List.not_mem_nil, false_imp_iff, implies_true,
      isWritable_symbol, isWritable_sexpr, isWritable_qexpr]
    decide
  have hread : readSource source = .ok [makesF, definition] := readSource_append hmakesF hdefinition
  have hanswer := answer_eq 3 .new (.program source)
  rw [Request.source, hread] at hanswer
  have heval : Session.new.evalEach 3 [makesF, definition] =
      some ([f, .ofFault missing], .new) := rfl
  replace hanswer := hanswer.trans heval
  have hwithin : outOfRange.Within f := .body (List.mem_cons_of_mem _ (.head [])) .self
  have hliteral := Reachable.new.errors_never_contradict hanswer List.mem_cons_self hwithin
  have hmissing : .ofFault missing ∈ [f, .ofFault missing] := List.mem_cons_of_mem f (.head [])
  have hcount := Reachable.new.errors_never_contradict hanswer hmissing .self
  exact ⟨hanswer, hwithin, hliteral.2, hcount.2⟩

end Session

end QuoteLisp
