import QuoteLisp.Proofs.Lexemes
import QuoteLisp.Proofs.Requests

/-!
# Normal forms

No source text writes a closure, and the operations make closures that carry nothing. So all
closures of a session are of that kind, the environment of a call starts with the arguments alone,
and every bound value of a session is normal, at every moment of every evaluation. Results are
normal values or errors, and evaluating them again changes nothing.
-/

namespace QuoteLisp

/-! ## Closures that carry nothing -/

namespace Value

/-- Every closure in the value, at any depth, carries no bindings and no link. -/
inductive IsCaptureless : Value → Prop
  | number (n : Int64) : IsCaptureless (.number n)
  | string (text : String) : IsCaptureless (.string text)
  | symbol (name : String) : IsCaptureless (.symbol name)
  | error (e : EvalError) : IsCaptureless (.error e)
  | sexpr {items : List Value} (hitems : ∀ v ∈ items, IsCaptureless v) :
    IsCaptureless (.sexpr items)
  | qexpr {items : List Value} (hitems : ∀ v ∈ items, IsCaptureless v) :
    IsCaptureless (.qexpr items)
  | builtin (b : Builtin) : IsCaptureless (.builtin b)
  | lambda {formals : List String} {body : List Value} (hbody : ∀ v ∈ body, IsCaptureless v) :
    IsCaptureless (.closure formals body [] none)

theorem hereditary_isCaptureless : Hereditary IsCaptureless where
  number := .number
  sexpr := by
    intro items
    constructor
    · rintro ⟨⟩
      assumption
    · exact .sexpr
  qexpr := by
    intro items
    constructor
    · rintro ⟨⟩
      assumption
    · exact .qexpr
  lambda _ := .lambda
  body := by
    rintro formals body captured link ⟨⟩
    assumption
  captured := by
    rintro formals body captured link ⟨⟩
    exact Bindings.all_nil
  unbound _ := .error _
  refused _ _ _ := .error _
  notAFunction _ _ := .error _
  wrongArity _ _ := .error _

end Value

theorem Value.IsRead.isCaptureless {v : Value} (h : v.IsRead) : v.IsCaptureless := by
  induction h with
  | number n => exact .number n
  | outOfRange => exact .error _
  | string text => exact .string text
  | symbol => exact .symbol _
  | sexpr _ ih => exact .sexpr ih
  | qexpr _ ih => exact .qexpr ih

theorem keeps_isCaptureless : Session.Keeps Value.IsCaptureless where
  toHereditary := Value.hereditary_isCaptureless
  builtin _ := .builtin _
  read hread v hv := (isRead_of_readSource hread v hv).isCaptureless
  malformed _ := .error _

/-! ## Sessions -/

namespace Session

/-- In a session, every bound value is a number, a string, a quoted list, a function or the empty
expression: in every live environment between requests, and in every live environment at the start
and at the end of every evaluation nested in an answer. Every result is such a value or an error, so
it evaluates to itself in every environment and leaves every store as it was. -/
theorem Reachable.normal_forms {session : Session} (hsession : session.Reachable) (depth : Nat)
    (request : Request) :
    (session.store.isLive session.root = true ∧
      ∀ name v, (name, v) ∈ session.bindings → v.isNormal = true) ∧
    session.store.Binds (fun v => v.isNormal = true) ∧
    (∀ start, session.Visits depth request start →
      start.store.Binds (fun v => v.isNormal = true) ∧
      ∀ bound r after, (QuoteLisp.eval bound).on start = some (r, after) →
        after.Binds (fun v => v.isNormal = true) ∧ (r.isNormal = true ∨ r.isError = true)) ∧
    ∀ results after, session.answer depth request = some (results, after) →
      ∀ r ∈ results, (r.isNormal = true ∨ r.isError = true) ∧
        ∀ bound env store, QuoteLisp.eval (bound + 1) env r store = some (r, store) := by
  -- that closures carry nothing is what makes the invariant hold; the result is its first half
  have hnormal : ∀ {store : Store}, store.Binds (Value.IsGood Value.IsCaptureless) →
      store.Binds fun v => v.isNormal = true := fun hstore => hstore.mono fun _ hv => hv.1
  have hbinds := hnormal (keeps_isCaptureless.reachable hsession)
  refine ⟨⟨hsession.hasChain_root.isLive, ?_⟩, hbinds, ?_, ?_⟩
  · intro name v hmem
    rw [bindings] at hmem
    split at hmem
    · cases hmem
    · rename_i scope hscope
      exact hbinds session.root scope hscope (name, v) hmem
  · intro start hvisits
    obtain ⟨hstore, hvalue⟩ := keeps_isCaptureless.visits hsession hvisits
    refine ⟨hnormal hstore, fun bound r after hfinished => ?_⟩
    have heval := keepsGood_eval Value.hereditary_isCaptureless bound
    obtain ⟨hafter, hr, -⟩ := heval hfinished hstore hvalue
    exact ⟨hnormal hafter, hr⟩
  · intro results after hanswer r hr
    have hstore := keeps_isCaptureless.reachable hsession
    obtain ⟨hresult, -⟩ := (keeps_isCaptureless.answer hstore hanswer).2 r hr
    exact ⟨hresult, Value.eval_eq_self hresult⟩

/-- A session that has bound a name calls a closure on its value: fifteen names at the root, and one
in the environment of the call. -/
theorem normal_forms_during_call :
    ∃ (session : Session) (start : Evaluation), session.Reachable ∧
      session.bindings.length = 15 ∧
      session.Visits 3 (.line "(\\ \x7by\x7d \x7by\x7d) x") start ∧
      (start.store.scope? start.env).map Scope.bindings = some [("y", .number 5)] ∧
      start.store.Binds fun v => v.isNormal = true := by
  let definition : List Value := [.symbol "def", .qexpr [.symbol "x"], .number 5]
  let lambda : List Value := [.symbol "\\", .qexpr [.symbol "y"], .qexpr [.symbol "y"]]
  let application : List Value := [.sexpr lambda, .symbol "x"]
  have hquoted : ∀ name : String, isSymbolName name.toList = true →
      Value.IsWritable (.qexpr [.symbol name]) :=
    fun name hname => .qexpr _ (List.forall_mem_singleton.2 (.symbol name hname))
  have hdefinition : ∀ v ∈ definition, v.IsWritable := by
    refine List.forall_mem_cons.2 ⟨.symbol "def" (by decide), ?_⟩
    exact List.forall_mem_cons.2 ⟨hquoted "x" (by decide), List.forall_mem_singleton.2 (.number 5)⟩
  have hlambda : ∀ v ∈ lambda, v.IsWritable := by
    refine List.forall_mem_cons.2 ⟨.symbol "\\" (by decide), ?_⟩
    exact List.forall_mem_cons.2
      ⟨hquoted "y" (by decide), List.forall_mem_singleton.2 (hquoted "y" (by decide))⟩
  have happlication : ∀ v ∈ application, v.IsWritable :=
    List.forall_mem_cons.2 ⟨.sexpr _ hlambda, List.forall_mem_singleton.2 (.symbol "x" (by decide))⟩
  let session : Session := ⟨Session.new.store.define 0 "x" (.number 5), 0⟩
  have hsession : session.Reachable := by
    have hanswer := answer_eq 3 .new (.line "def \x7bx\x7d 5")
    have hread : readSource "def \x7bx\x7d 5" = .ok definition := readSource_spaced hdefinition rfl
    rw [Request.source, hread] at hanswer
    have heval : Session.new.evalEach 3 [.sexpr definition] = some ([.unit], session) := rfl
    exact .answer .new (hanswer.trans heval)
  have hitems : evalItems (QuoteLisp.eval 2) 0 application session.store =
      some (.ok [.lambda ["y"] [.symbol "y"], .number 5], session.store) := rfl
  have hvisits : session.Visits 3 (.line "(\\ \x7by\x7d \x7by\x7d) x")
      (.ofCall 0 ["y"] [.symbol "y"] [] [.number 5] session.store) := by
    have hread : readSource "(\\ \x7by\x7d \x7by\x7d) x" = .ok application :=
      readSource_spaced happlication rfl
    have hsplit : [Value.sexpr application] = [] ++ Value.sexpr application :: [] := rfl
    have hbefore : session.evalEach 3 [] = some ([], session) := rfl
    have hbody := Nested.body hitems (List.cons_ne_nil _ _) rfl
    exact .during hread hsplit hbefore (.inside hbody (.self 2 _))
  have hstart := (hsession.normal_forms 3 (.line "(\\ \x7by\x7d \x7by\x7d) x")).2.2.1 _ hvisits
  exact ⟨session, _, hsession, rfl, hvisits, rfl, hstart.1⟩

end Session

end QuoteLisp
