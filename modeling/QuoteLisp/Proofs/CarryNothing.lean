import QuoteLisp.Proofs.NormalForms
import QuoteLisp.Proofs.Parts

/-!
# Closures that carry nothing

A call turns what its closure carries into the environment of the call and binds the arguments
there. No value of a session ever shows it: every closure that occurs in a session, in a binding, in
a list, in the body of another closure or in a result, carries neither bindings nor a link, before
and after any number of calls.
-/

namespace QuoteLisp

namespace Value

/-- Every closure that occurs in the value carries neither bindings nor a link. -/
def ClosuresCarryNothing (v : Value) : Prop :=
  ∀ formals body captured link, (closure formals body captured link).Within v →
    captured = [] ∧ link = none

theorem IsCaptureless.closuresCarryNothing {v : Value} (hv : v.IsCaptureless) :
    v.ClosuresCarryNothing := by
  intro formals body captured link hpart
  induction hv with
  | number | string | symbol | error | builtin => cases hpart
  | sexpr _ ih =>
    cases hpart with
    | sexpr hmem hpart => exact ih _ hmem hpart
  | qexpr _ ih =>
    cases hpart with
    | qexpr hmem hpart => exact ih _ hmem hpart
  | lambda _ ih =>
    cases hpart with
    | self => exact ⟨rfl, rfl⟩
    | body hmem hpart => exact ih _ hmem hpart
    | captured hmem => cases hmem

theorem IsGood.closuresCarryNothing {v : Value} (hv : v.IsGood IsCaptureless) :
    v.ClosuresCarryNothing :=
  hv.2.closuresCarryNothing

end Value

open Value

namespace Session

/-- Closures carry nothing anywhere in a session: in the values bound between requests, in those
bound and evaluated at the start of every evaluation nested in an answer, in those bound at its end
and in its result, and in the results of the request. -/
theorem Reachable.closures_carry_nothing {session : Session} (hsession : session.Reachable)
    (depth : Nat) (request : Request) :
    session.store.Binds ClosuresCarryNothing ∧
    (∀ start, session.Visits depth request start →
      start.store.Binds ClosuresCarryNothing ∧ start.value.ClosuresCarryNothing ∧
      ∀ bound r after, (QuoteLisp.eval bound).on start = some (r, after) →
        after.Binds ClosuresCarryNothing ∧ r.ClosuresCarryNothing) ∧
    ∀ results after, session.answer depth request = some (results, after) →
      after.store.Binds ClosuresCarryNothing ∧ ∀ r ∈ results, r.ClosuresCarryNothing := by
  have hbinds : ∀ {store : Store}, store.Binds (IsGood IsCaptureless) →
      store.Binds ClosuresCarryNothing :=
    fun hstore => hstore.mono fun _ hv => hv.closuresCarryNothing
  have hsessionBinds := keeps_isCaptureless.reachable hsession
  refine ⟨hbinds hsessionBinds, ?_, ?_⟩
  · intro start hvisits
    obtain ⟨hstore, hvalue⟩ := keeps_isCaptureless.visits hsession hvisits
    refine ⟨hbinds hstore, hvalue.closuresCarryNothing, fun bound r after hfinished => ?_⟩
    have heval := keepsGood_eval hereditary_isCaptureless bound
    obtain ⟨hafter, -, hr⟩ := heval hfinished hstore hvalue
    exact ⟨hbinds hafter, hr.closuresCarryNothing⟩
  · intro results after hanswer
    obtain ⟨hafter, hresults⟩ := keeps_isCaptureless.answer hsessionBinds hanswer
    exact ⟨hbinds hafter, fun r hr => (hresults r hr).2.closuresCarryNothing⟩

/-- A session that has defined `f` calls it on a closure whose body holds a copy of `f`, and gives
both in a list. -/
theorem closures_carry_nothing_after_call :
    let f := Value.lambda ["x"] [.symbol "x"]
    ∃ session after : Session, session.Reachable ∧ session.get "f" = .ok f ∧
      session.answer 5 (.line "list f (f (\\ \x7by\x7d (list f)))") =
        some ([.qexpr [f, .lambda ["y"] [f]]], after) ∧
      (Value.qexpr [f, .lambda ["y"] [f]]).ClosuresCarryNothing ∧
      after.store.Binds ClosuresCarryNothing := by
  intro f
  let definition : List Value :=
    [.symbol "fn", .qexpr [.symbol "f", .symbol "x"], .qexpr [.symbol "x"]]
  let wrapped : Value :=
    .sexpr [.symbol "\\", .qexpr [.symbol "y"], .sexpr [.symbol "list", .symbol "f"]]
  let application : List Value :=
    [.symbol "list", .symbol "f", .sexpr [.symbol "f", wrapped]]
  have hf : IsWritable (.symbol "f") := .symbol "f" (by decide)
  have hx : IsWritable (.symbol "x") := .symbol "x" (by decide)
  have hlist : IsWritable (.symbol "list") := .symbol "list" (by decide)
  have hdefinition : ∀ v ∈ definition, v.IsWritable := by
    refine List.forall_mem_cons.2 ⟨.symbol "fn" (by decide), List.forall_mem_cons.2 ⟨?_, ?_⟩⟩
    · exact .qexpr _ (List.forall_mem_cons.2 ⟨hf, List.forall_mem_singleton.2 hx⟩)
    · exact List.forall_mem_singleton.2 (.qexpr _ (List.forall_mem_singleton.2 hx))
  have hwrapped : wrapped.IsWritable := by
    refine .sexpr _ (List.forall_mem_cons.2 ⟨.symbol "\\" (by decide), ?_⟩)
    refine List.forall_mem_cons.2 ⟨.qexpr _ (List.forall_mem_singleton.2 ?_), ?_⟩
    · exact .symbol "y" (by decide)
    · refine List.forall_mem_singleton.2 (.sexpr _ ?_)
      exact List.forall_mem_cons.2 ⟨hlist, List.forall_mem_singleton.2 hf⟩
  have happlication : ∀ v ∈ application, v.IsWritable := by
    refine List.forall_mem_cons.2 ⟨hlist, List.forall_mem_cons.2 ⟨hf, ?_⟩⟩
    refine List.forall_mem_singleton.2 (.sexpr _ ?_)
    exact List.forall_mem_cons.2 ⟨hf, List.forall_mem_singleton.2 hwrapped⟩
  let session : Session := ⟨Session.new.store.define 0 "f" f, 0⟩
  have hsession : session.Reachable := by
    have hanswer := answer_eq 3 .new (.line "fn \x7bf x\x7d \x7bx\x7d")
    have hread : readSource "fn \x7bf x\x7d \x7bx\x7d" = .ok definition :=
      readSource_spaced hdefinition rfl
    rw [Request.source, hread] at hanswer
    have heval : Session.new.evalEach 3 [.sexpr definition] = some ([f], session) := rfl
    exact .answer .new (hanswer.trans heval)
  have heval : session.evalEach 5 [.sexpr application] =
      some ([.qexpr [f, .lambda ["y"] [f]]], _) := rfl
  have hanswer := answer_eq 5 session (.line "list f (f (\\ \x7by\x7d (list f)))")
  have hread : readSource "list f (f (\\ \x7by\x7d (list f)))" = .ok application :=
    readSource_spaced happlication rfl
  rw [Request.source, hread] at hanswer
  replace hanswer := hanswer.trans heval
  obtain ⟨hafter, hresults⟩ := (hsession.closures_carry_nothing 5 _).2.2 _ _ hanswer
  exact ⟨session, _, hsession, rfl, hanswer, hresults _ (List.mem_singleton_self _), hafter⟩

end Session

end QuoteLisp
