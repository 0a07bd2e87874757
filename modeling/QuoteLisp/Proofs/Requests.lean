import QuoteLisp.Proofs.Frame
import QuoteLisp.Proofs.Hereditary
import QuoteLisp.Session

/-!
# Runs of sessions

A session answers requests, each a source text to evaluate as one line or as a program. Either way
the source is read and some expressions are evaluated in turn at the root (`answer_eq`), so what
evaluation keeps holds throughout every run of a new session: between requests, at the start of
every evaluation nested in one, and of all results.
-/

namespace QuoteLisp

/-- What a session is asked for. -/
inductive Request where
  | line (source : String)
  | program (source : String)

namespace Request

def source : Request → String
  | line source => source
  | program source => source

/-- The expressions to evaluate in turn, given those that the source holds. -/
def expressions (items : List Value) : Request → List Value
  | line _ => [.sexpr items]
  | program _ => items

end Request

namespace Session

/-- The results of a request and the session after it. -/
def answer (depth : Nat) (session : Session) : Request → Option (List Value × Session)
  | .line source => (session.evalLine depth source).map fun (r, after) => ([r], after)
  | .program source => session.evalProgram depth source

/-- The sessions that a new one can become by answering requests. -/
inductive Reachable : Session → Prop
  | new : Reachable .new
  | answer {session after : Session} {depth : Nat} {request : Request} {results : List Value}
    (hsession : Reachable session)
    (hanswer : session.answer depth request = some (results, after)) : Reachable after

/-- While a request is answered, an evaluation is started. -/
inductive Visits (depth : Nat) (session : Session) (request : Request) : Evaluation → Prop
  | during {items before behind results : List Value} {v : Value} {mid : Session}
    {start : Evaluation} (hread : readSource request.source = .ok items)
    (hsplit : request.expressions items = before ++ v :: behind)
    (hbefore : session.evalEach depth before = some (results, mid))
    (hduring : During depth ⟨mid.root, v, mid.store⟩ start) : Visits depth session request start

variable {depth : Nat} {session after : Session} {request : Request} {r v : Value}
  {results : List Value}

/-! ## Answers -/

theorem eval_eq_some (h : session.eval depth v = some (r, after)) :
    QuoteLisp.eval depth session.root v session.store = some (r, after.store) ∧
      after.root = session.root := by
  rw [Session.eval] at h
  split at h
  · cases h
  · rename_i heval
    cases h
    exact ⟨heval, rfl⟩

theorem evalEach_cons_eq_some {vs : List Value}
    (h : session.evalEach depth (v :: vs) = some (results, after)) :
    ∃ r mid rest, session.eval depth v = some (r, mid) ∧
      mid.evalEach depth vs = some (rest, after) ∧ results = r :: rest := by
  rw [evalEach] at h
  split at h
  · cases h
  · rename_i r mid hfirst
    split at h
    · cases h
    · rename_i rest last hrest
      cases h
      exact ⟨r, mid, rest, hfirst, hrest, rfl⟩

theorem answer_eq (depth : Nat) (session : Session) (request : Request) :
    session.answer depth request =
      match readSource request.source with
      | .error e => some ([.ofFault (.malformed e)], session)
      | .ok items => session.evalEach depth (request.expressions items) := by
  cases request with
  | line source =>
    rw [answer, evalLine, Request.source]
    cases readSource source with
    | error e => rfl
    | ok items =>
      show Option.map _ (session.eval depth (.sexpr items)) = session.evalEach depth [.sexpr items]
      rw [evalEach]
      cases session.eval depth (.sexpr items) <;> rfl
  | program source => rfl

/-! ## The root -/

theorem hasChain_root_of_eval (hroot : session.store.HasChain session.root [session.root])
    (h : session.eval depth v = some (r, after)) :
    after.store.HasChain after.root [after.root] := by
  obtain ⟨heval, hsame⟩ := eval_eq_some h
  rw [hsame]
  exact (writesToEnds_eval depth heval hroot rfl).hasChain hroot

theorem hasChain_root_of_evalEach {vs : List Value}
    (hroot : session.store.HasChain session.root [session.root])
    (h : session.evalEach depth vs = some (results, after)) :
    after.store.HasChain after.root [after.root] := by
  induction vs generalizing session results with
  | nil =>
    cases h
    exact hroot
  | cons v vs ih =>
    obtain ⟨r, mid, rest, hfirst, hothers, -⟩ := evalEach_cons_eq_some h
    exact ih (hasChain_root_of_eval hroot hfirst) hothers

theorem hasChain_root_of_answer (hroot : session.store.HasChain session.root [session.root])
    (h : session.answer depth request = some (results, after)) :
    after.store.HasChain after.root [after.root] := by
  rw [answer_eq] at h
  split at h
  · cases h
    exact hroot
  · exact hasChain_root_of_evalEach hroot h

/-- The root of a session lives and is nested in no other environment. -/
theorem Reachable.hasChain_root (hsession : session.Reachable) :
    session.store.HasChain session.root [session.root] := by
  induction hsession with
  | new => exact .root rfl rfl
  | answer _ hanswer ih => exact hasChain_root_of_answer ih hanswer

/-! ## What runs keep -/

/-- A hereditary property of all that a session starts from: the builtin functions and what is read
from sources. -/
structure Keeps (P : Value → Prop) : Prop extends Value.Hereditary P where
  builtin : ∀ p, P (.ofPrimitive p)
  read : ∀ {source items}, readSource source = .ok items → ∀ v ∈ items, P v
  malformed : ∀ {source e}, readSource source = .error e → P (.ofFault (.malformed e))

namespace Keeps

variable {P : Value → Prop}

theorem new (hP : Keeps P) : Session.new.store.Binds (Value.IsGood P) := by
  have hbuiltins : Bindings.All (Value.IsGood P) Scope.builtins := by
    intro binding hmem
    obtain ⟨p, -, rfl⟩ := List.mem_map.1 hmem
    exact ⟨rfl, hP.builtin p⟩
  have hempty : Store.empty.Binds (Value.IsGood P) := by
    intro env scope hscope
    simp [Store.empty, Store.scope?] at hscope
  exact hempty.alloc hbuiltins

theorem evalEach (hP : Keeps P) {vs : List Value}
    (hstore : session.store.Binds (Value.IsGood P)) (hvs : ∀ v ∈ vs, P v)
    (h : session.evalEach depth vs = some (results, after)) :
    after.store.Binds (Value.IsGood P) ∧
      ∀ r ∈ results, (r.isNormal = true ∨ r.isError = true) ∧ P r := by
  induction vs generalizing session results with
  | nil =>
    cases h
    exact ⟨hstore, by simp⟩
  | cons v vs ih =>
    obtain ⟨r, mid, rest, hfirst, hothers, rfl⟩ := evalEach_cons_eq_some h
    obtain ⟨hv, hvs⟩ := List.forall_mem_cons.1 hvs
    obtain ⟨heval, -⟩ := eval_eq_some hfirst
    obtain ⟨hmid, hr⟩ := keepsGood_eval hP.toHereditary depth heval hstore hv
    obtain ⟨hafter, hrest⟩ := ih hmid hvs hothers
    exact ⟨hafter, List.forall_mem_cons.2 ⟨hr, hrest⟩⟩

theorem expressions (hP : Keeps P) {items : List Value}
    (hread : readSource request.source = .ok items) : ∀ v ∈ request.expressions items, P v := by
  have hitems : ∀ v ∈ items, P v := hP.read hread
  cases request with
  | line source => exact List.forall_mem_singleton.2 (hP.sexpr.2 hitems)
  | program source => exact hitems

theorem answer (hP : Keeps P) (hstore : session.store.Binds (Value.IsGood P))
    (h : session.answer depth request = some (results, after)) :
    after.store.Binds (Value.IsGood P) ∧
      ∀ r ∈ results, (r.isNormal = true ∨ r.isError = true) ∧ P r := by
  rw [answer_eq] at h
  split at h
  · rename_i e hread
    cases h
    exact ⟨hstore, List.forall_mem_singleton.2 ⟨.inr rfl, hP.malformed hread⟩⟩
  · rename_i items hread
    exact hP.evalEach hstore (hP.expressions hread) h

theorem reachable (hP : Keeps P) (hsession : session.Reachable) :
    session.store.Binds (Value.IsGood P) := by
  induction hsession with
  | new => exact hP.new
  | answer _ hanswer ih => exact (hP.answer ih hanswer).1

theorem visits (hP : Keeps P) (hsession : session.Reachable) {start : Evaluation}
    (hvisits : session.Visits depth request start) : start.IsGood P := by
  obtain ⟨hread, hsplit, hbefore, hduring⟩ := hvisits
  have hall := hP.expressions hread
  rw [hsplit] at hall
  obtain ⟨hbeforeP, hrest⟩ := List.forall_mem_append.1 hall
  obtain ⟨hmid, -⟩ := hP.evalEach (hP.reachable hsession) hbeforeP hbefore
  obtain ⟨hv, -⟩ := List.forall_mem_cons.1 hrest
  exact Evaluation.IsGood.during hP.toHereditary ⟨hmid, hv⟩ hduring

end Keeps

end Session

end QuoteLisp
