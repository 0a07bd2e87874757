import QuoteLisp.Proofs.Correspondence
import QuoteLisp.Proofs.Refusals

/-!
# Two runs in lock step

Evaluations that start from corresponding values in corresponding environments of corresponding
stores run in lock step: within any bound, either neither finishes, or both do, with results and
stores that correspond (`Correspondence.simulates_eval`). Neither changes a link.
-/

namespace QuoteLisp

theorem rel_map {α β γ δ : Type} {R : α → β → Prop} {S : γ → δ → Prop} {x : Option α}
    {y : Option β} {f : α → γ} {g : β → δ} (h : Option.Rel R x y)
    (hfg : ∀ a b, R a b → S (f a) (g b)) : Option.Rel S (x.map f) (y.map g) := by
  cases h with
  | none => exact .none
  | some hresult => exact .some (hfg _ _ hresult)

theorem rel_mono {α β : Type} {R S : α → β → Prop} {x : Option α} {y : Option β}
    (h : Option.Rel R x y) (himp : ∀ a b, R a b → S a b) : Option.Rel S x y := by
  cases h with
  | none => exact .none
  | some hresult => exact .some (himp _ _ hresult)

/-! ## Arguments -/

/-- Both refuse for the same reason, or both accept with results that are related. -/
inductive Outcomes {α β : Type} (R : α → β → Prop) : Except Fault α → Except Fault β → Prop
  | refused {fault : Fault} (hfault : fault.isUnbound = false) :
    Outcomes R (.error fault) (.error fault)
  | accepted {a : α} {b : β} (hresult : R a b) : Outcomes R (.ok a) (.ok b)

namespace Outcomes

variable {α β γ δ : Type} {R : α → β → Prop} {S : γ → δ → Prop} {x : Except Fault α}
  {y : Except Fault β}

theorem map {f : α → γ} {g : β → δ} (h : Outcomes R x y) (hfg : ∀ a b, R a b → S (f a) (g b)) :
    Outcomes S (x.map f) (y.map g) := by
  cases h with
  | refused hfault => exact .refused hfault
  | accepted hresult => exact .accepted (hfg _ _ hresult)

theorem bind {f : α → Except Fault γ} {g : β → Except Fault δ} (h : Outcomes R x y)
    (hfg : ∀ a b, R a b → Outcomes S (f a) (g b)) : Outcomes S (x >>= f) (y >>= g) := by
  cases h with
  | refused hfault => exact .refused hfault
  | accepted hresult => exact hfg _ _ hresult

theorem wrongCount {function : String} {count got got' : Nat} (hgot : got = got') :
    Outcomes R (.error (.wrongArgumentCount function count got))
      (.error (.wrongArgumentCount function count got')) := by
  rw [hgot]
  exact .refused rfl

end Outcomes

theorem Fault.IsArithmetic.isUnbound {fault : Fault} (h : fault.IsArithmetic) :
    fault.isUnbound = false := by
  cases h <;> rfl

/-- No arithmetic fault is about a name. -/
theorem ArithOp.isUnbound_of_run {op : ArithOp} {args : List Value} {fault : Fault}
    (h : op.run args = .error fault) : fault.isUnbound = false := by
  obtain ⟨v, -, -, rfl⟩ | ⟨-, rfl⟩ | hfault := run_eq_error h
  · rfl
  · rfl
  · exact hfault.isUnbound

namespace Correspondence

variable {left right : Store} {C : Correspondence left right}

section Arguments

variable {function : String} {v w : Value} {args args' items items' : List Value}

theorem symbolNames (hitems : List.Forall₂ C.Relates items items') :
    Outcomes (List.Forall₂ C.name) (symbolNames function items) (symbolNames function items') := by
  induction hitems with
  | nil => exact .accepted .nil
  | cons hitem _ ih =>
    cases hitem with
    | symbol hname => exact ih.map fun _ _ hnames => .cons hname hnames
    | _ => exact .refused rfl

theorem quotedItems (h : C.Relates v w) :
    Outcomes (List.Forall₂ C.Relates) (quotedItems function v) (quotedItems function w) := by
  cases h with
  | qexpr hitems => exact .accepted hitems
  | _ => exact .refused rfl

theorem soleList (hargs : List.Forall₂ C.Relates args args') :
    Outcomes (List.Forall₂ C.Relates) (soleList function args) (soleList function args') := by
  match hargs with
  | .nil => exact .refused rfl
  | .cons harg .nil => exact quotedItems harg
  | hall@(.cons _ (.cons _ _)) => exact .wrongCount hall.length_eq

theorem joinLists (hargs : List.Forall₂ C.Relates args args') :
    Outcomes (List.Forall₂ C.Relates) (joinLists function args) (joinLists function args') := by
  induction hargs with
  | nil => exact .accepted .nil
  | cons harg _ ih =>
    refine (quotedItems harg).bind fun _ _ hitems => ih.bind fun _ _ hrest => ?_
    exact .accepted (List.rel_append hitems hrest)

theorem definitions (hargs : List.Forall₂ C.Relates args args') :
    Outcomes (List.Forall₂ C.Pairs) (definitions function args) (definitions function args') := by
  cases hargs with
  | nil => exact .refused rfl
  | cons hfirst hvalues =>
    refine (quotedItems hfirst).bind fun _ _ hitems => (symbolNames hitems).bind ?_
    intro names names' hnames
    rw [hnames.length_eq, hvalues.length_eq]
    split
    · exact .accepted (pairs_zip hnames hvalues)
    · exact .refused rfl

/-- Formals and bodies that correspond. -/
def Parts (C : Correspondence left right) (x y : List String × List Value) : Prop :=
  List.Forall₂ C.name x.1 y.1 ∧ List.Forall₂ C.Relates x.2 y.2

theorem formalsAndBody (hargs : List.Forall₂ C.Relates args args') :
    Outcomes C.Parts (formalsAndBody function args) (formalsAndBody function args') := by
  match hargs with
  | .nil | .cons _ .nil => exact .refused rfl
  | .cons hformals (.cons hbody .nil) =>
    refine (quotedItems hformals).bind fun _ _ hitems => (quotedItems hbody).bind ?_
    exact fun _ _ hbody => (symbolNames hitems).bind fun _ _ hnames => .accepted ⟨hnames, hbody⟩
  | hall@(.cons _ (.cons _ (.cons _ _))) => exact .wrongCount hall.length_eq

theorem operands_eq (op : ArithOp) (hargs : List.Forall₂ C.Relates args args') :
    op.operands args = op.operands args' := by
  induction hargs with
  | nil => rfl
  | cons harg _ ih =>
    rw [ArithOp.operands, ArithOp.operands, harg.number?_eq, harg.typeName_eq, ih]

theorem arith (op : ArithOp) (hargs : List.Forall₂ C.Relates args args') :
    Outcomes C.Relates (op.run args) (op.run args') := by
  have hsame : op.run args = op.run args' := by
    rw [ArithOp.run, ArithOp.run, operands_eq op hargs]
  rw [← hsame]
  cases hrun : op.run args with
  | error fault => exact .refused (ArithOp.isUnbound_of_run hrun)
  | ok v =>
    obtain ⟨n, rfl⟩ := ArithOp.exists_of_run_eq_ok hrun
    exact .accepted (.number n)

end Arguments

/-! ## Actions -/

/-- Actions of one kind on values that correspond. -/
inductive Actions (C : Correspondence left right) : Action → Action → Prop
  | give {v w : Value} (hvalue : C.Relates v w) : Actions C (.give v) (.give w)
  | evaluate {items items' : List Value} (hitems : List.Forall₂ C.Relates items items') :
    Actions C (.evaluate items) (.evaluate items')
  | assign {added added' : List (String × Value)} {v w : Value}
    (hadded : List.Forall₂ C.Pairs added added') (hvalue : C.Relates v w) :
    Actions C (.assign added v) (.assign added' w)
  | define {added added' : List (String × Value)} {v w : Value}
    (hadded : List.Forall₂ C.Pairs added added') (hvalue : C.Relates v w) :
    Actions C (.define added v) (.define added' w)

theorem action {args args' : List Value} (p : Primitive)
    (hargs : List.Forall₂ C.Relates args args') :
    Outcomes C.Actions (p.action args) (p.action args') := by
  cases p with
  | list => exact .accepted (.give (.qexpr hargs))
  | head =>
    rw [Primitive.action, Primitive.action]
    have hitems : Outcomes (List.Forall₂ C.Relates) (QuoteLisp.soleList Primitive.head.name args)
      (QuoteLisp.soleList Primitive.head.name args') := soleList hargs
    generalize QuoteLisp.soleList _ args = x, QuoteLisp.soleList _ args' = y at hitems
    cases hitems with
    | refused hfault => exact .refused hfault
    | accepted hitems =>
      cases hitems with
      | nil => exact .refused rfl
      | cons hfirst _ => exact .accepted (.give (.qexpr (.cons hfirst .nil)))
  | tail =>
    rw [Primitive.action, Primitive.action]
    have hitems : Outcomes (List.Forall₂ C.Relates) (QuoteLisp.soleList Primitive.tail.name args)
      (QuoteLisp.soleList Primitive.tail.name args') := soleList hargs
    generalize QuoteLisp.soleList _ args = x, QuoteLisp.soleList _ args' = y at hitems
    cases hitems with
    | refused hfault => exact .refused hfault
    | accepted hitems =>
      cases hitems with
      | nil => exact .refused rfl
      | cons _ hrest => exact .accepted (.give (.qexpr hrest))
  | eval => exact (soleList hargs).map fun _ _ hitems => .evaluate hitems
  | join => exact (joinLists hargs).map fun _ _ hitems => .give (.qexpr hitems)
  | arith op => exact (arith op hargs).map fun _ _ hvalue => .give hvalue
  | define => exact (definitions hargs).map fun _ _ hadded => .define hadded relates_unit
  | assign => exact (definitions hargs).map fun _ _ hadded => .assign hadded relates_unit
  | lambda =>
    exact (formalsAndBody hargs).map fun _ _ hparts => .give (relates_lambda hparts.1 hparts.2)
  | function =>
    rw [Primitive.action, Primitive.action]
    have hparts : Outcomes C.Parts (QuoteLisp.formalsAndBody Primitive.function.name args)
      (QuoteLisp.formalsAndBody Primitive.function.name args') := formalsAndBody hargs
    generalize QuoteLisp.formalsAndBody _ args = x, QuoteLisp.formalsAndBody _ args' = y at hparts
    cases hparts with
    | refused hfault => exact .refused hfault
    | @accepted x y hparts =>
      obtain ⟨names, body⟩ := x
      obtain ⟨names', body'⟩ := y
      obtain ⟨hnames, hbody⟩ := hparts
      change List.Forall₂ C.name names names' at hnames
      cases hnames with
      | nil => exact .refused rfl
      | cons hname hformals =>
        have hlambda := relates_lambda hformals hbody
        exact .accepted (.define (.cons (.intro hname hlambda) .nil) hlambda)

/-! ## Evaluation -/

/-- What both runs come to: results that are related and stores that correspond, all links being as
they were. -/
structure Results (C : Correspondence left right) {α β : Type} (R : α → β → Prop) (s t : Store)
    (x : α × Store) (y : β × Store) : Prop where
  result : R x.1 y.1
  stores : C.Stores x.2 y.2
  left : ∀ e, x.2.link? e = s.link? e
  right : ∀ e, y.2.link? e = t.link? e

/-- The evaluator treats corresponding evaluations alike. -/
def Simulates (C : Correspondence left right) (evaluate : Evaluator) : Prop :=
  ∀ ⦃e f v w s t⦄, C.env e f → C.Relates v w → C.Stores s t → C.InStep s e →
    Option.Rel (C.Results C.Relates s t) (evaluate e v s) (evaluate f w t)

variable {evaluate : Evaluator} {e f : EnvId} {v w : Value} {s t : Store}

namespace Results

variable {α β : Type} {R : α → β → Prop} {x : α × Store} {y : β × Store}

theorem unchanged {a : α} {b : β} (hresult : R a b) (hstores : C.Stores s t) :
    C.Results R s t (a, s) (b, t) :=
  ⟨hresult, hstores, fun _ => rfl, fun _ => rfl⟩

theorem after {mid mid' : Store} (h : C.Results R mid mid' x y)
    (hleft : ∀ e, mid.link? e = s.link? e) (hright : ∀ e, mid'.link? e = t.link? e) :
    C.Results R s t x y :=
  ⟨h.result, h.stores, fun e => (h.left e).trans (hleft e), fun e => (h.right e).trans (hright e)⟩

end Results

theorem perform (heval : C.Simulates evaluate) (henv : C.env e f) (hstores : C.Stores s t)
    (hstep : C.InStep s e) {a b : Action} (hactions : C.Actions a b) :
    Option.Rel (C.Results C.Relates s t) (a.perform evaluate e s) (b.perform evaluate f t) := by
  cases hactions with
  | give hvalue => exact .some (.unchanged hvalue hstores)
  | evaluate hitems => exact heval henv (.sexpr hitems) hstores hstep
  | assign hadded hvalue =>
    refine .some ⟨hvalue, hstores.defineAll henv hadded, ?_, ?_⟩
    · exact Store.link?_defineAll s e _
    · exact Store.link?_defineAll t f _
  | define hadded hvalue =>
    refine .some ⟨hvalue, hstores.defineAllRoot henv hstep hadded, ?_, ?_⟩
    · exact Store.link?_defineAllRoot s e _
    · exact Store.link?_defineAllRoot t f _

theorem callClosure (heval : C.Simulates evaluate) (henv : C.env e f) (hstores : C.Stores s t)
    (hstep : C.InStep s e) {formals formals' : List String} {body body' args args' : List Value}
    {captured captured' : Bindings} (hformals : List.Forall₂ C.name formals formals')
    (hbody : List.Forall₂ C.Relates body body')
    (hcaptured : List.Forall₂ C.Pairs captured captured')
    (hargs : List.Forall₂ C.Relates args args') :
    Option.Rel (C.Results C.Relates s t) (callClosure evaluate e formals body captured args s)
      (callClosure evaluate f formals' body' captured' args' t) := by
  rw [QuoteLisp.callClosure, QuoteLisp.callClosure, hformals.length_eq, hargs.length_eq]
  split
  · -- both bodies run in new environments, which are released at the end
    have hpairs := pairs_setAll hcaptured (pairs_zip hformals hargs)
    have hrun := heval hstores.env_size (.sexpr hbody) (hstores.alloc henv hpairs)
      (hstep.alloc _)
    refine rel_map hrun fun x y hresults => ⟨hresults.result, ?_, ?_, ?_⟩
    · exact hresults.stores.release hstores.env_size hstores.left.size_le hstores.right.size_le
    · exact Store.link?_release_alloc hresults.left
    · exact Store.link?_release_alloc hresults.right
  · exact .some (.unchanged (relates_ofFault rfl) hstores)

theorem call (heval : C.Simulates evaluate) (henv : C.env e f) (hstores : C.Stores s t)
    (hstep : C.InStep s e) (hf : C.Relates v w) {args args' : List Value}
    (hargs : List.Forall₂ C.Relates args args') :
    Option.Rel (C.Results C.Relates s t) (call evaluate e v args s)
      (call evaluate f w args' t) := by
  cases hf with
  | builtin b =>
    rw [call_builtin, call_builtin]
    have haction := action b.primitive hargs
    generalize b.primitive.action args = x, b.primitive.action args' = y at haction
    cases haction with
    | refused hfault => exact .some (.unchanged (relates_ofFault hfault) hstores)
    | accepted hactions => exact perform heval henv hstores hstep hactions
  | closure hformals hbody hcaptured _ =>
    exact callClosure heval henv hstores hstep hformals hbody hcaptured hargs
  | _ => exact .some (.unchanged (relates_ofFault rfl) hstores)

/-- Items that were evaluated up to errors that correspond, or all of them. -/
inductive Evaluated (C : Correspondence left right) :
    Except EvalError (List Value) → Except EvalError (List Value) → Prop
  | stopped {d e : EvalError} (herror : C.error d e) : Evaluated C (.error d) (.error e)
  | all {vs ws : List Value} (hvalues : List.Forall₂ C.Relates vs ws) :
    Evaluated C (.ok vs) (.ok ws)

theorem evalItems (heval : C.Simulates evaluate) (henv : C.env e f) {items items' : List Value}
    (hitems : List.Forall₂ C.Relates items items') (hstores : C.Stores s t)
    (hstep : C.InStep s e) :
    Option.Rel (C.Results C.Evaluated s t) (evalItems evaluate e items s)
      (evalItems evaluate f items' t) := by
  induction hitems generalizing s t with
  | nil => exact .some (.unchanged (.all .nil) hstores)
  | @cons item item' items items' hitem _ ih =>
    rw [QuoteLisp.evalItems, QuoteLisp.evalItems]
    have hfirst := heval henv hitem hstores hstep
    generalize evaluate e item s = x, evaluate f item' t = y at hfirst
    cases hfirst with
    | none => exact .none
    | @some x y hresults =>
      obtain ⟨v, mid⟩ := x
      obtain ⟨w, mid'⟩ := y
      obtain ⟨hvalue, hmid, hleft, hright⟩ := hresults
      have herror := hvalue.error?
      simp only at herror ⊢
      generalize v.error? = d, w.error? = e at herror
      cases herror with
      | some herror => exact .some ⟨.stopped herror, hmid, hleft, hright⟩
      | none =>
        -- the rest starts where the first item left both stores
        have hrest := ih hmid (hstep.congr hleft)
        simp only at hrest ⊢
        generalize QuoteLisp.evalItems _ _ items _ = x,
          QuoteLisp.evalItems _ _ items' _ = y at hrest
        cases hrest with
        | none => exact .none
        | @some x y hrest =>
          obtain ⟨outcome, last⟩ := x
          obtain ⟨outcome', last'⟩ := y
          obtain ⟨hvalues, hlast, hleft, hright⟩ := hrest.after hleft hright
          change C.Evaluated outcome outcome' at hvalues
          cases hvalues with
          | stopped herror => exact .some ⟨.stopped herror, hlast, hleft, hright⟩
          | all hvalues => exact .some ⟨.all (.cons hvalue hvalues), hlast, hleft, hright⟩

theorem evalExpr (heval : C.Simulates evaluate) (henv : C.env e f) {items items' : List Value}
    (hitems : List.Forall₂ C.Relates items items') (hstores : C.Stores s t)
    (hstep : C.InStep s e) :
    Option.Rel (C.Results C.Relates s t) (evalExpr evaluate e items s)
      (evalExpr evaluate f items' t) := by
  rw [QuoteLisp.evalExpr, QuoteLisp.evalExpr]
  have hall := evalItems heval henv hitems hstores hstep
  generalize QuoteLisp.evalItems _ _ items _ = x, QuoteLisp.evalItems _ _ items' _ = y at hall
  cases hall with
  | none => exact .none
  | @some x y hresults =>
    obtain ⟨outcome, mid⟩ := x
    obtain ⟨outcome', mid'⟩ := y
    obtain ⟨hvalues, hmid, hleft, hright⟩ := hresults
    change C.Evaluated outcome outcome' at hvalues
    cases hvalues with
    | stopped herror => exact .some ⟨.error herror, hmid, hleft, hright⟩
    | all hvalues =>
      match hvalues with
      | .nil => exact .some ⟨relates_unit, hmid, hleft, hright⟩
      | .cons hvalue .nil => exact .some ⟨hvalue, hmid, hleft, hright⟩
      | .cons hf (.cons harg hargs) =>
        have hcall := call heval henv hmid (hstep.congr hleft) hf (.cons harg hargs)
        exact rel_mono hcall fun _ _ hcalled => hcalled.after hleft hright

theorem simulates_step (heval : C.Simulates evaluate) : C.Simulates (step evaluate) := by
  intro e f v w s t henv hvw hstores hstep
  cases hvw with
  | @symbol m n hname =>
    rw [step, step, Store.get, Store.get]
    have hlookup := hstores.lookup hname henv hstep
    generalize s.lookup e m = x, t.lookup f n = y at hlookup
    cases hlookup with
    | none => exact .some (.unchanged (.error (C.unbound hname)) hstores)
    | some hvalue => exact .some (.unchanged hvalue hstores)
  | sexpr hitems => exact evalExpr heval henv hitems hstores hstep
  | number n => exact .some (.unchanged (.number n) hstores)
  | string text => exact .some (.unchanged (.string text) hstores)
  | error herror => exact .some (.unchanged (.error herror) hstores)
  | qexpr hitems => exact .some (.unchanged (.qexpr hitems) hstores)
  | builtin b => exact .some (.unchanged (.builtin b) hstores)
  | closure hformals hbody hcaptured hlink =>
    exact .some (.unchanged (.closure hformals hbody hcaptured hlink) hstores)

/-- Evaluations that correspond at the start correspond within every bound. -/
theorem simulates_eval (C : Correspondence left right) (depth : Nat) :
    C.Simulates (eval depth) := by
  induction depth with
  | zero => exact fun _ _ _ _ _ _ _ _ _ _ => .none
  | succ depth ih => exact simulates_step ih

end Correspondence

end QuoteLisp
