import Mathlib.Data.List.Forall2
import QuoteLisp.Proofs.Resolution

/-!
# Correspondences between two stores

To compare two runs, say what stands for what in them: names for names, environments for
environments, links of closures for links, errors for errors. `Correspondence` collects this, and
values correspond if they are built alike from such parts. Some names may be hidden: they stand for
none, and no run that is compared with another reads or binds them.

Stores correspond if their environments do. The operations on stores keep this as long as they are
applied to environments, names and values that correspond, and lookups give values that correspond.
-/

namespace QuoteLisp

/-- Whether the fault is about a name that is not bound. -/
def Fault.isUnbound : Fault → Bool
  | unboundSymbol _ => true
  | _ => false

/-- What stands for what in two runs that start from the stores `left` and `right`. -/
structure Correspondence (left right : Store) where
  name : String → String → Prop
  env : EnvId → EnvId → Prop
  link : Option EnvId → Option EnvId → Prop
  error : EvalError → EvalError → Prop
  /-- The names that neither run may touch. -/
  hidden : String → Bool
  name_eq_iff : ∀ {m n m' n'}, name m n → name m' n' → (m = m' ↔ n = n')
  env_eq_iff : ∀ {e f e' f'}, env e f → env e' f' → (e = e' ↔ f = f')
  visible : ∀ {m n}, name m n → hidden m = false ∧ hidden n = false
  /-- Environments that are yet to be made correspond in the order in which they will be. -/
  unmade : ∀ count, env (left.cells.size + count) (right.cells.size + count)
  link_none : link none none
  unbound : ∀ {m n}, name m n →
    error (Fault.unboundSymbol m).toError (Fault.unboundSymbol n).toError
  fault : ∀ {fault : Fault}, fault.isUnbound = false → error fault.toError fault.toError

namespace Correspondence

variable {left right : Store} {C : Correspondence left right}

/-! ## Values -/

mutual

/-- Values that are built alike from parts that correspond. -/
inductive Relates (C : Correspondence left right) : Value → Value → Prop
  | number (n : Int64) : Relates C (.number n) (.number n)
  | string (text : String) : Relates C (.string text) (.string text)
  | symbol {m n : String} (hname : C.name m n) : Relates C (.symbol m) (.symbol n)
  | error {d e : EvalError} (herror : C.error d e) : Relates C (.error d) (.error e)
  | sexpr {xs ys : List Value} (hitems : List.Forall₂ (Relates C) xs ys) :
    Relates C (.sexpr xs) (.sexpr ys)
  | qexpr {xs ys : List Value} (hitems : List.Forall₂ (Relates C) xs ys) :
    Relates C (.qexpr xs) (.qexpr ys)
  | builtin (b : Builtin) : Relates C (.builtin b) (.builtin b)
  | closure {formals formals' : List String} {body body' : List Value}
    {captured captured' : List (String × Value)} {link link' : Option EnvId}
    (hformals : List.Forall₂ C.name formals formals')
    (hbody : List.Forall₂ (Relates C) body body')
    (hcaptured : List.Forall₂ (Pairs C) captured captured') (hlink : C.link link link') :
    Relates C (.closure formals body captured link) (.closure formals' body' captured' link')

/-- Bindings of names that correspond to values that do. -/
inductive Pairs (C : Correspondence left right) : String × Value → String × Value → Prop
  | intro {m n : String} {v w : Value} (hname : C.name m n) (hvalue : Relates C v w) :
    Pairs C (m, v) (n, w)

end

variable {v w : Value} {m n : String} {e f : EnvId}

theorem Pairs.name {b c : String × Value} (h : C.Pairs b c) : C.name b.1 c.1 := by
  cases h with
  | intro hname _ => exact hname

theorem Pairs.value {b c : String × Value} (h : C.Pairs b c) : C.Relates b.2 c.2 := by
  cases h with
  | intro _ hvalue => exact hvalue

theorem Relates.typeName_eq (h : C.Relates v w) : v.typeName = w.typeName := by
  cases h <;> rfl

theorem Relates.number?_eq (h : C.Relates v w) : v.number? = w.number? := by
  cases h <;> rfl

theorem Relates.error? (h : C.Relates v w) : Option.Rel C.error v.error? w.error? := by
  cases h with
  | error herror => exact .some herror
  | _ => exact .none

theorem beq_env {e' f' : EnvId} (henv : C.env e f) (henv' : C.env e' f') :
    (e == e') = (f == f') := by
  rw [Bool.beq_eq_decide_eq, Bool.beq_eq_decide_eq, decide_eq_decide]
  exact C.env_eq_iff henv henv'

theorem relates_ofFault {fault : Fault} (hfault : fault.isUnbound = false) :
    C.Relates (.ofFault fault) (.ofFault fault) :=
  .error (C.fault hfault)

theorem relates_unit : C.Relates .unit .unit := .sexpr .nil

theorem relates_lambda {formals formals' : List String} {body body' : List Value}
    (hformals : List.Forall₂ C.name formals formals')
    (hbody : List.Forall₂ C.Relates body body') :
    C.Relates (.lambda formals body) (.lambda formals' body') :=
  .closure hformals hbody .nil C.link_none

end Correspondence

/-! ## Bindings -/

namespace Bindings

/-- The bindings of hidden names. -/
def only (hidden : String → Bool) (bindings : Bindings) : Bindings :=
  bindings.filter fun binding => hidden binding.1

/-- The bindings of all other names. -/
def without (hidden : String → Bool) (bindings : Bindings) : Bindings :=
  bindings.filter fun binding => !hidden binding.1

variable {hidden : String → Bool} {name : String}

theorem find?_without (hname : hidden name = false) (bindings : Bindings) :
    (bindings.without hidden).find? name = bindings.find? name := by
  induction bindings with
  | nil => rfl
  | cons binding rest ih =>
    obtain ⟨other, w⟩ := binding
    rw [find?]
    by_cases hother : other = name
    · subst hother
      simp [without, hname, find?]
    · rw [if_neg hother, ← ih]
      cases hhidden : hidden other <;> simp [without, hhidden, find?, hother]

theorem without_set (hname : hidden name = false) (v : Value) (bindings : Bindings) :
    (bindings.set name v).without hidden = (bindings.without hidden).set name v := by
  induction bindings with
  | nil => simp [set, without, hname]
  | cons binding rest ih =>
    obtain ⟨other, w⟩ := binding
    rw [without] at ih
    rw [set]
    by_cases hother : other = name
    · subst hother
      simp [without, hname, set]
    · cases hhidden : hidden other <;> simp [without, hhidden, hother, set, ih]

theorem only_set (hname : hidden name = false) (v : Value) (bindings : Bindings) :
    (bindings.set name v).only hidden = bindings.only hidden := by
  induction bindings with
  | nil => simp [set, only, hname]
  | cons binding rest ih =>
    obtain ⟨other, w⟩ := binding
    rw [only] at ih
    rw [set]
    by_cases hother : other = name
    · subst hother
      simp [only, hname]
    · simp only [if_neg hother, only, List.filter_cons, ih]

end Bindings

namespace Correspondence

variable {left right : Store} {C : Correspondence left right} {v w : Value} {m n : String}
  {e f : EnvId} {bs cs : Bindings}

theorem find?_of_pairs (h : List.Forall₂ C.Pairs bs cs) (hname : C.name m n) :
    Option.Rel C.Relates (bs.find? m) (cs.find? n) := by
  induction h with
  | nil => exact .none
  | @cons b c bs cs hpair _ ih =>
    rw [Bindings.find?, Bindings.find?]
    have hsame : b.1 = m ↔ c.1 = n := C.name_eq_iff hpair.name hname
    by_cases hm : b.1 = m
    · rw [if_pos hm, if_pos (hsame.1 hm)]
      exact .some hpair.value
    · rw [if_neg hm, if_neg fun hn => hm (hsame.2 hn)]
      exact ih

theorem pairs_set (h : List.Forall₂ C.Pairs bs cs) (hname : C.name m n) (hv : C.Relates v w) :
    List.Forall₂ C.Pairs (bs.set m v) (cs.set n w) := by
  induction h with
  | nil => exact .cons (.intro hname hv) .nil
  | @cons b c bs cs hpair hrest ih =>
    rw [Bindings.set, Bindings.set]
    have hsame : b.1 = m ↔ c.1 = n := C.name_eq_iff hpair.name hname
    by_cases hm : b.1 = m
    · rw [if_pos hm, if_pos (hsame.1 hm)]
      exact .cons (.intro hpair.name hv) hrest
    · rw [if_neg hm, if_neg fun hn => hm (hsame.2 hn)]
      exact .cons hpair ih

theorem pairs_setAll {added added' : Bindings} (h : List.Forall₂ C.Pairs bs cs)
    (hadded : List.Forall₂ C.Pairs added added') :
    List.Forall₂ C.Pairs (bs.setAll added) (cs.setAll added') := by
  induction hadded generalizing bs cs with
  | nil => exact h
  | cons hpair _ ih => exact ih (pairs_set h hpair.name hpair.value)

theorem pairs_zip {names names' : List String} {values values' : List Value}
    (hnames : List.Forall₂ C.name names names') (hvalues : List.Forall₂ C.Relates values values') :
    List.Forall₂ C.Pairs (names.zip values) (names'.zip values') := by
  induction hnames generalizing values values' with
  | nil => exact .nil
  | cons hname _ ih =>
    cases hvalues with
    | nil => exact .nil
    | cons hvalue hvalues => exact .cons (.intro hname hvalue) (ih hvalues)

/-- No hidden name is bound where all bindings correspond to others. -/
theorem only_eq_nil_of_pairs (h : List.Forall₂ C.Pairs bs cs) :
    bs.only C.hidden = [] ∧ cs.only C.hidden = [] := by
  induction h with
  | nil => exact ⟨rfl, rfl⟩
  | cons hpair _ ih =>
    obtain ⟨hm, hn⟩ := C.visible hpair.name
    simpa [Bindings.only, hm, hn] using ih

/-- Bindings that correspond but for those of hidden names. -/
def Binds (C : Correspondence left right) (bs cs : Bindings) : Prop :=
  List.Forall₂ C.Pairs (bs.without C.hidden) (cs.without C.hidden)

theorem binds_of_pairs (h : List.Forall₂ C.Pairs bs cs) : C.Binds bs cs := by
  induction h with
  | nil => exact .nil
  | cons hpair _ ih =>
    obtain ⟨hm, hn⟩ := C.visible hpair.name
    rw [Binds] at ih ⊢
    simp only [Bindings.without, List.filter_cons, hm, hn, Bool.not_false, if_true] at ih ⊢
    exact .cons hpair ih

theorem Binds.find? (h : C.Binds bs cs) (hname : C.name m n) :
    Option.Rel C.Relates (bs.find? m) (cs.find? n) := by
  obtain ⟨hm, hn⟩ := C.visible hname
  rw [← Bindings.find?_without hm, ← Bindings.find?_without hn]
  exact find?_of_pairs h hname

theorem Binds.set (h : C.Binds bs cs) (hname : C.name m n) (hv : C.Relates v w) :
    C.Binds (bs.set m v) (cs.set n w) := by
  obtain ⟨hm, hn⟩ := C.visible hname
  rw [Binds, Bindings.without_set hm, Bindings.without_set hn]
  exact pairs_set h hname hv

end Correspondence

/-! ## What has no counterpart -/

/-- Bindings of hidden names and those of environments without a counterpart are as before. -/
structure Store.Untouched (hidden : String → Bool) (shared : EnvId → Prop)
    (before after : Store) : Prop where
  size_le : before.cells.size ≤ after.cells.size
  only : ∀ e, (after.bindings e).only hidden = (before.bindings e).only hidden
  outside : ∀ e, ¬ shared e → after.bindings e = before.bindings e

namespace Store.Untouched

variable {hidden : String → Bool} {shared : EnvId → Prop} {before after : Store}

theorem refl (store : Store) : Untouched hidden shared store store :=
  ⟨Nat.le_refl _, fun _ => rfl, fun _ _ => rfl⟩

theorem define (h : Untouched hidden shared before after) {changed : EnvId}
    (hchanged : shared changed) {name : String} (hname : hidden name = false) (v : Value) :
    Untouched hidden shared before (after.define changed name v) := by
  refine ⟨?_, fun e => ?_, fun e he => ?_⟩
  · rw [size_define]
    exact h.size_le
  · rw [bindings_define]
    split
    · rw [Bindings.only_set hname, h.only]
    · exact h.only e
  · have hne : ¬ (e = changed ∧ after.isLive e = true) := fun hsame => he (hsame.1 ▸ hchanged)
    rw [bindings_define, if_neg hne, h.outside e he]

theorem bindings_new (h : Untouched hidden shared before after) {env : EnvId}
    (henv : after.cells.size ≤ env) : before.bindings env = [] :=
  bindings_eq_nil (isLive_of_size_le (Nat.le_trans h.size_le henv))

theorem alloc (h : Untouched hidden shared before after) (hshared : shared after.cells.size)
    {scope : Scope} (honly : scope.bindings.only hidden = []) :
    Untouched hidden shared before (after.alloc scope).2 := by
  refine ⟨?_, fun e => ?_, fun e he => ?_⟩
  · rw [size_alloc]
    exact Nat.le_succ_of_le h.size_le
  · rw [bindings_alloc]
    split
    · rename_i hnew
      rw [honly, hnew, h.bindings_new (Nat.le_refl _)]
      rfl
    · exact h.only e
  · have hne : e ≠ after.cells.size := fun hsame => he (hsame ▸ hshared)
    rw [bindings_alloc, if_neg hne, h.outside e he]

theorem release (h : Untouched hidden shared before after) {released : EnvId}
    (hshared : shared released) (hnew : before.cells.size ≤ released) :
    Untouched hidden shared before (after.release released) := by
  refine ⟨?_, fun e => ?_, fun e he => ?_⟩
  · rw [size_release]
    exact h.size_le
  · rw [bindings_release]
    split
    · rename_i hsame
      rw [hsame, bindings_eq_nil (isLive_of_size_le hnew)]
    · exact h.only e
  · have hne : e ≠ released := fun hsame => he (hsame ▸ hshared)
    rw [bindings_release, if_neg hne, h.outside e he]

end Store.Untouched

/-! ## Stores -/

namespace Correspondence

variable {left right : Store} {C : Correspondence left right}

/-- Stores that two runs have reached, with environments that correspond. -/
structure Stores (C : Correspondence left right) (s t : Store) : Prop where
  /-- Both runs have made the same number of environments. -/
  sizes : ∃ count, s.cells.size = left.cells.size + count ∧
    t.cells.size = right.cells.size + count
  isLive : ∀ {e f}, C.env e f → s.isLive e = t.isLive f
  bindings : ∀ {e f}, C.env e f → C.Binds (s.bindings e) (t.bindings f)
  parent? : ∀ {e f}, C.env e f → Option.Rel C.env (s.parent? e) (t.parent? f)
  left : Store.Untouched C.hidden (fun e => ∃ f, C.env e f) left s
  right : Store.Untouched C.hidden (fun f => ∃ e, C.env e f) right t

/-- The runs search for names and roots in step: the stores are of one size, or the chain of the
environment ends. -/
def InStep (_ : Correspondence left right) (s : Store) (e : EnvId) : Prop :=
  left.cells.size = right.cells.size ∨ ∃ chain, s.HasChain e chain

namespace Stores

variable {s t : Store} {e f : EnvId} {m n : String} {v w : Value}

/-- Two runs may start from stores with the same links, where live environments stand for
themselves. -/
theorem start (hlink : ∀ e, right.link? e = left.link? e)
    (hsame : ∀ {e f}, C.env e f → e = f ∨ left.isLive e = false ∧ right.isLive f = false)
    (hbindings : ∀ {e}, C.env e e → left.isLive e = true →
      C.Binds (left.bindings e) (right.bindings e))
    (hparent : ∀ {e parent}, C.env e e → left.parent? e = some parent → C.env parent parent) :
    C.Stores left right where
  sizes := ⟨0, rfl, rfl⟩
  isLive := by
    intro e f henv
    obtain rfl | ⟨hleft, hright⟩ := hsame henv
    · exact (Store.isLive_congr (hlink e)).symm
    · rw [hleft, hright]
  bindings := by
    intro e f henv
    obtain rfl | ⟨hleft, hright⟩ := hsame henv
    · cases hlive : left.isLive e with
      | true => exact hbindings henv hlive
      | false =>
        rw [Store.bindings_eq_nil hlive,
          Store.bindings_eq_nil ((Store.isLive_congr (hlink e)).trans hlive)]
        exact .nil
    · rw [Store.bindings_eq_nil hleft, Store.bindings_eq_nil hright]
      exact .nil
  parent? := by
    intro e f henv
    obtain rfl | ⟨hleft, hright⟩ := hsame henv
    · rw [Store.parent?_congr hlink]
      cases habove : left.parent? e with
      | none => exact .none
      | some parent => exact .some (hparent henv habove)
    · rw [Store.parent?_eq_none hleft, Store.parent?_eq_none hright]
      exact .none
  left := .refl _
  right := .refl _

theorem env_size (h : C.Stores s t) : C.env s.cells.size t.cells.size := by
  obtain ⟨count, hs, ht⟩ := h.sizes
  rw [hs, ht]
  exact C.unmade count

/-! ### Lookups -/

theorem lookupWithin (h : C.Stores s t) (hname : C.name m n) (steps : Nat) :
    ∀ {e f}, C.env e f →
      Option.Rel C.Relates (s.lookupWithin m steps e) (t.lookupWithin n steps f) := by
  induction steps with
  | zero => exact fun _ => .none
  | succ steps ih =>
    intro e f henv
    rw [Store.lookupWithin_succ, Store.lookupWithin_succ]
    have hfind := (h.bindings henv).find? hname
    generalize (s.bindings e).find? m = x, (t.bindings f).find? n = y at hfind
    cases hfind with
    | some hvalue => exact .some hvalue
    | none =>
      have hparent := h.parent? henv
      generalize s.parent? e = x, t.parent? f = y at hparent
      cases hparent with
      | none => exact .none
      | some hparent => exact ih hparent

theorem rootWithin (h : C.Stores s t) (steps : Nat) :
    ∀ {e f}, C.env e f → C.env (s.rootWithin steps e) (t.rootWithin steps f) := by
  induction steps with
  | zero => exact fun henv => henv
  | succ steps ih =>
    intro e f henv
    rw [Store.rootWithin, Store.rootWithin]
    have hparent := h.parent? henv
    generalize s.parent? e = x, t.parent? f = y at hparent
    cases hparent with
    | none => exact henv
    | some hparent => exact ih hparent

theorem hasChain (h : C.Stores s t) {chain : List EnvId} (hchain : s.HasChain e chain) :
    ∀ {f}, C.env e f → ∃ chain', t.HasChain f chain' ∧ List.Forall₂ C.env chain chain' := by
  induction hchain with
  | root hlive hparent =>
    intro f henv
    have hnone := h.parent? henv
    rw [hparent] at hnone
    have hparent' : t.parent? f = none := by
      generalize t.parent? f = y at hnone
      cases hnone
      rfl
    exact ⟨[f], .root (h.isLive henv ▸ hlive) hparent', .cons henv .nil⟩
  | @nested e parent chain hparent _ ih =>
    intro f henv
    have hsome := h.parent? henv
    rw [hparent] at hsome
    generalize hparent' : t.parent? f = y at hsome
    cases hsome with
    | some henv' =>
      obtain ⟨chain', hchain', hall⟩ := ih henv'
      exact ⟨f :: chain', .nested hparent' hchain', .cons henv hall⟩

theorem size_eq (h : C.Stores s t) (hsize : left.cells.size = right.cells.size) :
    s.cells.size = t.cells.size := by
  obtain ⟨count, hs, ht⟩ := h.sizes
  rw [hs, ht, hsize]

theorem lookup (h : C.Stores s t) (hname : C.name m n) (henv : C.env e f)
    (hstep : C.InStep s e) : Option.Rel C.Relates (s.lookup e m) (t.lookup f n) := by
  obtain hsize | ⟨chain, hchain⟩ := hstep
  · rw [Store.lookup, Store.lookup, h.size_eq hsize]
    exact h.lookupWithin hname _ henv
  · obtain ⟨chain', hchain', hall⟩ := h.hasChain hchain henv
    rw [hchain.lookup_eq, hchain'.lookup_eq, hall.length_eq]
    exact h.lookupWithin hname _ henv

theorem root (h : C.Stores s t) (henv : C.env e f) (hstep : C.InStep s e) :
    C.env (s.root e) (t.root f) := by
  obtain hsize | ⟨chain, hchain⟩ := hstep
  · rw [Store.root, Store.root, h.size_eq hsize]
    exact h.rootWithin _ henv
  · obtain ⟨chain', hchain', hall⟩ := h.hasChain hchain henv
    rw [hchain.root_eq, hchain'.root_eq, hall.length_eq]
    exact h.rootWithin _ henv

/-! ### Operations -/

theorem define (h : C.Stores s t) (henv : C.env e f) (hname : C.name m n) (hv : C.Relates v w) :
    C.Stores (s.define e m v) (t.define f n w) where
  sizes := by
    rw [Store.size_define, Store.size_define]
    exact h.sizes
  isLive henv' := by
    rw [Store.isLive_define, Store.isLive_define]
    exact h.isLive henv'
  bindings := by
    intro e' f' henv'
    simp only [Store.bindings_define, C.env_eq_iff henv' henv, h.isLive henv']
    split
    · exact (h.bindings henv').set hname hv
    · exact h.bindings henv'
  parent? henv' := by
    rw [Store.parent?_define, Store.parent?_define]
    exact h.parent? henv'
  left := h.left.define ⟨f, henv⟩ (C.visible hname).1 v
  right := h.right.define ⟨e, henv⟩ (C.visible hname).2 w

theorem defineAll {added added' : List (String × Value)} (h : C.Stores s t) (henv : C.env e f)
    (hadded : List.Forall₂ C.Pairs added added') :
    C.Stores (s.defineAll e added) (t.defineAll f added') := by
  induction hadded generalizing s t with
  | nil => exact h
  | cons hpair _ ih => exact ih (h.define henv hpair.name hpair.value)

/-- A new environment nested in the calling one, on both sides. -/
theorem alloc {bs cs : Bindings} (h : C.Stores s t) (henv : C.env e f)
    (hpairs : List.Forall₂ C.Pairs bs cs) :
    C.Stores (s.alloc ⟨bs, some e⟩).2 (t.alloc ⟨cs, some f⟩).2 where
  sizes := by
    obtain ⟨count, hs, ht⟩ := h.sizes
    refine ⟨count + 1, ?_, ?_⟩
    · rw [Store.size_alloc, hs]
      rfl
    · rw [Store.size_alloc, ht]
      rfl
  isLive := by
    intro e' f' henv'
    rw [Store.isLive_alloc, Store.isLive_alloc, h.isLive henv', beq_env henv' h.env_size]
  bindings := by
    intro e' f' henv'
    simp only [Store.bindings_alloc, C.env_eq_iff henv' h.env_size]
    split
    · exact binds_of_pairs hpairs
    · exact h.bindings henv'
  parent? := by
    intro e' f' henv'
    simp only [Store.parent?_alloc, C.env_eq_iff henv' h.env_size]
    split
    · simp only [Option.filter, h.isLive henv]
      split
      · exact .some henv
      · exact .none
    · exact h.parent? henv'
  left := h.left.alloc ⟨_, h.env_size⟩ (only_eq_nil_of_pairs hpairs).1
  right := h.right.alloc ⟨_, h.env_size⟩ (only_eq_nil_of_pairs hpairs).2

/-- Both sides release an environment that was made during the runs. -/
theorem release (h : C.Stores s t) (henv : C.env e f) (hleft : left.cells.size ≤ e)
    (hright : right.cells.size ≤ f) : C.Stores (s.release e) (t.release f) where
  sizes := by
    rw [Store.size_release, Store.size_release]
    exact h.sizes
  isLive := by
    intro e' f' henv'
    rw [Store.isLive_release, Store.isLive_release, h.isLive henv', bne, bne, beq_env henv' henv]
  bindings := by
    intro e' f' henv'
    simp only [Store.bindings_release, C.env_eq_iff henv' henv]
    split
    · exact .nil
    · exact h.bindings henv'
  parent? := by
    intro e' f' henv'
    simp only [Store.parent?_release, C.env_eq_iff henv' henv]
    split
    · exact .none
    · have hparent := h.parent? henv'
      generalize s.parent? e' = x, t.parent? f' = y at hparent
      cases hparent with
      | none => exact .none
      | @some parent parent' hparent =>
        simp only [Option.filter, bne, beq_env hparent henv]
        split
        · exact .some hparent
        · exact .none
  left := h.left.release ⟨f, henv⟩ hleft
  right := h.right.release ⟨e, henv⟩ hright

end Stores

namespace InStep

variable {s after : Store} {e : EnvId}

theorem congr (h : C.InStep s e) (hlink : ∀ e', after.link? e' = s.link? e') :
    C.InStep after e := by
  obtain hsize | ⟨chain, hchain⟩ := h
  · exact .inl hsize
  · exact .inr ⟨chain, hchain.congr hlink⟩

theorem alloc (h : C.InStep s e) (bindings : Bindings) :
    C.InStep (s.alloc ⟨bindings, some e⟩).2 s.cells.size := by
  obtain hsize | ⟨chain, hchain⟩ := h
  · exact .inl hsize
  · exact .inr ⟨_, hchain.alloc_nested bindings⟩

end InStep

theorem Stores.defineAllRoot {s t : Store} {e f : EnvId} {added added' : List (String × Value)}
    (h : C.Stores s t) (henv : C.env e f) (hstep : C.InStep s e)
    (hadded : List.Forall₂ C.Pairs added added') :
    C.Stores (s.defineAllRoot e added) (t.defineAllRoot f added') := by
  induction hadded generalizing s t with
  | nil => exact h
  | cons hpair _ ih =>
    refine ih (h.define (h.root henv hstep) hpair.name hpair.value) ?_
    exact hstep.congr fun e' => Store.link?_define ..

end Correspondence

end QuoteLisp
