import QuoteLisp.Proofs.Translation
import QuoteLisp.Value.Equality

/-!
# Equality is a congruence for evaluation

Equal values may differ in the links of their closures. No evaluation tells them apart: from equal
values, in stores with the same environments and pairwise equal bindings, it comes to equal results
and to such stores again, provided that a name is never registered for two operations. What has been
made and released before does not count, so the two stores need not have the same history.
-/

namespace QuoteLisp

/-! ## Equal values -/

namespace Value

theorem beqItems_iff {xs ys : List Value} :
    beqItems xs ys = true ↔ List.Forall₂ (fun x y => beq x y = true) xs ys := by
  induction xs generalizing ys with
  | nil => cases ys <;> simp [beqItems]
  | cons x xs ih => cases ys <;> simp [beqItems, ih]

theorem beqBindings_iff {xs ys : Bindings} :
    beqBindings xs ys = true ↔
      List.Forall₂ (fun x y => x.1 = y.1 ∧ beq x.2 y.2 = true) xs ys := by
  induction xs generalizing ys with
  | nil => cases ys <;> simp [beqBindings]
  | cons x xs ih => cases ys <;> simp [beqBindings, ih]

/-- Builtin functions of one name in the two values are the same operation. -/
def SameBuiltins (v w : Value) : Prop :=
  ∀ b c : Builtin, (builtin b).Within v → (builtin c).Within w → b.name = c.name →
    b.primitive = c.primitive

end Value

theorem forall₂_imp_of_mem {α β : Type} {R S : α → β → Prop} {xs : List α} {ys : List β}
    (h : List.Forall₂ R xs ys) (himp : ∀ x ∈ xs, ∀ y ∈ ys, R x y → S x y) :
    List.Forall₂ S xs ys := by
  induction h with
  | nil => exact .nil
  | cons hxy _ ih =>
    refine .cons (himp _ List.mem_cons_self _ List.mem_cons_self hxy) (ih fun x hx y hy => ?_)
    exact himp x (List.mem_cons_of_mem _ hx) y (List.mem_cons_of_mem _ hy)

namespace Correspondence

variable {left right : Store} {C : Correspondence left right} {v w : Value}

theorem relates_of_beq (hname : ∀ n, C.name n n) (hlink : ∀ x y, C.link x y)
    (herror : ∀ e, C.error e e) (hvw : v.beq w = true) (hbuiltins : v.SameBuiltins w) :
    C.Relates v w := by
  induction v using Value.induct generalizing w with
  | number n =>
    cases w with
    | number n' =>
      obtain rfl : n = n' := by simpa [Value.beq] using hvw
      exact .number n
    | _ => simp [Value.beq] at hvw
  | string text =>
    cases w with
    | string text' =>
      obtain rfl : text = text' := by simpa [Value.beq] using hvw
      exact .string text
    | _ => simp [Value.beq] at hvw
  | symbol name =>
    cases w with
    | symbol name' =>
      obtain rfl : name = name' := by simpa [Value.beq] using hvw
      exact .symbol (hname name)
    | _ => simp [Value.beq] at hvw
  | error e =>
    cases w with
    | error e' =>
      obtain rfl : e = e' := by simpa [Value.beq] using hvw
      exact .error (herror e)
    | _ => simp [Value.beq] at hvw
  | sexpr xs ih =>
    cases w with
    | sexpr ys =>
      rw [Value.beq, Value.beqItems_iff] at hvw
      refine .sexpr (forall₂_imp_of_mem hvw fun x hx y hy hxy => ih x hx hxy ?_)
      exact fun b c hb hc => hbuiltins b c (.sexpr hx hb) (.sexpr hy hc)
    | _ => simp [Value.beq] at hvw
  | qexpr xs ih =>
    cases w with
    | qexpr ys =>
      rw [Value.beq, Value.beqItems_iff] at hvw
      refine .qexpr (forall₂_imp_of_mem hvw fun x hx y hy hxy => ih x hx hxy ?_)
      exact fun b c hb hc => hbuiltins b c (.qexpr hx hb) (.qexpr hy hc)
    | _ => simp [Value.beq] at hvw
  | builtin b =>
    cases w with
    | builtin c =>
      have hnames : b.name = c.name := by simpa [Value.beq] using hvw
      have hprimitive : b.primitive = c.primitive := hbuiltins b c .self .self hnames
      obtain rfl : b = c := by
        cases b
        cases c
        simp_all
      exact .builtin b
    | _ => simp [Value.beq] at hvw
  | closure formals body captured link hbody hcaptured =>
    cases w with
    | closure formals' body' captured' link' =>
      rw [Value.beq, Bool.and_eq_true, Bool.and_eq_true, Value.beqItems_iff,
        Value.beqBindings_iff, beq_iff_eq] at hvw
      obtain ⟨⟨rfl, hbody'⟩, hcaptured'⟩ := hvw
      refine .closure (List.forall₂_same.2 fun name _ => hname name) ?_ ?_ (hlink link link')
      · refine forall₂_imp_of_mem hbody' fun x hx y hy hxy => hbody x hx hxy ?_
        exact fun b c hb hc => hbuiltins b c (.body hx hb) (.body hy hc)
      · refine forall₂_imp_of_mem hcaptured' fun x hx y hy hxy => ?_
        obtain ⟨m, v⟩ := x
        obtain ⟨n, w⟩ := y
        obtain ⟨rfl : m = n, hvalue⟩ := hxy
        refine .intro (hname m) (hcaptured (m, v) hx hvalue ?_)
        exact fun b c hb hc => hbuiltins b c (.captured hx hb) (.captured hy hc)
    | _ => simp [Value.beq] at hvw

theorem Relates.beq_eq_true (hname : ∀ {m n}, C.name m n → m = n)
    (herror : ∀ {d e}, C.error d e → d = e) (h : C.Relates v w) : v.beq w = true := by
  induction v using Value.induct generalizing w with
  | number | string | builtin =>
    cases h
    simp [Value.beq]
  | symbol name =>
    cases h with
    | symbol h => simp [Value.beq, hname h]
  | error e =>
    cases h with
    | error h => simp [Value.beq, herror h]
  | sexpr xs ih =>
    cases h with
    | sexpr hitems =>
      rw [Value.beq, Value.beqItems_iff]
      exact forall₂_imp_of_mem hitems fun x hx _ _ => ih x hx
  | qexpr xs ih =>
    cases h with
    | qexpr hitems =>
      rw [Value.beq, Value.beqItems_iff]
      exact forall₂_imp_of_mem hitems fun x hx _ _ => ih x hx
  | closure formals body captured link hbody hcaptured =>
    cases h with
    | @closure _ formals' _ _ _ _ _ _ hformals' hbody' hcaptured' _ =>
      obtain rfl : formals = formals' := List.forall₂_eq_eq_eq ▸ hformals'.imp fun _ _ => hname
      rw [Value.beq, Bool.and_eq_true, Bool.and_eq_true, Value.beqItems_iff,
        Value.beqBindings_iff, beq_iff_eq]
      refine ⟨⟨rfl, forall₂_imp_of_mem hbody' fun x hx _ _ => hbody x hx⟩, ?_⟩
      exact forall₂_imp_of_mem hcaptured' fun x hx _ _ hpair =>
        ⟨hname hpair.name, hcaptured x hx hpair.value⟩

end Correspondence

/-! ## Equal stores -/

namespace Store

/-- The same environments live, with the same links and with bindings that are equal pairwise. -/
structure Equal (s t : Store) : Prop where
  link? : ∀ e, s.link? e = t.link? e
  bindings : ∀ e, Value.beqBindings (s.bindings e) (t.bindings e) = true

theorem Equal.isLive {s t : Store} (h : s.Equal t) (e : EnvId) : s.isLive e = t.isLive e :=
  isLive_congr (h.link? e)

/-- The value occurs in one that is bound in a live environment. -/
def Holds (store : Store) (part : Value) : Prop :=
  ∃ env, ∃ binding ∈ store.bindings env, part.Within binding.2

end Store

/-! ## Correspondence of equal stores -/

/-- Numbers below both bounds stand for themselves, and those from the bounds on for each other in
turn. -/
def InTurn (a b m n : Nat) : Prop :=
  (m = n ∧ m < a ∧ n < b) ∨ ∃ count, m = a + count ∧ n = b + count

theorem InTurn.eq_iff {a b m n m' n' : Nat} (h : InTurn a b m n) (h' : InTurn a b m' n') :
    m = m' ↔ n = n' := by
  rcases h with ⟨rfl, ha, hb⟩ | ⟨count, rfl, rfl⟩ <;>
    rcases h' with ⟨rfl, ha', hb'⟩ | ⟨count', rfl, rfl⟩ <;> omega

theorem inTurn_self {a m : Nat} : InTurn a a m m := by
  rcases Nat.lt_or_ge m a with hlt | hge
  · exact .inl ⟨rfl, hlt, hlt⟩
  · exact .inr ⟨m - a, by omega, by omega⟩

namespace Correspondence

/-- Environments that have been made in both stores correspond to themselves, and those that will be
made to each other. Links of closures do not count. -/
def equality (s t : Store) : Correspondence s t where
  name m n := m = n
  env e f := InTurn s.cells.size t.cells.size e f
  link _ _ := True
  error d e := d = e
  hidden _ := false
  name_eq_iff := by
    rintro m _ m' _ rfl rfl
    rfl
  env_eq_iff h h' := h.eq_iff h'
  visible _ := ⟨rfl, rfl⟩
  unmade count := .inr ⟨count, rfl, rfl⟩
  link_none := trivial
  unbound := by
    rintro m _ rfl
    rfl
  fault := Translation.id.fault

variable {s t : Store} {v w : Value} {e : EnvId}

theorem equality_relates (hvw : v.beq w = true) (hbuiltins : v.SameBuiltins w) :
    (equality s t).Relates v w :=
  relates_of_beq (fun _ => rfl) (fun _ _ => trivial) (fun _ => rfl) hvw hbuiltins

theorem equality_pairs {bs cs : Bindings} (hequal : Value.beqBindings bs cs = true)
    (hbuiltins : ∀ b ∈ bs, ∀ c ∈ cs, b.2.SameBuiltins c.2) :
    List.Forall₂ (equality s t).Pairs bs cs := by
  refine forall₂_imp_of_mem (Value.beqBindings_iff.1 hequal) fun b hb c hc hbc => ?_
  have hvalue : (equality s t).Relates b.2 c.2 := equality_relates hbc.2 (hbuiltins b hb c hc)
  exact .intro hbc.1 hvalue

theorem beqBindings_of_equality_binds {bs cs : Bindings} (h : (equality s t).Binds bs cs) :
    Value.beqBindings bs cs = true := by
  rw [binds_iff_of_forall_visible fun _ => rfl] at h
  refine Value.beqBindings_iff.2 (h.imp fun b c hpair => ⟨hpair.name, ?_⟩)
  exact hpair.value.beq_eq_true (fun h => h) (fun h => h)

/-- An environment that lives in both stores corresponds to itself. -/
theorem equality_env (hs : s.isLive e = true) (ht : t.isLive e = true) :
    (equality s t).env e e :=
  .inl ⟨rfl, Store.lt_size_of_isLive hs, Store.lt_size_of_isLive ht⟩

theorem equality_stores (hst : s.Equal t)
    (hbuiltins : ∀ e, ∀ b ∈ s.bindings e, ∀ c ∈ t.bindings e, b.2.SameBuiltins c.2) :
    (equality s t).Stores s t := by
  refine .start (fun e => (hst.link? e).symm) ?_ ?_ ?_
  · rintro e f (⟨rfl, -, -⟩ | ⟨count, rfl, rfl⟩)
    · exact .inl rfl
    · exact .inr ⟨Store.isLive_of_size_le (Nat.le_add_right _ _),
        Store.isLive_of_size_le (Nat.le_add_right _ _)⟩
  · intro e _ _
    exact binds_of_pairs (equality_pairs (hst.bindings e) (hbuiltins e))
  · intro e parent _ hparent
    have hlive := (Store.parent?_eq_some_iff.1 hparent).2
    exact equality_env hlive ((hst.isLive parent).symm.trans hlive)

end Correspondence

open Correspondence

/-- What both evaluations of equal values come to is equal again. -/
theorem equal_of_results {s t : Store} (hst : s.Equal t) {x y : Value × Store}
    (h : (equality s t).Results (equality s t).Relates s t x y) :
    (x.1 == y.1) = true ∧ x.2.Equal y.2 := by
  refine ⟨h.result.beq_eq_true (fun h => h) (fun h => h), fun e => ?_, fun e => ?_⟩
  · rw [h.left, h.right, hst.link?]
  · have hlive : x.2.isLive e = s.isLive e := Store.isLive_congr (h.left e)
    have hlive' : y.2.isLive e = t.isLive e := Store.isLive_congr (h.right e)
    rw [← hst.isLive] at hlive'
    cases hs : s.isLive e with
    | false =>
      rw [Store.bindings_eq_nil (hlive.trans hs), Store.bindings_eq_nil (hlive'.trans hs)]
      rfl
    | true =>
      have ht : t.isLive e = true := (hst.isLive e).symm.trans hs
      exact beqBindings_of_equality_binds (h.stores.bindings (equality_env hs ht))

/-! ## Links of closures -/

/-- Leads every link of a closure elsewhere, or cuts it. -/
def Translation.relink (g : EnvId → Option EnvId) : Translation :=
  { Translation.id with
    link := fun link => link.bind g
    link_none := Option.bind_none g }

def Value.relink (g : EnvId → Option EnvId) (v : Value) : Value := v.translate (.relink g)

/-- Changes the links of closures that are bound. The links of environments stay. -/
def Store.relink (g : EnvId → Option EnvId) (store : Store) : Store := store.translate (.relink g)

/-- Equal values evaluate to equal values. The two stores have the same live environments with the
same links and equal bindings, and leave such stores behind; and one evaluation finishes within a
bound if and only if the other does. A name is assumed not to be registered for two operations, and
the chain of the environment to end, as it does where links form no cycle, unless both stores have
made the same number of environments. The links of closures count for nothing at all: whatever they
are changed to, the evaluation is the same but for them. -/
theorem eval_congr :
    (∀ (s t : Store) (env : EnvId) (v w : Value), s.Equal t → (v == w) = true →
      (s.cells.size = t.cells.size ∨ ∃ chain, s.HasChain env chain) →
      (∀ b c : Builtin, ((Value.builtin b).Within v ∨ s.Holds (.builtin b)) →
        ((Value.builtin c).Within w ∨ t.Holds (.builtin c)) → b.name = c.name →
        b.primitive = c.primitive) →
      ∀ depth, Option.Rel (fun x y => (x.1 == y.1) = true ∧ x.2.Equal y.2)
        (eval depth env v s) (eval depth env w t)) ∧
    ∀ g depth env v store, eval depth env (v.relink g) (store.relink g) =
      (eval depth env v store).map fun x => (x.1.relink g, x.2.relink g) := by
  refine ⟨?_, fun g => (Translation.relink g).eval_translate⟩
  intro s t env v w hst hvw hends hbuiltins depth
  have henv : (equality s t).env env env := by
    obtain hsize | ⟨chain, hchain⟩ := hends
    · show InTurn s.cells.size t.cells.size env env
      rw [hsize]
      exact inTurn_self
    · exact equality_env hchain.isLive ((hst.isLive env).symm.trans hchain.isLive)
  have hvalues : (equality s t).Relates v w :=
    equality_relates hvw fun b c hb hc => hbuiltins b c (.inl hb) (.inl hc)
  have hstores : (equality s t).Stores s t := by
    refine equality_stores hst fun e x hx y hy b c hb hc => ?_
    exact hbuiltins b c (.inr ⟨e, x, hx, hb⟩) (.inr ⟨e, y, hy, hc⟩)
  have hrun := (equality s t).simulates_eval depth henv hvalues hstores hends
  exact rel_mono hrun fun x y hresults => equal_of_results hst hresults

/-- A root that binds a closure linked to it, and one that binds a closure without a link and has
made and released another environment. -/
theorem eval_congr_of_other_link_and_history :
    let root (link : Option EnvId) := (Store.empty.alloc ⟨[("list", .ofPrimitive .list),
      ("f", .closure ["x"] [.symbol "list", .symbol "x", .symbol "k"] [("k", .number 1)] link)],
      none⟩).2
    let other := ((root none).alloc .empty).2.release 1
    let v := Value.sexpr [.symbol "f", .number 7]
    (root (some 0)).Equal other ∧ (root (some 0)).HasChain 0 [0] ∧
      (eval 4 0 v (root (some 0))).map Prod.fst = some (.qexpr [.number 7, .number 1]) ∧
      Option.Rel (fun x y => (x.1 == y.1) = true ∧ x.2.Equal y.2)
        (eval 4 0 v (root (some 0))) (eval 4 0 v other) := by
  intro root other v
  have hequal : (root (some 0)).Equal other := by
    constructor
    · rintro (_ | _ | e) <;> rfl
    · rintro (_ | _ | e) <;> rfl
  have hchain : (root (some 0)).HasChain 0 [0] := .root rfl rfl
  -- the only builtin function on either side is `list`
  let IsList (part : Value) : Prop := ∀ b, part = .builtin b → b = ⟨"list", .list⟩
  have hbound : ∀ link, ∀ binding ∈ (root link).bindings 0, binding.2.Everywhere IsList := by
    intro link binding hmem
    rcases List.mem_cons.1 hmem with rfl | hmem
    · simp [IsList, Value.ofPrimitive, Primitive.name, eq_comm]
    · obtain rfl := List.mem_singleton.1 hmem
      simp [IsList]
  have hv : v.Everywhere IsList := by simp [v, IsList]
  have hleft : ∀ b, ((Value.builtin b).Within v ∨ (root (some 0)).Holds (.builtin b)) →
      b = ⟨"list", .list⟩ := by
    rintro b (hpart | ⟨_ | e, binding, hmem, hpart⟩)
    · exact hv _ hpart b rfl
    · exact hbound _ binding hmem _ hpart b rfl
    · cases hmem
  have hright : ∀ b, ((Value.builtin b).Within v ∨ other.Holds (.builtin b)) →
      b = ⟨"list", .list⟩ := by
    rintro b (hpart | ⟨_ | _ | e, binding, hmem, hpart⟩)
    · exact hv _ hpart b rfl
    · exact hbound none binding hmem _ hpart b rfl
    · cases hmem
    · cases hmem
  refine ⟨hequal, hchain, rfl, eval_congr.1 _ _ 0 v v hequal rfl (.inr ⟨_, hchain⟩) ?_ 4⟩
  intro b c hb hc _
  rw [hleft b hb, hright c hc]

end QuoteLisp
