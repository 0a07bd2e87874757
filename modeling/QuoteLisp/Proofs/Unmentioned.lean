import Mathlib.Logic.Relation
import QuoteLisp.Proofs.Translation

/-!
# Names that are not mentioned

If a name stands nowhere in a program, nor in what is bound to other names where the program can
look, then it does not matter whether the name is bound there, or to what. Any function that is
called can look up the names of its caller; but no operation makes a name out of anything else, so
the names of a run are those that it starts with.
-/

namespace QuoteLisp

namespace Store

/-- The environment is the first one or is reached from it through live links. -/
def OnChain (store : Store) (env : EnvId) : EnvId → Prop :=
  Relation.ReflTransGen (fun e parent => store.parent? e = some parent) env

/-- The stores differ at most in the bindings of one name in certain environments. -/
structure AgreeBut (name : String) (within : EnvId → Prop) (s t : Store) : Prop where
  size : s.cells.size = t.cells.size
  link? : ∀ e, s.link? e = t.link? e
  without : ∀ e, (s.bindings e).without (· == name) = (t.bindings e).without (· == name)
  outside : ∀ e, ¬ within e → s.bindings e = t.bindings e

end Store

/-- Names other than `z`, and environments that are on a chain or yet to be made, correspond to
themselves. -/
def Correspondence.unmentioned (z : String) (env : EnvId) (s t : Store)
    (hsize : s.cells.size = t.cells.size) : Correspondence s t where
  name m n := m = n ∧ m ≠ z
  env e f := e = f ∧ (s.OnChain env e ∨ s.cells.size ≤ e)
  link x y := x = y
  error d e := d = e
  hidden name := name == z
  name_eq_iff := by
    rintro m _ m' _ ⟨rfl, -⟩ ⟨rfl, -⟩
    rfl
  env_eq_iff := by
    rintro e _ e' _ ⟨rfl, -⟩ ⟨rfl, -⟩
    rfl
  visible := by
    rintro m _ ⟨rfl, hm⟩
    exact ⟨beq_false_of_ne hm, beq_false_of_ne hm⟩
  unmade count := ⟨by rw [hsize], .inr (Nat.le_add_right _ _)⟩
  link_none := Translation.id.link_none
  unbound := by
    rintro m _ ⟨rfl, -⟩
    rfl
  fault := Translation.id.fault

namespace Correspondence

variable {z : String} {env e : EnvId} {s t : Store} {hsize : s.cells.size = t.cells.size}
  {v w : Value}

theorem relates_self (hv : v.Avoids z) : (unmentioned z env s t hsize).Relates v v := by
  have hself : (unmentioned z env s t hsize).Relates v (v.translate .id) :=
    relates_translate (fun _ => rfl) (fun _ => rfl) fun part hpart name hname =>
      ⟨rfl, fun hz => hv part hpart (hz ▸ hname)⟩
  rwa [Value.translate_id] at hself

theorem eq_of_relates (h : (unmentioned z env s t hsize).Relates v w) : v = w := by
  have hsame : w = v.translate .id := by
    refine h.eq_translate ?_ Eq.symm Eq.symm
    rintro m _ ⟨rfl, -⟩
    rfl
  rw [hsame, Value.translate_id]

theorem without_eq_of_binds {bs cs : Bindings} (h : (unmentioned z env s t hsize).Binds bs cs) :
    bs.without (· == z) = cs.without (· == z) := by
  rw [← List.forall₂_eq_eq_eq]
  exact List.Forall₂.imp (fun _ _ hpair => Prod.ext hpair.name.1 (eq_of_relates hpair.value)) h

theorem onChain_of_env {f : EnvId} (henv : (unmentioned z env s t hsize).env e f)
    (hlive : s.isLive e = true) : s.OnChain env e :=
  henv.2.resolve_right (Nat.not_le.2 (Store.lt_size_of_isLive hlive))

theorem unmentioned_stores (hst : s.AgreeBut z (s.OnChain env) t)
    (hbound : ∀ e, s.OnChain env e → ∀ binding ∈ s.bindings e, binding.1 ≠ z →
      binding.2.Avoids z) :
    (unmentioned z env s t hst.size).Stores s t := by
  refine .start (fun e => (hst.link? e).symm) (fun henv => .inl henv.1) ?_ ?_
  · intro e henv hlive
    have hchain := onChain_of_env henv hlive
    show List.Forall₂ _ ((s.bindings e).without (· == z)) ((t.bindings e).without (· == z))
    rw [← hst.without]
    refine List.forall₂_same.2 fun binding hmem => ?_
    obtain ⟨hmem, hvisible⟩ := List.mem_filter.1 hmem
    have hne : binding.1 ≠ z := by simpa using hvisible
    exact .intro ⟨rfl, hne⟩ (relates_self (hbound e hchain binding hmem hne))
  · intro e parent henv hparent
    have hchain := onChain_of_env henv (Store.isLive_of_parent? hparent)
    exact ⟨rfl, .inl (hchain.tail hparent)⟩

variable {x y : Value × Store}

theorem bindings_eq_of_results (hst : s.AgreeBut z (s.OnChain env) t)
    (h : (unmentioned z env s t hst.size).Results (unmentioned z env s t hst.size).Relates s t
      x y) (hother : ¬ s.OnChain env e) : x.2.bindings e = y.2.bindings e := by
  by_cases hunmade : s.cells.size ≤ e
  · -- an environment made on the way does not live any more
    have hleft : x.2.isLive e = false :=
      (Store.isLive_congr (h.left e)).trans (Store.isLive_of_size_le hunmade)
    have hright : y.2.isLive e = false :=
      (Store.isLive_congr (h.right e)).trans (Store.isLive_of_size_le (hst.size ▸ hunmade))
    rw [Store.bindings_eq_nil hleft, Store.bindings_eq_nil hright]
  · have hshared : ¬ (s.OnChain env e ∨ s.cells.size ≤ e) := not_or.2 ⟨hother, hunmade⟩
    rw [h.stores.left.outside e fun ⟨_, _, henv⟩ => hshared henv,
      h.stores.right.outside e fun ⟨_, hsame, henv⟩ => hshared (hsame ▸ henv), hst.outside e hother]

/-- What both evaluations leave behind differs at most where the stores did at the start. -/
theorem agreeBut_of_results (hst : s.AgreeBut z (s.OnChain env) t)
    (h : (unmentioned z env s t hst.size).Results (unmentioned z env s t hst.size).Relates s t
      x y) : x.2.AgreeBut z (s.OnChain env) y.2 where
  size := h.stores.size_eq hst.size
  link? e := by rw [h.left, h.right, hst.link?]
  without e := by
    by_cases hchain : s.OnChain env e
    · exact without_eq_of_binds (h.stores.bindings ⟨rfl, .inl hchain⟩)
    · rw [bindings_eq_of_results hst h hchain]
  outside e hother := bindings_eq_of_results hst h hother

end Correspondence

open Correspondence

/-- A name that the value does not mention, nor anything bound to another name on the chain of the
environment, is irrelevant. If two stores differ at most in whether and to what it is bound on the
chain, then one evaluation finishes within a bound if and only if the other does, with the same
result. The stores they leave behind differ no more than those they started from, and in both the
bindings of the name are as they were. -/
theorem eval_of_unmentioned {z : String} {env : EnvId} {v : Value} {s t : Store}
    (hv : v.Avoids z)
    (hbound : ∀ e, s.OnChain env e → ∀ binding ∈ s.bindings e, binding.1 ≠ z →
      binding.2.Avoids z)
    (hst : s.AgreeBut z (s.OnChain env) t) (depth : Nat) :
    Option.Rel (fun x y => x.1 = y.1 ∧ x.2.AgreeBut z (s.OnChain env) y.2 ∧
        ∀ e, (x.2.bindings e).only (· == z) = (s.bindings e).only (· == z) ∧
          (y.2.bindings e).only (· == z) = (t.bindings e).only (· == z))
      (eval depth env v s) (eval depth env v t) := by
  have henv : (unmentioned z env s t hst.size).env env env := ⟨rfl, .inl .refl⟩
  have hstores := unmentioned_stores hst hbound
  have hrun := (unmentioned z env s t hst.size).simulates_eval depth henv (relates_self hv) hstores
    (.inl hst.size)
  refine rel_mono hrun fun x y hresults => ?_
  exact ⟨eq_of_relates hresults.result, agreeBut_of_results hst hresults,
    fun e => ⟨hresults.stores.left.only e, hresults.stores.right.only e⟩⟩

/-- A call from a nested environment defines a name at the root. In one store `z` is bound in the
nested environment, in the other at the root and to a value that mentions it. -/
theorem eval_of_unmentioned_bound_elsewhere :
    let chain (below above : Bindings) :=
      ((Store.empty.alloc ⟨("def", .ofPrimitive .define) :: above ++
        [("f", .lambda ["x"] [.symbol "def", .qexpr [.symbol "y"], .symbol "x"])], none⟩).2.alloc
        ⟨below, some 0⟩).2
    let s := chain [("z", .number 1)] []
    let t := chain [] [("z", .symbol "z")]
    let v := Value.sexpr [.symbol "f", .number 7]
    s.AgreeBut "z" (s.OnChain 1) t ∧ s.bindings 1 ≠ t.bindings 1 ∧ s.bindings 0 ≠ t.bindings 0 ∧
      (eval 4 1 v s).map (fun x => x.2.lookup 0 "y") = some (some (.number 7)) ∧
      Option.Rel (fun x y => x.1 = y.1 ∧ x.2.AgreeBut "z" (s.OnChain 1) y.2 ∧
          ∀ e, (x.2.bindings e).only (· == "z") = (s.bindings e).only (· == "z") ∧
            (y.2.bindings e).only (· == "z") = (t.bindings e).only (· == "z"))
        (eval 4 1 v s) (eval 4 1 v t) := by
  intro chain s t v
  have hroot : s.OnChain 1 0 := .single rfl
  have hagree : s.AgreeBut "z" (s.OnChain 1) t := by
    constructor
    · rfl
    · rintro (_ | _ | e) <;> rfl
    · rintro (_ | _ | e) <;> rfl
    · rintro (_ | _ | e) hother
      · exact absurd hroot hother
      · exact absurd .refl hother
      · rfl
  have hv : v.Avoids "z" := by simp [v, Value.Avoids, Value.ownNames]
  have hbound : ∀ e, s.OnChain 1 e → ∀ binding ∈ s.bindings e, binding.1 ≠ "z" →
      binding.2.Avoids "z" := by
    rintro (_ | _ | e) - binding hmem hne
    · rcases List.mem_cons.1 hmem with rfl | hmem
      · simp [Value.Avoids, Value.ownNames, Value.ofPrimitive]
      · obtain rfl := List.mem_singleton.1 hmem
        simp [Value.Avoids, Value.ownNames, Value.lambda, Bindings.names]
    · obtain rfl := List.mem_singleton.1 hmem
      exact absurd rfl hne
    · cases hmem
  refine ⟨hagree, ?_, ?_, rfl, eval_of_unmentioned hv hbound hagree 4⟩
  · intro h
    cases h
  · intro h
    have hlength : 2 = 3 := congrArg List.length h
    omega

end QuoteLisp
