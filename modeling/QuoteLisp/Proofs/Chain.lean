import Mathlib.Data.Fintype.EquivFin
import Mathlib.Data.List.Perm.Subperm
import QuoteLisp.Store

/-!
# Chains of environments

The chain of an environment lists the environments that its live links lead through, itself first
and its root last. Where links form no cycle every live environment has a chain, and it has no
other. A chain holds no environment twice, so it is no longer than the store is large, and the
bounded search for a root ends at the last environment of the chain.
-/

namespace QuoteLisp.Store

variable {store : Store} {env parent root : EnvId} {chain : List EnvId} {scope : Scope}

/-! ## Links -/

/-- The link of a live environment, alive or not. -/
def link? (store : Store) (env : EnvId) : Option (Option EnvId) :=
  (store.scope? env).map Scope.parent

theorem isLive_eq_isSome_link? (store : Store) (env : EnvId) :
    store.isLive env = (store.link? env).isSome := by
  rw [isLive, link?, Option.isSome_map]

theorem lt_size_of_isLive (hlive : store.isLive env = true) : env < store.cells.size := by
  obtain ⟨scope, hscope⟩ := Option.isSome_iff_exists.1 hlive
  exact lt_size_of_scope? hscope

theorem parent?_eq_bind_link? (store : Store) (env : EnvId) :
    store.parent? env = (store.link? env).bind fun link => link.filter store.isLive := by
  rw [parent?, link?, Option.bind_map]
  rfl

theorem parent?_eq_some_iff :
    store.parent? env = some parent ↔
      store.link? env = some (some parent) ∧ store.isLive parent = true := by
  rw [parent?_eq_bind_link?, Option.bind_eq_some_iff]
  constructor
  · rintro ⟨link, hlink, hparent⟩
    obtain ⟨rfl, hlive⟩ := Option.filter_eq_some_iff.1 hparent
    exact ⟨hlink, hlive⟩
  · rintro ⟨hlink, hlive⟩
    exact ⟨some parent, hlink, Option.filter_eq_some_iff.2 ⟨rfl, hlive⟩⟩

theorem isLive_of_parent? (hparent : store.parent? env = some parent) :
    store.isLive env = true := by
  rw [isLive_eq_isSome_link?, (parent?_eq_some_iff.1 hparent).1]
  rfl

/-- Live links are decided by the links of all environments. -/
theorem parent?_congr {after : Store} (hlink : ∀ e, after.link? e = store.link? e) (env : EnvId) :
    after.parent? env = store.parent? env := by
  have hlive : after.isLive = store.isLive := by
    funext e
    rw [isLive_eq_isSome_link?, isLive_eq_isSome_link?, hlink e]
  rw [parent?_eq_bind_link?, parent?_eq_bind_link?, hlink env, hlive]

/-- A new environment revives no link, because no link leads to it yet. -/
theorem parent?_alloc_of_lt (scope : Scope) (hlt : env < store.cells.size) :
    (store.alloc scope).2.parent? env = store.parent? env := by
  rw [parent?, parent?, scope?_alloc_of_lt scope hlt]
  cases hscope : store.scope? env with
  | none => rfl
  | some old =>
    rw [Option.bind_some, Option.bind_some]
    cases hparent : old.parent with
    | none => rfl
    | some parent =>
      have hmade : parent < store.cells.size := parent_lt_size hscope hparent
      have hlive : (store.alloc scope).2.isLive parent = store.isLive parent := by
        rw [isLive, isLive, scope?_alloc_of_lt scope hmade]
      simp only [Option.filter, hlive]

/-! ## Chains -/

/-- The environments on the way from one to its root, both included. -/
inductive HasChain (store : Store) : EnvId → List EnvId → Prop
  | root {root : EnvId} (hlive : store.isLive root = true) (hparent : store.parent? root = none) :
    HasChain store root [root]
  | nested {env parent : EnvId} {chain : List EnvId} (hparent : store.parent? env = some parent)
    (hchain : HasChain store parent chain) : HasChain store env (env :: chain)

namespace HasChain

theorem isLive (hchain : store.HasChain env chain) : store.isLive env = true := by
  cases hchain with
  | root hlive => exact hlive
  | nested hparent => exact isLive_of_parent? hparent

theorem eq_cons (hchain : store.HasChain env chain) : ∃ above, chain = env :: above := by
  cases hchain with
  | root => exact ⟨[], rfl⟩
  | nested => exact ⟨_, rfl⟩

theorem unique {other : List EnvId} (hchain : store.HasChain env chain)
    (hother : store.HasChain env other) : chain = other := by
  induction hchain generalizing other with
  | root _ hroot =>
    cases hother with
    | root => rfl
    | nested hparent => rw [hroot] at hparent; cases hparent
  | nested hparent _ ih =>
    cases hother with
    | root _ hroot => rw [hparent] at hroot; cases hroot
    | nested hparent' hother =>
      rw [hparent] at hparent'
      cases hparent'
      rw [ih hother]

/-- The chain of an environment on a chain is the rest of that chain. -/
theorem suffix_of_mem (hchain : store.HasChain env chain) {e : EnvId} (he : e ∈ chain) :
    ∃ rest, rest <:+ chain ∧ store.HasChain e rest := by
  induction hchain with
  | root hlive hroot =>
    obtain rfl := List.mem_singleton.1 he
    exact ⟨_, List.suffix_rfl, .root hlive hroot⟩
  | nested hparent hchain ih =>
    rcases List.mem_cons.1 he with rfl | he
    · exact ⟨_, List.suffix_rfl, .nested hparent hchain⟩
    · obtain ⟨rest, hrest, hrestChain⟩ := ih he
      exact ⟨rest, hrest.trans (List.suffix_cons _ _), hrestChain⟩

theorem isLive_of_mem (hchain : store.HasChain env chain) {e : EnvId} (he : e ∈ chain) :
    store.isLive e = true := by
  obtain ⟨rest, -, hrest⟩ := hchain.suffix_of_mem he
  exact hrest.isLive

theorem nodup (hchain : store.HasChain env chain) : chain.Nodup := by
  induction hchain with
  | root => exact List.nodup_singleton _
  | @nested env parent above hparent habove ih =>
    refine List.nodup_cons.2 ⟨fun hmem => ?_, ih⟩
    -- the chain of `env` cannot stand inside the part of it above `env`
    obtain ⟨rest, hrest, hrestChain⟩ := habove.suffix_of_mem hmem
    have hsame : rest = env :: above := hrestChain.unique (.nested hparent habove)
    have hlength : rest.length ≤ above.length := hrest.length_le
    rw [hsame, List.length_cons] at hlength
    omega

theorem length_le_size (hchain : store.HasChain env chain) : chain.length ≤ store.cells.size := by
  -- no environment twice, and each one of those ever made
  have hsubset : chain ⊆ List.range store.cells.size := by
    intro e he
    exact List.mem_range.2 (lt_size_of_isLive (hchain.isLive_of_mem he))
  have hlength := (hchain.nodup.subperm hsubset).length_le
  rwa [List.length_range] at hlength

theorem parent?_getLast? (hchain : store.HasChain env chain) (hroot : chain.getLast? = some root) :
    store.parent? root = none := by
  induction hchain with
  | root _ hparent =>
    cases hroot
    exact hparent
  | nested _ hchain ih =>
    obtain ⟨above, rfl⟩ := hchain.eq_cons
    exact ih (by rwa [List.getLast?_cons_cons] at hroot)

theorem getLast?_eq_rootWithin (hchain : store.HasChain env chain) :
    ∀ steps, chain.length ≤ steps + 1 → chain.getLast? = some (store.rootWithin steps env) := by
  induction hchain with
  | root _ hparent =>
    intro steps _
    cases steps with
    | zero => rfl
    | succ steps => simp only [rootWithin, hparent, List.getLast?_singleton]
  | nested hparent hchain ih =>
    intro steps hsteps
    obtain ⟨above, rfl⟩ := hchain.eq_cons
    cases steps with
    | zero => simp only [List.length_cons] at hsteps; omega
    | succ steps =>
      rw [rootWithin, hparent, List.getLast?_cons_cons]
      exact ih steps (by simp only [List.length_cons] at hsteps ⊢; omega)

/-- A chain ends where the search for the root does. -/
theorem getLast?_eq_root (hchain : store.HasChain env chain) :
    chain.getLast? = some (store.root env) :=
  hchain.getLast?_eq_rootWithin _ (Nat.le_succ_of_le hchain.length_le_size)

theorem root_of_getLast? (hchain : store.HasChain env chain) (hroot : chain.getLast? = some root) :
    store.root env = root := by
  have hlast := hchain.getLast?_eq_root
  rw [hroot] at hlast
  exact (Option.some.inj hlast).symm

/-- On a chain only the last environment has no live link. -/
theorem exists_parent? (hchain : store.HasChain env chain) (hroot : chain.getLast? = some root)
    {e : EnvId} (he : e ∈ chain) (hne : e ≠ root) :
    ∃ parent ∈ chain, store.parent? e = some parent := by
  induction hchain with
  | root =>
    cases hroot
    exact absurd (List.mem_singleton.1 he) hne
  | nested hparent hchain ih =>
    obtain ⟨above, rfl⟩ := hchain.eq_cons
    rcases List.mem_cons.1 he with rfl | he
    · exact ⟨_, List.mem_cons_of_mem _ List.mem_cons_self, hparent⟩
    · obtain ⟨parent, hmem, hparent⟩ := ih (by rwa [List.getLast?_cons_cons] at hroot) he
      exact ⟨parent, List.mem_cons_of_mem _ hmem, hparent⟩

theorem congr {after : Store} (hlink : ∀ e, after.link? e = store.link? e)
    (hchain : store.HasChain env chain) : after.HasChain env chain := by
  induction hchain with
  | @root root hlive hparent =>
    refine .root ?_ (by rw [parent?_congr hlink, hparent])
    rw [isLive_eq_isSome_link?, hlink, ← isLive_eq_isSome_link?, hlive]
  | nested hparent _ ih => exact .nested (by rw [parent?_congr hlink, hparent]) ih

theorem alloc (hchain : store.HasChain env chain) (scope : Scope) :
    (store.alloc scope).2.HasChain env chain := by
  induction hchain with
  | @root root hlive hparent =>
    have hlt := lt_size_of_isLive hlive
    refine .root ?_ (by rw [parent?_alloc_of_lt scope hlt, hparent])
    rw [Store.isLive, scope?_alloc_of_lt scope hlt]
    exact hlive
  | @nested env parent chain hparent _ ih =>
    have hlt := lt_size_of_isLive (isLive_of_parent? hparent)
    exact .nested (by rw [parent?_alloc_of_lt scope hlt, hparent]) ih

/-- A new environment nested in one with a chain comes first on that chain. -/
theorem alloc_nested (hchain : store.HasChain env chain) (bindings : Bindings) :
    (store.alloc ⟨bindings, some env⟩).2.HasChain store.cells.size (store.cells.size :: chain) := by
  have hlt : env < store.cells.size := lt_size_of_isLive hchain.isLive
  have hkept : Scope.cutLink store.cells.size ⟨bindings, some env⟩ = ⟨bindings, some env⟩ :=
    Scope.cutLink_eq_self (by simpa using hlt)
  have hnew := hchain.alloc ⟨bindings, some env⟩
  refine .nested (parent?_eq_some_iff.2 ⟨?_, hnew.isLive⟩) hnew
  rw [link?, scope?_alloc_self, hkept]
  rfl

end HasChain

/-! ## Stores without cycles -/

/-- No environment is reached from itself through live links. -/
def IsAcyclic (store : Store) : Prop :=
  ∀ env, ¬ Relation.TransGen (fun e parent => store.parent? e = some parent) env env

theorem IsAcyclic.exists_hasChain (hacyclic : store.IsAcyclic) (hlive : store.isLive env = true) :
    ∃ chain, store.HasChain env chain := by
  let Above (a b : Fin store.cells.size) : Prop :=
    Relation.TransGen (fun e parent => store.parent? e = some parent) b.1 a.1
  have : IsTrans _ Above := ⟨fun _ _ _ hab hbc => hbc.trans hab⟩
  have : Std.Irrefl Above := ⟨fun a => hacyclic a.1⟩
  have hwf : WellFounded Above := Finite.wellFounded_of_trans_of_irrefl Above
  suffices h : ∀ a : Fin store.cells.size, store.isLive a.1 = true →
      ∃ chain, store.HasChain a.1 chain from h ⟨env, lt_size_of_isLive hlive⟩ hlive
  intro a
  induction a using hwf.induction with
  | _ a ih =>
    intro hlive
    cases hparent : store.parent? a.1 with
    | none => exact ⟨_, .root hlive hparent⟩
    | some parent =>
      have hlive' := (parent?_eq_some_iff.1 hparent).2
      obtain ⟨chain, hchain⟩ :=
        ih ⟨parent, lt_size_of_isLive hlive'⟩ (.single hparent) hlive'
      exact ⟨_, .nested hparent hchain⟩

end QuoteLisp.Store
