import QuoteLisp.Proofs.Resolution

/-!
# Lookup after definition

From an environment a name is the first one of that name in the bindings along its chain, one
environment after the other (`Store.HasChain.lookup_eq_find?`). So a definition is seen from an
environment exactly if it is made on the chain and no nearer environment binds the name
(`Store.Sees`), and every other name, and every other environment, answers as before.
-/

namespace QuoteLisp

/-! ## Bindings one after the other -/

namespace Bindings

variable {chain : List EnvId} {f g : EnvId → Bindings} {name : String}

theorem find?_append (bindings more : Bindings) (name : String) :
    find? name (bindings ++ more) = (bindings.find? name).or (more.find? name) := by
  induction bindings with
  | nil => rfl
  | cons binding rest ih =>
    obtain ⟨first, v⟩ := binding
    rw [List.cons_append, find?, find?]
    by_cases hfirst : first = name
    · rw [if_pos hfirst, if_pos hfirst, Option.some_or]
    · rw [if_neg hfirst, if_neg hfirst, ih]

theorem find?_eq_lookup (bindings : Bindings) (name : String) :
    bindings.find? name = List.lookup name bindings := by
  induction bindings with
  | nil => rfl
  | cons binding rest ih =>
    obtain ⟨first, v⟩ := binding
    rw [find?, List.lookup_cons, ih]
    by_cases hfirst : first = name
    · rw [if_pos hfirst, hfirst, beq_self_eq_true]
    · rw [if_neg hfirst, beq_false_of_ne (Ne.symm hfirst)]

theorem find?_eq_none_iff {bindings : Bindings} :
    bindings.find? name = none ↔ name ∉ bindings.names := by
  rw [← isSome_find?_iff, Option.not_isSome_iff_eq_none]

theorem find?_flatMap_congr (h : ∀ e ∈ chain, (f e).find? name = (g e).find? name) :
    find? name (chain.flatMap f) = find? name (chain.flatMap g) := by
  induction chain with
  | nil => rfl
  | cons e chain ih =>
    obtain ⟨he, hchain⟩ := List.forall_mem_cons.1 h
    rw [List.flatMap_cons, List.flatMap_cons, find?_append, find?_append, he, ih hchain]

theorem find?_flatMap_eq_none_iff :
    find? name (chain.flatMap f) = none ↔ ∀ e ∈ chain, name ∉ (f e).names := by
  induction chain with
  | nil => simp [find?]
  | cons e chain ih =>
    rw [List.flatMap_cons, find?_append, Option.or_eq_none_iff, ih, find?_eq_none_iff,
      List.forall_mem_cons]

end Bindings

namespace Store

variable {store : Store} {env changed : EnvId} {chain : List EnvId} {name other : String}
  {v : Value}

/-! ## Names along a chain -/

/-- A name is searched in all bindings along the chain, nearest first. -/
theorem HasChain.lookup_eq_find? (hchain : store.HasChain env chain) (name : String) :
    store.lookup env name = Bindings.find? name (chain.flatMap store.bindings) := by
  rw [hchain.lookup_eq]
  induction hchain with
  | root _ hparent =>
    rw [List.length_singleton, lookupWithin_succ, hparent, Option.bind_none, Option.or_none,
      List.flatMap_singleton]
  | nested hparent _ ih =>
    rw [List.length_cons, lookupWithin_succ, hparent, Option.bind_some, ih, List.flatMap_cons,
      Bindings.find?_append]

theorem lookup_of_not_isLive (hlive : store.isLive env = false) (name : String) :
    store.lookup env name = none := by
  have hnone : store.scope? env = none := by simpa [isLive] using hlive
  rw [lookup]
  cases store.cells.size with
  | zero => rfl
  | succ steps => rw [lookupWithin, hnone]

theorem get_eq_of_lookup {after : Store} {copy : EnvId}
    (h : after.lookup copy name = store.lookup env name) :
    after.get copy name = store.get env name := by
  rw [get, get, h]

/-! ## Definitions -/

/-- From the first environment a definition of the name in the other is seen: it is on the chain,
and no environment nearer on the chain binds the name. -/
def Sees (store : Store) (env : EnvId) (name : String) (changed : EnvId) : Prop :=
  ∃ nearer farther, store.HasChain env (nearer ++ changed :: farther) ∧
    ∀ e ∈ nearer, name ∉ (store.bindings e).names

theorem HasChain.define (hchain : store.HasChain env chain) (changed : EnvId) (name : String)
    (v : Value) : (store.define changed name v).HasChain env chain :=
  hchain.congr fun e => link?_define store changed e name v

theorem bindings_define_of_ne (hne : env ≠ changed) :
    (store.define changed name v).bindings env = store.bindings env := by
  rw [bindings_define, if_neg fun h => hne h.1]

theorem find?_bindings_define_of_ne (hne : other ≠ name) (changed env : EnvId) :
    ((store.define changed name v).bindings env).find? other =
      (store.bindings env).find? other := by
  rw [bindings_define]
  split
  · rw [Bindings.find?_set, if_neg hne]
  · rfl

/-- An environment comes once on a chain, so those nearer are others. -/
theorem HasChain.bindings_define_of_nearer {nearer farther : List EnvId}
    (hchain : store.HasChain env (nearer ++ changed :: farther)) :
    ∀ e ∈ nearer, (store.define changed name v).bindings e = store.bindings e := by
  intro e he
  apply bindings_define_of_ne
  rintro rfl
  exact (List.nodup_append.1 hchain.nodup).2.2 e he e List.mem_cons_self rfl

theorem Sees.lookup_define (h : store.Sees env name changed) (v : Value) :
    (store.define changed name v).lookup env name = some v := by
  obtain ⟨nearer, farther, hchain, hnearer⟩ := h
  have hlive : store.isLive changed = true := hchain.isLive_of_mem (by simp)
  have hnone : Bindings.find? name
      (nearer.flatMap (store.define changed name v).bindings) = none := by
    refine Bindings.find?_flatMap_eq_none_iff.2 fun e he => ?_
    rw [hchain.bindings_define_of_nearer e he]
    exact hnearer e he
  rw [(hchain.define changed name v).lookup_eq_find?, List.flatMap_append, List.flatMap_cons,
    Bindings.find?_append, Bindings.find?_append, hnone, Option.none_or, bindings_define,
    if_pos ⟨rfl, hlive⟩, Bindings.find?_set, if_pos rfl, Option.some_or]

/-- A definition that a nearer binding hides is not seen. -/
theorem HasChain.lookup_define_of_hidden {nearer farther : List EnvId}
    (hchain : store.HasChain env (nearer ++ changed :: farther))
    (hhidden : ¬ ∀ e ∈ nearer, name ∉ (store.bindings e).names) (v : Value) :
    (store.define changed name v).lookup env name = store.lookup env name := by
  have hsame : Bindings.find? name (nearer.flatMap (store.define changed name v).bindings) =
      Bindings.find? name (nearer.flatMap store.bindings) :=
    Bindings.find?_flatMap_congr fun e he => by rw [hchain.bindings_define_of_nearer e he]
  obtain ⟨w, hw⟩ := Option.ne_none_iff_exists'.1 (mt Bindings.find?_flatMap_eq_none_iff.1 hhidden)
  rw [(hchain.define changed name v).lookup_eq_find?, hchain.lookup_eq_find?, List.flatMap_append,
    List.flatMap_append, Bindings.find?_append, Bindings.find?_append, hsame, hw, Option.some_or,
    Option.some_or]

/-- Where a definition is not seen every name is as before. -/
theorem HasChain.lookup_define_of_not_sees (hchain : store.HasChain env chain)
    (h : ¬ (other = name ∧ store.Sees env name changed)) (v : Value) :
    (store.define changed name v).lookup env other = store.lookup env other := by
  by_cases hother : other = name
  · subst hother
    by_cases hchanged : changed ∈ chain
    · obtain ⟨nearer, farther, rfl⟩ := List.append_of_mem hchanged
      exact hchain.lookup_define_of_hidden (fun hnearer => h ⟨rfl, _, _, hchain, hnearer⟩) v
    · rw [(hchain.define changed other v).lookup_eq_find?, hchain.lookup_eq_find?]
      refine Bindings.find?_flatMap_congr fun e he => ?_
      have hne : e ≠ changed := by
        rintro rfl
        exact hchanged he
      rw [bindings_define_of_ne hne]
  · rw [(hchain.define changed name v).lookup_eq_find?, hchain.lookup_eq_find?]
    exact Bindings.find?_flatMap_congr fun e _ => find?_bindings_define_of_ne hother changed e

/-- So it is for every environment of a store without cycles: one that does not live knows no
names, before and after. -/
theorem IsAcyclic.lookup_define_of_not_sees (hacyclic : store.IsAcyclic)
    (h : ¬ (other = name ∧ store.Sees env name changed)) (v : Value) :
    (store.define changed name v).lookup env other = store.lookup env other := by
  cases hlive : store.isLive env with
  | true =>
    obtain ⟨chain, hchain⟩ := hacyclic.exists_hasChain hlive
    exact hchain.lookup_define_of_not_sees h v
  | false =>
    rw [lookup_of_not_isLive hlive, lookup_of_not_isLive]
    rw [isLive_define, hlive]

/-! ## Copies -/

/-- A copy has the chain of its original, with itself in the place of the original. -/
theorem HasChain.alloc_copy {scope : Scope} (hchain : store.HasChain env (env :: chain))
    (hscope : store.scope? env = some scope) :
    (store.alloc scope).2.HasChain store.cells.size (store.cells.size :: chain) := by
  have hparent : (store.alloc scope).2.parent? store.cells.size = store.parent? env := by
    rw [parent?_alloc, if_pos rfl, parent?, hscope, Option.bind_some]
  cases hchain with
  | root _ hroot =>
    refine .root ?_ (hparent.trans hroot)
    rw [isLive_alloc, beq_self_eq_true, Bool.true_or]
  | nested hnested hchain => exact .nested (hparent.trans hnested) (hchain.alloc scope)

theorem HasChain.bindings_alloc_of_mem (hchain : store.HasChain env chain) (scope : Scope) :
    ∀ e ∈ chain, (store.alloc scope).2.bindings e = store.bindings e := by
  intro e he
  have hlt := lt_size_of_isLive (hchain.isLive_of_mem he)
  rw [bindings_alloc, if_neg (Nat.ne_of_lt hlt)]

theorem HasChain.lookup_alloc (hchain : store.HasChain env chain) (scope : Scope)
    (name : String) : (store.alloc scope).2.lookup env name = store.lookup env name := by
  rw [(hchain.alloc scope).lookup_eq_find?, hchain.lookup_eq_find?]
  refine Bindings.find?_flatMap_congr fun e he => ?_
  rw [hchain.bindings_alloc_of_mem scope e he]

theorem HasChain.lookup_alloc_copy {scope : Scope} (hchain : store.HasChain env chain)
    (hscope : store.scope? env = some scope) (name : String) :
    (store.alloc scope).2.lookup store.cells.size name = store.lookup env name := by
  obtain ⟨above, rfl⟩ := hchain.eq_cons
  have hbindings : store.bindings env = scope.bindings := by rw [bindings, hscope]
  have habove : ∀ e ∈ above, (store.alloc scope).2.bindings e = store.bindings e := fun e he =>
    hchain.bindings_alloc_of_mem scope e (List.mem_cons_of_mem env he)
  rw [(hchain.alloc_copy hscope).lookup_eq_find?, hchain.lookup_eq_find?, List.flatMap_cons,
    List.flatMap_cons, Bindings.find?_append, Bindings.find?_append, bindings_alloc, if_pos rfl,
    hbindings, Bindings.find?_flatMap_congr fun e he => by rw [habove e he]]

/-! ## The main result -/

/-- Links that all lead to older environments form no cycle. -/
theorem isAcyclic_of_lt (h : ∀ e parent, store.parent? e = some parent → parent < e) :
    store.IsAcyclic := by
  intro env hcycle
  have hlt : ∀ e, Relation.TransGen (fun e parent => store.parent? e = some parent) env e →
      e < env := by
    intro e he
    induction he with
    | single hparent => exact h _ _ hparent
    | tail _ hparent ih => exact Nat.lt_trans (h _ _ hparent) ih
  exact Nat.lt_irrefl env (hlt env hcycle)

/-- In a store without cycles a definition changes what one name is seen as from those environments
that see it there, and nothing else. At the root it is a definition in the last environment of the
chain. A name is the first of its kind in the bindings along the chain, or not found, and a copy of
an environment answers like its original, which itself goes on to answer as before. -/
theorem get_after_define (hacyclic : store.IsAcyclic) :
    (∀ env, store.isLive env = true → ∃ chain, store.HasChain env chain) ∧
    (∀ changed name v env other,
      (store.Sees env name changed → (store.define changed name v).get env name = .ok v) ∧
      (¬ (other = name ∧ store.Sees env name changed) →
        (store.define changed name v).get env other = store.get env other)) ∧
    (∀ env chain, store.HasChain env chain → ∀ root, chain.getLast? = some root →
      ∀ name v, store.defineRoot env name v = store.define root name v) ∧
    (∀ env chain, store.HasChain env chain → ∀ name,
      (∀ v, List.lookup name (chain.flatMap store.bindings) = some v →
        store.get env name = .ok v) ∧
      (List.lookup name (chain.flatMap store.bindings) = none →
        store.get env name = .error (.unboundSymbol name) ∧
          (Fault.unboundSymbol name).kind = .notFound name)) ∧
    ∀ env scope, store.scope? env = some scope → ∀ name,
      (store.alloc scope).2.get (store.alloc scope).1 name = store.get env name ∧
      (store.alloc scope).2.get env name = store.get env name := by
  refine ⟨fun env => hacyclic.exists_hasChain, ?_, ?_, ?_, ?_⟩
  · intro changed name v env other
    constructor
    · intro hsees
      rw [get, hsees.lookup_define]
    · intro hsees
      apply get_eq_of_lookup
      exact hacyclic.lookup_define_of_not_sees hsees v
  · intro env chain hchain root hroot name v
    rw [defineRoot, hchain.root_of_getLast? hroot]
  · intro env chain hchain name
    rw [get, hchain.lookup_eq_find?, Bindings.find?_eq_lookup]
    constructor
    · intro v hfound
      rw [hfound]
    · intro hnone
      rw [hnone]
      exact ⟨rfl, rfl⟩
  · intro env scope hscope name
    have hlive : store.isLive env = true := by rw [isLive, hscope, Option.isSome_some]
    obtain ⟨chain, hchain⟩ := hacyclic.exists_hasChain hlive
    exact ⟨get_eq_of_lookup (hchain.lookup_alloc_copy hscope name),
      get_eq_of_lookup (hchain.lookup_alloc scope name)⟩

/-- An environment two below its root, with one between them that hides a name of the root, and an
environment whose link is dead. -/
theorem get_after_define_nested :
    let outer := (Store.empty.alloc ⟨[("x", .number 1), ("y", .number 2)], none⟩).2
    let middle := (outer.alloc ⟨[("x", .number 3)], some 0⟩).2
    let inner := (middle.alloc (.within 1)).2
    let apart := ((inner.alloc ⟨[("z", .number 4)], none⟩).2.alloc (.within 3)).2
    let store := apart.release 3
    store.IsAcyclic ∧
      (store.define 0 "x" (.number 5)).get 2 "x" = store.get 2 "x" ∧
      (store.define 1 "x" (.number 5)).get 2 "x" = .ok (.number 5) ∧
      store.defineRoot 2 "y" (.number 5) = store.define 0 "y" (.number 5) ∧
      (store.define 0 "y" (.number 5)).get 2 "y" = .ok (.number 5) ∧
      store.get 2 "y" = .ok (.number 2) ∧
      store.get 4 "z" = .error (.unboundSymbol "z") ∧
      (store.alloc ⟨[], some 1⟩).2.get 5 "x" = store.get 2 "x" := by
  intro outer middle inner apart store
  have hacyclic : store.IsAcyclic := by
    apply isAcyclic_of_lt
    intro e parent hparent
    have hmade : e < 5 := lt_size_of_isLive (isLive_of_parent? hparent)
    have hall : ∀ e < 5, ∀ parent ∈ store.parent? e, parent < e := by decide
    exact hall e hmade parent hparent
  have hchain : store.HasChain 2 [2, 1, 0] := .nested rfl (.nested rfl (.root rfl rfl))
  have hlone : store.HasChain 4 [4] := .root rfl rfl
  have hmiddle : store.Sees 2 "x" 1 := ⟨[2], [0], hchain, by decide⟩
  have houter : store.Sees 2 "y" 0 := ⟨[2, 1], [], hchain, by decide⟩
  have hhidden : ¬ store.Sees 2 "x" 0 := by
    rintro ⟨nearer, farther, hother, hnearer⟩
    have hmem : 1 ∈ nearer := by
      have hsame := hother.unique hchain
      rcases nearer with _ | ⟨a, _ | ⟨b, rest⟩⟩ <;> simp_all
    exact hnearer 1 hmem (by decide)
  obtain ⟨-, hdefine, hroot, hget, hcopy⟩ := get_after_define hacyclic
  exact ⟨hacyclic, (hdefine 0 "x" _ 2 "x").2 fun h => hhidden h.2,
    (hdefine 1 "x" _ 2 "x").1 hmiddle, hroot 2 _ hchain 0 rfl "y" _,
    (hdefine 0 "y" _ 2 "y").1 houter, (hget 2 _ hchain "y").1 _ rfl,
    ((hget 4 _ hlone "z").2 rfl).1, (hcopy 2 _ rfl "x").1⟩

end Store

end QuoteLisp
