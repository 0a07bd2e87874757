import QuoteLisp.Proofs.Growth
import QuoteLisp.Proofs.Parameters

/-!
# What definitions do

`def` and `=` take a list of names and as many values, and bind the names one after the other: the
one at the root, the other in the calling environment. Names may repeat, and some may be bound there
already. What is left in the end is said without going through the steps (`Store.Rebinds`): every
name has the last of its values, names that were bound stay where they are, and new ones follow in
the order in which they come first.

Other arguments are refused for the first of four reasons (`DefinitionFault`).
-/

namespace QuoteLisp

/-! ## Arguments of definitions -/

/-- A list of names, and as many values behind it. -/
def IsDefinition (args : List Value) (names : List String) (values : List Value) : Prop :=
  args = .qexpr (names.map .symbol) :: values ∧ names.length = values.length

/-- Why other arguments are refused: the first of these reasons that applies. -/
inductive DefinitionFault (function : String) : List Value → Fault → Prop
  | noArguments : DefinitionFault function [] (.wrongArgumentCount function 1 0)
  | notAList {first : Value} {values : List Value} (hfirst : ∀ items, first ≠ .qexpr items) :
    DefinitionFault function (first :: values)
      (.wrongArgumentType function "Q-Expression" first.typeName)
  | notASymbol {names : List String} {v : Value} {behind values : List Value}
    (hv : ∀ name, v ≠ .symbol name) :
    DefinitionFault function (.qexpr (names.map .symbol ++ v :: behind) :: values)
      (.notASymbol function v.typeName)
  | count {names : List String} {values : List Value} (hne : names.length ≠ values.length) :
    DefinitionFault function (.qexpr (names.map .symbol) :: values)
      (.wrongBindingCount function names.length values.length)

section Arguments

variable {function : String} {args items : List Value} {fault : Fault}

theorem quotedItems_eq_error_iff {v : Value} :
    quotedItems function v = .error fault ↔
      (∀ items, v ≠ .qexpr items) ∧
        fault = .wrongArgumentType function "Q-Expression" v.typeName := by
  cases v <;> simp [quotedItems, eq_comm]

/-- The first item that is no symbol decides. -/
theorem symbolNames_eq_error_iff :
    symbolNames function items = .error fault ↔
      ∃ (names : List String) (v : Value) (behind : List Value),
        items = names.map .symbol ++ v :: behind ∧ (∀ name, v ≠ .symbol name) ∧
          fault = .notASymbol function v.typeName := by
  induction items with
  | nil => simp [symbolNames]
  | cons item items ih =>
    by_cases hitem : ∃ name, item = .symbol name
    · obtain ⟨name, rfl⟩ := hitem
      rw [symbolNames, Except.map_eq_error_iff, ih]
      constructor
      · rintro ⟨names, v, behind, rfl, hv⟩
        exact ⟨name :: names, v, behind, rfl, hv⟩
      · rintro ⟨names, v, behind, hsplit, hv, hfault⟩
        cases names with
        | nil => exact absurd (List.cons.inj hsplit).1.symm (hv name)
        | cons other names => exact ⟨names, v, behind, (List.cons.inj hsplit).2, hv, hfault⟩
    · have hne : ∀ name, item ≠ .symbol name := fun name hname => hitem ⟨name, hname⟩
      have hrefused : symbolNames function (item :: items) =
          .error (.notASymbol function item.typeName) := by
        cases item with
        | symbol name => exact absurd rfl (hne name)
        | _ => rfl
      rw [hrefused]
      constructor
      · intro h
        exact ⟨[], item, items, rfl, hne, (Except.error.inj h).symm⟩
      · rintro ⟨names, v, behind, hsplit, -, rfl⟩
        cases names with
        | nil => rw [(List.cons.inj hsplit).1]
        | cons name names => exact absurd (List.cons.inj hsplit).1 (hne name)

theorem definitions_eq_error_iff :
    definitions function args = .error fault ↔ DefinitionFault function args fault := by
  constructor
  · intro h
    cases args with
    | nil =>
      cases h
      exact .noArguments
    | cons first values =>
      obtain hfirst | ⟨items, hitems, hrest⟩ := Except.bind_eq_error_iff.1 h
      · obtain ⟨hne, rfl⟩ := quotedItems_eq_error_iff.1 hfirst
        exact .notAList hne
      · rw [quotedItems_eq_ok_iff.1 hitems]
        obtain hnames | ⟨names, hnames, hcount⟩ := Except.bind_eq_error_iff.1 hrest
        · obtain ⟨names, v, behind, rfl, hv, rfl⟩ := symbolNames_eq_error_iff.1 hnames
          exact .notASymbol hv
        · rw [symbolNames_eq_ok_iff.1 hnames]
          split at hcount
          · cases hcount
          · rename_i hne
            cases hcount
            exact .count hne
  · intro h
    cases h with
    | noArguments => rfl
    | notAList hne =>
      apply Except.bind_eq_error_iff.2
      exact .inl (quotedItems_eq_error_iff.2 ⟨hne, rfl⟩)
    | notASymbol hv =>
      apply Except.bind_eq_error_iff.2
      refine .inr ⟨_, rfl, Except.bind_eq_error_iff.2 (.inl ?_)⟩
      exact symbolNames_eq_error_iff.2 ⟨_, _, _, rfl, hv, rfl⟩
    | @count names values hne =>
      apply Except.bind_eq_error_iff.2
      refine .inr ⟨_, rfl, Except.bind_eq_error_iff.2 (.inr ⟨names, ?_, if_neg hne⟩)⟩
      exact symbolNames_eq_ok_iff.2 rfl

theorem exists_definitions_iff (function : String) :
    (∃ bindings, definitions function args = .ok bindings) ↔
      ∃ names values, IsDefinition args names values := by
  simp [definitions_eq_ok_iff, IsDefinition]

/-- Arguments are a definition or have a fault, and not both. -/
theorem exists_definitionFault_iff :
    (∃ fault, DefinitionFault function args fault) ↔
      ¬ ∃ names values, IsDefinition args names values := by
  rw [← exists_definitions_iff function]
  simp only [← definitions_eq_error_iff]
  cases definitions function args <;> simp

end Arguments

/-! ## Names bound one after the other -/

namespace Bindings

/-- New names follow in the order in which they come first. -/
theorem names_setAll (bindings added : Bindings) :
    (bindings.setAll added).names =
      bindings.names ++ (added.names.filter (· ∉ bindings.names)).eraseDups := by
  induction added generalizing bindings with
  | nil => simp [setAll, names]
  | cons binding added ih =>
    obtain ⟨name, v⟩ := binding
    have hcons : names ((name, v) :: added) = name :: names added := rfl
    rw [setAll, ih, names_set, hcons]
    by_cases hmem : name ∈ bindings.names
    · rw [if_pos hmem, List.filter_cons_of_neg (by simpa using hmem)]
    · rw [if_neg hmem, List.filter_cons_of_pos (by simpa using hmem), List.eraseDups_cons,
        List.append_assoc, List.singleton_append, List.filter_filter]
      -- what is new behind `name` is neither `name` nor bound before
      have hnew : ∀ other, decide (other ∉ bindings.names ++ [name]) =
          (!other == name && decide (other ∉ bindings.names)) := by
        intro other
        by_cases hother : other = name <;> simp [hother]
      simp only [hnew]

theorem getElem?_set_of_ne {bindings : Bindings} {binding : String × Value} {name : String}
    {i : Nat} (h : bindings[i]? = some binding) (hne : binding.1 ≠ name) (v : Value) :
    (bindings.set name v)[i]? = some binding := by
  induction bindings generalizing i with
  | nil => simp at h
  | cons first rest ih =>
    obtain ⟨other, w⟩ := first
    unfold set
    cases i with
    | zero =>
      obtain rfl : (other, w) = binding := by simpa using h
      rw [if_neg hne]
      rfl
    | succ i =>
      rw [List.getElem?_cons_succ] at h
      by_cases hother : other = name
      · rw [if_pos hother, List.getElem?_cons_succ, h]
      · rw [if_neg hother, List.getElem?_cons_succ, ih h]

theorem getElem?_setAll_of_not_mem {bindings : Bindings} {binding : String × Value} {i : Nat}
    (h : bindings[i]? = some binding) {added : Bindings} (hnew : binding.1 ∉ added.names) :
    (bindings.setAll added)[i]? = some binding := by
  induction added generalizing bindings with
  | nil => exact h
  | cons first added ih =>
    have hne : binding.1 ≠ first.1 := List.ne_of_not_mem_cons hnew
    exact ih (getElem?_set_of_ne h hne first.2) (List.not_mem_of_not_mem_cons hnew)

theorem names_zip {names : List String} {values : List Value}
    (hlength : names.length = values.length) : Bindings.names (names.zip values) = names :=
  List.map_fst_zip (Nat.le_of_eq hlength)

end Bindings

namespace Store

/-- The names are bound in the target, each to the last of its values, and nothing else changes. -/
structure Rebinds (store : Store) (target : EnvId) (names : List String) (values : List Value)
    (after : Store) : Prop where
  latest : ∀ name i v, IsLastAt names name i → values[i]? = some v →
    List.lookup name (after.bindings target) = some v
  /-- Old names keep their places, and new ones follow in the order of their first places. -/
  order : after.names target =
    store.names target ++ (names.filter (· ∉ store.names target)).eraseDups
  kept : ∀ (i : Nat) (binding : String × Value), (store.bindings target)[i]? = some binding →
    binding.1 ∉ names → (after.bindings target)[i]? = some binding
  link? : ∀ e, after.link? e = store.link? e
  scope?_of_ne : ∀ e, e ≠ target → after.scope? e = store.scope? e
  size : after.cells.size = store.cells.size

theorem rebinds_defineAll {store : Store} {target : EnvId} (hlive : store.isLive target = true)
    {names : List String} {values : List Value} (hlength : names.length = values.length) :
    store.Rebinds target names values (store.defineAll target (names.zip values)) where
  latest name i v hlast hv := by
    rw [bindings_defineAll hlive, ← Bindings.find?_eq_lookup, Bindings.find?_setAll,
      Bindings.find?_reverse_zip hlast hv, Option.some_or]
  order := by
    unfold Store.names
    rw [bindings_defineAll hlive, Bindings.names_setAll, Bindings.names_zip hlength]
  kept i binding h hnew := by
    rw [bindings_defineAll hlive]
    apply Bindings.getElem?_setAll_of_not_mem h
    rwa [Bindings.names_zip hlength]
  link? := link?_defineAll store target (names.zip values)
  scope?_of_ne e he := (ChangesOnly.defineAll target _ store).scope? e (by simpa using he)
  size := size_defineAll store target (names.zip values)

end Store

/-! ## The main result -/

open Store

variable {store : Store} {env root target : EnvId} {chain : List EnvId} {p : Primitive}

/-- `def` and `=` bind what their arguments say in their target, and do nothing else. -/
theorem run_eq_of_target (hchain : store.HasChain env chain) (hroot : chain.getLast? = some root)
    (htarget : p = .define ∧ target = root ∨ p = .assign ∧ target = env) (evaluate : Evaluator)
    (args : List Value) :
    p.run evaluate env args store =
      match definitions p.name args with
      | .error fault => some (.error fault, store)
      | .ok bindings => some (.ok .unit, store.defineAll target bindings) := by
  obtain ⟨rfl, rfl⟩ | ⟨rfl, rfl⟩ := htarget
  · unfold Primitive.run
    cases definitions Primitive.define.name args with
    | error fault => rfl
    | ok bindings => simp only [ChangesOnly.defineAllRoot_eq hchain hroot]
  · rfl

theorem isLive_of_target (hchain : store.HasChain env chain) (hroot : chain.getLast? = some root)
    (htarget : p = .define ∧ target = root ∨ p = .assign ∧ target = env) :
    store.isLive target = true := by
  obtain ⟨-, rfl⟩ | ⟨-, rfl⟩ := htarget
  · exact hchain.isLive_of_mem (List.mem_of_getLast? hroot)
  · exact hchain.isLive

/-- A definition at the root of a chain, or in the environment that it is called in, succeeds if and
only if it is given a list of names and as many values. Then the result is the empty expression, and
in the target each name has the last of its values, names bound before keep their places, new names
follow in the order in which they come first, and nothing else changes. All other arguments are
refused for the first reason that applies, and nothing changes at all. -/
theorem definitions_bind_exactly (hchain : store.HasChain env chain)
    (hroot : chain.getLast? = some root)
    (htarget : p = .define ∧ target = root ∨ p = .assign ∧ target = env) (evaluate : Evaluator)
    (args : List Value) :
    ((∃ r after, p.run evaluate env args store = some (.ok r, after)) ↔
      ∃ names values, IsDefinition args names values) ∧
    (∀ names values, IsDefinition args names values →
      ∃ after, p.run evaluate env args store = some (.ok .unit, after) ∧
        store.Rebinds target names values after) ∧
    ((∃ fault, DefinitionFault p.name args fault) ↔
      ¬ ∃ names values, IsDefinition args names values) ∧
    ∀ fault, DefinitionFault p.name args fault →
      p.run evaluate env args store = some (.error fault, store) := by
  rw [run_eq_of_target hchain hroot htarget]
  refine ⟨?_, ?_, exists_definitionFault_iff, ?_⟩
  · rw [← exists_definitions_iff p.name]
    cases definitions p.name args <;> simp
  · rintro names values ⟨hargs, hlength⟩
    refine ⟨store.defineAll target (names.zip values), ?_, ?_⟩
    · rw [definitions_eq_ok_iff.2 ⟨names, values, hargs, hlength, rfl⟩]
    · exact rebinds_defineAll (isLive_of_target hchain hroot htarget) hlength
  · intro fault hfault
    rw [definitions_eq_error_iff.2 hfault]

/-- Below a root that binds `x` and `y`, in an environment that binds `y` and `z`, four values are
given to the names `w`, `x`, `z` and `x` once more: at the root two names are new. A number among
the names is refused before the missing value is. -/
theorem definitions_bind_exactly_repeated :
    let outer := (Store.empty.alloc ⟨[("x", .number 1), ("y", .number 2)], none⟩).2
    let store := (outer.alloc ⟨[("y", .number 3), ("z", .number 4)], some 0⟩).2
    let names := ["w", "x", "z", "x"]
    let values := [Value.number 5, .number 6, .number 7, .number 8]
    let args := Value.qexpr (names.map .symbol) :: values
    store.HasChain 1 [1, 0] ∧ IsDefinition args names values ∧
      (∃ after, Primitive.define.run (eval 0) 1 args store = some (.ok .unit, after) ∧
        after.names 0 = ["x", "y", "w", "z"] ∧
        List.lookup "x" (after.bindings 0) = some (.number 8) ∧
        after.scope? 1 = store.scope? 1) ∧
      (∃ after, Primitive.assign.run (eval 0) 1 args store = some (.ok .unit, after) ∧
        after.names 1 = ["y", "z", "w", "x"] ∧ after.scope? 0 = store.scope? 0) ∧
      Primitive.assign.run (eval 0) 1 [.qexpr [.symbol "x", .number 9]] store =
        some (.error (.notASymbol "=" "Number"), store) := by
  intro outer store names values args
  have hchain : store.HasChain 1 [1, 0] := .nested rfl (.root rfl rfl)
  have hargs : IsDefinition args names values := ⟨rfl, rfl⟩
  have hroot : [1, 0].getLast? = some 0 := rfl
  have hdefine := definitions_bind_exactly hchain hroot (.inl ⟨rfl, rfl⟩) (eval 0)
  have hassign := definitions_bind_exactly hchain hroot (.inr ⟨rfl, rfl⟩) (eval 0)
  obtain ⟨atRoot, hrootRun, hrootRebinds⟩ := (hdefine args).2.1 names values hargs
  obtain ⟨inPlace, hrun, hrebinds⟩ := (hassign args).2.1 names values hargs
  have hlast : IsLastAt names "x" 3 := by
    refine ⟨rfl, fun j hj => ?_⟩
    rw [List.getElem?_eq_none hj]
    simp
  have hfault : DefinitionFault "=" [.qexpr ((["x"].map .symbol) ++ [.number 9])]
      (.notASymbol "=" (Value.number 9).typeName) := .notASymbol (by simp)
  refine ⟨hchain, hargs, ⟨atRoot, hrootRun, ?_, hrootRebinds.latest "x" 3 _ hlast rfl, ?_⟩,
    ⟨inPlace, hrun, ?_, hrebinds.scope?_of_ne 0 (by decide)⟩, (hassign _).2.2.2 _ hfault⟩
  · rw [hrootRebinds.order]
    decide
  · exact hrootRebinds.scope?_of_ne 1 (by decide)
  · rw [hrebinds.order]
    decide

end QuoteLisp
