import QuoteLisp.Proofs.Lockstep
import QuoteLisp.Proofs.Parts

/-!
# Translations

A translation replaces the names, the links of closures and the errors in all values of a program
and of a store, and keeps everything else: the shape of values, builtin functions, environments and
their links. Evaluation commutes with every translation that keeps different names different
(`Translation.eval_translate`).
-/

namespace QuoteLisp

/-- What becomes of names, of the links of closures and of errors. -/
structure Translation where
  name : String → String
  link : Option EnvId → Option EnvId
  error : EvalError → EvalError
  name_injective : Function.Injective name
  link_none : link none = none
  unbound : ∀ m, error (Fault.unboundSymbol m).toError = (Fault.unboundSymbol (name m)).toError
  fault : ∀ {fault : Fault}, fault.isUnbound = false → error fault.toError = fault.toError

/-- The translation that changes nothing. -/
def Translation.id : Translation where
  name m := m
  link link := link
  error e := e
  name_injective _ _ h := h
  link_none := rfl
  unbound _ := rfl
  fault _ := rfl

variable {T : Translation}

/-! ## Values -/

namespace Value

mutual

def translate (T : Translation) : Value → Value
  | number n => number n
  | string text => string text
  | symbol name => symbol (T.name name)
  | error e => error (T.error e)
  | sexpr items => sexpr (translateItems T items)
  | qexpr items => qexpr (translateItems T items)
  | builtin b => builtin b
  | closure formals body captured link =>
    closure (formals.map T.name) (translateItems T body) (translateBindings T captured)
      (T.link link)
  termination_by structural v => v

def translateItems (T : Translation) : List Value → List Value
  | [] => []
  | item :: items => translate T item :: translateItems T items
  termination_by structural items => items

def translateBindings (T : Translation) : List (String × Value) → List (String × Value)
  | [] => []
  | (name, v) :: rest => (T.name name, translate T v) :: translateBindings T rest
  termination_by structural bindings => bindings

end

theorem translateItems_eq_map (T : Translation) (items : List Value) :
    translateItems T items = items.map (translate T) := by
  induction items with
  | nil => rfl
  | cons item items ih => rw [translateItems, ih, List.map_cons]

theorem translateBindings_eq_map (T : Translation) (bindings : Bindings) :
    translateBindings T bindings = bindings.map (Prod.map T.name (translate T)) := by
  induction bindings with
  | nil => rfl
  | cons binding rest ih =>
    rw [translateBindings, ih, List.map_cons]
    rfl

@[simp] theorem translate_sexpr (items : List Value) :
    translate T (.sexpr items) = .sexpr (items.map (translate T)) := by
  rw [translate, translateItems_eq_map]

@[simp] theorem translate_qexpr (items : List Value) :
    translate T (.qexpr items) = .qexpr (items.map (translate T)) := by
  rw [translate, translateItems_eq_map]

@[simp] theorem translate_closure (formals : List String) (body : List Value)
    (captured : Bindings) (link : Option EnvId) :
    translate T (.closure formals body captured link) =
      .closure (formals.map T.name) (body.map (translate T))
        (captured.map (Prod.map T.name (translate T))) (T.link link) := by
  rw [translate, translateItems_eq_map, translateBindings_eq_map]

theorem translate_id (v : Value) : v.translate .id = v := by
  induction v using Value.induct with
  | number | string | symbol | error | builtin => rfl
  | sexpr items ih => rw [translate_sexpr, List.map_congr_left ih, List.map_id']
  | qexpr items ih => rw [translate_qexpr, List.map_congr_left ih, List.map_id']
  | closure formals body captured link hbody hcaptured =>
    have hsame : ∀ binding ∈ captured,
        Prod.map Translation.id.name (translate .id) binding = binding :=
      fun binding hmem => Prod.ext rfl (hcaptured binding hmem)
    rw [translate_closure, List.map_congr_left hbody, List.map_id', List.map_congr_left hsame,
      List.map_id']
    exact congrArg (closure · body captured link) (List.map_id' formals)

end Value

/-! ## Correspondence along a translation -/

theorem forall₂_map_right_of_forall_mem {α β : Type} {R : α → β → Prop} {f : α → β}
    {xs : List α} (h : ∀ x ∈ xs, R x (f x)) : List.Forall₂ R xs (xs.map f) :=
  List.forall₂_map_right_iff.2 (List.forall₂_same.2 h)

theorem eq_map_of_forall₂ {α β : Type} {R : α → β → Prop} {f : α → β} {xs : List α} {ys : List β}
    (h : List.Forall₂ R xs ys) (hf : ∀ x ∈ xs, ∀ y, R x y → y = f x) : ys = xs.map f := by
  induction h with
  | nil => rfl
  | cons hxy _ ih =>
    obtain ⟨hfirst, hrest⟩ := List.forall_mem_cons.1 hf
    rw [List.map_cons, ← hfirst _ hxy, ← ih hrest]

namespace Correspondence

variable {left right : Store} {C : Correspondence left right} {v w : Value}

/-- A value corresponds to its translation if its names, links and errors do. -/
theorem relates_translate (hlink : ∀ link, C.link link (T.link link))
    (herror : ∀ e, C.error e (T.error e))
    (hnames : v.Everywhere fun part => ∀ name ∈ part.ownNames, C.name name (T.name name)) :
    C.Relates v (v.translate T) := by
  induction v using Value.induct with
  | number n => exact .number n
  | string text => exact .string text
  | symbol name =>
    rw [Value.everywhere_symbol] at hnames
    exact .symbol (hnames name (List.mem_singleton_self name))
  | error e => exact .error (herror e)
  | sexpr items ih =>
    rw [Value.everywhere_sexpr] at hnames
    rw [Value.translate_sexpr]
    exact .sexpr (forall₂_map_right_of_forall_mem fun v hv => ih v hv (hnames.2 v hv))
  | qexpr items ih =>
    rw [Value.everywhere_qexpr] at hnames
    rw [Value.translate_qexpr]
    exact .qexpr (forall₂_map_right_of_forall_mem fun v hv => ih v hv (hnames.2 v hv))
  | builtin b => exact .builtin b
  | closure formals body captured link hbody hcaptured =>
    rw [Value.everywhere_closure] at hnames
    obtain ⟨hown, hbodyNames, hcapturedNames⟩ := hnames
    rw [Value.translate_closure]
    refine .closure ?_ ?_ ?_ (hlink link)
    · exact forall₂_map_right_of_forall_mem fun name hmem =>
        hown name (List.mem_append_left _ hmem)
    · exact forall₂_map_right_of_forall_mem fun v hv => hbody v hv (hbodyNames v hv)
    · refine forall₂_map_right_of_forall_mem fun binding hmem => ?_
      have hname := hown binding.1 (List.mem_append_right _ (List.mem_map_of_mem hmem))
      exact .intro hname (hcaptured binding hmem (hcapturedNames binding hmem))

/-- If names, links and errors correspond to their translations only, so do values. -/
theorem Relates.eq_translate (hname : ∀ {m n}, C.name m n → n = T.name m)
    (hlink : ∀ {x y}, C.link x y → y = T.link x) (herror : ∀ {d e}, C.error d e → e = T.error d)
    (h : C.Relates v w) : w = v.translate T := by
  induction v using Value.induct generalizing w with
  | number | string | builtin =>
    cases h
    rfl
  | symbol name =>
    cases h with
    | symbol h => rw [hname h, Value.translate]
  | error e =>
    cases h with
    | error h => rw [herror h, Value.translate]
  | sexpr items ih =>
    cases h with
    | sexpr hitems => rw [Value.translate_sexpr, eq_map_of_forall₂ hitems fun v hv _ => ih v hv]
  | qexpr items ih =>
    cases h with
    | qexpr hitems => rw [Value.translate_qexpr, eq_map_of_forall₂ hitems fun v hv _ => ih v hv]
  | closure formals body captured link hbody hcaptured =>
    cases h with
    | closure hformals' hbody' hcaptured' hlink' =>
      have hpairs := eq_map_of_forall₂ hcaptured' fun binding hmem other hpair =>
        show other = Prod.map T.name (Value.translate T) binding from
          Prod.ext (hname hpair.name) (hcaptured binding hmem hpair.value)
      rw [Value.translate_closure, eq_map_of_forall₂ hformals' fun _ _ _ => hname,
        eq_map_of_forall₂ hbody' fun v hv _ => hbody v hv, hpairs, hlink hlink']

/-- Where no name is hidden, bindings correspond as a whole. -/
theorem binds_iff_of_forall_visible (hvisible : ∀ name, C.hidden name = false) {bs cs : Bindings} :
    C.Binds bs cs ↔ List.Forall₂ C.Pairs bs cs := by
  have hall : ∀ bindings : Bindings, bindings.without C.hidden = bindings := by
    intro bindings
    exact List.filter_eq_self.2 fun binding _ => by rw [hvisible, Bool.not_false]
  rw [Binds, hall, hall]

end Correspondence

/-! ## Stores -/

def Scope.translate (T : Translation) (scope : Scope) : Scope :=
  { scope with bindings := Value.translateBindings T scope.bindings }

namespace Store

def translate (T : Translation) (store : Store) : Store where
  cells := store.cells.map (Option.map (Scope.translate T))
  made := by
    intro env scope hscope parent hparent
    rw [Array.getElem?_map, Option.map_eq_some_iff] at hscope
    obtain ⟨cell, hcell, hscope⟩ := hscope
    obtain ⟨scope, rfl, rfl⟩ := Option.map_eq_some_iff.1 hscope
    rw [Array.size_map]
    exact store.made env scope hcell parent hparent

@[simp] theorem size_translate (store : Store) :
    (store.translate T).cells.size = store.cells.size :=
  Array.size_map ..

theorem scope?_translate (store : Store) (env : EnvId) :
    (store.translate T).scope? env = (store.scope? env).map (Scope.translate T) := by
  simp only [scope?, translate, Array.getElem?_map]
  cases store.cells[env]? <;> rfl

theorem link?_translate (store : Store) (env : EnvId) :
    (store.translate T).link? env = store.link? env := by
  rw [link?, link?, scope?_translate, Option.map_map]
  rfl

theorem bindings_translate (store : Store) (env : EnvId) :
    (store.translate T).bindings env = Value.translateBindings T (store.bindings env) := by
  rw [bindings, bindings, scope?_translate]
  cases store.scope? env <;> rfl

end Store

namespace Translation

/-- Everything corresponds to its translation. -/
def correspondence (T : Translation) (store : Store) :
    Correspondence store (store.translate T) where
  name m n := n = T.name m
  env e f := e = f
  link x y := y = T.link x
  error d e := e = T.error d
  hidden _ := false
  name_eq_iff := by
    rintro m _ m' _ rfl rfl
    exact T.name_injective.eq_iff.symm
  env_eq_iff := by
    rintro e _ e' _ rfl rfl
    rfl
  visible _ := ⟨rfl, rfl⟩
  unmade count := by rw [Store.size_translate]
  link_none := T.link_none.symm
  unbound := by
    rintro m _ rfl
    exact (T.unbound m).symm
  fault hfault := (T.fault hfault).symm

theorem relates_iff {store : Store} {v w : Value} :
    (T.correspondence store).Relates v w ↔ w = v.translate T := by
  constructor
  · exact fun h => h.eq_translate (fun h => h) (fun h => h) (fun h => h)
  · rintro rfl
    exact Correspondence.relates_translate (fun _ => rfl) (fun _ => rfl) fun _ _ _ _ => rfl

theorem binds_iff {store : Store} {bs cs : Bindings} :
    (T.correspondence store).Binds bs cs ↔ cs = Value.translateBindings T bs := by
  rw [Correspondence.binds_iff_of_forall_visible fun _ => rfl, Value.translateBindings_eq_map]
  constructor
  · intro h
    refine eq_map_of_forall₂ h fun binding _ other hpair => ?_
    exact Prod.ext hpair.name (relates_iff.1 hpair.value)
  · rintro rfl
    exact forall₂_map_right_of_forall_mem fun binding _ => .intro rfl (relates_iff.2 rfl)

theorem stores_translate (store : Store) :
    (T.correspondence store).Stores store (store.translate T) := by
  refine .start (Store.link?_translate store) (fun henv => .inl henv) ?_ fun _ _ => rfl
  intro e _ _
  exact binds_iff.2 (Store.bindings_translate store e)

/-- A translated program does in the translated store what the program does, translated. -/
theorem eval_translate (T : Translation) (depth : Nat) (env : EnvId) (v : Value) (store : Store) :
    eval depth env (v.translate T) (store.translate T) =
      (eval depth env v store).map fun x => (x.1.translate T, x.2.translate T) := by
  have henv : (T.correspondence store).env env env := rfl
  have hvalue : (T.correspondence store).Relates v (v.translate T) := relates_iff.2 rfl
  have hrun := (T.correspondence store).simulates_eval depth henv hvalue (stores_translate store)
    (.inl (Store.size_translate store).symm)
  generalize eval depth env v store = x,
    eval depth env (v.translate T) (store.translate T) = y at hrun ⊢
  cases hrun with
  | none => rfl
  | @some x y hresults =>
    have hsize : y.2.cells.size = (x.2.translate T).cells.size := by
      rw [Store.size_translate, hresults.stores.size_eq (Store.size_translate store).symm]
    have hstore : y.2 = x.2.translate T := by
      refine Store.eq_of_link?_of_bindings hsize (fun e => ?_) fun e => ?_
      · rw [hresults.right, Store.link?_translate, Store.link?_translate, hresults.left]
      · rw [Store.bindings_translate, binds_iff.1 (hresults.stores.bindings rfl)]
    exact congrArg some (Prod.ext (relates_iff.1 hresults.result) hstore)

end Translation

end QuoteLisp
