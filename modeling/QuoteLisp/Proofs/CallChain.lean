import QuoteLisp.Proofs.Frame
import QuoteLisp.Proofs.Nested
import QuoteLisp.Proofs.Resolution

/-!
# The chain at every depth of calls

Whatever an evaluation runs, it runs in an environment whose chain is made of the frames of the
calls in progress, followed by the chain that the evaluation began with. A frame is linked to its
caller when it is made, whatever link the called closure carries, and its caller outlives it; so all
links on the way are alive, every search for a name or for the root ends, and a definition at the
root goes to one and the same environment at every depth.
-/

namespace QuoteLisp

open Store

/-! ## Searches that end -/

namespace Store

variable {store : Store} {env : EnvId} {chain : List EnvId}

/-- The search for a name along live links, without a bound, ends with this result. -/
inductive Searched (store : Store) (name : String) : EnvId → Option Value → Prop
  | found {env : EnvId} {v : Value} (hfind : (store.bindings env).find? name = some v) :
    Searched store name env (some v)
  | missed {env : EnvId} (hfind : (store.bindings env).find? name = none)
    (hparent : store.parent? env = none) : Searched store name env none
  | above {env parent : EnvId} {r : Option Value}
    (hfind : (store.bindings env).find? name = none) (hparent : store.parent? env = some parent)
    (hsearched : Searched store name parent r) : Searched store name env r

/-- Along a chain every search ends, with the value that the name has. -/
theorem HasChain.searched (hchain : store.HasChain env chain) (name : String) :
    store.Searched name env (store.lookup env name) := by
  rw [hchain.lookup_eq]
  induction hchain with
  | @root root _ hparent =>
    rw [List.length_singleton, lookupWithin_succ, hparent]
    cases hfind : (store.bindings root).find? name with
    | some v => exact .found hfind
    | none => exact .missed hfind hparent
  | @nested env parent above hparent _ ih =>
    rw [List.length_cons, lookupWithin_succ, hparent]
    cases hfind : (store.bindings env).find? name with
    | some v => exact .found hfind
    | none => exact .above hfind hparent ih

end Store

/-! ## Frames -/

/-- The environment is made for a call while an evaluation runs. -/
def IsCallFrame (depth : Nat) (outer : Evaluation) (frame : EnvId) : Prop :=
  ∃ env formals body captured args store,
    During depth outer (.ofCall env formals body captured args store) ∧ frame = store.cells.size

variable {depth : Nat} {outer inner start : Evaluation} {chain : List EnvId} {root : EnvId}

theorem IsCallFrame.inside {frame : EnvId} (hnested : Nested (eval depth) outer inner)
    (hframe : IsCallFrame depth inner frame) : IsCallFrame (depth + 1) outer frame := by
  obtain ⟨env, formals, body, captured, args, store, hduring, hsize⟩ := hframe
  exact ⟨env, formals, body, captured, args, store, .inside hnested hduring, hsize⟩

theorem hasChain_of_evalItems {env : EnvId} {items : List Value} {store after : Store}
    {outcome : Except EvalError (List Value)} (hchain : store.HasChain env chain)
    (h : evalItems (eval depth) env items store = some (outcome, after)) :
    after.HasChain env chain :=
  (changesOnly_of_evalItems (writesToEnds_eval depth) hchain hchain.getLast?_eq_root h).hasChain
    hchain

/-- A nested evaluation runs in the same environment or in a new frame in front of it. -/
theorem hasChain_of_nested (hnested : Nested (eval depth) outer inner)
    (hchain : outer.store.HasChain outer.env chain) :
    ∃ frames, inner.store.HasChain inner.env (frames ++ chain) ∧
      ∀ frame ∈ frames, IsCallFrame (depth + 1) outer frame := by
  cases hnested with
  | item hbefore => exact ⟨[], hasChain_of_evalItems hchain hbefore, by simp⟩
  | quoted hitems => exact ⟨[], hasChain_of_evalItems hchain hitems, by simp⟩
  | @body env items body args formals captured link store mid hitems hargs hlength =>
    have hmid := hasChain_of_evalItems hchain hitems
    refine ⟨[mid.cells.size], hmid.alloc_nested _, List.forall_mem_singleton.2 ?_⟩
    exact ⟨env, formals, body, captured, args, mid,
      .inside (.body hitems hargs hlength) (.self depth _), rfl⟩

/-- Every evaluation during another one stands on frames of calls and on the chain of that one. -/
theorem hasChain_during (hduring : During depth outer start)
    (hchain : outer.store.HasChain outer.env chain) :
    ∃ frames, start.store.HasChain start.env (frames ++ chain) ∧
      ∀ frame ∈ frames, IsCallFrame depth outer frame := by
  induction hduring generalizing chain with
  | self depth start => exact ⟨[], hchain, by simp⟩
  | inside hnested _ ih =>
    obtain ⟨first, hfirst, hisFirst⟩ := hasChain_of_nested hnested hchain
    obtain ⟨frames, hframes, hisFrame⟩ := ih hfirst
    refine ⟨frames ++ first, by rwa [List.append_assoc], List.forall_mem_append.2 ⟨?_, hisFirst⟩⟩
    exact fun frame hframe => (hisFrame frame hframe).inside hnested

/-! ## Builtin functions -/

/-- A builtin function that is about to run on evaluated arguments. -/
structure Application where
  env : EnvId
  builtin : Builtin
  args : List Value
  store : Store

/-- While an evaluation runs, a builtin function is run as the first item of an expression. -/
inductive Applies (depth : Nat) (outer : Evaluation) : Application → Prop
  | call {bound : Nat} {env : EnvId} {items args : List Value} {b : Builtin} {store mid : Store}
    (hduring : During depth outer ⟨env, .sexpr items, store⟩)
    (hitems : evalItems (eval bound) env items store = some (.ok (.builtin b :: args), mid))
    (hargs : args ≠ []) : Applies depth outer ⟨env, b, args, mid⟩

theorem Applies.hasChain {app : Application} (happlies : Applies depth outer app)
    (hchain : outer.store.HasChain outer.env chain) :
    ∃ frames, app.store.HasChain app.env (frames ++ chain) ∧
      ∀ frame ∈ frames, IsCallFrame depth outer frame := by
  obtain ⟨hduring, hitems, -⟩ := happlies
  obtain ⟨frames, hstart, hframes⟩ := hasChain_during hduring hchain
  exact ⟨frames, hasChain_of_evalItems hstart hitems, hframes⟩

/-- The operations that define names at the root. -/
def Primitive.definesAtRoot : Primitive → Bool
  | define => true
  | function => true
  | _ => false

/-- An operation that defines names at the root does so, if it succeeds, and does nothing else. -/
theorem Primitive.exists_define_of_run {p : Primitive} (hp : p.definesAtRoot = true)
    {evaluate : Evaluator} {env : EnvId} {args : List Value} {store after : Store} {r : Value}
    (h : p.run evaluate env args store = some (.ok r, after)) :
    ∃ bindings, p.action args = .ok (.define bindings r) ∧
      after = store.defineAllRoot env bindings := by
  rw [run_eq] at h
  cases p with
  | define =>
    rw [action] at h ⊢
    cases hdefinitions : definitions define.name args with
    | error fault =>
      rw [hdefinitions] at h
      cases h
    | ok bindings =>
      rw [hdefinitions] at h
      cases h
      exact ⟨bindings, rfl, rfl⟩
  | function =>
    rw [action] at h ⊢
    rcases hformals : formalsAndBody function.name args with fault | ⟨_ | ⟨name, formals⟩, body⟩
    · rw [hformals] at h
      cases h
    · rw [hformals] at h
      cases h
    · rw [hformals] at h
      cases h
      exact ⟨_, rfl, rfl⟩
  | _ => cases hp

/-! ## Chains at every depth -/

/-- An environment stands on frames of calls, which stand on a chain, and all links are alive. -/
structure StandsOn (depth : Nat) (outer : Evaluation) (chain : List EnvId) (root : EnvId)
    (store : Store) (env : EnvId) (frames : List EnvId) : Prop where
  hasChain : store.HasChain env (frames ++ chain)
  nodup : (frames ++ chain).Nodup
  isCallFrame : ∀ frame ∈ frames, IsCallFrame depth outer frame ∧ store.isLive frame = true
  getLast? : (frames ++ chain).getLast? = some root
  linked : ∀ e ∈ frames ++ chain, e ≠ root → ∃ parent ∈ frames ++ chain,
    store.link? e = some (some parent) ∧ store.isLive parent = true
  root_eq : store.root env = root
  searched : ∀ name, store.Searched name env (store.lookup env name)

variable {store : Store} {env : EnvId} {frames : List EnvId}

theorem standsOn_of_hasChain (hchain : store.HasChain env (frames ++ chain))
    (hframes : ∀ frame ∈ frames, IsCallFrame depth outer frame)
    (hroot : chain.getLast? = some root) : StandsOn depth outer chain root store env frames := by
  have hlast : (frames ++ chain).getLast? = some root := by
    rw [List.getLast?_append, hroot, Option.some_or]
  refine ⟨hchain, hchain.nodup, ?_, hlast, ?_, hchain.root_of_getLast? hlast, hchain.searched⟩
  · intro frame hframe
    exact ⟨hframes frame hframe, hchain.isLive_of_mem (List.mem_append_left _ hframe)⟩
  · intro e he hne
    obtain ⟨parent, hmem, hparent⟩ := hchain.exists_parent? hlast he hne
    exact ⟨parent, hmem, parent?_eq_some_iff.1 hparent⟩

/-- On such a chain the definitions at the root go to its end. -/
theorem StandsOn.defineAllRoot (h : StandsOn depth outer chain root store env frames)
    (bindings : List (String × Value)) :
    store.defineAllRoot env bindings = store.defineAll root bindings ∧
      (store.defineAllRoot env bindings).bindings root = (store.bindings root).setAll bindings := by
  have hlive : store.isLive root = true :=
    h.hasChain.isLive_of_mem (List.mem_of_getLast? h.getLast?)
  rw [ChangesOnly.defineAllRoot_eq h.hasChain h.getLast?]
  exact ⟨rfl, bindings_defineAll hlive bindings⟩

/-- Whatever runs during an evaluation has a chain of distinct live frames of calls and, behind
them, the chain of the evaluation: before it runs and, if it finishes, after that. A builtin
function that defines names at the root binds them in the last environment of the chain. -/
theorem chain_sound_at_every_depth (depth : Nat) (outer : Evaluation)
    (hchain : outer.store.HasChain outer.env chain) (hroot : chain.getLast? = some root) :
    (∀ start, During depth outer start → ∃ frames,
      StandsOn depth outer chain root start.store start.env frames ∧
      ∀ bound r after, (eval bound).on start = some (r, after) →
        StandsOn depth outer chain root after start.env frames) ∧
    ∀ app, Applies depth outer app → ∃ frames,
      StandsOn depth outer chain root app.store app.env frames ∧
      ∀ evaluate r after, app.builtin.primitive.definesAtRoot = true →
        app.builtin.primitive.run evaluate app.env app.args app.store = some (.ok r, after) →
        ∃ bindings, app.builtin.primitive.action app.args = .ok (.define bindings r) ∧
          after = app.store.defineAll root bindings ∧
          after.bindings root = (app.store.bindings root).setAll bindings := by
  constructor
  · intro start hduring
    obtain ⟨frames, hstart, hframes⟩ := hasChain_during hduring hchain
    refine ⟨frames, standsOn_of_hasChain hstart hframes hroot, fun bound r after heval => ?_⟩
    have hafter := writesToEnds_eval bound heval hstart hstart.getLast?_eq_root
    exact standsOn_of_hasChain (hafter.hasChain hstart) hframes hroot
  · intro app happlies
    obtain ⟨frames, happ, hframes⟩ := happlies.hasChain hchain
    have hstands := standsOn_of_hasChain happ hframes hroot
    refine ⟨frames, hstands, fun evaluate r after hdefines hrun => ?_⟩
    obtain ⟨bindings, haction, rfl⟩ := Primitive.exists_define_of_run hdefines hrun
    exact ⟨bindings, haction, hstands.defineAllRoot bindings⟩

/-- Two closures that carry links, one to an environment that is gone and one to a root of its own,
are called within each other; the inner one defines a name at the root of the caller. -/
theorem chain_sound_two_calls_deep :
    let root := (Store.empty.alloc ⟨Scope.builtins, none⟩).2
    let store := (((root.alloc (.within 0)).2.alloc .empty).2.release 2).alloc .empty |>.2
    let g := Value.closure ["y"] [.symbol "def", .qexpr [.symbol "z"], .symbol "y"] [] (some 3)
    let f := Value.closure ["x"] [g, .symbol "x"] [] (some 2)
    let outer : Evaluation := ⟨1, .sexpr [f, .number 7], store⟩
    ∃ app after, Applies 3 outer app ∧ StandsOn 3 outer [1, 0] 0 app.store app.env [5, 4] ∧
      app.builtin.primitive.run (eval 0) app.env app.args app.store = some (.ok .unit, after) ∧
      after.bindings 0 = (app.store.bindings 0).set "z" (.number 7) := by
  intro root store g f outer
  let body := [Value.symbol "def", .qexpr [.symbol "z"], .symbol "y"]
  let first := Evaluation.ofCall 1 ["x"] [g, .symbol "x"] [] [.number 7] store
  let second := Evaluation.ofCall 4 ["y"] body [] [.number 7] first.store
  have hf : evalItems (eval 2) 1 [f, .number 7] store = some (.ok [f, .number 7], store) := rfl
  have hg : evalItems (eval 1) 4 [g, .symbol "x"] first.store =
      some (.ok [g, .number 7], first.store) := rfl
  have hbody : evalItems (eval 1) 5 body second.store = some
      (.ok (.ofPrimitive .define :: [.qexpr [.symbol "z"], .number 7]), second.store) := rfl
  have hduring : During 3 outer second :=
    .inside (.body hf (List.cons_ne_nil _ _) rfl)
      (.inside (.body hg (List.cons_ne_nil _ _) rfl) (.self 1 second))
  have happlies : Applies 3 outer _ := .call hduring hbody (List.cons_ne_nil _ _)
  have hchain : store.HasChain 1 [1, 0] := .nested rfl (.root rfl rfl)
  obtain ⟨frames, hstands, hdefines⟩ :=
    (chain_sound_at_every_depth 3 outer hchain rfl).2 _ happlies
  have hframes : frames ++ [1, 0] = [5, 4] ++ [1, 0] :=
    hstands.hasChain.unique (.nested rfl (.nested rfl (.nested rfl (.root rfl rfl))))
  rw [List.append_cancel_right hframes] at hstands
  have hrun : Primitive.define.run (eval 0) 5 [.qexpr [.symbol "z"], .number 7] second.store =
      some (.ok .unit, _) := rfl
  obtain ⟨bindings, haction, -, hbindings⟩ := hdefines (eval 0) _ _ rfl hrun
  cases haction
  exact ⟨_, _, happlies, hstands, hrun, hbindings⟩

end QuoteLisp
