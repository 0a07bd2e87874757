import QuoteLisp.Proofs.Inversion
import QuoteLisp.Proofs.Operations

/-!
# Links between named environments

A link leads to one environment for good, whatever slot that one is in. It is alive as long as the
environment is, and an environment lives from the operation that puts it into a slot to the one that
empties or refills the slot; its identity is never given away again. So the operations of a host
decide which links are alive: the last one that gave an environment its link says where the link
leads, and the link is dead from the moment when its target is released.
-/

namespace QuoteLisp

/-! ## Stores with the same links -/

namespace Store

/-- All links stay, and identities are given away in ascending order. -/
structure KeepsLinks (before after : Store) : Prop where
  link? : ∀ e, after.link? e = before.link? e
  size_le : before.cells.size ≤ after.cells.size

namespace KeepsLinks

variable {before mid after store : Store}

theorem refl (store : Store) : KeepsLinks store store := ⟨fun _ => rfl, le_rfl⟩

theorem trans (h₁ : KeepsLinks before mid) (h₂ : KeepsLinks mid after) :
    KeepsLinks before after :=
  ⟨fun e => (h₂.link? e).trans (h₁.link? e), h₁.size_le.trans h₂.size_le⟩

theorem define (store : Store) (env : EnvId) (name : String) (v : Value) :
    KeepsLinks store (store.define env name v) :=
  ⟨fun e => link?_define store env e name v, (size_define store env name v).ge⟩

theorem release_alloc {scope : Scope} (h : KeepsLinks (store.alloc scope).2 after) :
    KeepsLinks store (after.release store.cells.size) := by
  refine ⟨link?_release_alloc h.link?, ?_⟩
  have hsize := h.size_le
  rw [size_alloc] at hsize
  rw [size_release]
  omega

theorem isEvalRelation : IsEvalRelation KeepsLinks :=
  ⟨refl, trans, define, release_alloc⟩

end KeepsLinks

end Store

namespace Workspace

open Store

variable {w after : Workspace} {op : Operation} {slot : String} {env target : EnvId}

/-- A change of the store in place keeps all links or sets one. -/
theorem Changes.keepsLinks_or_setParent {store : Store} (h : w.Changes op store) :
    w.store.KeepsLinks store ∨
      ∃ slot parent env target, op = .setParent slot parent ∧ w.env? slot = some env ∧
        w.env? parent = some target ∧ store = w.store.setParent env target := by
  cases h with
  | install =>
    rw [install_eq_defineAll]
    exact .inl (KeepsLinks.isEvalRelation.defineAll _ _ _)
  | define => exact .inl (.define ..)
  | defineRoot => exact .inl (.define ..)
  | setParent henv htarget => exact .inr ⟨_, _, _, _, rfl, henv, htarget, rfl⟩
  | eval _ heval => exact .inl (KeepsLinks.isEvalRelation.eval _ heval)

theorem Changes.isLive {store : Store} (h : w.Changes op store) (env : EnvId) :
    store.isLive env = w.store.isLive env := by
  obtain hkeeps | ⟨slot, parent, changed, target, -, -, -, rfl⟩ := h.keepsLinks_or_setParent
  · exact isLive_congr (hkeeps.link? env)
  · exact isLive_setParent _ _ _ _

theorem Changes.size_le {store : Store} (h : w.Changes op store) :
    w.store.cells.size ≤ store.cells.size := by
  obtain hkeeps | ⟨slot, parent, changed, target, -, -, -, rfl⟩ := h.keepsLinks_or_setParent
  · exact hkeeps.size_le
  · exact (size_setParent _ _ _).ge

/-! ## Slots -/

/-- The slots hold the live environments, each in one slot. -/
structure HoldsLive (w : Workspace) : Prop where
  isLive_iff : ∀ env, w.store.isLive env = true ↔ ∃ slot, w.env? slot = some env
  slot_unique : ∀ {slot other env}, w.env? slot = some env → w.env? other = some env → slot = other

namespace HoldsLive

theorem empty : empty.HoldsLive where
  isLive_iff env := by simp [Workspace.empty, Store.empty, Store.isLive, Store.scope?, env?]
  slot_unique h := by cases h

theorem isLive (hw : w.HoldsLive) (henv : w.env? slot = some env) : w.store.isLive env = true :=
  (hw.isLive_iff env).2 ⟨slot, henv⟩

theorem lt_size (hw : w.HoldsLive) (henv : w.env? slot = some env) : env < w.store.cells.size :=
  lt_size_of_isLive (hw.isLive henv)

theorem drop (hw : w.HoldsLive) (slot : String) : (w.drop slot).HoldsLive where
  isLive_iff env := by
    rw [isLive_drop]
    simp only [env?_drop]
    constructor
    · intro hlive
      split at hlive
      · cases hlive
      · rename_i hslot
        obtain ⟨other, henv⟩ := (hw.isLive_iff env).1 hlive
        refine ⟨other, ?_⟩
        rw [if_neg (by rintro rfl; exact hslot henv), henv]
    · rintro ⟨other, henv⟩
      split at henv
      · cases henv
      · rename_i hother
        rw [if_neg fun hslot => hother (hw.slot_unique henv hslot), hw.isLive henv]
  slot_unique {first second env} hfirst hsecond := by
    rw [env?_drop] at hfirst hsecond
    split at hfirst
    · cases hfirst
    · split at hsecond
      · cases hsecond
      · exact hw.slot_unique hfirst hsecond

theorem put (hw : w.HoldsLive) (slot : String) (scope : Scope) : (w.put slot scope).HoldsLive where
  isLive_iff env := by
    rw [isLive_put]
    simp only [env?_put]
    constructor
    · intro hlive
      split at hlive
      · cases hlive
      · rename_i hslot
        obtain hnew | hlive := Bool.or_eq_true_iff.1 hlive
        · exact ⟨slot, by rw [if_pos rfl, beq_iff_eq.1 hnew]⟩
        · obtain ⟨other, henv⟩ := (hw.isLive_iff env).1 hlive
          exact ⟨other, by rw [if_neg (by rintro rfl; exact hslot henv), henv]⟩
    · rintro ⟨other, henv⟩
      split at henv
      · obtain rfl := Option.some.inj henv
        rw [if_neg fun hslot => (hw.lt_size hslot).false, beq_self_eq_true, Bool.true_or]
      · rename_i hother
        rw [if_neg fun hslot => hother (hw.slot_unique henv hslot), hw.isLive henv, Bool.or_true]
  slot_unique {first second env} hfirst hsecond := by
    rw [env?_put] at hfirst hsecond
    split at hfirst <;> split at hsecond
    · rename_i hfirstSlot hsecondSlot
      rw [hfirstSlot, hsecondSlot]
    · cases hfirst
      exact absurd (hw.lt_size hsecond) (lt_irrefl _)
    · cases hsecond
      exact absurd (hw.lt_size hfirst) (lt_irrefl _)
    · exact hw.slot_unique hfirst hsecond

/-- What is offered to a new environment has no link to one that is yet to be made. -/
theorem offers (hw : w.HoldsLive) {scope : Scope} (hscope : w.Offers op scope) :
    ∀ parent ∈ scope.parent, parent < w.store.cells.size := by
  intro parent hparent
  cases hscope with
  | empty => cases hparent
  | child henv =>
    cases hparent
    exact hw.lt_size henv
  | copy hscope =>
    obtain ⟨orig, -, hscope⟩ := Option.bind_eq_some_iff.1 hscope
    exact parent_lt_size hscope hparent

theorem perform (hw : w.HoldsLive) (h : w.perform op = some after) : after.HoldsLive := by
  obtain rfl | ⟨slot, scope, -, -, rfl⟩ | ⟨slot, -, rfl⟩ | ⟨store, hstore, rfl⟩ := perform_cases h
  · exact hw
  · exact hw.put slot scope
  · exact hw.drop slot
  · exact ⟨fun env => by rw [hstore.isLive env]; exact hw.isLive_iff env, hw.slot_unique⟩

end HoldsLive

theorem size_le_of_perform (h : w.perform op = some after) :
    w.store.cells.size ≤ after.store.cells.size := by
  obtain rfl | ⟨slot, scope, -, -, rfl⟩ | ⟨slot, -, rfl⟩ | ⟨store, hstore, rfl⟩ := perform_cases h
  · exact le_rfl
  · rw [size_put]
    exact Nat.le_succ _
  · rw [size_drop]
  · exact hstore.size_le

/-- An environment that an operation puts into a slot is new. -/
theorem env?_of_perform (h : w.perform op = some after) (henv : after.env? slot = some env) :
    w.env? slot = some env ∨ env = w.store.cells.size := by
  obtain rfl | ⟨filled, scope, -, -, rfl⟩ | ⟨emptied, -, rfl⟩ | ⟨store, -, rfl⟩ := perform_cases h
  · exact .inl henv
  · rw [env?_put] at henv
    split at henv
    · exact .inr (Option.some.inj henv).symm
    · exact .inl henv
  · rw [env?_drop] at henv
    split at henv
    · cases henv
    · exact .inl henv
  · exact .inl henv

/-! ## Runs -/

/-- An operation with the workspaces before and after it. -/
structure Step where
  before : Workspace
  op : Operation
  after : Workspace
  performs : before.perform op = some after

/-- Steps, the latest one first, lead from one workspace to another. -/
inductive Run (w : Workspace) : List Step → Workspace → Prop
  | nil : Run w [] w
  | cons {steps : List Step} (s : Step) (hrun : Run w steps s.before) : Run w (s :: steps) s.after

namespace Run

variable {steps later : List Step} {last : Workspace}

theorem append (hrun : Run w steps after) (hlater : Run after later last) :
    Run w (later ++ steps) last := by
  induction hlater with
  | nil => exact hrun
  | cons s _ ih => exact .cons s ih

theorem holdsLive (hrun : Run w steps after) (hw : w.HoldsLive) : after.HoldsLive := by
  induction hrun with
  | nil => exact hw
  | cons s _ ih => exact ih.perform s.performs

theorem size_le (hrun : Run w steps after) : w.store.cells.size ≤ after.store.cells.size := by
  induction hrun with
  | nil => exact le_rfl
  | cons s _ ih => exact ih.trans (size_le_of_perform s.performs)

end Run

namespace Step

variable {s : Step}

/-- The environment is dropped, or another one is put into its slot. -/
def Releases (s : Step) (env : EnvId) : Prop :=
  ∃ slot, s.before.env? slot = some env ∧ s.after.env? slot ≠ some env

/-- The environment is put into the slot. -/
def Fills (s : Step) (slot : String) (env : EnvId) : Prop :=
  s.before.env? slot ≠ some env ∧ s.after.env? slot = some env

instance (s : Step) (slot : String) (env : EnvId) : Decidable (s.Fills slot env) :=
  inferInstanceAs (Decidable (_ ∧ _))

/-- The environment is given a link that it was not made with. -/
def Relinks (s : Step) (env : EnvId) : Prop :=
  ∃ slot parent target, s.op = .setParent slot parent ∧ s.before.env? slot = some env ∧
    s.before.env? parent = some target

theorem Fills.eq_size (hfills : s.Fills slot env) : env = s.before.store.cells.size :=
  (env?_of_perform s.performs hfills.2).resolve_left hfills.1

theorem isLive_before (hbefore : s.before.HoldsLive) (hold : env ≠ s.before.store.cells.size)
    (hlive : s.after.store.isLive env = true) : s.before.store.isLive env = true := by
  obtain ⟨slot, henv⟩ := ((hbefore.perform s.performs).isLive_iff env).1 hlive
  exact hbefore.isLive ((env?_of_perform s.performs henv).resolve_right hold)

/-- An environment lives on unless the step releases it. -/
theorem isLive_after_iff (hbefore : s.before.HoldsLive)
    (hlive : s.before.store.isLive env = true) :
    s.after.store.isLive env = true ↔ ¬ s.Releases env := by
  have hafter := hbefore.perform s.performs
  constructor
  · rintro hlive' ⟨slot, henv, hgone⟩
    obtain ⟨other, hother⟩ := (hafter.isLive_iff env).1 hlive'
    have hold : env ≠ s.before.store.cells.size := (hbefore.lt_size henv).ne
    have hother' := (env?_of_perform s.performs hother).resolve_right hold
    -- environments stay in their slots
    obtain rfl := hbefore.slot_unique henv hother'
    exact hgone hother
  · intro hkept
    obtain ⟨slot, henv⟩ := (hbefore.isLive_iff env).1 hlive
    by_contra hdead
    exact hkept ⟨slot, henv, fun henv' => hdead (hafter.isLive henv')⟩

theorem link?_after (hbefore : s.before.HoldsLive) (hlive : s.before.store.isLive env = true)
    (hkept : ¬ s.Releases env) (hrelinks : ¬ s.Relinks env) :
    s.after.store.link? env = s.before.store.link? env := by
  obtain ⟨before, op, after, hperform⟩ := s
  have hold : env ≠ before.store.cells.size := (lt_size_of_isLive hlive).ne
  obtain rfl | ⟨slot, scope, -, -, rfl⟩ | ⟨slot, -, rfl⟩ | ⟨store, hstore, rfl⟩ :=
    perform_cases hperform
  · rfl
  · have hslot : before.env? slot ≠ some env := by
      intro henv
      refine hkept ⟨slot, henv, ?_⟩
      simpa [env?_put] using hold.symm
    rw [link?_put, if_neg hslot, link?_alloc_of_ne hold]
  · have hslot : before.env? slot ≠ some env := by
      intro henv
      refine hkept ⟨slot, henv, ?_⟩
      simp [env?_drop]
    rw [link?_drop, if_neg hslot]
  · obtain hkeeps | ⟨slot, parent, changed, target, hop, henv, htarget, rfl⟩ :=
      hstore.keepsLinks_or_setParent
    · exact hkeeps.link? env
    · refine link?_setParent_of_ne target ?_
      rintro rfl
      exact hrelinks ⟨slot, parent, target, hop, henv, htarget⟩

theorem link?_after_setParent (hbefore : s.before.HoldsLive) {slot parent : String}
    (hop : s.op = .setParent slot parent) (henv : s.before.env? slot = some env)
    (htarget : s.before.env? parent = some target) :
    s.after.store.link? env = some (some target) := by
  have hperform := s.performs
  rw [hop, perform, Option.some.injEq, setParent, htarget] at hperform
  simp only [onStore, henv] at hperform
  rw [← hperform]
  exact link?_setParent_self (hbefore.isLive henv) (hbefore.lt_size htarget)

/-- A step that fills a slot puts there what its operation offers. -/
theorem Fills.exists_offers (hfills : s.Fills slot env) :
    ∃ scope, s.op.vacates = some slot ∧ s.before.Offers s.op scope ∧
      s.after = s.before.put slot scope := by
  obtain ⟨before, op, after, hperform⟩ := s
  obtain ⟨hbefore, hafter⟩ := hfills
  obtain rfl | ⟨filled, scope, hfilled, hscope, rfl⟩ | ⟨emptied, -, rfl⟩ | ⟨store, -, rfl⟩ :=
    perform_cases hperform
  · exact absurd hafter hbefore
  · have hslot : slot = filled := by
      by_contra hne
      rw [env?_put, if_neg hne] at hafter
      exact hbefore hafter
    subst hslot
    exact ⟨scope, hfilled, hscope, rfl⟩
  · rw [env?_drop] at hafter
    split at hafter
    · cases hafter
    · exact absurd hafter hbefore
  · exact absurd hafter hbefore

end Step

/-! ## The last link that was given -/

/-- The environment that one was last given a link to, as the steps tell: by making it within that
one, by nesting it there, or by copying an environment that had been given the link before. -/
def lastLink : List Step → EnvId → Option EnvId
  | [], _ => none
  | s :: earlier, env =>
    match s.op with
    | .create slot => if s.Fills slot env then none else lastLink earlier env
    | .createChild slot parent =>
      if s.Fills slot env then s.before.env? parent else lastLink earlier env
    | .createCopy slot source =>
      if s.Fills slot env then (s.before.env? source).bind (lastLink earlier)
      else lastLink earlier env
    | .setParent slot parent =>
      if s.before.env? slot = some env then (s.before.env? parent).or (lastLink earlier env)
      else lastLink earlier env
    | _ => lastLink earlier env

variable {steps : List Step} {s : Step}

theorem lastLink_of_old (hold : env ≠ s.before.store.cells.size) (hrelinks : ¬ s.Relinks env) :
    lastLink (s :: steps) env = lastLink steps env := by
  have hfills : ∀ slot, ¬ s.Fills slot env := fun slot hfills => hold hfills.eq_size
  rw [lastLink]
  split
  · rw [if_neg (hfills _)]
  · rw [if_neg (hfills _)]
  · rw [if_neg (hfills _)]
  · rename_i slot parent hop
    split
    · rename_i henv
      cases hparent : s.before.env? parent with
      | none => rfl
      | some target => exact absurd ⟨slot, parent, target, hop, henv, hparent⟩ hrelinks
    · rfl
  · rfl

theorem lastLink_of_relinks {slot parent : String} (hop : s.op = .setParent slot parent)
    (henv : s.before.env? slot = some env) (htarget : s.before.env? parent = some target) :
    lastLink (s :: steps) env = some target := by
  rw [lastLink, hop]
  simp only [if_pos henv, htarget, Option.some_or]

/-- The link of a new environment is the one that it is made with. -/
theorem lastLink_of_fills (hfills : s.Fills slot env)
    (hlinks : ∀ e, s.before.store.isLive e = true →
      s.before.store.link? e = some (lastLink steps e))
    {scope : Scope} (hslot : s.op.vacates = some slot) (hscope : s.before.Offers s.op scope) :
    lastLink (s :: steps) env = scope.parent := by
  obtain ⟨before, op, after, hperform⟩ := s
  rw [lastLink]
  cases hscope with
  | empty =>
    cases hslot
    exact if_pos hfills
  | child htarget =>
    cases hslot
    simp only [if_pos hfills, htarget]
    rfl
  | copy hscope =>
    cases hslot
    obtain ⟨orig, horig, hscope⟩ := Option.bind_eq_some_iff.1 hscope
    have hlive : before.store.isLive orig = true := Option.isSome_iff_exists.2 ⟨_, hscope⟩
    have hlink := hlinks orig hlive
    rw [link?, hscope, Option.map_some, Option.some.injEq] at hlink
    simp only [if_pos hfills, horig, Option.bind_some, hlink]

/-- The steps of a run tell the links of all live environments. -/
theorem Run.link?_eq_lastLink (hrun : Run .empty steps w) (hlive : w.store.isLive env = true) :
    w.store.link? env = some (lastLink steps env) := by
  induction hrun generalizing env with
  | nil =>
    obtain ⟨slot, henv⟩ := (HoldsLive.empty.isLive_iff env).1 hlive
    cases henv
  | @cons steps s hrun ih =>
    have hbefore := hrun.holdsLive .empty
    have hafter := hbefore.perform s.performs
    by_cases hrelinks : s.Relinks env
    · obtain ⟨slot, parent, target, hop, henv, htarget⟩ := hrelinks
      rw [lastLink_of_relinks hop henv htarget]
      exact s.link?_after_setParent hbefore hop henv htarget
    · by_cases hnew : env = s.before.store.cells.size
      · obtain ⟨slot, henv⟩ := (hafter.isLive_iff env).1 hlive
        have hfills : s.Fills slot env := ⟨fun hold => (hbefore.lt_size hold).ne hnew, henv⟩
        obtain ⟨scope, hslot, hscope, hput⟩ := hfills.exists_offers
        rw [lastLink_of_fills hfills (fun e => ih) hslot hscope, hput, link?_put,
          if_neg hfills.1, hnew, link?_alloc_self (hbefore.offers hscope)]
      · have hlive' := s.isLive_before hbefore hnew hlive
        have hkept := (s.isLive_after_iff hbefore hlive').1 hlive
        rw [lastLink_of_old hnew hrelinks, s.link?_after hbefore hlive' hkept hrelinks, ih hlive']

/-- A link that was given leads to an environment in a slot, or it was given before. -/
theorem exists_of_lastLink (h : lastLink (s :: steps) env = some target) :
    (∃ slot, s.before.env? slot = some target) ∨ ∃ e, lastLink steps e = some target := by
  rw [lastLink] at h
  split at h
  · split at h
    · cases h
    · exact .inr ⟨env, h⟩
  · split at h
    · exact .inl ⟨_, h⟩
    · exact .inr ⟨env, h⟩
  · split at h
    · obtain ⟨orig, -, horig⟩ := Option.bind_eq_some_iff.1 h
      exact .inr ⟨orig, horig⟩
    · exact .inr ⟨env, h⟩
  · split at h
    · obtain hparent | ⟨-, hearlier⟩ := Option.or_eq_some_iff.1 h
      · exact .inl ⟨_, hparent⟩
      · exact .inr ⟨env, hearlier⟩
    · exact .inr ⟨env, h⟩
  · exact .inr ⟨env, h⟩

namespace Run

variable {later : List Step} {last : Workspace}

/-- What is released once stays dead, because its identity is not given away again. -/
theorem dead_of_releases (hrun : Run .empty steps w) (hs : s ∈ steps) (hreleases : s.Releases env) :
    w.store.isLive env = false ∧ env < w.store.cells.size := by
  induction hrun with
  | nil => cases hs
  | @cons steps latest hrun ih =>
    have hbefore := hrun.holdsLive .empty
    have hsize := size_le_of_perform latest.performs
    rcases List.mem_cons.1 hs with rfl | hs
    · obtain ⟨slot, henv, hgone⟩ := hreleases
      refine ⟨Bool.eq_false_iff.2 fun hlive => ?_, (hbefore.lt_size henv).trans_le hsize⟩
      exact (Step.isLive_after_iff hbefore (hbefore.isLive henv)).1 hlive ⟨slot, henv, hgone⟩
    · obtain ⟨hdead, hlt⟩ := ih hs
      refine ⟨Bool.eq_false_iff.2 fun hlive => ?_, hlt.trans_le hsize⟩
      exact Bool.eq_false_iff.1 hdead (latest.isLive_before hbefore hlt.ne hlive)

theorem isLive_or_releases (hrun : Run .empty steps w)
    (htarget : lastLink steps env = some target) :
    w.store.isLive target = true ∨ ∃ s ∈ steps, s.Releases target := by
  induction hrun generalizing env with
  | nil => cases htarget
  | @cons steps s hrun ih =>
    have hbefore := hrun.holdsLive .empty
    have hearlier : s.before.store.isLive target = true ∨ ∃ s ∈ steps, s.Releases target := by
      obtain ⟨slot, hslot⟩ | ⟨e, he⟩ := exists_of_lastLink htarget
      · exact .inl (hbefore.isLive hslot)
      · exact ih he
    obtain hlive | ⟨earlier, hmem, hreleases⟩ := hearlier
    · by_cases hreleases : s.Releases target
      · exact .inr ⟨s, List.mem_cons_self, hreleases⟩
      · exact .inl ((Step.isLive_after_iff hbefore hlive).2 hreleases)
    · exact .inr ⟨earlier, List.mem_cons_of_mem _ hmem, hreleases⟩

theorem isLive_lastLink_iff (hrun : Run .empty steps w)
    (htarget : lastLink steps env = some target) :
    w.store.isLive target = true ↔ ∀ s ∈ steps, ¬ s.Releases target := by
  constructor
  · intro hlive s hs hreleases
    rw [(hrun.dead_of_releases hs hreleases).1] at hlive
    cases hlive
  · intro hkept
    refine (hrun.isLive_or_releases htarget).resolve_right ?_
    rintro ⟨s, hs, hreleases⟩
    exact hkept s hs hreleases

theorem lastLink_append (hlater : Run w later last) (hlt : env < w.store.cells.size)
    (hrelinks : ∀ s ∈ later, ¬ s.Relinks env) :
    lastLink (later ++ steps) env = lastLink steps env := by
  induction hlater with
  | nil => rfl
  | @cons later s hlater ih =>
    obtain ⟨hlatest, hrelinks⟩ := List.forall_mem_cons.1 hrelinks
    have hold : env ≠ s.before.store.cells.size := (hlt.trans_le hlater.size_le).ne
    exact (lastLink_of_old hold hlatest).trans (ih hrelinks)

end Run

/-! ## Parents -/

/-- Whether the environment in a slot has a link to a live one. -/
def hasParent (w : Workspace) (slot : String) : Bool :=
  (w.scope? slot).any fun scope => w.store.linked scope.parent

theorem hasParent_eq_isSome_parent? (henv : w.env? slot = some env) :
    w.hasParent slot = (w.store.parent? env).isSome := by
  rw [hasParent, scope?, henv, Option.bind_some, parent?]
  cases w.store.scope? env with
  | none => rfl
  | some scope => rw [Option.any_some, Option.bind_some, Option.isSome_filter, linked]

theorem Run.hasParent_iff (hrun : Run .empty steps w) (henv : w.env? slot = some env) :
    w.hasParent slot = true ↔
      ∃ target, lastLink steps env = some target ∧ ∀ s ∈ steps, ¬ s.Releases target := by
  have hlink := hrun.link?_eq_lastLink ((hrun.holdsLive .empty).isLive henv)
  rw [hasParent_eq_isSome_parent? henv, Option.isSome_iff_exists]
  constructor
  · rintro ⟨target, hparent⟩
    obtain ⟨htarget, hlive⟩ := parent?_eq_some_iff.1 hparent
    rw [hlink, Option.some.injEq] at htarget
    exact ⟨target, htarget, (hrun.isLive_lastLink_iff htarget).1 hlive⟩
  · rintro ⟨target, htarget, hkept⟩
    refine ⟨target, parent?_eq_some_iff.2 ⟨?_, (hrun.isLive_lastLink_iff htarget).2 hkept⟩⟩
    rw [hlink, htarget]

/-- Only a link that is given anew can bring back a parent. -/
theorem Run.hasParent_eq_false (hrun : Run .empty steps w) (henv : w.env? slot = some env)
    (hparent : w.hasParent slot = false) {later : List Step} {last : Workspace}
    (hlater : Run w later last) (hlast : last.env? slot = some env)
    (hrelinks : ∀ s ∈ later, ¬ s.Relinks env) : last.hasParent slot = false := by
  have hlt := (hrun.holdsLive .empty).lt_size henv
  rw [Bool.eq_false_iff] at hparent ⊢
  intro hparent'
  obtain ⟨target, htarget, hkept⟩ := ((hrun.append hlater).hasParent_iff hlast).1 hparent'
  rw [hlater.lastLink_append hlt hrelinks] at htarget
  refine hparent ((hrun.hasParent_iff henv).2 ⟨target, htarget, fun s hs => ?_⟩)
  exact hkept s (List.mem_append_right _ hs)

/-- A copy and its original share a link, so they lose their parent together. -/
theorem Run.hasParent_copy (hrun : Run .empty steps w) {source : String} {orig copy : EnvId}
    (horig : w.env? source = some orig) (hcopy : (w.createCopy slot source).env? slot = some copy)
    {later : List Step} {last : Workspace} (hlater : Run (w.createCopy slot source) later last)
    (hcopy' : last.env? slot = some copy) (horig' : last.env? source = some orig)
    (hrelinks : ∀ s ∈ later, ¬ s.Relinks copy ∧ ¬ s.Relinks orig) :
    last.hasParent slot = last.hasParent source := by
  let s : Step := ⟨w, .createCopy slot source, w.createCopy slot source, rfl⟩
  have hw := hrun.holdsLive .empty
  have hnew : copy = w.store.cells.size := by
    obtain ⟨scope, hscope⟩ := Option.isSome_iff_exists.1 (hw.isLive horig)
    rw [createCopy, scope?, horig, Option.bind_some, hscope] at hcopy
    rw [env?_put, if_pos rfl] at hcopy
    exact (Option.some.inj hcopy).symm
  have hfills : s.Fills slot copy := ⟨fun hslot => (hw.lt_size hslot).ne hnew, hcopy⟩
  have hlink : lastLink (s :: steps) copy = lastLink (s :: steps) orig := by
    have hkept : ¬ s.Relinks orig := by
      rintro ⟨_, _, _, hop, -⟩
      cases hop
    rw [lastLink_of_old (hw.lt_size horig).ne hkept, lastLink]
    simp only [s, if_pos hfills, horig, Option.bind_some]
  have hrun' : Run .empty (s :: steps) s.after := hrun.cons s
  have hcopyLt := (hrun'.holdsLive .empty).lt_size hcopy
  have horigLt := (hw.lt_size horig).trans_le (size_le_of_perform s.performs)
  rw [Bool.eq_iff_iff, (hrun'.append hlater).hasParent_iff hcopy',
    (hrun'.append hlater).hasParent_iff horig',
    hlater.lastLink_append hcopyLt fun s hs => (hrelinks s hs).1,
    hlater.lastLink_append horigLt fun s hs => (hrelinks s hs).2, hlink]

/-! ## Environments without a parent -/

theorem HoldsLive.hasChain (hw : w.HoldsLive) (henv : w.env? slot = some env)
    (hparent : w.hasParent slot = false) : w.store.HasChain env [env] := by
  rw [hasParent_eq_isSome_parent? henv] at hparent
  exact .root (hw.isLive henv) (Option.isNone_iff_eq_none.1 (Option.isSome_eq_false_iff.1 hparent))

/-- It resolves names by its own bindings alone. -/
theorem get_of_hasChain (henv : w.env? slot = some env) (hchain : w.store.HasChain env [env])
    (name : String) :
    w.get slot name =
      ((w.store.bindings env).find? name).elim (.error (.unboundSymbol name)) .ok := by
  have hparent : w.store.parent? env = none := hchain.parent?_getLast? rfl
  rw [get, henv]
  simp only [Store.get]
  rw [hchain.lookup_eq, List.length_singleton, lookupWithin_succ, hparent]
  cases (w.store.bindings env).find? name <;> rfl

/-- It is its own root. -/
theorem defineRoot_of_hasChain (henv : w.env? slot = some env)
    (hchain : w.store.HasChain env [env]) (name : String) (v : Value) :
    w.defineRoot slot name v = w.define slot name v := by
  have hroot : w.store.root env = env := hchain.root_of_getLast? rfl
  simp only [defineRoot, define, onStore, henv, Store.defineRoot, hroot]

/-- Links die once and stay dead.

* The slots hold the live environments, and one of them has a parent if and only if it was given a
  link, last of all to an environment that no step has released.
* One without a parent stays without, whatever is put into the slot of its parent, until it is given
  a link anew.
* A copy and its original have a parent or not, both alike, until one of them is given a link.
* One without a parent resolves names by its own bindings and takes definitions for its root. -/
theorem links_die_once {steps : List Step} {w : Workspace} (hrun : Run .empty steps w) :
    (∀ env, w.store.isLive env = true ↔ ∃ slot, w.env? slot = some env) ∧
    (∀ slot env, w.env? slot = some env →
      (w.hasParent slot = true ↔
        ∃ target, lastLink steps env = some target ∧ ∀ s ∈ steps, ¬ s.Releases target)) ∧
    (∀ slot env later last, w.env? slot = some env → w.hasParent slot = false →
      Run w later last → last.env? slot = some env → (∀ s ∈ later, ¬ s.Relinks env) →
      last.hasParent slot = false) ∧
    (∀ slot source orig copy later last, w.env? source = some orig →
      (w.createCopy slot source).env? slot = some copy → Run (w.createCopy slot source) later last →
      last.env? slot = some copy → last.env? source = some orig →
      (∀ s ∈ later, ¬ s.Relinks copy ∧ ¬ s.Relinks orig) →
      last.hasParent slot = last.hasParent source) ∧
    ∀ slot env, w.env? slot = some env → w.hasParent slot = false →
      (∀ name, w.get slot name =
        ((w.store.bindings env).find? name).elim (.error (.unboundSymbol name)) .ok) ∧
      ∀ name v, w.defineRoot slot name v = w.define slot name v := by
  have hw := hrun.holdsLive .empty
  refine ⟨hw.isLive_iff, fun slot env => hrun.hasParent_iff, ?_, ?_, ?_⟩
  · intro slot env later last henv hparent hlater hlast hrelinks
    exact hrun.hasParent_eq_false henv hparent hlater hlast hrelinks
  · intro slot source orig copy later last horig hcopy hlater hcopy' horig' hrelinks
    exact hrun.hasParent_copy horig hcopy hlater hcopy' horig' hrelinks
  · intro slot env henv hparent
    have hchain := hw.hasChain henv hparent
    exact ⟨get_of_hasChain henv hchain, defineRoot_of_hasChain henv hchain⟩

/-- An environment and its copy lose their parent together, although its slot is filled again, and
the environment alone gets the new one when it is nested there. -/
theorem links_die_once_behind_refilled_slot :
    ∃ (steps later : List Step) (w last : Workspace) (s : Step),
      Run .empty steps w ∧ w.hasParent "c" = true ∧ lastLink steps 1 = some 0 ∧
      Run (w.createCopy "d" "c") later last ∧ last.env? "p" = some 3 ∧
      last.hasParent "d" = last.hasParent "c" ∧ last.hasParent "c" = false ∧
      last.get "c" "x" = .error (.unboundSymbol "x") ∧
      s.before = last ∧ s.op = .setParent "c" "p" ∧
      s.after.hasParent "c" = true ∧ s.after.hasParent "d" = false := by
  let made : Step := ⟨.empty, .create "p", _, rfl⟩
  let nested : Step := ⟨made.after, .createChild "c" "p", _, rfl⟩
  let copied : Step := ⟨nested.after, .createCopy "d" "c", _, rfl⟩
  let refilled : Step := ⟨copied.after, .create "p", _, rfl⟩
  let relinked : Step := ⟨refilled.after, .setParent "c" "p", _, rfl⟩
  have hrun : Run .empty [nested, made] nested.after := .cons nested (.cons made .nil)
  have hlater : Run copied.after [refilled] refilled.after := .cons refilled .nil
  have hlast : Run .empty [refilled, copied, nested, made] refilled.after :=
    .cons refilled (.cons copied hrun)
  obtain ⟨-, hparent, -, hcopy, -⟩ := links_die_once hrun
  obtain ⟨-, -, hstays, -, halone⟩ := links_die_once hlast
  have hlink : lastLink [nested, made] 1 = some 0 := by decide
  have hkept : ∀ s ∈ [nested, made], ¬ s.Releases 0 := (hrun.isLive_lastLink_iff hlink).1 rfl
  have hrefilled : ∀ env, ¬ refilled.Relinks env := by
    rintro env ⟨slot, parent, target, hop, -⟩
    cases hop
  have hrelinked : ¬ relinked.Relinks 2 := by
    rintro ⟨slot, parent, target, hop, henv, -⟩
    cases hop
    exact absurd henv (by decide)
  have hc : refilled.after.env? "c" = some 1 := by decide
  have hd : refilled.after.env? "d" = some 2 := by decide
  have hdead : refilled.after.hasParent "c" = false := by decide
  have hshared : refilled.after.hasParent "d" = refilled.after.hasParent "c" :=
    hcopy "d" "c" 1 2 _ _ (by decide) (by decide) hlater hd hc
      (List.forall_mem_singleton.2 ⟨hrefilled 2, hrefilled 1⟩)
  have hstill : relinked.after.hasParent "d" = false :=
    hstays "d" 2 _ _ hd (hshared.trans hdead) (.cons relinked .nil) (by decide)
      (List.forall_mem_singleton.2 hrelinked)
  exact ⟨_, _, _, _, relinked, hrun, (hparent "c" 1 (by decide)).2 ⟨0, hlink, hkept⟩, hlink, hlater,
    by decide, hshared, hdead, (halone "c" 1 hc hdead).1 "x", rfl, rfl, by decide, hstill⟩

end Workspace

end QuoteLisp
