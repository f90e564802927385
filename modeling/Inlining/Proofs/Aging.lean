import Inlining.Proofs.Undisturbed

/-!
# What becomes of targets and assumptions

What a request leaves behind is settled: a later request may enlarge a target, mark it as inlined or
discard some of its constants, and does nothing else to it (`CallTarget.Ages`). An assumption is never
dropped or worded anew, and its state only moves on, from pending to confirmed to invalidated
(`AssumptionState.Leads`). So it is in all sessions, after failed requests too (`Later.ages`).
-/

namespace Inlining

/-- The states that an assumption may come to from a state. -/
inductive AssumptionState.Leads : AssumptionState → AssumptionState → Prop
  | stay (state : AssumptionState) : Leads state state
  | confirm : Leads .pending .confirmed
  | invalidate (state : AssumptionState) : Leads state .invalidated

namespace AssumptionState

variable {a b d : AssumptionState}

theorem Leads.trans (h : a.Leads b) (h' : b.Leads d) : a.Leads d := by
  cases h with
  | stay => exact h'
  | confirm => cases h' <;> constructor
  | invalidate => cases h' <;> constructor

theorem leads_confirm (a : AssumptionState) : a.Leads a.confirm := by
  cases a <;> constructor

/-- What is valid was never invalidated before. -/
theorem Leads.valid (h : a.Leads b) (valid : b ≠ .invalidated) : a ≠ .invalidated := by
  rintro rfl
  cases h <;> exact valid rfl

end AssumptionState

namespace AssumptionTable

/-- Every assumption of `t` is in `t'`, worded as it was and in the same state or a later one. -/
structure Ages (t t' : AssumptionTable) : Prop where
  entry : ∀ {a x}, t.get? a = some x → ∃ y, t'.get? a = some y ∧ y.description = x.description ∧
    x.state.Leads y.state

variable {t t' t'' : AssumptionTable}

theorem Ages.refl (t : AssumptionTable) : t.Ages t := ⟨fun h => ⟨_, h, rfl, .stay _⟩⟩

theorem Ages.trans (h : t.Ages t') (h' : t'.Ages t'') : t.Ages t'' where
  entry hx := by
    obtain ⟨y, hy, same, leads⟩ := h.entry hx
    obtain ⟨z, hz, same', leads'⟩ := h'.entry hy
    exact ⟨z, hz, same'.trans same, leads.trans leads'⟩

theorem ages_confirm (t : AssumptionTable) (a : AssumptionId) : t.Ages (t.confirm a) where
  entry {b x} hx := by
    rw [confirm_get?, hx]
    split
    · exact ⟨_, rfl, rfl, x.state.leads_confirm⟩
    · exact ⟨x, rfl, rfl, .stay _⟩

theorem ages_confirmAll (t : AssumptionTable) (as : List AssumptionId) : t.Ages (t.confirmAll as) := by
  induction as generalizing t with
  | nil => exact .refl t
  | cons a as ih => exact (t.ages_confirm a).trans (ih _)

theorem ages_invalidate (t : AssumptionTable) (a : AssumptionId) : t.Ages (t.invalidate a) where
  entry {b x} hx := by
    rw [invalidate_get?, hx]
    split
    · exact ⟨_, rfl, rfl, .invalidate _⟩
    · exact ⟨x, rfl, rfl, .stay _⟩

/-- Every assumption of `t` is in `t'`, exactly as it was. -/
def Extends (t t' : AssumptionTable) : Prop := ∀ ⦃a x⦄, t.get? a = some x → t'.get? a = some x

theorem Extends.refl (t : AssumptionTable) : t.Extends t := fun _ _ => id

theorem Extends.trans (h : t.Extends t') (h' : t'.Extends t'') : t.Extends t'' :=
  fun _ _ hx => h' (h hx)

theorem Extends.ages (h : t.Extends t') : t.Ages t' := ⟨fun hx => ⟨_, h hx, rfl, .stay _⟩⟩

theorem extends_register (t : AssumptionTable) (description : String) :
    t.Extends (t.register description) := by
  intro a x hx
  have old : a ≠ t.next := by
    rintro rfl
    simp [t.get?_next] at hx
  simpa [register, Arena.get?_alloc, old] using hx

theorem extends_registerAll (t : AssumptionTable) (descriptions : List String) :
    t.Extends (t.registerAll descriptions).2 := by
  induction descriptions generalizing t with
  | nil => exact .refl t
  | cons d ds ih => exact (t.extends_register d).trans (ih _)

/-- The states of assumptions only move on. -/
theorem Ages.leads (h : t.Ages t') {a : AssumptionId} {state : AssumptionState}
    (hs : t.state? a = some state) : ∃ state', t'.state? a = some state' ∧ state.Leads state' := by
  obtain ⟨x, hx, rfl⟩ := Option.map_eq_some_iff.1 hs
  obtain ⟨y, hy, -, leads⟩ := h.entry hx
  exact ⟨y.state, by simp [state?, hy], leads⟩

/-- What is still valid was valid before. -/
theorem Ages.valid (h : t.Ages t') {a : AssumptionId} {state : AssumptionState}
    (hs : t.state? a = some state) (valid : t'.state? a ≠ some .invalidated) :
    state ≠ .invalidated := by
  obtain ⟨state', hs', leads⟩ := h.leads hs
  exact leads.valid fun bad => valid (hs'.trans (congrArg some bad))

end AssumptionTable

namespace Replay

/-- `r'` is what replaying folds may leave of `r`. -/
structure Wears (r r' : Replay) : Prop where
  constants : r'.constants.Sublist r.constants
  assumptions : r.assumptions.Ages r'.assumptions
  valid : ∀ {a}, r'.assumptions.state? a = some .invalidated →
    r.assumptions.state? a = some .invalidated

variable {r r' r'' : Replay}

theorem Wears.refl (r : Replay) : r.Wears r := ⟨List.Sublist.refl _, .refl _, id⟩

theorem Wears.trans (h : r.Wears r') (h' : r'.Wears r'') : r.Wears r'' :=
  ⟨h'.constants.trans h.constants, h.assumptions.trans h'.assumptions, fun ha => h.valid (h'.valid ha)⟩

/-- What was confirmed stays so while folds are replayed. -/
theorem Wears.confirmed (h : r.Wears r') {a : AssumptionId}
    (hs : r.assumptions.state? a = some .confirmed) : r'.assumptions.state? a = some .confirmed := by
  obtain ⟨last, hlast, leads⟩ := h.assumptions.leads hs
  cases leads with
  | stay => exact hlast
  | invalidate => exact absurd (hs.symm.trans (h.valid hlast)) (by decide)

theorem wears_foldAt (r : Replay) (index : Int) (observed : Constant) :
    r.Wears (r.foldAt index observed).2 := by
  have discarded : r.Wears { r with constants := r.constants.erase index } :=
    ⟨List.filter_sublist, .refl _, id⟩
  have confirmed (as : List AssumptionId) :
      r.Wears { r with assumptions := r.assumptions.confirmAll as } := by
    refine ⟨List.Sublist.refl _, r.assumptions.ages_confirmAll as, fun {a} ha => ?_⟩
    rw [AssumptionTable.confirmAll_state?] at ha
    split at ha
    · obtain ⟨state, hs, same⟩ := Option.map_eq_some_iff.1 ha
      cases state with
      | pending | confirmed => cases same
      | invalidated => exact hs
    · exact ha
  unfold foldAt
  split
  · exact .refl r
  · split
    · exact discarded
    · split
      · exact discarded
      · exact confirmed _

theorem wears_foldAll (r : Replay) (folds : List (Int × Constant)) : r.Wears (r.foldAll folds).2 := by
  induction folds generalizing r with
  | nil => exact .refl r
  | cons fold folds ih => exact (r.wears_foldAt fold.1 fold.2).trans (ih _)

end Replay

/-- `y` is what may have become of `x`. -/
structure CallTarget.Ages (x y : CallTarget) : Prop where
  same : y = { x with
    fullSize := y.fullSize, alreadyInlined := y.alreadyInlined, constants := y.constants }
  constants : y.constants.Sublist x.constants

theorem CallTarget.Ages.refl (x : CallTarget) : x.Ages x := ⟨rfl, List.Sublist.refl _⟩

theorem CallTarget.Ages.trans {x y z : CallTarget} (h : x.Ages y) (h' : y.Ages z) : x.Ages z :=
  ⟨by rw [h'.same, h.same], h'.constants.trans h.constants⟩

/-- What is in `r` is in `r'`, as it was or aged. -/
structure Region.Ages (r r' : Region) : Prop where
  target : ∀ {t x}, r.targets.get? t = some x → ∃ y, r'.targets.get? t = some y ∧ x.Ages y
  assumptions : r.assumptions.Ages r'.assumptions

namespace Region

variable {r r' r'' : Region}

theorem Ages.refl (r : Region) : r.Ages r := ⟨fun h => ⟨_, h, .refl _⟩, .refl _⟩

theorem Ages.trans (h : r.Ages r') (h' : r'.Ages r'') : r.Ages r'' where
  target hx := by
    obtain ⟨y, hy, ages⟩ := h.target hx
    obtain ⟨z, hz, ages'⟩ := h'.target hy
    exact ⟨z, hz, ages.trans ages'⟩
  assumptions := h.assumptions.trans h'.assumptions

/-- One target aged, and the assumptions did. -/
theorem Ages.modify {assumptions : AssumptionTable} (table : r.assumptions.Ages assumptions)
    {t : TargetId} {f : CallTarget → CallTarget}
    (ages : ∀ x, r.targets.get? t = some x → x.Ages (f x)) :
    r.Ages { r with targets := r.targets.modify t f, assumptions } where
  target {u x} hx := by
    rw [Arena.get?_modify, hx]
    split
    next e =>
      subst e
      exact ⟨f x, rfl, ages x hx⟩
    next => exact ⟨x, rfl, .refl x⟩
  assumptions := table

theorem assumptions_recordFolds (r : Region) (t : TargetId) (folds : List SpeculativeFold) :
    r.assumptions.Extends (r.recordFolds t folds).assumptions := by
  induction folds generalizing r with
  | nil => exact .refl _
  | cons fold folds ih =>
    exact (r.assumptions.extends_registerAll fold.assumptions).trans (ih (r.recordFold t fold))

end Region

section Strokes

variable {env : Environment} {c c' : Compilation} {e : Fault}

/-- A stroke leaves every assumption as it is. -/
theorem Effect.assumptions (h : Effect env c c') :
    c.region.assumptions.Extends c'.region.assumptions := by
  cases h with
  | folds => exact Region.assumptions_recordFolds ..
  | settle =>
    simp only [Region.settle, Region.foldl_addFound]
    exact .refl _
  | cut _ cut =>
    cases cut <;> exact .refl _
  | _ => exact .refl _

theorem Steps.assumptions (h : Steps env c c') :
    c.region.assumptions.Extends c'.region.assumptions :=
  h.invariant (P := fun c' => c.region.assumptions.Extends c'.region.assumptions)
    (fun old effect => old.trans effect.assumptions) (.refl _)

theorem Fails.assumptions (h : Fails env c e c') :
    c.region.assumptions.Extends c'.region.assumptions := by
  obtain ⟨c₁, steps, broke⟩ := h
  cases broke <;> exact steps.assumptions

end Strokes

open Exploration

section Sessions

variable {p : Program} {config : Configuration} {earlier : List InlinedRecord} {c c' : Compilation}
  {id : SiteId} {s : CallSite} {charged waiting : List TargetId}

/-- Everything in `r` is in `r'`, where some targets are larger. -/
structure Region.Enlarges (r r' : Region) : Prop where
  target : ∀ {t x}, r.targets.get? t = some x → ∃ size, r'.targets.get? t = some (x.raise size)
  assumptions : r.assumptions.Extends r'.assumptions

theorem Region.Enlarges.ages {r r' : Region} (h : r.Enlarges r') : r.Ages r' where
  target hx := (h.target hx).elim fun _ hy => ⟨_, hy, rfl, List.Sublist.refl _⟩
  assumptions := h.assumptions.ages

theorem Region.Extends.enlarges {r r' : Region} (h : r.Extends r')
    (assumptions : r.assumptions.Extends r'.assumptions) : r.Enlarges r' where
  target {t x} hx := ⟨0, by rw [x.raise_zero]; exact h.target hx⟩
  assumptions := assumptions

theorem Revisited.enlarges (h : Revisited c id s charged waiting c')
    (assumptions : c.region.assumptions.Extends c'.region.assumptions) :
    c.region.Enlarges c'.region where
  target {t x} hx := by
    have now := h.target hx
    split at now
    · exact ⟨_, now⟩
    · exact ⟨0, by rw [x.raise_zero]; exact now⟩
  assumptions := assumptions

/-- An exploration leaves everything as it was. -/
theorem Visits.ensures_explore_enlarges (h : Visits p config earlier c) (advice : Advice)
    (method : MethodId) : Ensures (explore ⟨p, config, advice⟩ method) c
      (fun _ c' => c.region.Enlarges c'.region) fun _ c' => c.region.Enlarges c'.region := by
  by_cases missing : p.sizeOf? method = none
  · exact .of_error (run_explore_of_none missing) (Region.Extends.enlarges ⟨id, id⟩ (.refl _))
  · refine ((ensures_extends h.sound method).and (ensures_exploreStrokes h.sound missing)).mono ?_
      fun _ _ h => h.1.enlarges h.2.2.assumptions
    rintro found _ ⟨kept, c₁, -, steps, -, rfl⟩
    exact kept.enlarges steps.assumptions

/-- A revisit enlarges the targets around its site, and leaves everything else as it was. -/
theorem Visits.ensures_revisit_enlarges (h : Visits p config earlier c) (advice : Advice) (i : SiteId) :
    Ensures (revisit ⟨p, config, advice⟩ i) c
      (fun _ c' => c.region.Enlarges c'.region) fun _ c' => c.region.Enlarges c'.region := by
  have same : c.region.Enlarges c.region := Region.Extends.enlarges ⟨id, id⟩ (.refl _)
  cases hs : c.region.sites.get? i with
  | none => exact .of_error (run_revisit_of_none hs) same
  | some s =>
    cases hchain : c.region.enclosing? s with
    | none => exact .of_ok (run_revisit_of_detached hs hchain) same
    | some chain =>
      refine ((ensures_revisited h.sound hs).and (ensures_revisitStrokes h.sound hs hchain)).mono ?_ ?_
      · rintro answer c' ⟨⟨charged, revisited⟩, -, steps, -⟩
        exact revisited.enlarges steps.assumptions
      · rintro e c' ⟨⟨charged, waiting, revisited⟩, -, fails, -⟩
        exact revisited.enlarges fails.assumptions

/-- No request does more to what is there than let it age, not even one that fails. -/
theorem Visits.ensures_ages (h : Visits p config earlier c) (advice : Advice) (request : Request) :
    Ensures (perform ⟨p, config, advice⟩ request) c (fun _ c' => c.region.Ages c'.region)
      fun _ c' => c.region.Ages c'.region := by
  cases request with
  | explore method =>
    exact ensures_discard.2 ((h.ensures_explore_enlarges advice method).mono (fun _ _ h => h.ages)
      fun _ _ h => h.ages)
  | revisit i =>
    exact ensures_discard.2 ((h.ensures_revisit_enlarges advice i).mono (fun _ _ h => h.ages)
      fun _ _ h => h.ages)
  | markInlined t =>
    refine ensures_markInlined.2 ⟨fun x hx => ⟨fun s hs => ?_, fun _ => .refl _⟩, fun _ => .refl _⟩
    exact .modify (.refl _) fun x hx => ⟨rfl, List.Sublist.refl _⟩
  | replay t folds =>
    refine ensures_discard.2 (ensures_replay.2 ⟨fun x hx => ?_, fun _ => .refl _⟩)
    have wears := Replay.wears_foldAll ⟨x.constants, c.region.assumptions⟩ folds
    refine .modify wears.assumptions fun y hy => ⟨rfl, ?_⟩
    obtain rfl := Option.some.inj (hx.symm.trans hy)
    exact wears.constants
  | invalidate a => exact ⟨fun hx => ⟨_, hx, .refl _⟩, AssumptionTable.ages_invalidate ..⟩

theorem Later.ages (later : Later p config c c') (h : Visits p config earlier c) :
    c.region.Ages c'.region := by
  induction later with
  | refl => exact .refl _
  | tail before request ih =>
    obtain ⟨advice, request, answer, run⟩ := request
    exact ih.trans (((h.later before).ensures_ages advice request).of_run run)

end Sessions

end Inlining
