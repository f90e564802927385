import Inlining.Proofs.Charges
import Inlining.Proofs.Requests

/-!
# Requests, stroke by stroke

An exploration is a sequence of strokes and adopts the sites that it found in the body of the compiled
method; nothing that was there before changes (`ensures_exploreStrokes`). A revisit of a site that was
dropped from a body around it does nothing at all (`run_revisit_of_deleted`). So whatever the strokes
and the three small requests maintain holds in all sessions without a failed request (`Lasting`,
`Completes.lasting`), and in all sessions if the strokes that fail maintain it too (`Stable`,
`Visits.stable`): targets that were removed stay removed, and every site stems from an instruction.
-/

namespace Inlining

namespace Exploration

variable {env : Environment} {c c' : Compilation} {id : SiteId} {t : TargetId}

/-- An exploration reads the bodies below a method and leaves everything else as it was. -/
theorem ensures_exploreStrokes (sound : c.region.forest.Sound env.config.maxDepth) {method : MethodId}
    (known : env.program.sizeOf? method ≠ none) :
    Ensures (explore env method) c
      (fun found c' => ∃ c₁, Grown env.config.maxDepth ∅ ∅ c c₁ ∧ Steps env c c₁ ∧
        (∀ i ∈ found, (∃ k, c₁.region.forest.call? i = some k ∧ k.caller = method) ∧
          c₁.region.forest.Complete env c.previouslyInlined [method] i) ∧
        c' = { c₁ with roots := c₁.roots ++ found, compiled := c₁.compiled ++ [method] })
      fun e c' => Grown env.config.maxDepth ∅ ∅ c c' ∧ Fails env c e c' := by
  refine ensures_explore_within known fun stack stands => ?_
  have enter : Steps env c { c with journal := c.journal.record (.framePushed method 0) } :=
    (Effect.enter method 0).steps
  generalize hc₀ : ({ c with journal := c.journal.record (.framePushed method 0) } : Compilation) = c₀
    at enter ⊢
  have region : c₀.region = c.region := by rw [← hc₀]
  have previous : c₀.previouslyInlined = c.previouslyInlined := by rw [← hc₀]
  have begun {c₁} (grown : Grown env.config.maxDepth ∅ ∅ c₀ c₁) : Grown env.config.maxDepth ∅ ∅ c c₁ :=
    ⟨grown.sound, region ▸ grown.keeps⟩
  rw [← region] at sound
  have walks : Ensures (exploreBody env (exploreTarget env env.config.maxDepth) stack method 0) c₀
      (fun found => Walked env method 0 (env.program.instructionsOf method) found c₀)
      fun _ => Grown env.config.maxDepth ∅ ∅ c₀ :=
    ensures_exploreBody (fun stack sound pending hk _ =>
      ensures_exploreTarget sound pending hk (Nat.le_add_left ..)) stack sound method
  have surveys : Ensures (exploreBody env (exploreTarget env env.config.maxDepth) stack method 0) c₀ _
      fun e => Stopped env 0 e c₀ :=
    ensures_surveyBody (Nat.le_add_left ..) (fun stack sound pending hk hd stands =>
      hd ▸ ensures_descendTarget stack sound pending hk (Nat.le_add_left ..) (by rw [hd]; rfl) stands)
      rfl stack (by rw [previous]; exact stands) sound (Nat.zero_le _)
  refine (walks.and surveys).mono ?_ ?_
  · rintro found c₁ ⟨walked, -, surveyed⟩
    have grown := begun walked.grown
    have left : Steps env c { c₁ with journal := c₁.journal.record (.framePopped method 0 true) } :=
      (enter.trans surveyed.steps).trans (Effect.leave method 0 true).steps
    refine ⟨{ c₁ with journal := c₁.journal.record (.framePopped method 0 true) },
      ⟨grown.sound, grown.keeps⟩, left, fun i hi => ⟨?_, ?_⟩, rfl⟩
    · exact (walked.call i hi).elim fun _ hk => ⟨_, hk, rfl⟩
    · rw [← previous]
      exact surveyed.complete i hi
  · rintro e c₁ ⟨grown, stopped⟩
    exact ⟨begun grown, enter.fails stopped.fails⟩

/-- A revisit of a site that was dropped from a body does nothing. -/
theorem run_revisit_of_deleted {depth : Nat} (sound : c.region.forest.Sound depth)
    (deleted : id ∈ c.region.forest.deleted t) : (revisit env id).run c = (.ok false, c) := by
  obtain ⟨_, _, k, _, _, hk, _⟩ := sound.owned (List.mem_append_right _ deleted)
  obtain ⟨s, hs, -⟩ := Region.site_of_call hk
  refine run_revisit_of_detached hs ?_
  cases enclosing : c.region.enclosing? s with
  | none => rfl
  | some chain =>
    have enclosed := (Region.enclosing?_eq_some_iff sound hs).1 enclosing
    exact absurd deleted (enclosed.undeleted sound t)

end Exploration

/-- The compilation in which a target was marked as inlined at a depth. -/
def Compilation.marked (c : Compilation) (t : TargetId) (m : MethodId) (depth : Nat) : Compilation :=
  { c with
    region := { c.region with
      targets := c.region.targets.modify t fun x => { x with alreadyInlined := true } }
    previouslyInlined := c.previouslyInlined ++ [⟨m, depth⟩] }

/-- The compilation in which folds of a target were replayed. -/
def Compilation.replayed (c : Compilation) (t : TargetId) (after : Replay) : Compilation :=
  { c with region := { c.region with
      targets := c.region.targets.modify t fun x => { x with constants := after.constants }
      assumptions := after.assumptions } }

theorem Compilation.forest_marked (c : Compilation) (t : TargetId) (m : MethodId) (depth : Nat) :
    (c.marked t m depth).region.forest = c.region.forest := Region.forest_modify_target fun _ => rfl

theorem Compilation.forest_replayed (c : Compilation) (t : TargetId) (after : Replay) :
    (c.replayed t after).region.forest = c.region.forest := Region.forest_modify_target fun _ => rfl

/-- What no stroke breaks, and no request that succeeds. -/
structure Lasting (env : Environment) (P : Compilation → Prop) : Prop where
  effect : ∀ {c c'}, P c → Effect env c c' → P c'
  adopt : ∀ {c} roots compiled, P c → P { c with roots, compiled }
  mark : ∀ {c t x s}, P c → c.region.targets.get? t = some x →
    c.region.sites.get? x.callSite = some s → P (c.marked t x.method (s.depth + 1))
  replay : ∀ {c t x} folds, P c → c.region.targets.get? t = some x →
    P (c.replayed t (Replay.foldAll ⟨x.constants, c.region.assumptions⟩ folds).2)
  invalidate : ∀ {c} a, P c →
    P { c with region := { c.region with assumptions := c.region.assumptions.invalidate a } }

/-- What no stroke and no request breaks, not even one that fails. -/
structure Stable (env : Environment) (P : Compilation → Prop) : Prop extends Lasting env P where
  broken : ∀ {c e c'}, P c → Break env c e c' → P c'

/-- Where nothing is recorded, no fold is repeated, and replaying changes nothing. -/
theorem Replay.foldAll_nil (assumptions : AssumptionTable) (folds : List (Int × Constant)) :
    foldAll ⟨[], assumptions⟩ folds =
      (folds.map fun _ => .unfolded .noRequiredConstant, ⟨[], assumptions⟩) := by
  induction folds with
  | nil => rfl
  | cons fold folds ih =>
    have first : foldAt ⟨[], assumptions⟩ fold.1 fold.2 =
      (.unfolded .noRequiredConstant, ⟨[], assumptions⟩) := rfl
    simp [foldAll, first, ih]

namespace Exploration

variable {env : Environment} {c : Compilation}

/-- Marking a target as inlined, exactly. -/
theorem ensures_markInlined {t : TargetId} {post : Unit → Compilation → Prop}
    {fail : Fault → Compilation → Prop} :
    Ensures (markInlined t) c post fail ↔
      (∀ x, c.region.targets.get? t = some x →
        (∀ s, c.region.sites.get? x.callSite = some s → post () (c.marked t x.method (s.depth + 1))) ∧
          (c.region.sites.get? x.callSite = none → fail (.noSite x.callSite) c)) ∧
      (c.region.targets.get? t = none → fail (.noTarget t) c) := by
  rw [markInlined, ensures_bind, ensures_target]
  refine and_congr_left' (forall₂_congr fun x _ => ?_)
  rw [ensures_bind, ensures_site]
  exact Iff.rfl

/-- Replaying folds of a target, exactly. -/
theorem ensures_replay {t : TargetId} {folds : List (Int × Constant)}
    {post : List FoldOutcome → Compilation → Prop} {fail : Fault → Compilation → Prop} :
    Ensures (replay t folds) c post fail ↔
      (∀ x, c.region.targets.get? t = some x →
        post (Replay.foldAll ⟨x.constants, c.region.assumptions⟩ folds).1
          (c.replayed t (Replay.foldAll ⟨x.constants, c.region.assumptions⟩ folds).2)) ∧
      (c.region.targets.get? t = none → fail (.noTarget t) c) := by
  rw [replay, ensures_bind, ensures_target]
  exact and_congr_left' (forall₂_congr fun x _ => Iff.rfl)

/-- Replaying folds of a target without constants repeats none and changes nothing. -/
theorem run_replay_of_nil {t : TargetId} {x : CallTarget} (hx : c.region.targets.get? t = some x)
    (bare : x.constants = []) (folds : List (Int × Constant)) :
    (replay t folds).run c = (.ok (folds.map fun _ => .unfolded .noRequiredConstant), c) := by
  apply Ensures.run_ok
  refine ensures_replay.2 ⟨fun y hy => ?_, fun gone => by simp [hx] at gone⟩
  obtain rfl := Option.some.inj (hx.symm.trans hy)
  rw [bare, Replay.foldAll_nil]
  refine ⟨rfl, ?_⟩
  have same : c.region.targets.modify t (fun y => { y with constants := [] }) = c.region.targets := by
    refine Arena.ext_get? fun u => ?_
    rw [Arena.get?_modify]
    split
    next e =>
      subst e
      rw [hx, Option.map_some, ← bare]
    next => rfl
  simp [Compilation.replayed, same]

/-- No request that succeeds breaks what lasts, and one that fails has gone some way or changed
nothing. -/
theorem ensures_perform_lasting {P : Compilation → Prop} (lasting : Lasting env P)
    (sound : c.region.forest.Sound env.config.maxDepth) (hc : P c) (request : Request) :
    Ensures (perform env request) c (fun _ => P) fun e c' => c' = c ∨ Fails env c e c' := by
  cases request with
  | explore method =>
    by_cases missing : env.program.sizeOf? method = none
    · exact ensures_discard.2 (.of_error (run_explore_of_none missing) (.inl rfl))
    · refine .bind ((ensures_exploreStrokes sound missing).imp_fail fun _ _ h => .inr h.2) ?_
      rintro found _ ⟨c₁, -, steps, -, rfl⟩
      exact lasting.adopt _ _ (Steps.invariant lasting.effect steps hc)
  | revisit id =>
    cases hs : c.region.sites.get? id with
    | none => exact ensures_discard.2 (.of_error (run_revisit_of_none hs) (.inl rfl))
    | some s =>
      cases hchain : c.region.enclosing? s with
      | none => exact ensures_discard.2 (.of_ok (run_revisit_of_detached hs hchain) hc)
      | some chain =>
        refine .bind ((ensures_revisitStrokes sound hs hchain).imp_fail fun _ _ h => .inr h.2.1) ?_
        rintro answer c₁ ⟨-, steps, -⟩
        exact Steps.invariant lasting.effect steps hc
  | markInlined t =>
    exact ensures_markInlined.2 ⟨fun x hx => ⟨fun s hs => lasting.mark hc hx hs, fun _ => .inl rfl⟩,
      fun _ => .inl rfl⟩
  | replay t folds =>
    exact ensures_discard.2 (ensures_replay.2 ⟨fun x hx => lasting.replay folds hc hx,
      fun _ => .inl rfl⟩)
  | invalidate a => exact lasting.invalidate a hc

/-- No request breaks what is stable. -/
theorem ensures_perform_stable {P : Compilation → Prop} (stable : Stable env P)
    (sound : c.region.forest.Sound env.config.maxDepth) (hc : P c) (request : Request) :
    Ensures (perform env request) c (fun _ => P) fun _ => P := by
  refine (ensures_perform_lasting stable.toLasting sound hc request).imp_fail ?_
  rintro e c' (rfl | ⟨c₁, steps, broke⟩)
  · exact hc
  · exact stable.broken (Steps.invariant stable.effect steps hc) broke

end Exploration

open Exploration

section Sessions

variable (p : Program) (config : Configuration)

/-- One request later, whether it succeeded or failed. -/
def Advances (c c' : Compilation) : Prop :=
  ∃ advice request answer, (perform ⟨p, config, advice⟩ request).run c = (answer, c')

/-- Some requests later. -/
def Later : Compilation → Compilation → Prop := Relation.ReflTransGen (Advances p config)

variable {p config} {earlier : List InlinedRecord} {c c' : Compilation} {P : Compilation → Prop}

theorem Advances.of_run (c : Compilation) (advice : Advice) (request : Request) :
    Advances p config c ((perform ⟨p, config, advice⟩ request).run c).2 := ⟨advice, request, _, rfl⟩

theorem Visits.later (h : Visits p config earlier c) (later : Later p config c c') :
    Visits p config earlier c' := by
  induction later with
  | refl => exact h
  | tail _ request ih =>
    obtain ⟨advice, request, _, run⟩ := request
    exact ih.step advice request run

/-- A session leads from its start to where it is. -/
theorem Visits.later_start (h : Visits p config earlier c) :
    Later p config (.start config earlier) c := by
  induction h with
  | start => exact .refl
  | step advice request _ run ih => exact ih.tail ⟨advice, request, _, run⟩

/-- What is stable still holds later. -/
theorem Later.stable (later : Later p config c c') (h : Visits p config earlier c)
    (stable : ∀ advice, Stable ⟨p, config, advice⟩ P) (hc : P c) : P c' := by
  induction later with
  | refl => exact hc
  | @tail c₁ c₂ before request ih =>
    obtain ⟨advice, request, answer, run⟩ := request
    exact (ensures_perform_stable (stable advice) (h.later before).sound ih request).of_run run

/-- What is stable and holds at the start holds in every session. -/
theorem Visits.stable (h : Visits p config earlier c)
    (stable : ∀ advice, Stable ⟨p, config, advice⟩ P) (start : P (.start config earlier)) : P c :=
  h.later_start.stable .start stable start

/-- What lasts and holds at the start holds in every session without a failed request. -/
theorem Completes.lasting (h : Completes p config earlier c)
    (lasting : ∀ advice, Lasting ⟨p, config, advice⟩ P) (start : P (.start config earlier)) : P c :=
  h.invariant start fun advice request _ visited hc =>
    (ensures_perform_lasting (lasting advice) visited.sound hc request).imp_fail fun _ _ _ => trivial

end Sessions

section Instances

variable {env : Environment} {p : Program} {config : Configuration} {earlier : List InlinedRecord}
  {c c' : Compilation}

/-- What no change of the sites breaks is stable. -/
theorem Stable.of_sites {P : Compilation → Prop} (change : ∀ {c c'}, P c → SiteChange env c c' → P c') :
    Stable env P where
  effect h effect := change h effect.siteChange
  broken h broke := change h broke.siteChange
  adopt _ _ h := change h (.untouched rfl)
  mark h _ _ := change h (.untouched rfl)
  replay _ h _ := change h (.untouched rfl)
  invalidate _ h := change h (.untouched rfl)

/-- Targets that were removed stay removed, in the order of removal. -/
theorem stable_removed (i : SiteId) (ts : List TargetId) :
    Stable env fun c => ts <+: c.region.forest.removed i :=
  .of_sites fun h change => List.IsPrefix.trans h (change.removed i)

/-- Every site stems from an instruction. -/
theorem stable_sourced : Stable env fun c => c.region.Sourced env :=
  .of_sites fun h change => change.sourced h

/-- A target that was removed has neither constants nor a reason for which it may be taken again. -/
theorem stable_retired : Stable env fun c => c.region.Retired where
  effect h effect := effect.retired h
  broken h broke := broke.retired h
  adopt _ _ h := h
  mark h _ _ := Region.Retired.modify h fun _ _ _ _ => ⟨rfl, rfl⟩
  replay {c t x} folds h hx := by
    have kept (i : SiteId) (y : CallTarget) (ht : t ∈ c.region.forest.removed i)
        (hy : c.region.targets.get? t = some y) :
        (Replay.foldAll ⟨x.constants, c.region.assumptions⟩ folds).2.constants = y.constants := by
      obtain rfl := Option.some.inj (hx.symm.trans hy)
      rw [(h.bare ht hx).1, Replay.foldAll_nil]
    have changed := h.modify (t := t) (f := fun y =>
      { y with constants := (Replay.foldAll ⟨x.constants, c.region.assumptions⟩ folds).2.constants })
      fun i y ht hy => ⟨kept i y ht hy, rfl⟩
    exact ⟨changed.there, changed.bare⟩
  invalidate _ h := { h with }

theorem Later.removed (later : Later p config c c') (h : Visits p config earlier c) (i : SiteId) :
    c.region.forest.removed i <+: c'.region.forest.removed i :=
  later.stable h (fun _ => stable_removed i _) List.prefix_rfl

theorem Visits.retired (h : Visits p config earlier c) : c.region.Retired := by
  refine h.stable (fun _ => stable_retired) ⟨fun ht => ?_, fun ht => ?_⟩ <;>
    simp [Compilation.forest_start] at ht

theorem Visits.sourced (h : Visits p config earlier c) (advice : Advice) :
    c.region.Sourced ⟨p, config, advice⟩ := by
  -- the advice is no part of what it says
  have stable (advice' : Advice) : Stable ⟨p, config, advice'⟩
      fun c => c.region.Sourced ⟨p, config, advice⟩ := stable_sourced
  refine h.stable stable fun i k hk => ?_
  simp [Compilation.forest_start] at hk

end Instances

end Inlining
