import Inlining.Proofs.Progress

/-!
# Siblings are not disturbed

Exploring and revisiting change shared arenas, prune subtrees and charge sizes at any depth, yet what
was resolved before stays as it was (`resolved_undisturbed`). An exploration changes nothing that was
there. A revisit changes the site that it is asked for, which gets its new targets behind the old
ones, and makes the bodies around that site larger, all by the same amount and by no more than what
the total grows by (`Revisited`).
-/

namespace Inlining

/-- Everything in a region is exactly as it was, whatever else has come. -/
structure Region.Extends (r r' : Region) : Prop where
  site : ∀ {i s}, r.sites.get? i = some s → r'.sites.get? i = some s
  target : ∀ {t x}, r.targets.get? t = some x → r'.targets.get? t = some x

/-- From `c` to `c'` the site `s` was revisited. Of its new targets that are live, `charged` were
explored to the end; `waiting` are those that a failure kept from that. -/
structure Revisited (c : Compilation) (id : SiteId) (s : CallSite) (charged waiting : List TargetId)
    (c' : Compilation) : Prop where
  /-- no other site changed -/
  elsewhere : ∀ {i s'}, i ≠ id → c.region.sites.get? i = some s' → c'.region.sites.get? i = some s'
  /-- the site lost none of its targets, live or removed, and their order stayed -/
  here : ∃ s', c'.region.sites.get? id = some s' ∧ s'.toCall = s.toCall ∧
    s'.live = s.live ++ charged ++ waiting ∧ s.removed <+: s'.removed
  /-- what it has got was not there before -/
  new : ∀ t ∈ charged ++ waiting, c.region.targets.get? t = none
  /-- the targets around the site grew by what the charged ones weigh, and no other target changed -/
  target : ∀ {t x}, c.region.targets.get? t = some x → c'.region.targets.get? t =
    if t ∈ (c.region.enclosing? s).getD [] then some (x.raise (c'.region.totalSize charged)) else some x
  /-- as did the total -/
  total : c'.totalSize = c.totalSize + c'.region.totalSize charged

open Exploration

variable {env : Environment} {c c' : Compilation} {id : SiteId} {s : CallSite} {e : Fault}
  {chain charged waiting : List TargetId}

theorem Region.Keeps.extends {r r' : Region} (h : r.Keeps r' ∅ ∅) : r.Extends r' :=
  ⟨fun hs => h.site hs (Set.notMem_empty _), fun hx => h.target hx (Set.notMem_empty _)⟩

theorem Fails.removed (h : Fails env c e c') (i : SiteId) :
    c.region.forest.removed i <+: c'.region.forest.removed i := by
  obtain ⟨c₁, steps, broke⟩ := h
  exact (steps.removed i).trans (broke.siteChange.removed i)

/-- A site that is not attached is left alone. -/
theorem Revisited.refl (hs : c.region.sites.get? id = some s) (detached : c.region.enclosing? s = none) :
    Revisited c id s [] [] c where
  elsewhere _ h := h
  here := ⟨s, hs, rfl, by simp, List.prefix_rfl⟩
  new := nofun
  target hx := by rw [detached]; exact hx
  total := by simp [Region.totalSize]

/-- What a site was given is new, since the old targets of the site are where they were. -/
theorem new_of_live (sound : c.region.forest.Sound env.config.maxDepth)
    (hs : c.region.sites.get? id = some s) {S : Set SiteId} {T : Set TargetId}
    (grown : Grown env.config.maxDepth S T c c')
    (removed : c.region.forest.removed id <+: c'.region.forest.removed id) {new : List TargetId}
    (live : c'.region.forest.live id = s.live ++ new) : ∀ t ∈ new, c.region.targets.get? t = none := by
  intro t ht
  by_contra there
  obtain ⟨x, hx⟩ := Option.ne_none_iff_exists'.1 there
  have now : t ∈ c'.region.forest.live id := by
    rw [live]
    exact List.mem_append_right _ ht
  -- the target is on the site that it was added to, then and now
  have home : c'.region.forest.home? t = some x.callSite := by
    simp [Forest.home?, grown.keeps.origin (Region.forest_origin hx)]
  have same : x.callSite = id := Option.some.inj (home.symm.trans (grown.sound.home now))
  have before : c.region.forest.home? t = some id := by
    simp [Forest.home?, Region.forest_origin hx, same]
  rcases sound.placed.2 before with old | gone
  · have distinct := grown.sound.live_nodup id
    rw [live] at distinct
    rw [Region.forest_live hs] at old
    exact List.disjoint_of_nodup_append distinct old ht
  · exact grown.sound.not_removed now (removed.subset gone)

/-- What a revisit inside some bodies leaves. -/
theorem Exploration.Resumed.revisited (resumed : Resumed chain id s.live charged waiting c c')
    (sound : c.region.forest.Sound env.config.maxDepth) (hs : c.region.sites.get? id = some s)
    (hchain : c.region.enclosing? s = some chain)
    (grown : Grown env.config.maxDepth {id} {u | u ∈ chain} c c')
    (removed : c.region.forest.removed id <+: c'.region.forest.removed id) :
    Revisited c id s charged waiting c' where
  elsewhere other hs' := grown.keeps.site hs' other
  here := by
    obtain ⟨s', hs', call⟩ := Region.site_of_call (grown.keeps.call (Region.forest_call hs))
    refine ⟨s', hs', call, ?_, ?_⟩
    · rw [← Region.forest_live hs', resumed.live]
    · rwa [← Region.forest_removed hs, ← Region.forest_removed hs']
  new := new_of_live sound hs grown removed (by rw [resumed.live, List.append_assoc])
  target {t x} hx := by
    rw [hchain, Option.getD_some]
    split
    next around => exact resumed.raises t around x hx
    next outside => exact grown.keeps.target hx outside
  total := resumed.total

variable {p : Program} {config : Configuration} {earlier : List InlinedRecord}

/-- An exploration leaves everything as it was. -/
theorem ensures_extends (sound : c.region.forest.Sound env.config.maxDepth) (method : MethodId) :
    Ensures (explore env method) c (fun _ c' => c.region.Extends c'.region)
      fun _ c' => c.region.Extends c'.region := by
  by_cases missing : env.program.sizeOf? method = none
  · exact .of_error (run_explore_of_none missing) ⟨id, id⟩
  · refine (ensures_exploreStrokes sound missing).mono ?_ fun _ _ h => h.1.keeps.extends
    rintro found c' ⟨c₁, grown, -, -, rfl⟩
    exact grown.keeps.extends

/-- A revisit of an existing site leaves everything else as it was. -/
theorem ensures_revisited (sound : c.region.forest.Sound env.config.maxDepth)
    (hs : c.region.sites.get? id = some s) :
    Ensures (revisit env id) c (fun _ c' => ∃ charged, Revisited c id s charged [] c')
      fun _ c' => ∃ charged waiting, Revisited c id s charged waiting c' := by
  cases hchain : c.region.enclosing? s with
  | none => exact .of_ok (run_revisit_of_detached hs hchain) ⟨[], .refl hs hchain⟩
  | some chain =>
    refine (ensures_revisitStrokes sound hs hchain).mono ?_ ?_
    · rintro answer c' ⟨grown, steps, -, charged, resumed⟩
      exact ⟨charged, resumed.revisited sound hs hchain grown (steps.removed id)⟩
    · rintro e c' ⟨grown, fails, charged, waiting, resumed⟩
      exact ⟨charged, waiting, resumed.revisited sound hs hchain grown (fails.removed id)⟩

/-- What is live stays live. -/
theorem Region.Extends.live {r r' : Region} (h : r.Extends r') {i : SiteId} {t : TargetId}
    (live : t ∈ r.forest.live i) : t ∈ r'.forest.live i := by
  cases hs : r.sites.get? i with
  | none => simp [Region.forest, Region.liveTargets, hs] at live
  | some s => rwa [Region.forest_live (h.site hs), ← Region.forest_live hs]

theorem Revisited.live (h : Revisited c id s charged waiting c') (hs : c.region.sites.get? id = some s)
    {i : SiteId} {t : TargetId} (live : t ∈ c.region.forest.live i) : t ∈ c'.region.forest.live i := by
  by_cases here : i = id
  · subst i
    obtain ⟨s', hs', -, parts, -⟩ := h.here
    rw [Region.forest_live hs] at live
    rw [Region.forest_live hs', parts]
    exact List.mem_append_left _ (List.mem_append_left _ live)
  · cases hi : c.region.sites.get? i with
    | none => simp [Region.forest, Region.liveTargets, hi] at live
    | some s' => rwa [Region.forest_live (h.elsewhere here hi), ← Region.forest_live hi]

/-- No request takes a live target from its site, not even one that fails. -/
theorem Visits.ensures_live (h : Visits p config earlier c) (advice : Advice) (request : Request)
    {i : SiteId} {t : TargetId} (live : t ∈ c.region.forest.live i) :
    Ensures (perform ⟨p, config, advice⟩ request) c (fun _ c' => t ∈ c'.region.forest.live i)
      fun _ c' => t ∈ c'.region.forest.live i := by
  cases request with
  | explore method =>
    exact ensures_discard.2 ((ensures_extends h.sound method).mono (fun _ _ ext => ext.live live)
      fun _ _ ext => ext.live live)
  | revisit id =>
    refine ensures_discard.2 ?_
    cases hs : c.region.sites.get? id with
    | none => exact .of_error (run_revisit_of_none hs) live
    | some s =>
      exact (ensures_revisited h.sound hs).mono (fun _ _ ⟨_, done⟩ => done.live hs live)
        fun _ _ ⟨_, _, done⟩ => done.live hs live
  | markInlined u => exact ensures_markInlined.2 ⟨fun _ _ => ⟨fun _ _ => live, fun _ => live⟩, fun _ => live⟩
  | replay u folds => exact ensures_discard.2 (ensures_replay.2 ⟨fun _ _ => live, fun _ => live⟩)
  | invalidate a => exact live

theorem Later.live (later : Later p config c c') (h : Visits p config earlier c) {i : SiteId}
    {t : TargetId} (live : t ∈ c.region.forest.live i) : t ∈ c'.region.forest.live i := by
  induction later with
  | refl => exact live
  | tail before request ih =>
    obtain ⟨advice, request, answer, run⟩ := request
    exact ((h.later before).ensures_live advice request ih).of_run run

/-- **Siblings are not disturbed.** In every session an exploration leaves all sites and targets
exactly as they were. A revisit adds targets to its site, charges those that stay live to the bodies
around the site and to the total, and leaves everything else exactly as it was; where it fails, the
targets that were not reached are not charged. -/
theorem resolved_undisturbed (h : Visits p config earlier c) (advice : Advice) :
    (∀ method answer c', (explore ⟨p, config, advice⟩ method).run c = (answer, c') →
      c.region.Extends c'.region) ∧
    (∀ id s answer c', c.region.sites.get? id = some s →
      (revisit ⟨p, config, advice⟩ id).run c = (answer, c') →
      ∃ charged waiting, Revisited c id s charged waiting c' ∧
        ∀ b, answer = .ok b → waiting = []) ∧
    ∀ id answer c', c.region.sites.get? id = none →
      (revisit ⟨p, config, advice⟩ id).run c = (answer, c') → c' = c := by
  refine ⟨fun method answer c' run => ?_, fun id s answer c' hs run => ?_,
    fun id answer c' hs run => ?_⟩
  · have explored : Ensures (explore ⟨p, config, advice⟩ method) c
        (fun _ c' => c.region.Extends c'.region) fun _ c' => c.region.Extends c'.region :=
      ensures_extends h.sound method
    cases answer with
    | ok found => exact explored.post_of_ok run
    | error e => exact explored.fail_of_error run
  · have revisited : Ensures (revisit ⟨p, config, advice⟩ id) c _ _ := ensures_revisited h.sound hs
    cases answer with
    | ok b =>
      obtain ⟨charged, done⟩ := revisited.post_of_ok run
      exact ⟨charged, [], done, fun _ _ => rfl⟩
    | error e =>
      obtain ⟨charged, waiting, done⟩ := revisited.fail_of_error run
      exact ⟨charged, waiting, done, nofun⟩
  · rw [run_revisit_of_none hs] at run
    exact (Prod.mk.inj run).2.symm

/-- When squares are drawn, `draw` gets a second target inside `render`, which grows by its size. -/
theorem resolved_undisturbed_draw :
    ∃ s, circlesDrawn.region.sites.get? ⟨1⟩ = some s ∧
      circlesDrawn.region.enclosing? s = some [⟨0⟩] ∧
      Revisited circlesDrawn ⟨1⟩ s [⟨2⟩] []
        ((revisit ⟨shapes, .standard, drawing ⟨2⟩⟩ ⟨1⟩).run circlesDrawn).2 := by
  have there : (circlesDrawn.region.sites.get? ⟨1⟩).any fun s =>
      s.live = [⟨1⟩] ∧ circlesDrawn.region.enclosing? s = some [⟨0⟩] := by decide +kernel
  obtain ⟨s, hs, h⟩ := (Option.any_eq_true ..).1 there
  obtain ⟨before, around⟩ := of_decide_eq_true h
  have answer : ((revisit ⟨shapes, .standard, drawing ⟨2⟩⟩ ⟨1⟩).run circlesDrawn).1 = .ok true := by
    decide +kernel
  have live : ((revisit ⟨shapes, .standard, drawing ⟨2⟩⟩ ⟨1⟩).run
      circlesDrawn).2.region.liveTargets ⟨1⟩ = [⟨1⟩, ⟨2⟩] := by decide +kernel
  obtain ⟨charged, waiting, revisited, reached⟩ :=
    (resolved_undisturbed completes_circlesDrawn.visits (drawing ⟨2⟩)).2.1 ⟨1⟩ s (.ok true) _ hs
      (Prod.ext answer rfl)
  obtain rfl := reached true rfl
  obtain ⟨s', hs', -, live', -⟩ := revisited.here
  rw [List.append_nil, before, ← Region.forest_live hs'] at live'
  obtain rfl : charged = [⟨2⟩] := List.append_cancel_left (live'.symm.trans live)
  exact ⟨s, hs, around, revisited⟩

end Inlining
