import Inlining.Proofs.Aging
import Inlining.Proofs.Marks
import Inlining.Proofs.Removal

/-!
# One target for each method

A site never has two targets that are bound to one method, neither at once nor one after the other
(`bound_once`). Of the candidates for a site only those are taken whose methods have no live target
there and were not ruled out, and whatever is removed from a site is removed for a reason that rules
its method out (`Region.Retired`). So the methods of all targets that a site ever had stay different
(`Region.Single`), whatever the advice is when the site is resolved again.
-/

namespace Inlining

namespace SiteScope

/-- The targets of the site, live and removed, are bound to different methods, and those of the removed
ones are ruled out. -/
structure Single (ruledOut : List MethodId) (s : SiteScope) : Prop where
  there : ∀ {t}, t ∈ s.site.live ∨ t ∈ s.site.removed → s.targets.get? t ≠ none
  ruled : ∀ {t x}, t ∈ s.site.removed → s.targets.get? t = some x → x.method ∈ ruledOut
  once : ∀ {t u x y}, t ∈ s.site.live ∨ t ∈ s.site.removed → u ∈ s.site.live ∨ u ∈ s.site.removed →
    s.targets.get? t = some x → s.targets.get? u = some y → x.method = y.method → t = u

variable {s : SiteScope} {ruledOut : List MethodId} {b : Candidate} {t : TargetId} {x : CallTarget}

/-- What is not bound on the site and not ruled out has no target there. -/
theorem Single.ne_method (h : s.Single ruledOut) {m : MethodId}
    (free : ¬ (s.binds m || ruledOut.contains m) = true)
    (ht : t ∈ s.site.live ∨ t ∈ s.site.removed) (hx : s.targets.get? t = some x) : x.method ≠ m := by
  rintro rfl
  refine free (Bool.or_eq_true_iff.2 ?_)
  rcases ht with live | removed
  · exact .inl (List.any_eq_true.2 ⟨x, List.mem_filterMap.2 ⟨t, live, hx⟩, beq_self_eq_true _⟩)
  · exact .inr (List.contains_iff_mem.2 (h.ruled removed hx))

/-- Taking a candidate keeps the methods of a site different. -/
theorem Single.take (h : s.Single ruledOut) (p : Program) (b : Candidate) :
    (s.take p ruledOut b).Single ruledOut := by
  have ext := s.extends_take p ruledOut b
  unfold SiteScope.take at ext ⊢
  split
  · exact h
  next free =>
    rw [if_neg free] at ext
    -- a target of the site is the new one, which is bound to the method of the candidate, or an old one
    have parts {t : TargetId} {x : CallTarget}
        (ht : t ∈ s.site.live ++ [s.targets.next] ∨ t ∈ s.site.removed)
        (hx : (s.add (s.targetOf p b)).2.targets.get? t = some x) :
        t = s.targets.next ∧ x.method = b.method ∨
          (t ∈ s.site.live ∨ t ∈ s.site.removed) ∧ s.targets.get? t = some x := by
      simp only [add, Arena.get?_alloc] at hx
      split at hx
      next e =>
        cases hx
        exact .inl ⟨e, s.method_targetOf p b⟩
      next old =>
        refine .inr ⟨ht.imp_left fun live => ?_, hx⟩
        simpa [old] using live
    refine ⟨fun {t} ht => ?_, fun {t x} ht hx => ?_, fun {t u x y} ht hu hx hy same => ?_⟩
    · rcases ht with live | removed
      · rcases List.mem_append.1 live with live | new
        · exact ext.there (h.there (.inl live))
        · simp [List.mem_singleton.1 new, add, Arena.get?_alloc]
      · exact ext.there (h.there (.inr removed))
    · obtain ⟨y, hy⟩ := Option.ne_none_iff_exists'.1 (h.there (.inr ht))
      obtain rfl := Option.some.inj ((ext.target hy).symm.trans hx)
      exact h.ruled ht hy
    · rcases parts ht hx with ⟨rfl, hm⟩ | ⟨ht, hx⟩ <;> rcases parts hu hy with ⟨rfl, hm'⟩ | ⟨hu, hy⟩
      · rfl
      · exact absurd (same.symm.trans hm) (h.ne_method free hu hy)
      · exact absurd (same.trans hm') (h.ne_method free ht hx)
      · exact h.once ht hu hx hy same

theorem Single.takeAll (h : s.Single ruledOut) (p : Program) (bs : List Candidate) :
    (bs.foldl (·.take p ruledOut) s).Single ruledOut := by
  induction bs generalizing s with
  | nil => exact h
  | cons b bs ih => exact ih (h.take p b)

/-- What the lists of targets do not see does not matter. -/
theorem Single.congr (h : s.Single ruledOut) {s' : SiteScope} (live : s'.site.live = s.site.live)
    (removed : s'.site.removed = s.site.removed) (targets : s'.targets = s.targets) :
    s'.Single ruledOut := by
  constructor
  · rw [live, removed, targets]; exact h.there
  · rw [removed, targets]; exact h.ruled
  · rw [live, removed, targets]; exact h.once

/-- Resolving a site keeps the methods of its targets different. -/
theorem Single.resolved (h : s.Single s.ruledOut) (env : Environment) (stack : CallStack) :
    (s.resolved env stack).Single s.ruledOut := by
  have visited : s.visited.Single s.ruledOut := h.congr rfl rfl rfl
  have taken := visited.takeAll env.program
    (env.resolve s.site.toCall stack s.visited.alreadyInlined).candidates
  obtain ⟨site, targets⟩ := conclude_same
    ((env.resolve s.site.toCall stack s.visited.alreadyInlined).candidates.foldl
      (·.take env.program s.ruledOut) s.visited)
    (env.resolve s.site.toCall stack s.visited.alreadyInlined).failureReason
  simp only [CallSite.node, Prod.mk.injEq] at site
  exact taken.congr site.2.1 site.2.2.1 targets

end SiteScope

namespace Region

variable {r r' : Region} {id : SiteId} {s : CallSite}

/-- The targets of each site, live and removed, are bound to different methods. -/
structure Single (r : Region) : Prop extends r.Retired where
  once : ∀ {i t u o o'}, t ∈ r.forest.live i ∨ t ∈ r.forest.removed i →
    u ∈ r.forest.live i ∨ u ∈ r.forest.removed i → r.forest.origin? t = some o →
    r.forest.origin? u = some o' → o.method = o'.method → t = u

/-- What gives no site a target and leaves all targets bound as they are. -/
theorem Single.congr (h : r.Single) (retired : r'.Retired) (live : ∀ i, r'.forest.live i ⊆ r.forest.live i)
    (removed : ∀ i, ∀ t ∈ r'.forest.removed i, t ∈ r.forest.live i ∨ t ∈ r.forest.removed i)
    (origin : r'.forest.origin? = r.forest.origin?) : r'.Single :=
  { retired with
    once := fun {i} _ _ _ _ ht hu ho ho' same => by
      rw [origin] at ho ho'
      exact h.once (ht.elim (fun ht => .inl (live i ht)) (removed i _))
        (hu.elim (fun hu => .inl (live i hu)) (removed i _)) ho ho' same }

/-- What does not see the sites gives none a target. -/
theorem Single.of_sites (h : r.Single) (retired : r'.Retired) (sites : r'.sites = r.sites)
    (origin : r'.forest.origin? = r.forest.origin?) : r'.Single := by
  have live : r'.forest.live = r.forest.live := by
    funext i
    simp [forest, liveTargets, sites]
  have removed : r'.forest.removed = r.forest.removed := by
    funext i
    simp [forest, sites]
  exact h.congr retired (fun i => by rw [live]; exact List.Subset.refl _)
    (fun i t ht => .inr (by rwa [← removed])) origin

/-- One site of a region whose targets are bound to different methods. -/
theorem Single.scope (h : r.Single) (hs : r.sites.get? id = some s) (journal : Journal) :
    (SiteScope.mk s r.targets journal).Single (SiteScope.mk s r.targets journal).ruledOut where
  there ht := by
    refine h.there (i := id) ?_
    rwa [forest_live hs, forest_removed hs]
  ruled {t x} ht hx := by
    have terminal := (h.bare (i := id) (by rwa [forest_removed hs]) hx).2
    refine List.mem_map.2 ⟨x, List.mem_filter.2 ⟨?_, terminal⟩, rfl⟩
    exact List.mem_filterMap.2 ⟨t, ht, hx⟩
  once ht hu hx hy same := by
    rw [← forest_live hs, ← forest_removed hs] at ht hu
    exact h.once ht hu (forest_origin hx) (forest_origin hy) same

/-- A site that gets new targets keeps their methods different if the site does by itself. -/
theorem Single.put_extends (h : r.Single) (hs : r.sites.get? id = some s) {journal : Journal}
    {scope : SiteScope} (ext : (⟨s, r.targets, journal⟩ : SiteScope).Extends scope)
    {ruledOut : List MethodId} (single : scope.Single ruledOut) : (r.put id scope).Single :=
  { h.toRetired.put_extends hs ext with
    once := fun {i t u o o'} ht hu ho ho' same => by
      obtain ⟨x, hx, rfl⟩ := target_of_origin ho
      obtain ⟨y, hy, rfl⟩ := target_of_origin ho'
      have lists := forest_put_site hs scope i
      rw [lists.2.1, lists.2.2] at ht hu
      by_cases here : id = i
      · rw [if_pos here, if_pos here] at ht hu
        exact single.once ht hu hx hy same
      · rw [if_neg here, if_neg here] at ht hu
        have old {v : TargetId} (hv : v ∈ r.forest.live i ∨ v ∈ r.forest.removed i) {z : CallTarget}
            (hz : scope.targets.get? v = some z) : r.targets.get? v = some z := by
          obtain ⟨z', hz'⟩ := Option.ne_none_iff_exists'.1 (h.there hv)
          obtain rfl := Option.some.inj ((ext.target hz').symm.trans hz)
          exact hz'
        exact h.once ht hu (forest_origin (old ht hx)) (forest_origin (old hu hy)) same }

/-- A site that gives up live targets keeps the methods of all its targets different. -/
theorem Single.put_drops (h : r.Single) (hs : r.sites.get? id = some s) {journal : Journal}
    {scope : SiteScope} {reason : FailureReason} (terminal : reason.isTerminal = true)
    {ts : List TargetId} (drops : (⟨s, r.targets, journal⟩ : SiteScope).Drops reason scope ts) :
    (r.put id scope).Single := by
  refine h.congr (h.toRetired.put_drops hs terminal drops) (fun i => ?_) (fun i t ht => ?_)
    (origin_put_drops drops)
  · rw [(forest_put_site hs scope i).2.1]
    split
    next here =>
      rw [← here, forest_live hs]
      exact drops.live
    next => exact List.Subset.refl _
  · rw [(forest_put_site hs scope i).2.2] at ht
    split at ht
    next here =>
      rw [drops.removed] at ht
      rw [← here, forest_live hs, forest_removed hs]
      exact (List.mem_append.1 ht).symm.imp_left (drops.dropped t)
    next => exact .inr ht

theorem Single.addSite (h : r.Single) (k : Call) :
    ({ r with sites := r.sites.alloc (.ofCall k) } : Region).Single := by
  refine h.congr (h.toRetired.addSite k) (fun i => ?_) (fun i t ht => .inr ?_) ?_
  · rw [forest_addSite]
    exact List.Subset.refl _
  · rw [forest_addSite] at ht
    exact ht
  · rw [forest_addSite]
    rfl

end Region

section Strokes

variable {env : Environment} {c c' : Compilation} {id : SiteId} {s : CallSite}

theorem Compilation.single_resolve (h : c.region.Single) (hs : c.region.sites.get? id = some s)
    (stack : CallStack) : (c.resolve env stack id s).region.Single :=
  h.put_extends hs (SiteScope.extends_resolved ..) ((h.scope hs c.journal).resolved env stack)

theorem Compilation.single_visit (h : c.region.Single) (hs : c.region.sites.get? id = some s) :
    (c.visit id s).region.Single :=
  h.put_extends hs (SiteScope.extends_visited _) ((h.scope hs c.journal).congr rfl rfl rfl)

/-- No stroke gives a site two targets for one method. -/
theorem Effect.single (h : Effect env c c') (single : c.region.Single) : c'.region.Single := by
  have retired := h.retired single.toRetired
  cases h with
  | enter | leave | spend => exact single
  | @call k instruction stack hk =>
    have sited : (c.withSite k).region.Single := single.addSite k
    exact Compilation.single_resolve sited (c.get?_withSite (congrArg Call.id hk)) stack
  | again hs => exact Compilation.single_resolve single hs _
  | number => exact single.of_sites retired rfl (Region.origin_modify fun _ _ => ⟨rfl, rfl, rfl⟩)
  | folds =>
    refine single.of_sites retired (Region.sites_recordFolds ..) ?_
    rw [Region.forest_recordFolds]
  | settle => exact single.of_sites retired (Region.sites_settle ..) (Region.origin_settle ..)
  | cut terminal cut =>
    rcases cut.cases with ⟨id, s, scope, ts, hs, drops, rfl⟩ | ⟨t, x, y, i, hx, hy, rfl⟩
    · exact single.put_drops hs terminal drops
    · refine single.of_sites retired rfl ?_
      rw [(Region.forest_dropCallee hx hy).2]
      rfl
  | charge => exact single.of_sites retired rfl (Region.origin_grow ..)

theorem Break.single {e : Fault} (h : Break env c e c') (single : c.region.Single) :
    c'.region.Single := by
  cases h with
  | @call k instruction _ hk =>
    have sited : (c.withSite k).region.Single := single.addSite k
    exact Compilation.single_visit sited (c.get?_withSite (congrArg Call.id hk))
  | again hs => exact Compilation.single_visit single hs

/-- The targets of each site stay bound to different methods. -/
theorem stable_single : Stable env fun c => c.region.Single where
  effect h effect := effect.single h
  broken h broke := broke.single h
  adopt _ _ h := h
  mark h hx hs := h.of_sites ((stable_retired : Stable env _).mark h.toRetired hx hs) rfl
    (by rw [Compilation.forest_marked])
  replay folds h hx := h.of_sites ((stable_retired : Stable env _).replay folds h.toRetired hx) rfl
    (by rw [Compilation.forest_replayed])
  invalidate _ h := h.of_sites { h.toRetired with } rfl rfl

end Strokes

open Exploration

section Sessions

variable {p : Program} {config : Configuration} {earlier : List InlinedRecord} {c c' : Compilation}
  {i : SiteId} {s : CallSite} {t : TargetId} {x : CallTarget}

theorem Visits.single (h : Visits p config earlier c) : c.region.Single := by
  refine h.stable (fun _ => stable_single) ⟨⟨fun ht => ?_, fun ht => ?_⟩, fun ht => ?_⟩ <;>
    simp [Compilation.forest_start] at ht

/-- The targets that were ever added to a site are its live and its removed ones. -/
theorem Visits.callSite_iff (h : Visits p config earlier c) (hs : c.region.sites.get? i = some s)
    (hx : c.region.targets.get? t = some x) : x.callSite = i ↔ t ∈ s.live ∨ t ∈ s.removed := by
  rw [← Region.forest_live hs, ← Region.forest_removed hs, h.sound.placed, Forest.home?,
    Region.forest_origin hx]
  simp

/-- **One target for each method.** In every session, with any advice, the targets that were ever
added to a site are bound to different methods, the removed ones included. So the method of a removed
target is bound by no live target of the site, then or later. -/
theorem bound_once (h : Visits p config earlier c) (hs : c.region.sites.get? i = some s) :
    (∀ t x, c.region.targets.get? t = some x → (x.callSite = i ↔ t ∈ s.live ∨ t ∈ s.removed)) ∧
    ((c.scope s).everAdded.map (·.method)).Nodup ∧
    (c.scope s).everAdded.length = s.totalAdded ∧
    ∀ t x, t ∈ s.removed → c.region.targets.get? t = some x → ∀ c', Later p config c c' →
      ∃ s', c'.region.sites.get? i = some s' ∧ t ∈ s'.removed ∧
        ∀ u y, u ∈ s'.live → c'.region.targets.get? u = some y → y.method ≠ x.method := by
  have single := h.single
  have there {t : TargetId} (ht : t ∈ s.live ++ s.removed) : c.region.targets.get? t ≠ none := by
    rw [List.mem_append, ← Region.forest_live hs, ← Region.forest_removed hs] at ht
    exact single.there ht
  refine ⟨fun t x hx => h.callSite_iff hs hx, ?_, ?_, fun t x removed hx c' later => ?_⟩
  · have distinct := h.sound.distinct i
    rw [Region.forest_live hs, Region.forest_removed hs] at distinct
    refine List.pairwise_map.2 (List.pairwise_filterMap.2 (distinct.imp_of_mem ?_))
    intro t u ht hu other x hx y hy same
    rw [List.mem_append, ← Region.forest_live hs, ← Region.forest_removed hs] at ht hu
    exact other (single.once ht hu (Region.forest_origin hx) (Region.forest_origin hy) same)
  · have all : (c.scope s).everAdded.length = (s.live ++ s.removed).length :=
      List.filterMap_length_eq_length.2 fun t ht => Option.isSome_iff_ne_none.2 (there ht)
    have total := h.sound.totalAdded i
    rw [Region.forest_live hs, Region.forest_removed hs] at total
    rw [all, List.length_append, ← total]
    simp [Region.forest, hs]
  · have visits := h.later later
    obtain ⟨x', hx', ages⟩ := (later.ages h).target hx
    have method : x'.method = x.method := by rw [ages.same]
    obtain ⟨s', hs', -⟩ := Region.site_of_call
      (later.stable h (fun _ => stable_call i s.toCall) (Region.forest_call hs))
    rw [← Region.forest_removed hs] at removed
    have gone := (later.removed h i).subset removed
    refine ⟨s', hs', by rwa [← Region.forest_removed hs'], fun u y live hy same => ?_⟩
    rw [← Region.forest_live hs'] at live
    have one : u = t := visits.single.once (.inl live) (.inr gone) (Region.forest_origin hy)
      (Region.forest_origin hx') (same.trans method.symm)
    exact visits.sound.not_removed live (one ▸ gone)

end Sessions

/-- When `main` is asked again for its call of `render`, which was given up, `render` does not come
back. -/
theorem bound_once_render : ∃ s s', renderRemoved.region.sites.get? ⟨0⟩ = some s ∧
    ((renderRemoved.scope s).everAdded.map (·.method)).Nodup ∧ s.removed = [⟨0⟩] ∧
    ((perform ⟨shapes, narrow, drawing ⟨2⟩⟩ (.revisit ⟨0⟩)).run renderRemoved).2.region.sites.get? ⟨0⟩ =
      some s' ∧
    ∀ u y, u ∈ s'.live → ((perform ⟨shapes, narrow, drawing ⟨2⟩⟩
      (.revisit ⟨0⟩)).run renderRemoved).2.region.targets.get? u = some y → y.method ≠ ⟨1⟩ := by
  have visits : Visits shapes narrow [] renderRemoved := .run .start (drawing ⟨1⟩) (.explore ⟨0⟩)
  have there : (renderRemoved.region.sites.get? ⟨0⟩).any (·.removed = [⟨0⟩]) := by decide +kernel
  obtain ⟨s, hs, removed⟩ := (Option.any_eq_true ..).1 there
  have bound : (renderRemoved.region.targets.get? ⟨0⟩).any (·.method = ⟨1⟩) := by decide +kernel
  obtain ⟨x, hx, method⟩ := (Option.any_eq_true ..).1 bound
  have removed := of_decide_eq_true removed
  obtain ⟨-, distinct, -, never⟩ := bound_once visits hs
  obtain ⟨s', hs', -, free⟩ := never ⟨0⟩ x (by simp [removed]) hx _
    (.single ⟨drawing ⟨2⟩, .revisit ⟨0⟩, _, rfl⟩)
  exact ⟨s, s', hs, distinct, removed, hs', of_decide_eq_true method ▸ free⟩

end Inlining
