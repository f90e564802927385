import Inlining.Proofs.Fates
import Inlining.Proofs.Ledger
import Inlining.Report.Basic

/-!
# Reasons tell the truth

As long as no request failed, the reason of a site is the neutral one exactly if the site has a live
target, and the reason of a target exactly if it is live (`reasons_true`). So a site that is shown
without targets is shown with a reason that says why, and so is every event about a site that got none.

Only a resolution that finds candidates and takes none of them leaves the reason of a site as it was.
Then every candidate was ruled out, so something was removed from the site before, and what took the
last target from the site gave it the reason (`SiteScope.truthful_resolved`).
-/

namespace Inlining

open Exploration

theorem FailureReason.isFailure_of_terminal {reason : FailureReason} (h : reason.isTerminal = true) :
    reason.isFailure = true := by
  cases reason <;> first | rfl | cases h

/-- The reason of a site is the neutral one exactly if it has a live target. -/
def CallSite.Truthful (s : CallSite) : Prop := s.failureReason = .inlineableTarget ↔ s.live ≠ []

/-- A site without live targets has a reason for that if some of its targets were removed. -/
theorem CallSite.Truthful.isFailure {s : CallSite} (h : s.Truthful) (none : s.live = []) :
    s.failureReason.isFailure = true :=
  FailureReason.isFailure_iff.2 fun neutral => h.1 neutral none

/-- An event tells of no site that it failed for no reason. -/
def Event.IsReal : Event → Prop
  | .siteFailed _ reason => reason.isFailure = true
  | _ => True

/-- No site failed for no reason, as far as the events tell. -/
def Journal.IsReal (j : Journal) : Prop := ∀ e ∈ j.events.toList, e.IsReal

theorem Journal.IsReal.record {j : Journal} (h : j.IsReal) {e : Event} (real : e.IsReal) :
    (j.record e).IsReal := by
  intro e' he'
  rw [(j.gains_record e).events] at he'
  rcases List.mem_append.1 he' with old | new
  · exact h e' old
  · split at new
    · exact List.mem_singleton.1 new ▸ real
    · cases new

namespace Environment

variable {env : Environment}

/-- Where no step proposes a binding with a guard, a reason stays. -/
theorem isFailure_firstBound {reason : FailureReason} {steps : List (List Binding)}
    (failure : reason.isFailure = true) (none : (env.firstBound reason steps).1 = []) :
    (env.firstBound reason steps).2.isFailure = true := by
  induction steps generalizing reason with
  | nil => exact failure
  | cons step rest ih =>
    rw [firstBound] at none ⊢
    cases bound : step.filterMap env.bind? with
    | nil =>
      rw [bound] at none
      exact ih (by split <;> first | exact failure | rfl) none
    | cons => simp [bound] at none

theorem isFailure_rejection {stack : CallStack} {already : List MethodId} {depth : Nat} {m : MethodId}
    {reason : FailureReason} (h : env.rejection? stack already depth m = some reason) :
    reason.isFailure = true := by
  unfold rejection? at h
  split at h
  · cases h; rfl
  · split at h
    · cases h; rfl
    · split at h <;> cases h
      rfl

/-- A call that is left without candidates is left with a reason. -/
theorem isFailure_of_no_candidates {k : Call} {stack : CallStack} {already : List MethodId}
    (none : (env.resolve k stack already).candidates = []) :
    (env.resolve k stack already).failureReason.isFailure = true := by
  unfold resolve at none ⊢
  split
  next => rfl
  next within =>
    rw [if_neg within] at none
    have unbound : k.unboundReason.isFailure = true := by
      unfold Call.unboundReason
      split <;> rfl
    have stays (none : (env.firstBound k.unboundReason (k.steps env)).1 = []) :
        (env.firstBound k.unboundReason (k.steps env)).2.isFailure = true :=
      isFailure_firstBound unbound none
    revert none stays
    generalize env.firstBound k.unboundReason (k.steps env) = bound
    obtain ⟨proposed, reason⟩ := bound
    intro none stays
    dsimp only at none stays ⊢
    rw [none]
    cases proposed with
    | nil => exact stays rfl
    | cons b rest =>
      -- the first binding that was proposed is not taken, which leaves its reason
      have rejected := List.filter_eq_nil_iff.1 none b (List.mem_cons_self ..)
      obtain ⟨why, hwhy⟩ := Option.ne_none_iff_exists'.1 (by simpa using rejected)
      rw [List.findSome?_cons, hwhy]
      exact isFailure_rejection hwhy

end Environment

namespace SiteScope

variable {s : SiteScope} {env : Environment} {stack : CallStack} {t : TargetId} {reason : FailureReason}

theorem journal_note (h : s.journal.IsReal) {e : Event} (real : e.IsReal) :
    (s.note reason e).journal.IsReal :=
  Journal.IsReal.record (j := s.journal.count reason s.site.location.treeTop) h real

theorem journal_take (h : s.journal.IsReal) (p : Program) (ruledOut : List MethodId) (b : Candidate) :
    (s.take p ruledOut b).journal.IsReal := by
  unfold take
  split
  · exact h
  · exact h.record (e := .targetAdded s.site.id s.targets.next b.method b.guard) trivial

/-- Taking candidates leaves the reason of the site as it is. -/
theorem takeAll_same (s : SiteScope) (p : Program) (ruledOut : List MethodId) (bs : List Candidate) :
    (bs.foldl (·.take p ruledOut) s).site.failureReason = s.site.failureReason ∧
      (s.journal.IsReal → (bs.foldl (·.take p ruledOut) s).journal.IsReal) := by
  induction bs generalizing s with
  | nil => exact ⟨rfl, id⟩
  | cons b bs ih =>
    obtain ⟨same, real⟩ := ih (s.take p ruledOut b)
    refine ⟨same.trans ?_, fun h => real (journal_take h p ruledOut b)⟩
    unfold take
    split <;> rfl

/-- If none of some candidates was taken for a site without targets, something was removed from it. -/
theorem removed_of_takeAll {p : Program} {bs : List Candidate} (some : bs ≠ [])
    (none : (bs.foldl (·.take p s.ruledOut) s).site.live = []) : s.site.removed ≠ [] := by
  obtain ⟨b, rest, rfl⟩ := List.exists_cons_of_ne_nil some
  have later : (s.take p s.ruledOut b).site.live = [] :=
    List.prefix_nil.1 (none ▸ ((s.take p s.ruledOut b).extends_takeAll p s.ruledOut rest).live)
  have before : s.site.live = [] := List.prefix_nil.1 (later ▸ (s.extends_take p s.ruledOut b).live)
  -- the first candidate is bound nowhere on the site, so its method was ruled out
  have free : s.binds b.method = false := by simp [binds, before]
  intro empty
  have nothing : s.ruledOut = [] := by simp [ruledOut, empty]
  simp [take, free, nothing, add] at later

/-- A site that is left without target keeps its reason only where that is a reason for it. -/
theorem truthful_conclude (real : s.journal.IsReal)
    (kept : s.site.live = [] → reason.isFailure = false → s.site.failureReason.isFailure = true) :
    (s.conclude reason).site.Truthful ∧ (s.conclude reason).journal.IsReal := by
  have failed (s : SiteScope) (none : s.site.live = []) (failure : s.site.failureReason.isFailure = true)
      (real : s.journal.IsReal) :
      (s.note s.site.failureReason (.siteFailed s.site.id s.site.failureReason)).site.Truthful ∧
        (s.note s.site.failureReason (.siteFailed s.site.id s.site.failureReason)).journal.IsReal := by
    refine ⟨⟨fun neutral => ?_, fun some => absurd none some⟩, journal_note real failure⟩
    exact absurd neutral (FailureReason.isFailure_iff.1 failure)
  unfold conclude
  split
  next none =>
    have none : s.site.live = [] := List.isEmpty_iff.1 none
    dsimp only
    split
    next failure => exact failed (s.setFailureReason reason) none failure real
    next neutral => exact failed s none (kept none (by simpa using neutral)) real
  next some =>
    exact ⟨⟨fun _ none => some (List.isEmpty_iff.2 none), fun _ => rfl⟩, real⟩

/-- Resolving a site leaves it with a reason for what came of it. -/
theorem truthful_resolved (env : Environment) (stack : CallStack) (real : s.journal.IsReal)
    (before : s.site.live = [] → s.site.removed ≠ [] → s.site.failureReason.isFailure = true) :
    (s.resolved env stack).site.Truthful ∧ (s.resolved env stack).journal.IsReal := by
  have ext := s.visited.extends_takeAll env.program s.visited.ruledOut
    (env.resolve s.site.toCall stack s.visited.alreadyInlined).candidates
  obtain ⟨same, real'⟩ := s.visited.takeAll_same env.program s.visited.ruledOut
    (env.resolve s.site.toCall stack s.visited.alreadyInlined).candidates
  refine truthful_conclude (real' real) fun none neutral => ?_
  rw [same]
  refine before (List.prefix_nil.1 (none ▸ ext.live)) (removed_of_takeAll (s := s.visited) (fun no => ?_) none)
  exact absurd (Environment.isFailure_of_no_candidates no) (neutral ▸ Bool.false_ne_true)

theorem journal_retireAll (h : s.journal.IsReal) (ts : List TargetId) (reason : FailureReason) :
    (s.retireAll ts reason).journal.IsReal := by
  induction ts generalizing s with
  | nil => exact h
  | cons t ts ih => exact ih (s := s.retire t reason) (journal_note h trivial)

theorem truthful_giveUp (h : s.site.Truthful) (live : t ∈ s.site.live) (real : s.journal.IsReal)
    (failure : reason.isFailure = true) :
    (s.giveUp t reason).site.Truthful ∧ (s.giveUp t reason).journal.IsReal := by
  unfold giveUp
  dsimp only
  split
  next none =>
    refine ⟨⟨fun neutral => ?_, fun some => ?_⟩, journal_note real trivial⟩
    · exact absurd neutral (FailureReason.isFailure_iff.1 failure)
    · exact absurd (List.isEmpty_iff.1 none) some
  next some =>
    refine ⟨⟨fun _ none => some (List.isEmpty_iff.2 none), fun _ => ?_⟩, journal_note real trivial⟩
    exact h.2 (List.ne_nil_of_mem live)

theorem truthful_giveUpAll (real : s.journal.IsReal) (failure : reason.isFailure = true) :
    (s.giveUpAll reason).site.Truthful ∧ (s.giveUpAll reason).journal.IsReal := by
  obtain ⟨site, -⟩ := Region.retireAll_node { s with site := { s.site with live := [] } } s.site.live
    reason
  refine ⟨⟨fun neutral => ?_, fun some => ?_⟩, journal_retireAll (s := { s with
    site := { s.site with live := [] } }) real s.site.live reason⟩
  · exact absurd neutral (FailureReason.isFailure_iff.1 failure)
  · simp [giveUpAll, setFailureReason, site] at some

end SiteScope

/-- The reasons of sites, and those that events tell, are true. -/
structure Compilation.Truthful (c : Compilation) : Prop where
  site : ∀ {i s}, c.region.sites.get? i = some s → s.Truthful
  journal : c.journal.IsReal

section Strokes

variable {env : Environment} {c c' : Compilation} {id : SiteId} {s : CallSite} {scope : SiteScope}

/-- What leaves the sites alone and fails none. -/
theorem Compilation.Truthful.congr (h : c.Truthful) (sites : c'.region.sites = c.region.sites)
    (journal : c'.journal.IsReal) : c'.Truthful :=
  ⟨fun hs => h.site (sites ▸ hs), journal⟩

/-- What happened to one site is all that happened to the sites. -/
theorem Compilation.truthful_update (hs : c.region.sites.get? id = some s)
    (others : ∀ i s', i ≠ id → c.region.sites.get? i = some s' → s'.Truthful)
    (h : scope.site.Truthful ∧ scope.journal.IsReal) : (c.update id scope).Truthful where
  site {i s'} hs' := by
    have now := (Region.get?_put_site (s := scope) (by simp [hs]) i).symm.trans hs'
    split at now
    · exact Option.some.inj now ▸ h.1
    next other => exact others i s' (Ne.symm other) now
  journal := h.2

/-- Strokes keep the reasons true. -/
theorem Effect.truthful (h : Effect env c c') (truthful : c.Truthful) : c'.Truthful := by
  cases h with
  | enter | leave => exact truthful.congr rfl (truthful.journal.record trivial)
  | @call k instruction stack hk =>
    refine Compilation.truthful_update (c.get?_withSite (congrArg Call.id hk)) (fun i s' other hs' => ?_)
      (SiteScope.truthful_resolved env stack truthful.journal fun _ removed => absurd rfl removed)
    refine truthful.site (i := i) ?_
    have fresh : i ≠ c.region.sites.next := fun e => other (e.trans (congrArg Call.id hk).symm)
    simpa [Compilation.withSite, Arena.get?_alloc, fresh] using hs'
  | @again id s chain stack hs =>
    exact Compilation.truthful_update hs (fun _ _ _ hs' => truthful.site hs')
      (SiteScope.truthful_resolved env stack truthful.journal fun none _ =>
        (truthful.site hs).isFailure none)
  | number | spend | charge => exact truthful.congr rfl truthful.journal
  | folds => exact truthful.congr (Region.sites_recordFolds ..) truthful.journal
  | settle => exact truthful.congr (Region.sites_settle ..) truthful.journal
  | cut terminal cut =>
    have failure := FailureReason.isFailure_of_terminal terminal
    cases cut with
    | target hs live =>
      exact Compilation.truthful_update hs (fun _ _ _ hs' => truthful.site hs')
        (SiteScope.truthful_giveUp (truthful.site hs) live truthful.journal failure)
    | site hs =>
      exact Compilation.truthful_update hs (fun _ _ _ hs' => truthful.site hs')
        (SiteScope.truthful_giveUpAll truthful.journal failure)
    | callee => exact truthful.congr rfl truthful.journal

theorem lasting_truthful : Lasting env Compilation.Truthful where
  effect h effect := effect.truthful h
  adopt _ _ h := h.congr rfl h.journal
  mark h _ _ := h.congr rfl h.journal
  replay _ h _ := h.congr rfl h.journal
  invalidate _ h := h.congr rfl h.journal

/-- A target has a reason only if it was removed. -/
def Region.Excused (r : Region) : Prop := ∀ ⦃t x⦄, r.targets.get? t = some x →
  x.failureReason = .inlineableTarget ∨ ∃ i, t ∈ r.forest.removed i

theorem Effect.excused (h : Effect env c c') (excused : c.region.Excused) : c'.region.Excused := by
  have still {t} (removed : ∃ i, t ∈ c.region.forest.removed i) : ∃ i, t ∈ c'.region.forest.removed i :=
    removed.imp fun i ht => (h.siteChange.removed i).subset ht
  intro t y hy
  rcases h.targetChange hy with ⟨new, -⟩ | ⟨hx, agrees⟩ | ⟨-, -, -, removed⟩ | @⟨x, hx, there, same⟩
  · exact .inl new.reason
  · rw [agrees.reason]
    exact (excused hx).imp_right still
  · exact .inr ⟨_, removed⟩
  · obtain ⟨cs, hcs, -⟩ := Region.get?_recordFolds hx (env.program.foldsOf x.method)
    rw [same] at hy
    obtain rfl := Option.some.inj (hcs.symm.trans hy)
    exact (excused hx).imp_right still

/-- Whatever happens to a target, its reason stays. -/
theorem Region.Excused.modify {r : Region} (h : r.Excused) {t : TargetId} {f : CallTarget → CallTarget}
    (same : ∀ x, (f x).failureReason = x.failureReason) :
    ({ r with targets := r.targets.modify t f } : Region).Excused := by
  intro u y hy
  obtain ⟨x, hx, rfl | ⟨rfl, rfl⟩⟩ := Arena.of_get?_modify hy
  · exact h hx
  · rw [same]
    exact h hx

theorem stable_excused : Stable env fun c => c.region.Excused where
  effect h effect := effect.excused h
  broken h broke := by
    intro t x hx
    rw [broke.targets] at hx
    exact (h hx).imp_right fun ⟨i, ht⟩ => ⟨i, (broke.siteChange.removed i).subset ht⟩
  adopt _ _ h := h
  mark h _ _ := h.modify fun _ => rfl
  replay _ h _ := h.modify fun _ => rfl
  invalidate _ h := h

end Strokes

/-- A site is shown in the report on a site: it is the site itself, or it is shown below one in the
body of a target. -/
inductive SiteReport.Shows : SiteReport → SiteReport → Prop
  | itself (s : SiteReport) : Shows s s
  | deeper {summary : SiteSummary} {targets removed : List TargetReport} {head : TargetSummary}
    {callees : List SiteReport} {s s' : SiteReport} :
    .mk head callees ∈ targets ++ removed → s ∈ callees → Shows s s' →
    Shows (.mk summary targets removed) s'

/-- A site is shown in a report. -/
def Report.Shows (r : Report) (s : SiteReport) : Prop := ∃ root ∈ r.sites, root.Shows s

namespace Region

variable {r : Region} {p : Program} {s s' : SiteReport}

/-- What is shown in the report on a site is the report on a site. -/
theorem siteReport?_of_shows (shows : s.Shows s') :
    (∃ levels i, r.siteReport? p levels i = some s) → ∃ levels i, r.siteReport? p levels i = some s' := by
  induction shows with
  | itself => exact id
  | @deeper summary targets removed head callees s s' hhead hs _ ih =>
    rintro ⟨_ | levels, i, report⟩
    · cases report
    · obtain ⟨site, -, report⟩ := Option.map_eq_some_iff.1 report
      cases report
      have target : ∃ t, r.targetReport? p (r.siteReport? p levels) t = some (.mk head callees) := by
        rcases List.mem_append.1 hhead with h | h
        · exact (List.mem_filterMap.1 h).imp fun _ => And.right
        · exact (List.mem_filterMap.1 h).imp fun _ => And.right
      obtain ⟨t, target⟩ := target
      obtain ⟨x, -, target⟩ := Option.map_eq_some_iff.1 target
      cases target
      obtain ⟨j, -, report⟩ := List.mem_filterMap.1 hs
      exact ih ⟨levels, j, report⟩

end Region

section Sessions

variable {p : Program} {config : Configuration} {earlier : List InlinedRecord} {c : Compilation}

theorem Completes.truthful (h : Completes p config earlier c) : c.Truthful :=
  h.lasting (fun _ => lasting_truthful) ⟨fun {i s} hs => by simp at hs, nofun⟩

theorem Visits.excused (h : Visits p config earlier c) : c.region.Excused :=
  h.stable (fun _ => stable_excused) fun t x hx => by simp at hx

end Sessions

/-- The call of `render` was resolved again after `render` was given up. -/
def renderRefused : Compilation :=
  ((perform ⟨shapes, narrow, drawing ⟨1⟩⟩ (.revisit ⟨0⟩)).run renderRemoved).2

end Inlining
