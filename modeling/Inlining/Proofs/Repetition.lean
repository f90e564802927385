import Inlining.Proofs.Progress

/-!
# Revisiting repeats nothing

As long as the advice stays the same, resolving a site again finds nothing that is not on it already
(`revisit_repeats`): no site and no target comes or goes, and no size changes. What carries this is
that every attached site is exhausted (`Steady.exhaustive`). The exploration that found a site took
every method that may be bound there, a revisit screens the same methods against the same frames, and
what is inlined in between only makes the screening stricter.
-/

namespace Inlining

open Exploration

/-- The compilations that some session leads to in which the advice never changes and no request
fails. -/
inductive Steady (env : Environment) (earlier : List InlinedRecord) : Compilation → Prop
  | start : Steady env earlier (.start env.config earlier)
  | step {c c' : Compilation} (request : Request) :
    Steady env earlier c → (perform env request).run c = (.ok (), c') → Steady env earlier c'

/-- A site is reached from a root through live targets and their callees. -/
inductive Region.Attached (r : Region) (roots : List SiteId) : SiteId → Prop
  | root {i : SiteId} : i ∈ roots → Attached r roots i
  | callee {i j : SiteId} {s : CallSite} {t : TargetId} {x : CallTarget} :
    Attached r roots j → r.sites.get? j = some s → t ∈ s.live →
    r.targets.get? t = some x → i ∈ x.callees → Attached r roots i

namespace Region

variable {r : Region} {depth : Nat} {i : SiteId}

/-- The attached sites are those around which there are bodies down to that of a compiled method. -/
theorem attached_iff {p : Program} {limit total : Size} {roots : List SiteId}
    (sound : r.forest.Sound depth)
    (accounts : r.forest.Accounts p limit roots total [] [] []) (there : r.forest.call? i ≠ none) :
    r.Attached roots i ↔ ∃ chain, r.forest.Encloses chain i := by
  constructor
  · intro h
    induction h with
    | root hi => exact ⟨[], accounts.root _ hi⟩
    | @callee i j s t x _ hs ht hx hi ih =>
      rw [← forest_live hs] at ht
      rw [← (forest_callees hx).1] at hi
      have ⟨k, hk⟩ := sound.call_of_live ht
      obtain ⟨chain, hj⟩ := ih (by simp [hk])
      exact ⟨t :: chain, hi, j, ht, hj⟩
  · rintro ⟨chain, h⟩
    induction chain generalizing i with
    | nil =>
      obtain ⟨k, hk, top⟩ := h
      rcases accounts.held i there with root | ⟨t, owner⟩
      · exact .root (by simpa using root)
      · have nested := Forest.Accounts.not_isTop_of_owns sound owner
        simp [Forest.isTop, hk, top] at nested
    | cons t rest ih =>
      obtain ⟨hi, j, ht, hj⟩ := h
      obtain ⟨o, ho, -⟩ := sound.origin_of_live ht
      obtain ⟨x, hx, -⟩ := target_of_origin ho
      obtain ⟨k, hk⟩ := sound.call_of_live ht
      obtain ⟨s, hs, -⟩ := site_of_call hk
      rw [forest_live hs] at ht
      rw [(forest_callees hx).1] at hi
      exact .callee (ih (by simp [hk]) hj) hs ht hx hi

/-- At an exhausted site every candidate has a live target, or is ruled out. -/
theorem had_of_exhausted {env : Environment} {earlier : List InlinedRecord} {methods : List MethodId}
    {s : CallSite} (sound : r.forest.Sound depth) (retired : r.Retired)
    (hs : r.sites.get? i = some s) (exhausted : r.forest.Exhausted env earlier methods i s.toCall)
    {stack : CallStack} (stands : stack.Stands methods earlier) {journal : Journal}
    {already : List MethodId} {b : Candidate} (hb : b ∈ (env.resolve s.toCall stack already).candidates) :
    (SiteScope.mk s r.targets journal).binds b.method = true ∨
      b.method ∈ (SiteScope.mk s r.targets journal).ruledOut := by
  have offered := ((Environment.mem_candidates_iff stands).1 hb).1
  obtain ⟨t, o, ho, rfl, same⟩ := exhausted.taken b offered
  obtain ⟨x, hx, rfl⟩ := target_of_origin ho
  have home : r.forest.home? t = some x.callSite := by simp [Forest.home?, forest_origin hx]
  rcases sound.placed.2 home with live | removed
  · rw [forest_live hs] at live
    exact .inl (List.any_eq_true.2 ⟨x, List.mem_filterMap.2 ⟨t, live, hx⟩, by simpa using same⟩)
  · have terminal := (retired.bare removed hx).2
    rw [forest_removed hs] at removed
    refine .inr (List.mem_map.2 ⟨x, List.mem_filter.2 ⟨?_, terminal⟩, same⟩)
    exact List.mem_filterMap.2 ⟨t, removed, hx⟩

end Region

namespace SiteScope

variable {s : SiteScope}

theorem take_of_had {p : Program} {ruledOut : List MethodId} {b : Candidate}
    (had : s.binds b.method = true ∨ b.method ∈ ruledOut) : s.take p ruledOut b = s := by
  unfold take
  rw [if_pos]
  simpa [Bool.or_eq_true, List.contains_iff_mem] using had

/-- Candidates that a site has already leave it as it is. -/
theorem takeAll_of_had {p : Program} {ruledOut : List MethodId} {bs : List Candidate}
    (had : ∀ b ∈ bs, s.binds b.method = true ∨ b.method ∈ ruledOut) :
    bs.foldl (·.take p ruledOut) s = s := by
  induction bs with
  | nil => rfl
  | cons b bs ih =>
    rw [List.foldl_cons, take_of_had (had b (List.mem_cons_self ..))]
    exact ih fun b' hb' => had b' (List.mem_cons_of_mem _ hb')

/-- `s'` is `s` but for the visits of the site, its reason and the journal. -/
def Recounts (s s' : SiteScope) : Prop :=
  ∃ visits reason journal, journal.recording = s.journal.recording ∧
    s' = { s with site := { s.site with visitCount := visits, failureReason := reason }, journal }

theorem recounts_conclude (s : SiteScope) (reason : FailureReason) :
    s.Recounts (s.visited.conclude reason) := by
  have recording (j : Journal) (event : Event) : (j.record event).recording = j.recording := by
    unfold Journal.record
    split <;> rfl
  unfold conclude
  split
  · dsimp only
    split <;>
      · refine ⟨_, _, _, ?_, rfl⟩
        exact recording _ _
  · exact ⟨_, _, _, rfl, rfl⟩

end SiteScope

/-- From `c` to `c'` a site was visited, and nothing but what is counted changed. -/
def Compilation.Revisits (c : Compilation) (id : SiteId) (c' : Compilation) : Prop :=
  ∃ visits reason journal, journal.recording = c.journal.recording ∧
    c' = { c with
      region := { c.region with
        sites := c.region.sites.modify id fun s =>
          { s with visitCount := visits, failureReason := reason } }
      journal }

variable {env : Environment} {earlier : List InlinedRecord} {c c' : Compilation} {id : SiteId}
  {s : CallSite}

theorem SiteScope.Recounts.revisits {scope : SiteScope} (hs : c.region.sites.get? id = some s)
    (h : (c.scope s).Recounts scope) : c.Revisits id (c.update id scope) := by
  obtain ⟨visits, reason, journal, recording, rfl⟩ := h
  refine ⟨visits, reason, journal, recording, ?_⟩
  have sites : (c.region.sites.modify id fun _ =>
      { s with visitCount := visits, failureReason := reason }) =
      c.region.sites.modify id fun s => { s with visitCount := visits, failureReason := reason } := by
    refine Arena.ext_get? fun i => ?_
    rw [Arena.get?_modify, Arena.get?_modify]
    split
    next e => rw [← e, hs]; rfl
    next => rfl
  unfold Compilation.update Compilation.scope
  rw [sites]

namespace Compilation

/-- Visiting a site that is left alone counts nothing. -/
theorem Revisits.refl (hs : c.region.sites.get? id = some s) : c.Revisits id c := by
  have same : (c.scope s).Recounts (c.scope s) := ⟨_, _, _, rfl, rfl⟩
  have revisits := same.revisits hs
  rwa [c.update_scope hs] at revisits

theorem Revisits.forest (h : c.Revisits id c') : c'.region.forest = c.region.forest := by
  obtain ⟨visits, reason, journal, -, rfl⟩ := h
  refine Region.forest_congr (fun i => ?_) fun t => rfl
  rw [Arena.get?_modify]
  split
  next e => cases hs : c.region.sites.get? i <;> rfl
  next => rfl

theorem Revisits.previouslyInlined (h : c.Revisits id c') :
    c'.previouslyInlined = c.previouslyInlined := by
  obtain ⟨_, _, _, -, rfl⟩ := h
  rfl

/-- Every site of a compiled method is exhausted, with everything below it. -/
def Exhaustive (env : Environment) (c : Compilation) : Prop :=
  ∀ i k, c.region.forest.call? i = some k → k.depth = 0 →
    c.region.forest.Complete env c.previouslyInlined [k.caller] i

theorem Exhaustive.of_forest (h : c.Exhaustive env) (forest : c'.region.forest = c.region.forest)
    (more : c.previouslyInlined ⊆ c'.previouslyInlined) : c'.Exhaustive env := by
  intro i k hk top
  rw [forest] at hk ⊢
  exact (h i k hk top).mono more

end Compilation

namespace Exploration

/-- Resolving an exhausted site again finds nothing. -/
theorem resolve_of_exhausted {methods : List MethodId} {stack : CallStack}
    (sound : c.region.forest.Sound env.config.maxDepth) (retired : c.region.Retired)
    (hs : c.region.sites.get? id = some s) (stands : stack.Stands methods c.previouslyInlined)
    (exhausted : c.region.forest.Exhausted env c.previouslyInlined methods id s.toCall) :
    (c.scope s).Recounts ((c.scope s).resolved env stack) := by
  have nothing : (env.resolve s.toCall stack (c.scope s).visited.alreadyInlined).candidates.foldl
      (·.take env.program (c.scope s).visited.ruledOut) (c.scope s).visited = (c.scope s).visited :=
    SiteScope.takeAll_of_had fun _ hb => Region.had_of_exhausted sound retired hs exhausted stands hb
  have resolved : (c.scope s).resolved env stack = (c.scope s).visited.conclude
      (env.resolve s.toCall stack (c.scope s).visited.alreadyInlined).failureReason :=
    congrArg (SiteScope.conclude · _) nothing
  rw [resolved]
  exact SiteScope.recounts_conclude ..

/-- Revisiting an exhausted site inside some bodies repeats nothing. -/
theorem ensures_revisit_exhausted {root : MethodId} {chain : List TargetId} {methods : List MethodId}
    (sound : c.region.forest.Sound env.config.maxDepth) (retired : c.region.Retired)
    (hs : c.region.sites.get? id = some s) (frames : c.region.forest.Frames root chain id methods)
    (exhausted : c.region.forest.Exhausted env c.previouslyInlined methods id s.toCall) :
    Ensures (revisit env id) c (fun answer c' => answer = !s.live.isEmpty ∧ c.Revisits id c')
      fun _ _ => False := by
  have enclosed := frames.encloses
  refine ensures_revisit_within sound frames hs ((Region.enclosing?_eq_some_iff sound hs).2
    (by rwa [List.reverse_reverse])) fun stack stands => ?_
  refine .bind ((ensures_resolveStroke stack sound hs (enclosed.undeleted sound)).imp_fail ?_) ?_
  · rintro e _ ⟨verify, refused, -⟩
    cases refused.symm.trans (exhausted.checked verify)
  · rintro - c₁ ⟨-, hc₁⟩
    have revisits : c.Revisits id c₁ :=
      hc₁ ▸ (resolve_of_exhausted sound retired hs stands exhausted).revisits hs
    have live : c₁.region.forest.live id = s.live := by rw [revisits.forest, Region.forest_live hs]
    rw [ensures_bind, ensures_site]
    refine ⟨fun s₁ hs₁ => ?_, fun gone => ?_⟩
    · rw [Region.forest_live hs₁] at live
      have added : s₁.live.filter (!s.live.contains ·) = [] := by
        rw [live]
        simp
      rw [added]
      refine .bind (show Ensures _ c₁ (fun _ c' => c' = c₁) _ from rfl) ?_
      rintro - _ rfl
      rw [ensures_bind, ensures_site]
      refine ⟨fun s₂ hs₂ => ?_, fun gone => ?_⟩
      · obtain rfl := Option.some.inj (hs₁.symm.trans hs₂)
        exact ⟨by rw [live], revisits⟩
      · simp [hs₁] at gone
    · have := Region.forest_call hs
      rw [← revisits.forest] at this
      simp [Region.forest, gone] at this

end Exploration

/-- The sites that an exploration finds in the body of the compiled method are exhausted. -/
theorem Compilation.Exhaustive.adopt {c₁ : Compilation} {method : MethodId} {found : List SiteId}
    (h : c.Exhaustive env) (sound : c.region.forest.Sound env.config.maxDepth)
    (roots : ∀ i ∈ c.roots, ∃ k, c.region.forest.call? i = some k)
    (grown : Grown env.config.maxDepth ∅ ∅ c c₁) (steps : Steps env c c₁)
    (complete : ∀ i ∈ found, (∃ k, c₁.region.forest.call? i = some k ∧ k.caller = method) ∧
      c₁.region.forest.Complete env c.previouslyInlined [method] i)
    (compiled : List MethodId)
    (accounts : c₁.region.forest.Accounts env.program env.config.maxCallSize (c₁.roots ++ found)
      c₁.totalSize [] [] []) :
    Exhaustive env { c₁ with roots := c₁.roots ++ found, compiled } := by
  intro i k hk top
  dsimp only at hk ⊢
  rw [steps.previouslyInlined]
  cases old : c.region.forest.call? i with
  | some k₀ =>
    obtain rfl := Option.some.inj ((grown.keeps.call old).symm.trans hk)
    exact grown.keeps.complete sound (List.Subset.refl _) (h i k₀ old top)
  | none =>
    -- a new site that lies in no body is one of those that were found
    rcases accounts.held i (by simp [hk]) with root | ⟨t, owner⟩
    · rw [List.append_nil, steps.fixed.2.1] at root
      rcases List.mem_append.1 root with before | new
      · obtain ⟨k₀, hk₀⟩ := roots i before
        cases old.symm.trans hk₀
      · obtain ⟨⟨k₁, hk₁, rfl⟩, done⟩ := complete i new
        obtain rfl := Option.some.inj (hk₁.symm.trans hk)
        exact done
    · have nested := Forest.Accounts.not_isTop_of_owns grown.sound owner
      simp [Forest.isTop, hk, top] at nested

theorem Steady.completes (h : Steady env earlier c) : Completes env.program env.config earlier c := by
  induction h with
  | start => exact .start
  | step request _ run ih => exact ih.step env.advice request run

/-- Revisiting a site where all that is attached is exhausted. -/
theorem Completes.revisits (h : Completes env.program env.config earlier c)
    (exhaustive : c.Exhaustive env) (hs : c.region.sites.get? id = some s) :
    Ensures (revisit env id) c (fun answer c' => c.Revisits id c' ∧
      (answer = true ↔ s.live ≠ [] ∧ c.region.Attached c.roots id)) fun _ _ => False := by
  have sound : c.region.forest.Sound env.config.maxDepth := h.visits.sound
  have hk := Region.forest_call hs
  have attached := Region.attached_iff sound h.accounts (i := id) (by simp [hk])
  by_cases enclosed : ∃ chain, c.region.forest.Encloses chain id
  · obtain ⟨chain, encloses⟩ := enclosed
    obtain ⟨root, methods, frames⟩ := encloses.frames sound
    have ⟨exhausted, _⟩ := Forest.Complete.of_frames exhaustive frames
    obtain rfl := Option.some.inj (hk.symm.trans exhausted.call)
    refine (ensures_revisit_exhausted sound h.visits.retired hs frames exhausted).imp ?_
    rintro answer c' ⟨rfl, revisits⟩
    refine ⟨revisits, ?_⟩
    simp [attached.2 ⟨chain, encloses⟩]
  · have detached : c.region.enclosing? s = none := by
      rw [Option.eq_none_iff_forall_ne_some]
      intro chain hchain
      exact enclosed ⟨_, (Region.enclosing?_eq_some_iff sound hs).1 hchain⟩
    refine .of_ok (run_revisit_of_detached hs detached) ⟨.refl hs, ?_⟩
    simp [attached, enclosed]

/-- A request that succeeds leaves all that is attached exhausted. -/
theorem Completes.ensures_exhaustive (h : Completes env.program env.config earlier c)
    (exhaustive : c.Exhaustive env) (request : Request) :
    Ensures (perform env request) c
      (fun _ c' => c'.Accounts env.program env.config [] [] [] → c'.Exhaustive env)
      fun _ _ => True := by
  have sound : c.region.forest.Sound env.config.maxDepth := h.visits.sound
  cases request with
  | explore method =>
    by_cases missing : env.program.sizeOf? method = none
    · exact ensures_discard.2 (.of_error (run_explore_of_none missing) trivial)
    · refine .bind ((ensures_exploreStrokes sound missing).imp_fail fun _ _ _ => trivial) ?_
      rintro found _ ⟨c₁, grown, steps, complete, rfl⟩
      exact fun accounts => exhaustive.adopt sound
        (fun i hi => (h.accounts.root i hi).imp fun _ hk => hk.1) grown steps complete _ accounts
  | revisit id =>
    cases hs : c.region.sites.get? id with
    | none => exact ensures_discard.2 (.of_error (run_revisit_of_none hs) trivial)
    | some s =>
      refine .bind ((h.revisits exhaustive hs).imp_fail fun _ _ _ => trivial) ?_
      rintro answer c' ⟨revisits, -⟩ -
      refine exhaustive.of_forest revisits.forest ?_
      rw [revisits.previouslyInlined]
      exact List.Subset.refl _
  | markInlined t =>
    refine ensures_markInlined.2 ⟨fun x hx => ⟨fun s hs _ => ?_, fun _ => trivial⟩, fun _ => trivial⟩
    exact exhaustive.of_forest (c.forest_marked ..) (List.subset_append_left ..)
  | replay t folds =>
    refine ensures_discard.2 (ensures_replay.2 ⟨fun x hx _ => ?_, fun _ => trivial⟩)
    exact exhaustive.of_forest (c.forest_replayed ..) (List.Subset.refl _)
  | invalidate a => exact fun _ => exhaustive.of_forest rfl (List.Subset.refl _)

/-- In a session with one advice and without a failed request all that is attached is exhausted. -/
theorem Steady.exhaustive (h : Steady env earlier c) : c.Exhaustive env := by
  induction h with
  | start =>
    intro i k hk
    rw [Compilation.forest_start] at hk
    cases hk
  | step request before run ih =>
    exact (before.completes.ensures_exhaustive ih request).post_of_ok run
      (before.step request run).completes.accounts

/-- **Revisiting repeats nothing.** In every session with one advice and without a failed request, a
revisit of a site changes neither the sites nor the targets nor any size: it only counts the visit,
notes the reason again and records what it did. It answers whether the site has a live target and is
attached. -/
theorem revisit_repeats (h : Steady env earlier c) (hs : c.region.sites.get? id = some s) :
    ∃ answer c', (revisit env id).run c = (.ok answer, c') ∧ c.Revisits id c' ∧
      (answer = true ↔ s.live ≠ [] ∧ c.region.Attached c.roots id) := by
  have revisits := h.completes.revisits h.exhaustive hs
  rcases run : (revisit env id).run c with ⟨_ | answer, c'⟩
  · exact (revisits.fail_of_error run).elim
  · exact ⟨answer, c', rfl, revisits.post_of_ok run⟩

/-- Resolving the call of `draw` again while circles are drawn repeats nothing. -/
theorem revisit_repeats_draw :
    ∃ s c', circlesDrawn.region.sites.get? ⟨1⟩ = some s ∧
      (revisit ⟨shapes, .standard, drawing ⟨1⟩⟩ ⟨1⟩).run circlesDrawn = (.ok true, c') ∧
      circlesDrawn.Revisits ⟨1⟩ c' := by
  have steady : Steady ⟨shapes, .standard, drawing ⟨1⟩⟩ [] circlesDrawn :=
    .step (.explore ⟨0⟩) .start (run_of_ok (by decide +kernel))
  have there : (circlesDrawn.region.sites.get? ⟨1⟩).any fun _ => true := by decide +kernel
  obtain ⟨s, hs, -⟩ := (Option.any_eq_true ..).1 there
  obtain ⟨answer, c', run, revisits, -⟩ := revisit_repeats steady hs
  have yes : ((revisit ⟨shapes, .standard, drawing ⟨1⟩⟩ ⟨1⟩).run circlesDrawn).1 = .ok true := by
    decide +kernel
  rw [run] at yes
  obtain rfl : answer = true := Except.ok.inj yes
  exact ⟨s, c', hs, run, revisits⟩

end Inlining
