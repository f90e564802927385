import Inlining.Proofs.Effects
import Inlining.Proofs.Frames

/-!
# Where targets come from

A resolution makes targets from the candidates for its site and changes no other
(`SiteScope.makes_resolved`), so a target is on a site because a candidate for the site was taken
(`Effect.origin`). Whatever the screening of candidates rules out (`Environment.screened`) is
therefore ruled out for targets: no other stroke creates one, and none changes what a target is
bound to.
-/

namespace Inlining

/-- What a candidate binds was not inlined earlier at its depth. -/
theorem Environment.screened {env : Environment} {k : Call} {stack : CallStack}
    {already : List MethodId} {b : Candidate} (hb : b ∈ (env.resolve k stack already).candidates) :
    ⟨b.method, k.depth + 1⟩ ∉ stack.previouslyInlined := by
  unfold resolve at hb
  split at hb
  next => cases hb
  next =>
    obtain ⟨⟨new, -⟩, -⟩ := rejection?_eq_none.1 (Option.isNone_iff_eq_none.1 (List.mem_filter.1 hb).2)
    exact new

/-- What a target is when it is made on a site from one of the candidates. -/
structure CallTarget.MadeFrom (x : CallTarget) (site : SiteId) (bs : List Candidate) : Prop where
  home : x.callSite = site
  candidate : ∃ b ∈ bs, b.method = x.method
  constants : x.constants = []
  reason : x.failureReason = .inlineableTarget
  number : x.number = none

/-- From `s` to `s'` the targets `new` were made from the candidates, and the others stayed as they were. -/
structure SiteScope.Makes (bs : List Candidate) (s s' : SiteScope) (new : List TargetId) : Prop where
  id : s'.site.id = s.site.id
  live : s'.site.live = s.site.live ++ new
  distinct : new.Nodup
  fresh : ∀ t ∈ new, s.targets.get? t = none
  kept : ∀ t ∉ new, s'.targets.get? t = s.targets.get? t
  made : ∀ t ∈ new, ∃ x, s'.targets.get? t = some x ∧ x.MadeFrom s.site.id bs

namespace SiteScope

variable {s s' s'' : SiteScope} {t : TargetId} {x : CallTarget} {bs : List Candidate} {new new' : List TargetId}

theorem Makes.of_same (id : s'.site.id = s.site.id) (live : s'.site.live = s.site.live)
    (targets : s'.targets = s.targets) : Makes bs s s' [] where
  id := id
  live := by rw [live, List.append_nil]
  distinct := List.nodup_nil
  fresh _ ht := absurd ht List.not_mem_nil
  kept t _ := by rw [targets]
  made _ ht := absurd ht List.not_mem_nil

theorem Makes.trans (h : Makes bs s s' new) (h' : Makes bs s' s'' new') : Makes bs s s'' (new ++ new') := by
  have apart (t : TargetId) (ht : t ∈ new) : t ∉ new' := by
    intro ht'
    obtain ⟨x, hx, -⟩ := h.made t ht
    rw [h'.fresh t ht'] at hx
    cases hx
  constructor
  · rw [h'.id, h.id]
  · rw [h'.live, h.live, List.append_assoc]
  · exact List.nodup_append'.2 ⟨h.distinct, h'.distinct, apart⟩
  · intro t ht
    by_cases first : t ∈ new
    · exact h.fresh t first
    · rw [← h.kept t first]
      exact h'.fresh t ((List.mem_append.1 ht).resolve_left first)
  · intro t ht
    rw [List.mem_append, not_or] at ht
    rw [h'.kept t ht.2, h.kept t ht.1]
  · intro t ht
    by_cases second : t ∈ new'
    · rw [← h.id]
      exact h'.made t second
    · rw [h'.kept t second]
      exact h.made t ((List.mem_append.1 ht).resolve_right second)

theorem targetOf_madeFrom (s : SiteScope) (p : Program) {b : Candidate} (hb : b ∈ bs) :
    ({ s.targetOf p b with callSite := s.site.id } : CallTarget).MadeFrom s.site.id bs := by
  refine ⟨rfl, ⟨b, hb, (s.method_targetOf p b).symm⟩, ?_, ?_, ?_⟩ <;> dsimp only <;> unfold targetOf <;>
    cases p.sizeOf? b.method <;> rfl

theorem makes_take (s : SiteScope) (p : Program) (ruledOut : List MethodId) {b : Candidate} (hb : b ∈ bs) :
    ∃ new, Makes bs s (s.take p ruledOut b) new := by
  unfold take
  split
  · exact ⟨[], .of_same rfl rfl rfl⟩
  · refine ⟨[s.targets.next], rfl, rfl, List.nodup_singleton _, ?_, fun t ht => ?_, fun t ht => ?_⟩
    · simpa using s.targets.get?_next
    · rw [List.mem_singleton] at ht
      simp [add, Arena.get?_alloc, ht]
    · rw [List.mem_singleton] at ht
      exact ⟨_, by simp [add, Arena.get?_alloc, ht], s.targetOf_madeFrom p hb⟩

theorem makes_takeAll (s : SiteScope) (p : Program) (ruledOut : List MethodId) {bs' : List Candidate}
    (sub : bs' ⊆ bs) : ∃ new, Makes bs s (bs'.foldl (·.take p ruledOut) s) new := by
  induction bs' generalizing s with
  | nil => exact ⟨[], .of_same rfl rfl rfl⟩
  | cons b bs' ih =>
    obtain ⟨first, one⟩ := s.makes_take p ruledOut (sub (List.mem_cons_self ..))
    obtain ⟨rest, others⟩ := ih (s.take p ruledOut b) (List.subset_of_cons_subset sub)
    exact ⟨first ++ rest, one.trans others⟩

/-- Resolving a site makes targets from the candidates for it. -/
theorem makes_resolved (s : SiteScope) (env : Environment) (stack : CallStack) :
    ∃ new, Makes (env.resolve s.site.toCall stack s.visited.alreadyInlined).candidates s
      (s.resolved env stack) new := by
  obtain ⟨new, taken⟩ := s.visited.makes_takeAll env.program s.visited.ruledOut
    (List.Subset.refl (env.resolve s.site.toCall stack s.visited.alreadyInlined).candidates)
  obtain ⟨site, targets⟩ := conclude_same (List.foldl (·.take env.program s.visited.ruledOut) s.visited
    (env.resolve s.site.toCall stack s.visited.alreadyInlined).candidates)
    (env.resolve s.site.toCall stack s.visited.alreadyInlined).failureReason
  simp only [CallSite.node, Prod.mk.injEq] at site
  have counted : Makes (env.resolve s.site.toCall stack s.visited.alreadyInlined).candidates s s.visited [] :=
    .of_same rfl rfl rfl
  exact ⟨[] ++ new ++ [], (counted.trans taken).trans (.of_same (congrArg Call.id site.1) site.2.1 targets)⟩

/-- A target that is there after a resolution was there before, or it is live and made from a candidate. -/
theorem made_of_resolved {env : Environment} {stack : CallStack}
    (hx : (s.resolved env stack).targets.get? t = some x) :
    s.targets.get? t = some x ∨
      t ∈ (s.resolved env stack).site.live ∧
        x.MadeFrom s.site.id (env.resolve s.site.toCall stack s.visited.alreadyInlined).candidates := by
  obtain ⟨new, makes⟩ := s.makes_resolved env stack
  by_cases ht : t ∈ new
  · obtain ⟨y, hy, made⟩ := makes.made t ht
    obtain rfl := Option.some.inj (hx.symm.trans hy)
    exact .inr ⟨makes.live ▸ List.mem_append_right _ ht, made⟩
  · exact .inl ((makes.kept t ht).symm.trans hx)

end SiteScope

namespace Region

variable {r : Region} {t : TargetId}

/-- What becomes of a target later does not change what it is. -/
theorem origin_modify {f : CallTarget → CallTarget} (same : ∀ x, r.targets.get? t = some x →
    (f x).callSite = x.callSite ∧ (f x).method = x.method ∧ (f x).size = x.size) :
    ({ r with targets := r.targets.modify t f } : Region).forest.origin? = r.forest.origin? := by
  funext u
  simp only [forest, Arena.get?_modify]
  split
  next e =>
    subst e
    cases hx : r.targets.get? t with
    | none => rfl
    | some x =>
      obtain ⟨site, method, size⟩ := same x hx
      simp [site, method, size]
  next => rfl

theorem origin_settle (r : Region) (t : TargetId) (found : List SiteId) :
    (r.settle t found).forest.origin? = r.forest.origin? := by
  funext u
  simp only [settle, foldl_addFound, forest, Arena.get?_modify]
  split
  · cases r.targets.get? u <;> rfl
  · rfl

theorem origin_grow (r : Region) (ts : List TargetId) (size : Size) :
    (r.grow ts size).forest.origin? = r.forest.origin? := by
  induction ts generalizing r with
  | nil => rfl
  | cons t ts ih =>
    exact (ih { r with targets := r.targets.modify t _ }).trans
      (origin_modify fun _ _ => ⟨rfl, rfl, rfl⟩)

theorem origin_put_drops {id : SiteId} {s : CallSite} {journal : Journal} {scope : SiteScope}
    {reason : FailureReason} {ts : List TargetId}
    (drops : (⟨s, r.targets, journal⟩ : SiteScope).Drops reason scope ts) :
    (r.put id scope).forest.origin? = r.forest.origin? := by
  funext u
  simp only [forest, put, drops.target]
  split
  · cases r.targets.get? u <;> rfl
  · rfl

end Region

/-- Something was taken as a target from the candidates for its site. -/
def Taken (env : Environment) (c c' : Compilation) (o : Origin) : Prop :=
  ∃ k stack already b, c'.region.forest.call? o.site = some k ∧
    stack.previouslyInlined = c.previouslyInlined ∧
    b ∈ (env.resolve k stack already).candidates ∧ b.method = o.method

section Strokes

variable {env : Environment} {c c' : Compilation} {id : SiteId} {s : CallSite} {t : TargetId}
  {o : Origin}

theorem Compilation.origin_resolve (hs : c.region.sites.get? id = some s) (hid : s.id = id)
    {stack : CallStack} (earlier : stack.previouslyInlined = c.previouslyInlined)
    (ho : (c.resolve env stack id s).region.forest.origin? t = some o) :
    c.region.forest.origin? t = some o ∨ Taken env c (c.resolve env stack id s) o := by
  obtain ⟨x, hx, rfl⟩ := Region.target_of_origin ho
  rcases SiteScope.made_of_resolved hx with old | ⟨-, made⟩
  · exact .inl (Region.forest_origin (r := c.region) old)
  · obtain ⟨b, hb, same⟩ := made.candidate
    refine .inr ⟨s.toCall, stack, _, b, ?_, earlier, hb, same⟩
    have ext := (c.scope s).extends_resolved env stack
    refine ((Region.forest_put_site hs ((c.scope s).resolved env stack) _).1.trans (if_pos ?_)).trans
      (congrArg some ext.call)
    exact (made.home.trans hid).symm

/-- A target was there before a stroke, or it was taken from the candidates for its site. -/
theorem Effect.origin (h : Effect env c c')
    (ids : ∀ {i k}, c.region.forest.call? i = some k → k.id = i)
    (ho : c'.region.forest.origin? t = some o) :
    c.region.forest.origin? t = some o ∨ Taken env c c' o := by
  cases h with
  | enter | leave | spend => exact .inl ho
  | @call k instruction stack hk _ _ _ earlier =>
    exact Compilation.origin_resolve (c := c.withSite k) (c.get?_withSite (congrArg Call.id hk)) rfl
      earlier ho
  | again hs _ _ earlier =>
    exact Compilation.origin_resolve hs (ids (Region.forest_call hs)) earlier ho
  | @number u =>
    left
    have same := Region.forest_modify_target (r := c.region) (t := u)
      (f := fun x => { x with number := some c.nextNumber }) fun _ => rfl
    exact (congrArg (·.origin? t) same).symm.trans ho
  | folds =>
    left
    rwa [Region.forest_recordFolds] at ho
  | settle =>
    left
    rwa [Region.origin_settle] at ho
  | cut _ cut =>
    left
    rcases cut.cases with ⟨id, s, scope, ts, -, drops, rfl⟩ | ⟨t, x, y, i, hx, hy, rfl⟩
    · change (c.region.put id scope).forest.origin? _ = _ at ho
      rwa [Region.origin_put_drops drops] at ho
    · rw [(Region.forest_dropCallee hx hy).2] at ho
      exact ho
  | charge =>
    left
    rwa [Region.origin_grow] at ho

/-- A stroke that fails creates no target. -/
theorem Break.origin {e : Fault} (h : Break env c e c') :
    c'.region.forest.origin? = c.region.forest.origin? := by
  cases h <;> rfl

end Strokes

end Inlining
