import Inlining.Proofs.Bodies
import Inlining.Proofs.Effects
import Inlining.Proofs.Frames

/-!
# How calls and targets are opened

Exploring a call begins by making a site of it and resolving the site; exploring a target begins by
giving it a number and entering its body. Nothing of that depends on how far down the exploration goes
and on what it finds there. The equations say so: from the compilation at hand a call is as good as
the targets that it was resolved to (`run_exploreCall`), and a target as good as its body and what is
left to do afterwards (`run_exploreTarget`).
-/

namespace Inlining

/-- The first binding of a call is right as far as it is checked, or it is refused. -/
theorem Call.checked_or_refused (env : Environment) (k : Call) : k.Checked env ∨
    env.config.verifyInvariants = true ∧ ∃ e, k.checkInitialCallee env.program = .error e := by
  cases verify : env.config.verifyInvariants with
  | false => exact .inl fun h => by simp [verify] at h
  | true =>
    cases check : k.checkInitialCallee env.program with
    | ok => exact .inl fun _ => check
    | error e => exact .inr ⟨rfl, e, rfl⟩

namespace SiteScope

variable {s : SiteScope} {env : Environment} {stack : CallStack}

theorem findTargets_of_checked (checked : s.site.toCall.Checked env)
    (counts : (s.resolved env stack).site.checkTargetCounts = .ok ()) :
    s.findTargets env stack =
      (.ok (!(s.resolved env stack).site.live.isEmpty), s.resolved env stack) := by
  have first : (if env.config.verifyInvariants then s.visited.site.checkInitialCallee env.program
      else .ok ()) = .ok () := by
    split
    next verify => exact checked verify
    next => rfl
  have last : (if env.config.verifyInvariants then (s.resolved env stack).site.checkTargetCounts
      else .ok ()) = .ok () := by
    rw [counts, ite_self]
  simp only [visited] at first
  simp only [resolved, visited] at last
  simp only [findTargets, first, last, resolved, visited]

theorem findTargets_of_refused {e : Fault} (verify : env.config.verifyInvariants = true)
    (refused : s.site.checkInitialCallee env.program = .error e) :
    s.findTargets env stack = (.error e, s.visited) := by
  have first : s.visited.site.checkInitialCallee env.program = .error e := refused
  simp only [visited] at first
  simp only [findTargets, verify, if_true, first, visited]

end SiteScope

namespace Compilation

variable (c : Compilation)

/-- The compilation in which a call became a site and got its targets. -/
def opened (env : Environment) (stack : CallStack) (k : Call) : Compilation :=
  (c.withSite k).resolve env stack k.id (.ofCall k)

/-- The compilation in which a call became a site that could not be resolved. -/
def refused (k : Call) : Compilation := (c.withSite k).visit k.id (.ofCall k)

/-- The compilation in which a target got the next number. -/
def numbered (t : TargetId) : Compilation :=
  { c with
    region := { c.region with
      targets := c.region.targets.modify t fun x => { x with number := some c.nextNumber } }
    nextNumber := c.nextNumber + 1 }

/-- The compilation in which the body of a target is entered. -/
def entered (env : Environment) (t : TargetId) (method : MethodId) (depth : Nat) : Compilation :=
  { c.numbered t with
    region := (c.numbered t).region.recordFolds t (env.program.foldsOf method)
    journal := c.journal.record (.framePushed method depth) }

theorem forest_numbered (t : TargetId) : (c.numbered t).region.forest = c.region.forest :=
  Region.forest_modify_target fun _ => rfl

theorem forest_entered (env : Environment) (t : TargetId) (method : MethodId) (depth : Nat) :
    (c.entered env t method depth).region.forest = c.region.forest :=
  (Region.forest_recordFolds ..).trans (c.forest_numbered t)

variable {c}

/-- Entering the body of a target takes three strokes. -/
theorem steps_entered {env : Environment} {t : TargetId} {x : CallTarget}
    (hx : c.region.targets.get? t = some x) (kept : ∀ i, t ∉ c.region.forest.removed i) (depth : Nat) :
    Steps env c (c.entered env t x.method depth) := by
  have hx' : (c.numbered t).region.targets.get? t = some { x with number := some c.nextNumber } := by
    simp [numbered, Arena.get?_modify, hx]
  rw [← c.forest_numbered t] at kept
  have number : Effect env c (c.numbered t) := .number
  have folds : Effect env (c.numbered t) _ := .folds hx' kept
  exact (number.steps.trans folds.steps).trans (Effect.enter x.method depth).steps

end Compilation

namespace Exploration

variable {env : Environment} {c : Compilation} {id : SiteId} {t : TargetId} {k : Call}
  {stack : CallStack} {methods outer : List MethodId} {method : MethodId} {depth : Nat}

/-- Resolving a site takes the candidates for it, or fails. -/
theorem run_resolveSite {s : CallSite} (stack : CallStack)
    (sound : c.region.forest.Sound env.config.maxDepth) (hs : c.region.sites.get? id = some s)
    (undeleted : ∀ u, id ∉ c.region.forest.deleted u) :
    s.toCall.Checked env ∧ (resolveSite env stack id).run c =
      (.ok (!((c.resolve env stack id s).region.forest.live id).isEmpty), c.resolve env stack id s) ∨
    env.config.verifyInvariants = true ∧ ∃ e, s.checkInitialCallee env.program = .error e ∧
      (resolveSite env stack id).run c = (.error e, c.visit id s) := by
  have there : c.region.sites.get? id ≠ none := by simp [hs]
  have ⟨_, new, adds⟩ := adds_resolved stack c.journal sound hs undeleted
  have sound' : (c.resolve env stack id s).region.forest.Sound env.config.maxDepth := adds.sound
  have counts : ((c.scope s).resolved env stack).site.checkTargetCounts = .ok () :=
    checkTargetCounts_eq_ok sound' ((Region.get?_put_site there id).trans (if_pos rfl))
  have live : (c.resolve env stack id s).region.forest.live id =
      ((c.scope s).resolved env stack).site.live := Region.forest_put_live there
  refine (s.toCall.checked_or_refused env).imp (fun checked => ⟨checked, Ensures.run_ok ?_⟩) ?_
  · refine ensures_onSite.2 ⟨fun s' hs' => ?_, fun gone => there gone⟩
    obtain rfl := Option.some.inj (hs.symm.trans hs')
    rw [SiteScope.findTargets_of_checked checked counts, live]
    refine ⟨fun found hfound => ?_, nofun⟩
    cases hfound
    exact ⟨rfl, rfl⟩
  · rintro ⟨verify, e, refused⟩
    refine ⟨verify, e, refused, Ensures.run_error ?_⟩
    refine ensures_onSite.2 ⟨fun s' hs' => ?_, fun gone => absurd gone there⟩
    obtain rfl := Option.some.inj (hs.symm.trans hs')
    rw [SiteScope.findTargets_of_refused verify refused]
    refine ⟨nofun, fun e' he => ?_⟩
    cases he
    exact ⟨rfl, rfl⟩

/-- Resolving a site is one stroke, and so is a resolution that fails. -/
theorem ensures_resolveStroke {s : CallSite} (stack : CallStack)
    (sound : c.region.forest.Sound env.config.maxDepth) (hs : c.region.sites.get? id = some s)
    (undeleted : ∀ u, id ∉ c.region.forest.deleted u) :
    Ensures (resolveSite env stack id) c
      (fun _ c' => s.toCall.Checked env ∧ c' = c.resolve env stack id s)
      fun e c' => env.config.verifyInvariants = true ∧
        s.checkInitialCallee env.program = .error e ∧ c' = c.visit id s := by
  rcases run_resolveSite stack sound hs undeleted with ⟨checked, run⟩ | ⟨verify, e, refused, run⟩
  · exact .of_ok run ⟨checked, rfl⟩
  · exact .of_error run ⟨verify, refused, rfl⟩

/-- A call that was opened is a new site with new targets. -/
theorem opened_opened (sound : c.region.forest.Sound env.config.maxDepth)
    (hk : k.id = c.region.sites.next) (stack : CallStack) :
    Opened env k.id k ((c.opened env stack k).region.forest.live k.id) c (c.opened env stack k) := by
  have sound₁ : (c.withSite k).region.forest.Sound env.config.maxDepth := Region.sound_addSite sound hk
  have undeleted (u : TargetId) : k.id ∉ (c.withSite k).region.forest.deleted u := fun hu =>
    Region.not_owns_addSite sound k u (hk ▸ List.mem_append_right _ hu)
  obtain ⟨-, new, adds⟩ := adds_resolved stack c.journal sound₁ (c.get?_withSite hk) undeleted
  have opened : Opened env k.id k new c (c.opened env stack k) :=
    .of_adds sound hk.symm adds rfl rfl rfl
  rwa [opened.live]

/-- A call that was refused is a new site without targets. -/
theorem opened_refused (sound : c.region.forest.Sound env.config.maxDepth)
    (hk : k.id = c.region.sites.next) : Opened env k.id k [] c (c.refused k) := by
  have sound₁ : (c.withSite k).region.forest.Sound env.config.maxDepth := Region.sound_addSite sound hk
  have undeleted (u : TargetId) : k.id ∉ (c.withSite k).region.forest.deleted u := fun hu =>
    Region.not_owns_addSite sound k u (hk ▸ List.mem_append_right _ hu)
  obtain ⟨adds, -⟩ := adds_resolved {  maxCallSize := 0 } c.journal sound₁ (c.get?_withSite hk) undeleted
  exact .of_adds sound hk.symm adds rfl rfl rfl

/-- Exploring a call: its site is resolved and its targets are explored, or its first binding is
refused. -/
theorem run_exploreCall (stands : stack.Stands (method :: outer) c.previouslyInlined)
    (sound : c.region.forest.Sound env.config.maxDepth) {call : CallInstruction}
    (hk : k = .ofInstruction c.region.sites.next method depth call) :
    (k.Checked env ∧ ∃ stack', stack'.Stands (method :: outer) c.previouslyInlined ∧
      ∀ inner, (exploreCall env inner stack method depth call).run c =
        (do
          ((c.opened env stack' k).region.forest.live k.id).forM (inner stack' k.id)
          return k.id).run (c.opened env stack' k)) ∨
    env.config.verifyInvariants = true ∧ ∃ e, k.checkInitialCallee env.program = .error e ∧
      ∀ inner, (exploreCall env inner stack method depth call).run c = (.error e, c.refused k) := by
  obtain ⟨stack₁, moved, stands₁⟩ := stands.moveTo env.program call.block
  obtain ⟨stack', set, stands'⟩ := stands₁.atNode call.location.callNode
  have kid : k.id = c.region.sites.next := by rw [hk]; rfl
  have sound₁ : (c.withSite k).region.forest.Sound env.config.maxDepth := Region.sound_addSite sound kid
  have undeleted (u : TargetId) : k.id ∉ (c.withSite k).region.forest.deleted u := fun hu =>
    Region.not_owns_addSite sound k u (kid ▸ List.mem_append_right _ hu)
  have opens (inner : CallStack → SiteId → TargetId → Exploration Unit) :
      (exploreCall env inner stack method depth call).run c = (do
        if ← resolveSite env stack' k.id then
          (← site k.id).live.forM (inner stack' k.id)
        return k.id).run (c.withSite k) := by
    rw [exploreCall, moved, hk]
    change (ofExcept (stack₁.atNode _) >>= _).run _ = _
    rw [set]
    rfl
  refine (run_resolveSite stack' sound₁ (c.get?_withSite kid) undeleted).imp ?_ ?_
  · rintro ⟨checked, run⟩
    refine ⟨checked, stack', stands', fun inner => ?_⟩
    rw [opens, run_bind_of_ok run]
    obtain ⟨s, hs, -⟩ := Region.site_of_call (opened_opened sound kid stack').call
    have live : (c.opened env stack' k).region.forest.live k.id = s.live := Region.forest_live hs
    change (if (!((c.opened env stack' k).region.forest.live k.id).isEmpty) = true then _ else _ :
      Exploration SiteId).run (c.opened env stack' k) = _
    rw [live]
    cases empty : s.live with
    | nil => rfl
    | cons t ts =>
      change (site k.id >>= _).run _ = _
      rw [run_bind_of_ok (run_site hs), empty]
  · rintro ⟨verify, e, refused, run⟩
    refine ⟨verify, e, refused, fun inner => ?_⟩
    rw [opens, run_bind_of_error run]
    rfl

section Target

variable {x : CallTarget} (hk : c.region.forest.call? id = some k)
  (hx : c.region.targets.get? t = some x)
include hk hx

/-- Exploring a target of a method that may not be inlined removes it. -/
theorem run_exploreTarget_uninlinable (uninlinable : env.program.isInlinable x.method = false)
    (stack : CallStack) (levels : Nat) :
    (exploreTarget env (levels + 1) stack id t).run c =
      (removeTarget env id t .uninlineable).run (c.numbered t) := by
  obtain ⟨s, hs, -⟩ := Region.site_of_call hk
  have hx' : (c.numbered t).region.targets.get? t = some { x with number := some c.nextNumber } := by
    simp [Compilation.numbered, Arena.get?_modify, hx]
  rw [exploreTarget, run_bind_of_ok (run_site hs)]
  change (target t >>= _).run (c.numbered t) = _
  rw [run_bind_of_ok (run_target hx')]
  simp only [uninlinable]
  rfl

/-- Exploring a target of any other method explores its body, one level deeper. -/
theorem run_exploreTarget (inlinable : env.program.isInlinable x.method = true)
    (stands : stack.Stands methods c.previouslyInlined) (height : methods.length = k.depth + 1) :
    ∃ inner, inner.Stands (x.method :: methods) c.previouslyInlined ∧
      inner.At x.method (k.depth + 1) ∧ ∀ levels, (exploreTarget env (levels + 1) stack id t).run c =
        (do
          let found ← exploreBody env (exploreTarget env levels) inner x.method (k.depth + 1)
          finish env inner id t (k.depth + 1) found).run (c.entered env t x.method (k.depth + 1)) := by
  obtain ⟨s, hs, rfl⟩ := Region.site_of_call hk
  have hx' : (c.numbered t).region.targets.get? t = some { x with number := some c.nextNumber } := by
    simp [Compilation.numbered, Arena.get?_modify, hx]
  obtain ⟨inner, push, stands'⟩ := stands.push x.symbol x.method
  rw [height] at push
  refine ⟨inner, stands', CallStack.at_push push, fun levels => ?_⟩
  rw [exploreTarget, run_bind_of_ok (run_site hs)]
  change (target t >>= _).run (c.numbered t) = _
  rw [run_bind_of_ok (run_target hx')]
  simp only [inlinable, Bool.not_true, Bool.false_eq_true, if_false]
  change (enter stack x.symbol x.method (s.depth + 1) >>= _).run _ = _
  rw [run_bind_of_ok (run_enter push)]
  rfl

end Target

end Exploration

end Inlining
