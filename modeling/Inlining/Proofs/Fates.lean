import Inlining.Proofs.Folds
import Inlining.Proofs.Provenance

/-!
# What a stroke does to a target

After any stroke, each target is either new, or as it was as far as its method, constants and reason
go, or it was just removed, or its folds were just recorded (`Effect.targetChange`). Whatever is said of
all targets by these three is checked against these four cases. Most strokes are `Quiet`: they find no
target and record nothing.
-/

namespace Inlining

/-- Nothing has become of a target since it was added. -/
structure CallTarget.IsNew (x : CallTarget) : Prop where
  constants : x.constants = []
  reason : x.failureReason = .inlineableTarget

theorem CallTarget.MadeFrom.isNew {x : CallTarget} {site : SiteId} {bs : List Candidate}
    (h : x.MadeFrom site bs) : x.IsNew :=
  ⟨h.constants, h.reason⟩

/-- `y` is `x`, as far as method, constants and reason go. -/
structure CallTarget.Agrees (x y : CallTarget) : Prop where
  method : y.method = x.method
  constants : y.constants = x.constants
  reason : y.failureReason = x.failureReason

theorem CallTarget.Agrees.refl (x : CallTarget) : x.Agrees x := ⟨rfl, rfl, rfl⟩

theorem CallTarget.Agrees.trans {x y z : CallTarget} (h : x.Agrees y) (h' : y.Agrees z) : x.Agrees z :=
  ⟨h'.method.trans h.method, h'.constants.trans h.constants, h'.reason.trans h.reason⟩

namespace Region

variable {r : Region} {t u : TargetId} {y : CallTarget}

theorem agrees_modify {a : Arena .target CallTarget} {f : CallTarget → CallTarget}
    (hy : (a.modify t f).get? u = some y) (same : ∀ x, a.get? t = some x → x.Agrees (f x)) :
    ∃ x, a.get? u = some x ∧ x.Agrees y := by
  obtain ⟨x, hx, rfl | ⟨rfl, rfl⟩⟩ := Arena.of_get?_modify hy
  · exact ⟨y, hx, .refl y⟩
  · exact ⟨x, hx, same x hx⟩

theorem agrees_settle {found : List SiteId} (hy : (r.settle t found).targets.get? u = some y) :
    ∃ x, r.targets.get? u = some x ∧ x.Agrees y := by
  simp only [settle, foldl_addFound] at hy
  obtain ⟨x₁, hx₁, agrees₁⟩ := agrees_modify hy fun _ _ => ⟨rfl, rfl, rfl⟩
  obtain ⟨x, hx, agrees⟩ := agrees_modify hx₁ fun _ _ => ⟨rfl, rfl, rfl⟩
  exact ⟨x, hx, agrees.trans agrees₁⟩

theorem agrees_grow {ts : List TargetId} {size : Size} (hy : (r.grow ts size).targets.get? u = some y) :
    ∃ x, r.targets.get? u = some x ∧ x.Agrees y := by
  induction ts generalizing r with
  | nil => exact ⟨y, hy, .refl y⟩
  | cons t ts ih =>
    obtain ⟨x₁, hx₁, agrees₁⟩ := ih (r := { r with targets := r.targets.modify t _ }) hy
    obtain ⟨x, hx, agrees⟩ := agrees_modify hx₁ fun _ _ => ⟨rfl, rfl, rfl⟩
    exact ⟨x, hx, agrees.trans agrees₁⟩

end Region

/-- A stroke that finds no target and takes none up. -/
inductive Quiet (env : Environment) (c : Compilation) : Compilation → Prop
  | enter (method : MethodId) (depth : Nat) :
    Quiet env c { c with journal := c.journal.record (.framePushed method depth) }
  | leave (method : MethodId) (depth : Nat) (committed : Bool) :
    Quiet env c { c with journal := c.journal.record (.framePopped method depth committed) }
  | settle (t : TargetId) (found : List SiteId) :
    Quiet env c { c with region := c.region.settle t found }
  | cut {reason : FailureReason} {c' : Compilation} :
    reason.isTerminal = true → Cut reason c c' → Quiet env c c'
  | spend (size : Size) : Quiet env c { c with totalSize := c.totalSize + size }
  | charge (chain : List TargetId) (size : Size) :
    Quiet env c { c with region := c.region.grow chain size, totalSize := c.totalSize + size }

theorem Quiet.effect {env : Environment} {c c' : Compilation} (h : Quiet env c c') : Effect env c c' := by
  cases h with
  | enter method depth => exact .enter method depth
  | leave method depth committed => exact .leave method depth committed
  | settle t found => exact .settle t found
  | cut terminal cut => exact .cut terminal cut
  | spend size => exact .spend size
  | charge chain size => exact .charge chain size

/-- How `t` came to be the target `y` by a stroke. -/
inductive TargetChange (env : Environment) (c c' : Compilation) (t : TargetId) (y : CallTarget) : Prop
  | new {i : SiteId} : y.IsNew → t ∈ c'.region.forest.live i → TargetChange env c c' t y
  | kept {x : CallTarget} : c.region.targets.get? t = some x → x.Agrees y → TargetChange env c c' t y
  | retired {x : CallTarget} {reason : FailureReason} {i : SiteId} :
    c.region.targets.get? t = some x → reason.isTerminal = true → y = x.retire reason →
    t ∈ c'.region.forest.removed i → TargetChange env c c' t y
  | folded {x : CallTarget} :
    c.region.targets.get? t = some x → (∀ i, t ∉ c.region.forest.removed i) →
    c' = { c with region := c.region.recordFolds t (env.program.foldsOf x.method) } →
    TargetChange env c c' t y

section Strokes

variable {env : Environment} {c c' : Compilation} {t : TargetId} {y : CallTarget} {id : SiteId}
  {s : CallSite}

/-- A target that is there after a site was resolved was there before, or it is new on the site. -/
theorem Compilation.isNew_resolve (hs : c.region.sites.get? id = some s) (stack : CallStack)
    (hy : (c.resolve env stack id s).region.targets.get? t = some y) :
    c.region.targets.get? t = some y ∨
      y.IsNew ∧ t ∈ (c.resolve env stack id s).region.forest.live id := by
  refine (SiteScope.made_of_resolved hy).imp_right fun ⟨live, made⟩ => ⟨made.isNew, ?_⟩
  exact ((Region.forest_put_site hs ((c.scope s).resolved env stack) id).2.1.trans (if_pos rfl)) ▸ live

/-- What a quiet stroke does to a target: nothing to speak of, or it is removed. -/
theorem Quiet.target (h : Quiet env c c') (hy : c'.region.targets.get? t = some y) :
    ∃ x, c.region.targets.get? t = some x ∧ (x.Agrees y ∨ ∃ (reason : FailureReason) (i : SiteId),
      reason.isTerminal = true ∧ y = x.retire reason ∧ t ∈ c'.region.forest.removed i) := by
  cases h with
  | enter | leave | spend => exact ⟨y, hy, .inl (.refl y)⟩
  | settle => exact (Region.agrees_settle hy).imp fun _ h => ⟨h.1, .inl h.2⟩
  | charge => exact (Region.agrees_grow hy).imp fun _ h => ⟨h.1, .inl h.2⟩
  | cut terminal cut =>
    rcases cut.cases with ⟨id, s, scope, ts, hs, drops, rfl⟩ | ⟨u, x, z, i, hx, hz, rfl⟩
    · change scope.targets.get? t = some y at hy
      rw [drops.target] at hy
      split at hy
      next dropped =>
        obtain ⟨x, hx, rfl⟩ := Option.map_eq_some_iff.1 hy
        refine ⟨x, hx, .inr ⟨_, id, terminal, rfl, ?_⟩⟩
        refine ((Region.forest_put_site hs scope id).2.2.trans (if_pos rfl)).symm ▸ ?_
        rw [drops.removed]
        exact List.mem_append_right _ dropped
      next => exact ⟨y, hy, .inl (.refl y)⟩
    · refine (Region.agrees_modify hy fun x' hx' => ?_).imp fun _ h => ⟨h.1, .inl h.2⟩
      obtain rfl := Option.some.inj (hx.symm.trans hx')
      unfold CallTarget.removeCallee at hz
      split at hz <;> cases hz
      exact ⟨rfl, rfl, rfl⟩

/-- After a stroke every target is new, as it was, removed, or one whose folds were recorded. -/
theorem Effect.targetChange (h : Effect env c c') (hy : c'.region.targets.get? t = some y) :
    TargetChange env c c' t y := by
  have quiet (h : Quiet env c c') : TargetChange env c c' t y := by
    obtain ⟨x, hx, agrees | ⟨reason, i, terminal, same, removed⟩⟩ := h.target hy
    · exact .kept hx agrees
    · exact .retired hx terminal same removed
  cases h with
  | enter method depth => exact quiet (.enter method depth)
  | leave method depth committed => exact quiet (.leave method depth committed)
  | settle u found => exact quiet (.settle u found)
  | cut terminal cut => exact quiet (.cut terminal cut)
  | spend size => exact quiet (.spend size)
  | charge chain size => exact quiet (.charge chain size)
  | @call k instruction stack hk =>
    rcases Compilation.isNew_resolve (c.get?_withSite (congrArg Call.id hk)) stack hy with old | ⟨new, live⟩
    · exact .kept old (.refl y)
    · exact .new new live
  | again hs =>
    rcases Compilation.isNew_resolve hs _ hy with old | ⟨new, live⟩
    · exact .kept old (.refl y)
    · exact .new new live
  | number =>
    obtain ⟨x, hx, agrees⟩ := Region.agrees_modify hy fun _ _ => ⟨rfl, rfl, rfl⟩
    exact .kept hx agrees
  | @folds u x hx there =>
    by_cases here : u = t
    · subst here
      exact .folded hx there rfl
    · rw [Region.get?_recordFolds_of_ne c.region here] at hy
      exact .kept hy (.refl y)

/-- A stroke that fails changes no target. -/
theorem Break.targets {e : Fault} (h : Break env c e c') : c'.region.targets = c.region.targets := by
  cases h <;> rfl

end Strokes

end Inlining
