import Inlining.Proofs.Cuts
import Inlining.Proofs.Growth

/-!
# What exploring does, stroke by stroke

`Effect` lists the strokes of which explorations and revisits are made: bodies are entered and
left, a call becomes a site and is resolved, a site is resolved again, a target gets its number,
its folds and the sites in its body, something is given up, a size is charged. `Steps` is any
sequence of strokes. A failure is one more stroke at the end of a sequence, `Break`: the first
binding of a call contradicts how the call is resolved.

What every stroke maintains holds wherever an exploration ends. Removed targets stay removed in
the order of removal (`Steps.removed`) and carry neither constants nor a neutral reason
(`Retired`); every site stems from an instruction of its caller and lies above the depth limit or
right below it (`Sourced`).
-/

namespace Inlining

namespace Compilation

variable (c : Compilation)

/-- The compilation with a new site for a call. -/
def withSite (k : Call) : Compilation :=
  { c with region := { c.region with sites := c.region.sites.alloc (.ofCall k) } }

/-- The compilation in which the candidates for a site were taken. -/
def resolve (env : Environment) (stack : CallStack) (id : SiteId) (s : CallSite) : Compilation :=
  c.update id ((c.scope s).resolved env stack)

/-- The compilation in which only the visit of a site was counted. -/
def visit (id : SiteId) (s : CallSite) : Compilation := c.update id (c.scope s).visited

end Compilation

/-- The first binding of a call is checked if invariants are. -/
def Call.Checked (env : Environment) (k : Call) : Prop :=
  env.config.verifyInvariants = true → k.checkInitialCallee env.program = .ok ()

/-- A stroke of an exploration. -/
inductive Effect (env : Environment) (c : Compilation) : Compilation → Prop
  | enter (method : MethodId) (depth : Nat) :
    Effect env c { c with journal := c.journal.record (.framePushed method depth) }
  | leave (method : MethodId) (depth : Nat) (committed : Bool) :
    Effect env c { c with journal := c.journal.record (.framePopped method depth committed) }
  | call {k : Call} {instruction : CallInstruction} {stack : CallStack} :
    k = .ofInstruction c.region.sites.next k.caller k.depth instruction →
    instruction ∈ env.program.instructionsOf k.caller → k.depth ≤ env.config.maxDepth →
    k.Checked env → stack.previouslyInlined = c.previouslyInlined →
    Effect env c ((c.withSite k).resolve env stack k.id (.ofCall k))
  | again {id : SiteId} {s : CallSite} {chain : List TargetId} {stack : CallStack} :
    c.region.sites.get? id = some s → c.region.enclosing? s = some chain →
    s.toCall.Checked env → stack.previouslyInlined = c.previouslyInlined →
    Effect env c (c.resolve env stack id s)
  | number {t : TargetId} :
    Effect env c
      { c with
        region := { c.region with
          targets := c.region.targets.modify t fun x => { x with number := some c.nextNumber } }
        nextNumber := c.nextNumber + 1 }
  | folds {t : TargetId} {x : CallTarget} :
    c.region.targets.get? t = some x → (∀ i, t ∉ c.region.forest.removed i) →
    Effect env c { c with region := c.region.recordFolds t (env.program.foldsOf x.method) }
  | settle (t : TargetId) (found : List SiteId) :
    Effect env c { c with region := c.region.settle t found }
  | cut {reason : FailureReason} {c' : Compilation} :
    reason.isTerminal = true → Cut reason c c' → Effect env c c'
  | spend (size : Size) : Effect env c { c with totalSize := c.totalSize + size }
  | charge (chain : List TargetId) (size : Size) :
    Effect env c { c with region := c.region.grow chain size, totalSize := c.totalSize + size }

/-- Strokes one after the other. -/
def Steps (env : Environment) : Compilation → Compilation → Prop :=
  Relation.ReflTransGen (Effect env)

/-- The stroke with which an exploration fails: the first binding of a call, or of a site that is
resolved again, is refused. -/
inductive Break (env : Environment) (c : Compilation) : Fault → Compilation → Prop
  | call {k : Call} {instruction : CallInstruction} {e : Fault} :
    k = .ofInstruction c.region.sites.next k.caller k.depth instruction →
    instruction ∈ env.program.instructionsOf k.caller → k.depth ≤ env.config.maxDepth →
    env.config.verifyInvariants = true → k.checkInitialCallee env.program = .error e →
    Break env c e ((c.withSite k).visit k.id (.ofCall k))
  | again {id : SiteId} {s : CallSite} {e : Fault} :
    c.region.sites.get? id = some s → env.config.verifyInvariants = true →
    s.checkInitialCallee env.program = .error e → Break env c e (c.visit id s)

/-- Strokes up to a failure. -/
def Fails (env : Environment) (c : Compilation) (e : Fault) (c' : Compilation) : Prop :=
  ∃ c₁, Steps env c c₁ ∧ Break env c₁ e c'

section Sequences

variable {env : Environment} {c c' c'' : Compilation} {e : Fault}

theorem Effect.steps (h : Effect env c c') : Steps env c c' := .single h

theorem Steps.trans (h : Steps env c c') (h' : Steps env c' c'') : Steps env c c'' :=
  Relation.ReflTransGen.trans h h'

theorem Steps.fails (h : Steps env c c') (h' : Fails env c' e c'') : Fails env c e c'' :=
  h'.imp fun _ h' => ⟨h.trans h'.1, h'.2⟩

theorem Break.fails (h : Break env c e c') : Fails env c e c' := ⟨c, .refl, h⟩

/-- What every stroke maintains is maintained by a sequence of them. -/
theorem Steps.invariant {P : Compilation → Prop} (stroke : ∀ {c c'}, P c → Effect env c c' → P c')
    (h : Steps env c c') (hc : P c) : P c' := by
  induction h with
  | refl => exact hc
  | tail _ effect ih => exact stroke ih effect

end Sequences

/-- `s'` is `s` with targets added. -/
structure SiteScope.Extends (s s' : SiteScope) : Prop where
  call : s'.site.toCall = s.site.toCall
  live : s.site.live <+: s'.site.live
  added : ∀ t ∈ s'.site.live, t ∈ s.site.live ∨ s'.targets.get? t ≠ none
  removed : s'.site.removed = s.site.removed
  target : ∀ {t x}, s.targets.get? t = some x → s'.targets.get? t = some x

namespace SiteScope

variable {s s' s'' : SiteScope}

theorem Extends.there (h : s.Extends s') {t : TargetId} (ht : s.targets.get? t ≠ none) :
    s'.targets.get? t ≠ none := by
  obtain ⟨x, hx⟩ := Option.ne_none_iff_exists'.1 ht
  simp [h.target hx]

theorem Extends.refl (s : SiteScope) : s.Extends s :=
  ⟨rfl, List.prefix_rfl, fun _ => .inl, rfl, id⟩

theorem Extends.trans (h : s.Extends s') (h' : s'.Extends s'') : s.Extends s'' where
  call := h'.call.trans h.call
  live := h.live.trans h'.live
  added t ht := (h'.added t ht).elim (fun ht => (h.added t ht).imp_right h'.there) .inr
  removed := h'.removed.trans h.removed
  target hx := h'.target (h.target hx)

theorem method_targetOf (s : SiteScope) (p : Program) (b : Candidate) :
    (s.targetOf p b).method = b.method := by
  unfold targetOf
  cases p.sizeOf? b.method <;> rfl

theorem extends_take (s : SiteScope) (p : Program) (ruledOut : List MethodId) (k : Candidate) :
    s.Extends (s.take p ruledOut k) := by
  unfold take
  split
  · exact .refl s
  · refine ⟨rfl, List.prefix_append .., fun t ht => ?_, rfl, fun {t x} hx => ?_⟩
    · rcases List.mem_append.1 ht with ht | ht
      · exact .inl ht
      · right
        simp [add, Arena.get?_alloc, List.mem_singleton.1 ht]
    · have old : t ≠ s.targets.next := by
        rintro rfl
        simp [s.targets.get?_next] at hx
      simpa [add, Arena.get?_alloc, old] using hx

theorem extends_takeAll (s : SiteScope) (p : Program) (ruledOut : List MethodId)
    (ks : List Candidate) : s.Extends (ks.foldl (·.take p ruledOut) s) := by
  induction ks generalizing s with
  | nil => exact .refl s
  | cons k ks ih => exact (s.extends_take p ruledOut k).trans (ih _)

theorem extends_conclude (s : SiteScope) (reason : FailureReason) : s.Extends (s.conclude reason) := by
  obtain ⟨site, targets⟩ := s.conclude_same reason
  simp only [CallSite.node, Prod.mk.injEq] at site
  exact ⟨site.1, site.2.1 ▸ List.prefix_rfl, fun t ht => .inl (site.2.1 ▸ ht), site.2.2.1,
    fun hx => by rwa [targets]⟩

theorem extends_visited (s : SiteScope) : s.Extends s.visited :=
  ⟨rfl, List.prefix_rfl, fun _ => .inl, rfl, id⟩

/-- Resolving a site only adds targets. -/
theorem extends_resolved (s : SiteScope) (env : Environment) (stack : CallStack) :
    s.Extends (s.resolved env stack) :=
  s.extends_visited.trans ((s.visited.extends_takeAll ..).trans (extends_conclude ..))

end SiteScope

namespace Region

variable {r : Region} {id : SiteId} {s : CallSite} {scope : SiteScope} {i : SiteId} {t : TargetId}

theorem forest_put_site (hs : r.sites.get? id = some s) (scope : SiteScope) (i : SiteId) :
    (r.put id scope).forest.call? i =
        (if id = i then some scope.site.toCall else r.forest.call? i) ∧
      (r.put id scope).forest.live i = (if id = i then scope.site.live else r.forest.live i) ∧
      (r.put id scope).forest.removed i =
        (if id = i then scope.site.removed else r.forest.removed i) := by
  have there : r.sites.get? id ≠ none := by simp [hs]
  simp only [forest, liveTargets, get?_put_site there]
  split <;> simp

theorem call_put (hs : r.sites.get? id = some s) (same : scope.site.toCall = s.toCall) :
    (r.put id scope).forest.call? = r.forest.call? := by
  funext i
  rw [(forest_put_site hs scope i).1]
  split
  next e => rw [← e, forest_call hs, same]
  next => rfl

theorem removed_put (hs : r.sites.get? id = some s) (longer : s.removed <+: scope.site.removed)
    (i : SiteId) : r.forest.removed i <+: (r.put id scope).forest.removed i := by
  rw [(forest_put_site hs scope i).2.2]
  split
  next e =>
    rw [← e, forest_removed hs]
    exact longer
  next => exact List.prefix_rfl

/-- Targets on sites are there, and removed ones are left without constants and with a reason that
rules their methods out. -/
structure Retired (r : Region) : Prop where
  there : ∀ {i t}, t ∈ r.forest.live i ∨ t ∈ r.forest.removed i → r.targets.get? t ≠ none
  bare : ∀ {i t x}, t ∈ r.forest.removed i → r.targets.get? t = some x →
    x.constants = [] ∧ x.failureReason.isTerminal = true

theorem Retired.put_extends (h : r.Retired) (hs : r.sites.get? id = some s) {journal : Journal}
    (ext : (⟨s, r.targets, journal⟩ : SiteScope).Extends scope) : (r.put id scope).Retired := by
  have lists := forest_put_site hs scope
  have removed : ∀ i, (r.put id scope).forest.removed i = r.forest.removed i := by
    intro i
    rw [(lists i).2.2]
    split
    next e => rw [← e, ext.removed, forest_removed hs]
    next => rfl
  constructor
  · intro i t ht
    rw [removed, (lists i).2.1] at ht
    split at ht
    next e =>
      subst e
      rcases ht with ht | ht
      · rcases ext.added t ht with old | new
        · refine ext.there (h.there (i := id) (.inl ?_))
          rw [forest_live hs]
          exact old
        · exact new
      · exact ext.there (h.there (.inr ht))
    next => exact ext.there (h.there ht)
  · intro i t x ht hx
    rw [removed] at ht
    obtain ⟨y, hy⟩ := Option.ne_none_iff_exists'.1 (h.there (.inr ht))
    obtain rfl := Option.some.inj ((ext.target hy).symm.trans hx)
    exact h.bare ht hy

theorem Retired.put_drops (h : r.Retired) (hs : r.sites.get? id = some s) {journal : Journal}
    {reason : FailureReason} (terminal : reason.isTerminal = true) {ts : List TargetId}
    (drops : (⟨s, r.targets, journal⟩ : SiteScope).Drops reason scope ts) :
    (r.put id scope).Retired := by
  have lists := forest_put_site hs scope
  have there : ∀ {t}, r.targets.get? t ≠ none → (r.put id scope).targets.get? t ≠ none := by
    intro t ht
    change scope.targets.get? t ≠ none
    rw [drops.target]
    split <;> simpa using ht
  constructor
  · intro i t ht
    rw [(lists i).2.1, (lists i).2.2] at ht
    split at ht
    next e =>
      subst e
      apply there
      rcases ht with ht | ht
      · refine h.there (i := id) (.inl ?_)
        rw [forest_live hs]
        exact drops.live t ht
      · rw [drops.removed, List.mem_append] at ht
        refine h.there (i := id) ?_
        rw [forest_live hs, forest_removed hs]
        exact ht.symm.imp_left (drops.dropped t)
    next => exact there (h.there ht)
  · intro i t x ht hx
    change scope.targets.get? t = some x at hx
    rw [drops.target] at hx
    split at hx
    next =>
      obtain ⟨y, -, rfl⟩ := Option.map_eq_some_iff.1 hx
      exact ⟨rfl, terminal⟩
    next kept =>
      refine h.bare (i := i) ?_ hx
      rw [(lists i).2.2] at ht
      split at ht
      next e =>
        subst e
        rw [drops.removed, List.mem_append] at ht
        rw [forest_removed hs]
        exact ht.resolve_right kept
      next => exact ht

/-- Whatever happens to a target, nothing is recorded on one that was removed. -/
theorem Retired.modify (h : r.Retired) {f : CallTarget → CallTarget}
    (kept : ∀ i x, t ∈ r.forest.removed i → r.targets.get? t = some x →
      (f x).constants = x.constants ∧ (f x).failureReason = x.failureReason) :
    ({ r with targets := r.targets.modify t f } : Region).Retired where
  there ht := by
    have := h.there ht
    rw [Arena.get?_modify]
    split <;> simpa using this
  bare := by
    intro i u x hu hx
    rw [Arena.get?_modify] at hx
    split at hx
    next e =>
      subst e
      obtain ⟨y, hy, rfl⟩ := Option.map_eq_some_iff.1 hx
      obtain ⟨constants, reason⟩ := kept i y hu hy
      rw [constants, reason]
      exact h.bare hu hy
    next => exact h.bare hu hx

theorem Retired.recordFolds (h : r.Retired) (ht : ∀ i, t ∉ r.forest.removed i)
    (folds : List SpeculativeFold) : (r.recordFolds t folds).Retired := by
  induction folds generalizing r with
  | nil => exact h
  | cons fold folds ih =>
    have one : (r.recordFold t fold).Retired :=
      { h.modify (f := (·.addConstant fold.index _)) fun i _ hi => absurd hi (ht i) with }
    exact ih one ht

theorem Retired.settle (h : r.Retired) (t : TargetId) (found : List SiteId) :
    (r.settle t found).Retired := by
  have sited : (found.foldl (fun r i => r.addFound t i) r).Retired := by
    induction found generalizing r with
    | nil => exact h
    | cons i found ih => exact ih (h.modify fun _ _ _ _ => by split <;> exact ⟨rfl, rfl⟩)
  dsimp only [Region.settle]
  refine sited.modify ?_
  exact fun _ _ _ _ => ⟨rfl, rfl⟩

theorem Retired.grow (h : r.Retired) (ts : List TargetId) (size : Size) : (r.grow ts size).Retired := by
  induction ts generalizing r with
  | nil => exact h
  | cons t ts ih =>
    exact ih (h.modify (t := t) (f := fun x => { x with fullSize := x.fullSize + size })
      fun _ _ _ _ => ⟨rfl, rfl⟩)

theorem Retired.addSite (h : r.Retired) (k : Call) :
    ({ r with sites := r.sites.alloc (.ofCall k) } : Region).Retired := by
  have forest := forest_addSite r k
  constructor
  · intro i t ht
    rw [forest] at ht
    exact h.there ht
  · intro i t x ht
    rw [forest] at ht
    exact h.bare ht

/-- The call of every site comes from an instruction of its caller, and lies above the depth limit
or right below it. -/
def Sourced (r : Region) (env : Environment) : Prop :=
  ∀ ⦃i k⦄, r.forest.call? i = some k → k.depth ≤ env.config.maxDepth ∧
    ∃ instruction ∈ env.program.instructionsOf k.caller,
      k = .ofInstruction i k.caller k.depth instruction

theorem sites_recordFolds (r : Region) (t : TargetId) (folds : List SpeculativeFold) :
    (r.recordFolds t folds).sites = r.sites := by
  induction folds generalizing r with
  | nil => rfl
  | cons fold folds ih => exact ih _

theorem sites_settle (r : Region) (t : TargetId) (found : List SiteId) :
    (r.settle t found).sites = r.sites := by
  simp [Region.settle, foldl_addFound]

end Region

/-- What a stroke does to the sites: nothing, or a call becomes one, or one of them gets other
targets. -/
inductive SiteChange (env : Environment) (c : Compilation) : Compilation → Prop
  | untouched {c' : Compilation} : c'.region.sites = c.region.sites → SiteChange env c c'
  | new {k : Call} {instruction : CallInstruction} {scope : SiteScope} :
    k = .ofInstruction c.region.sites.next k.caller k.depth instruction →
    instruction ∈ env.program.instructionsOf k.caller → k.depth ≤ env.config.maxDepth →
    ((c.withSite k).scope (.ofCall k)).Extends scope →
    SiteChange env c ((c.withSite k).update k.id scope)
  | more {id : SiteId} {s : CallSite} {scope : SiteScope} :
    c.region.sites.get? id = some s → (c.scope s).Extends scope →
    SiteChange env c (c.update id scope)
  | fewer {id : SiteId} {s : CallSite} {scope : SiteScope} {reason : FailureReason}
    {ts : List TargetId} :
    c.region.sites.get? id = some s → (c.scope s).Drops reason scope ts →
    SiteChange env c (c.update id scope)

section Changes

variable {env : Environment} {c c' : Compilation} {e : Fault}

theorem Effect.siteChange (h : Effect env c c') : SiteChange env c c' := by
  cases h with
  | enter | leave | number | spend | charge => exact .untouched rfl
  | folds => exact .untouched (Region.sites_recordFolds ..)
  | settle => exact .untouched (Region.sites_settle ..)
  | call hk instruction depth => exact .new hk instruction depth (SiteScope.extends_resolved ..)
  | again hs => exact .more hs (SiteScope.extends_resolved ..)
  | cut _ cut =>
    rcases cut.cases with ⟨id, s, scope, ts, hs, drops, rfl⟩ | ⟨t, x, y, i, hx, hy, rfl⟩
    · exact .fewer hs drops
    · exact .untouched rfl

theorem Break.siteChange (h : Break env c e c') : SiteChange env c c' := by
  cases h with
  | call hk instruction depth => exact .new hk instruction depth (SiteScope.extends_visited _)
  | again hs => exact .more hs (SiteScope.extends_visited _)

/-- The site of a new call. -/
theorem Compilation.get?_withSite {k : Call} (hk : k.id = c.region.sites.next) :
    (c.withSite k).region.sites.get? k.id = some (.ofCall k) := by
  simp [withSite, Arena.get?_alloc, hk]

/-- Removed targets stay removed, in the order of removal. -/
theorem SiteChange.removed (h : SiteChange env c c') (i : SiteId) :
    c.region.forest.removed i <+: c'.region.forest.removed i := by
  cases h with
  | untouched same => simp [Region.forest, same]
  | @new k _ scope hk _ _ ext =>
    have hs := c.get?_withSite (congrArg Call.id hk)
    have forest : (c.withSite k).region.forest = _ := Region.forest_addSite c.region k
    have kept := Region.removed_put hs (ext.removed ▸ List.prefix_rfl : _ <+: scope.site.removed) i
    rw [forest] at kept
    exact kept
  | more hs ext => exact Region.removed_put hs (ext.removed ▸ List.prefix_rfl) i
  | fewer hs drops => exact Region.removed_put hs (drops.removed ▸ List.prefix_append ..) i

/-- Every site that is new is one for an instruction of its caller. -/
theorem SiteChange.call (h : SiteChange env c c') {i : SiteId} {k : Call}
    (hk : c'.region.forest.call? i = some k) : c.region.forest.call? i = some k ∨
      k.depth ≤ env.config.maxDepth ∧ ∃ instruction ∈ env.program.instructionsOf k.caller,
        k = .ofInstruction i k.caller k.depth instruction := by
  cases h with
  | untouched same =>
    left
    simpa [Region.forest, same] using hk
  | @new k' instruction scope hk' instr depth ext =>
    have hs := c.get?_withSite (congrArg Call.id hk')
    have forest : (c.withSite k').region.forest = _ := Region.forest_addSite c.region k'
    change ((c.withSite k').region.put k'.id scope).forest.call? i = some k at hk
    rw [Region.call_put hs ext.call, forest] at hk
    simp only [Forest.addSite, Function.update_apply] at hk
    split at hk
    next e =>
      obtain rfl : k' = k := Option.some.inj hk
      rw [e]
      exact .inr ⟨depth, instruction, instr, hk'⟩
    next => exact .inl hk
  | @more id s scope hs ext =>
    change (c.region.put id scope).forest.call? i = some k at hk
    rw [Region.call_put hs ext.call] at hk
    exact .inl hk
  | @fewer id s scope _ _ hs drops =>
    change (c.region.put id scope).forest.call? i = some k at hk
    rw [Region.call_put hs drops.call] at hk
    exact .inl hk

/-- The call of a site never changes. -/
theorem SiteChange.call_kept (h : SiteChange env c c') {i : SiteId} {k : Call}
    (hk : c.region.forest.call? i = some k) : c'.region.forest.call? i = some k := by
  cases h with
  | untouched same => simpa [Region.forest, same] using hk
  | @new k' _ scope hk' _ _ ext =>
    have hs := c.get?_withSite (congrArg Call.id hk')
    have forest : (c.withSite k').region.forest = _ := Region.forest_addSite c.region k'
    have old : i ≠ c.region.sites.next := by
      rintro rfl
      rw [c.region.call_next] at hk
      cases hk
    change ((c.withSite k').region.put k'.id scope).forest.call? i = some k
    rw [Region.call_put hs ext.call, forest]
    simpa [Forest.addSite, old] using hk
  | @more id s scope hs ext => exact (congrFun (Region.call_put hs ext.call) i).trans hk
  | @fewer id s scope _ _ hs drops => exact (congrFun (Region.call_put hs drops.call) i).trans hk

theorem SiteChange.sourced (h : SiteChange env c c') (sourced : c.region.Sourced env) :
    c'.region.Sourced env :=
  fun _ _ hk => (h.call hk).elim (fun old => sourced old) id

theorem Steps.removed (h : Steps env c c') (i : SiteId) :
    c.region.forest.removed i <+: c'.region.forest.removed i :=
  h.invariant (P := fun c' => c.region.forest.removed i <+: c'.region.forest.removed i)
    (fun old effect => old.trans (effect.siteChange.removed i)) List.prefix_rfl

theorem Steps.sourced (h : Steps env c c') (sourced : c.region.Sourced env) :
    c'.region.Sourced env :=
  h.invariant (P := fun c => c.region.Sourced env) (fun h effect => effect.siteChange.sourced h) sourced

theorem Effect.retired (h : Effect env c c') (retired : c.region.Retired) : c'.region.Retired := by
  cases h with
  | enter | leave | spend => exact retired
  | @call k instruction stack hk =>
    have sited : (c.withSite k).region.Retired := retired.addSite k
    exact sited.put_extends (c.get?_withSite (congrArg Call.id hk)) (SiteScope.extends_resolved ..)
  | again hs => exact retired.put_extends hs (SiteScope.extends_resolved ..)
  | number => exact retired.modify fun _ _ _ _ => ⟨rfl, rfl⟩
  | folds _ ht => exact retired.recordFolds ht _
  | settle t found => exact retired.settle t found
  | cut terminal cut =>
    rcases cut.cases with ⟨id, s, scope, ts, hs, drops, rfl⟩ | ⟨t, x, y, i, hx, hy, rfl⟩
    · exact retired.put_drops hs terminal drops
    · refine retired.modify fun _ z _ hz => ?_
      obtain rfl := Option.some.inj (hx.symm.trans hz)
      unfold CallTarget.removeCallee at hy
      split at hy <;> cases hy
      exact ⟨rfl, rfl⟩
  | charge chain size => exact retired.grow chain size

theorem Break.retired (h : Break env c e c') (retired : c.region.Retired) : c'.region.Retired := by
  cases h with
  | @call k instruction _ hk =>
    have sited : (c.withSite k).region.Retired := retired.addSite k
    exact sited.put_extends (c.get?_withSite (congrArg Call.id hk)) (SiteScope.extends_visited _)
  | again hs => exact retired.put_extends hs (SiteScope.extends_visited _)

/-- What no stroke changes: what counts as inlined earlier, and what was compiled. -/
theorem Effect.fixed (h : Effect env c c') : c'.previouslyInlined = c.previouslyInlined ∧
    c'.roots = c.roots ∧ c'.compiled = c.compiled := by
  cases h with
  | cut _ cut => cases cut <;> exact ⟨rfl, rfl, rfl⟩
  | _ => exact ⟨rfl, rfl, rfl⟩

theorem Steps.fixed (h : Steps env c c') : c'.previouslyInlined = c.previouslyInlined ∧
    c'.roots = c.roots ∧ c'.compiled = c.compiled :=
  h.invariant (P := fun c' => c'.previouslyInlined = c.previouslyInlined ∧ c'.roots = c.roots ∧
      c'.compiled = c.compiled)
    (fun same effect => ⟨effect.fixed.1.trans same.1, effect.fixed.2.1.trans same.2.1,
      effect.fixed.2.2.trans same.2.2⟩) ⟨rfl, rfl, rfl⟩

theorem Fails.fixed (h : Fails env c e c') : c'.previouslyInlined = c.previouslyInlined ∧
    c'.roots = c.roots ∧ c'.compiled = c.compiled := by
  obtain ⟨c₁, steps, broke⟩ := h
  cases broke <;> exact steps.fixed

theorem Steps.previouslyInlined (h : Steps env c c') : c'.previouslyInlined = c.previouslyInlined :=
  h.fixed.1

end Changes

end Inlining
