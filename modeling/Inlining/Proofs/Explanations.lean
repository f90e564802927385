import Inlining.Proofs.Decisions

/-!
# Why a call is left alone

A call that is bound to nothing has a reason for it. `Environment.Rejects` tells why the screening turns a
method down, and `Environment.LeavesAlone` tells the reason for the whole call, without the loop that finds
it: the depth of the call, else why the first binding that was proposed is not taken, else a guard that was
refused, else that no step knew a method. `resolution_explained` says that a resolution gives that reason
and no other, by whatever rule guards are refused. That an interface's method is unresolved is said of
dispatched calls alone, not of every call that names one (`interface_call_without_target`).
-/

namespace Inlining

namespace Environment

variable (env : Environment)

/-- Why the screening turns a method down for a frame at a depth: the first reason that applies. -/
inductive Rejects (stack : CallStack) (already : List MethodId) (depth : Nat) (m : MethodId) :
    FailureReason → Prop
  | alreadyInlined :
    m ∈ already ∨ ⟨m, depth⟩ ∈ stack.previouslyInlined → Rejects stack already depth m .alreadyInlined
  | recursive :
    m ∉ already → ⟨m, depth⟩ ∉ stack.previouslyInlined →
    env.config.maxRecursiveOccurrences ≤ stack.occurrences m → Rejects stack already depth m .recursive
  | exceedsCallSize {size : Size} :
    m ∉ already → ⟨m, depth⟩ ∉ stack.previouslyInlined →
    stack.occurrences m < env.config.maxRecursiveOccurrences →
    env.program.sizeOf? m = some size → env.config.maxCallSize < size →
    Rejects stack already depth m .exceedsCallSize

/-- Why a call is left without candidates. -/
inductive LeavesAlone (rule : GuardRule) (c : Call) (stack : CallStack) (already : List MethodId) :
    FailureReason → Prop
  | tooDeep :
    env.config.maxDepth ≤ c.depth → LeavesAlone rule c stack already .exceedsDepth
  | turnedDown {first : Candidate} {rest : List Candidate} {reason : FailureReason} :
    c.depth < env.config.maxDepth → rule.Proposes (c.steps env) (first :: rest) →
    env.Rejects stack already (c.depth + 1) first.method reason → LeavesAlone rule c stack already reason
  | refused {step : List Binding} {b : Binding} :
    c.depth < env.config.maxDepth → rule.Proposes (c.steps env) [] →
    step ∈ c.steps env → b ∈ step → rule b.strategy = none →
    LeavesAlone rule c stack already .guardNotConstructed
  | unresolved :
    c.depth < env.config.maxDepth → (∀ step ∈ c.steps env, step = []) →
    c.kind = .indirect → c.isInterface = true →
    LeavesAlone rule c stack already .unresolvedInterfaceMethod
  | unknown :
    c.depth < env.config.maxDepth → (∀ step ∈ c.steps env, step = []) →
    ¬ (c.kind = .indirect ∧ c.isInterface = true) → LeavesAlone rule c stack already .noTarget

variable {env} {rule : GuardRule} {c : Call} {stack : CallStack} {already : List MethodId} {depth : Nat}
  {m : MethodId} {reason : FailureReason}

theorem taken_iff :
    (already.contains m || stack.wasPreviouslyInlined m depth) = true ↔
      m ∈ already ∨ ⟨m, depth⟩ ∈ stack.previouslyInlined := by
  simp [CallStack.wasPreviouslyInlined]

theorem rejection?_eq_some_iff :
    env.rejection? stack already depth m = some reason ↔ env.Rejects stack already depth m reason := by
  unfold rejection?
  constructor
  · intro h
    split at h
    next taken =>
      cases h
      exact .alreadyInlined (taken_iff.1 taken)
    next fresh =>
      rw [taken_iff, not_or] at fresh
      split at h
      next often =>
        cases h
        exact .recursive fresh.1 fresh.2 often
      next shallow =>
        split at h
        next large =>
          cases h
          obtain ⟨size, hsize, exceeds⟩ := (Option.any_eq_true _ _).1 large
          exact .exceedsCallSize fresh.1 fresh.2 (Nat.not_le.1 shallow) hsize (of_decide_eq_true exceeds)
        next => cases h
  · intro h
    cases h with
    | alreadyInlined taken => rw [if_pos (taken_iff.2 taken)]
    | recursive new fresh often =>
      rw [if_neg (by rw [taken_iff]; exact not_or.2 ⟨new, fresh⟩), if_pos often]
    | exceedsCallSize new fresh shallow hsize exceeds =>
      rw [if_neg (by rw [taken_iff]; exact not_or.2 ⟨new, fresh⟩), if_neg (Nat.not_le.2 shallow), hsize]
      simp [exceeds]

/-- If the steps propose nothing, a guard was refused, or no step knew a method. -/
theorem failureReason_of_nothing_proposed (within : c.depth < env.config.maxDepth)
    (proposes : rule.Proposes (c.steps env) []) :
    (env.resolveBy rule c stack already).failureReason =
      if ∀ step ∈ c.steps env, step = [] then c.unboundReason else .guardNotConstructed := by
  have nothing : (rule.firstBound c.unboundReason (c.steps env)).1 = [] :=
    (GuardRule.proposes_firstBound _ _).unique proposes
  rw [resolveBy_of_within within, ← GuardRule.firstBound_reason nothing]
  simp [screening, nothing]

theorem proposes_nil_of_unbound (unbound : ∀ step ∈ c.steps env, step = []) :
    rule.Proposes (c.steps env) [] := by
  have proposes : rule.Proposes (c.steps env) _ := GuardRule.proposes_firstBound c.unboundReason _
  have nothing : (rule.firstBound c.unboundReason (c.steps env)).1 = [] := by
    apply proposes.eq_nil_iff.2
    intro step hstep b hb
    rw [unbound step hstep] at hb
    cases hb
  rwa [nothing] at proposes

theorem failureReason_of_leavesAlone (none : (env.resolveBy rule c stack already).candidates = [])
    (h : env.LeavesAlone rule c stack already reason) :
    (env.resolveBy rule c stack already).failureReason = reason := by
  cases h with
  | tooDeep deep => rw [resolveBy_of_deep deep]
  | @turnedDown first rest _ within proposes rejects =>
    have proposed : (rule.firstBound c.unboundReason (c.steps env)).1 = first :: rest :=
      (GuardRule.proposes_firstBound _ _).unique proposes
    rw [resolveBy_of_within within] at none ⊢
    unfold screening at none ⊢
    dsimp only at none ⊢
    rw [none, proposed, List.findSome?_cons, rejection?_eq_some_iff.2 rejects]
    rfl
  | refused within proposes hstep hb _ =>
    rw [failureReason_of_nothing_proposed within proposes, if_neg]
    intro unbound
    rw [unbound _ hstep] at hb
    cases hb
  | unresolved within unbound indirect interface =>
    rw [failureReason_of_nothing_proposed within (proposes_nil_of_unbound unbound), if_pos unbound]
    exact if_pos ⟨indirect, interface⟩
  | unknown within unbound other =>
    rw [failureReason_of_nothing_proposed within (proposes_nil_of_unbound unbound), if_pos unbound]
    exact if_neg other

/-- A call without candidates is left alone for a reason. -/
theorem exists_leavesAlone (none : (env.resolveBy rule c stack already).candidates = []) :
    ∃ reason, env.LeavesAlone rule c stack already reason := by
  by_cases deep : env.config.maxDepth ≤ c.depth
  · exact ⟨_, .tooDeep deep⟩
  · have within : c.depth < env.config.maxDepth := Nat.not_le.1 deep
    obtain ⟨proposed, proposes, candidates⟩ := exists_proposes rule stack already within
    cases proposed with
    | cons first rest =>
      -- all that was proposed is turned down, so the first is
      rw [candidates] at none
      have rejected := List.filter_eq_nil_iff.1 none first List.mem_cons_self
      obtain ⟨reason, why⟩ := Option.ne_none_iff_exists'.1 (by simpa using rejected)
      exact ⟨reason, .turnedDown within proposes (rejection?_eq_some_iff.1 why)⟩
    | nil =>
      by_cases unbound : ∀ step ∈ c.steps env, step = []
      · by_cases dispatched : c.kind = .indirect ∧ c.isInterface = true
        · exact ⟨_, .unresolved within unbound dispatched.1 dispatched.2⟩
        · exact ⟨_, .unknown within unbound dispatched⟩
      · push Not at unbound
        obtain ⟨step, hstep, some⟩ := unbound
        obtain ⟨b, hb⟩ := List.exists_mem_of_ne_nil step some
        exact ⟨_, .refused within proposes hstep hb (proposes.eq_nil_iff.1 rfl step hstep b hb)⟩

theorem isFailure_of_leavesAlone (h : env.LeavesAlone rule c stack already reason) :
    reason ≠ .inlineableTarget := by
  cases h with
  | turnedDown _ _ rejects => cases rejects <;> simp
  | _ => simp

end Environment

/-- **A call is left alone for one reason, and that is told.** By whatever rule guards are given or refused:
a resolution tells of an inlineable target just in case it has candidates, and otherwise the reason for which
the call is left alone. The candidates are the bindings that the steps of the chain propose, as far as the
screening lets them through, in their order; a call that is too deep has none. -/
theorem Environment.resolution_explained (env : Environment) (rule : GuardRule) (c : Call)
    (stack : CallStack) (already : List MethodId) :
    ((env.resolveBy rule c stack already).failureReason = .inlineableTarget ↔
      (env.resolveBy rule c stack already).candidates ≠ []) ∧
    ((env.resolveBy rule c stack already).candidates = [] → ∀ reason,
      (env.resolveBy rule c stack already).failureReason = reason ↔
        env.LeavesAlone rule c stack already reason) ∧
    (env.config.maxDepth ≤ c.depth → (env.resolveBy rule c stack already).candidates = []) ∧
    (c.depth < env.config.maxDepth → ∃ proposed, rule.Proposes (c.steps env) proposed ∧
      (env.resolveBy rule c stack already).candidates =
        proposed.filter fun b => (env.rejection? stack already (c.depth + 1) b.method).isNone) ∧
    (∀ m reason, env.rejection? stack already (c.depth + 1) m = some reason ↔
      env.Rejects stack already (c.depth + 1) m reason) ∧
    env.resolve c stack already = env.resolveBy env.guard? c stack already := by
  refine ⟨⟨fun found none => ?_, fun some => ?_⟩, fun none reason => ⟨fun told => ?_, fun alone => ?_⟩,
    fun deep => ?_, exists_proposes rule stack already, fun m reason => rejection?_eq_some_iff,
    env.resolve_eq c stack already⟩
  · obtain ⟨reason, alone⟩ := exists_leavesAlone none
    rw [failureReason_of_leavesAlone none alone] at found
    exact isFailure_of_leavesAlone alone found
  · have within : c.depth < env.config.maxDepth := by
      by_contra deep
      exact some (by rw [resolveBy_of_deep (Nat.not_lt.1 deep)])
    rw [resolveBy_of_within within] at some ⊢
    exact if_neg fun empty => some (List.isEmpty_iff.1 empty)
  · obtain ⟨reason', alone⟩ := exists_leavesAlone none
    rwa [← told, failureReason_of_leavesAlone none alone]
  · exact failureReason_of_leavesAlone none alone
  · rw [resolveBy_of_deep deep]

/-- If no guard is ever built, a call on a task is left alone because a guard was refused. -/
theorem resolution_explained_task :
    jobsEnvironment.LeavesAlone (fun _ => none) (.ofInstruction ⟨0⟩ ⟨7⟩ 0 taskCall) { maxCallSize := 0 } []
      .guardNotConstructed := by
  obtain ⟨-, explained, -⟩ := Environment.resolution_explained jobsEnvironment (fun _ => none)
    (.ofInstruction ⟨0⟩ ⟨7⟩ 0 taskCall) { maxCallSize := 0 } []
  exact (explained (by decide +kernel) _).1 (by decide +kernel)

/-- A call through a method reference that names the method of an interface as well. -/
def strayCall : Call :=
  { id := ⟨0⟩, kind := .functionPointer, caller := ⟨7⟩, interfaceMethod := some ⟨0⟩, slot := 5 }

/-- No step knows a method for it, and it is left without target, although it is an interface call. The
check of first bindings would refuse it. -/
theorem interface_call_without_target :
    strayCall.isInterface = true ∧ strayCall.depth < jobsEnvironment.config.maxDepth ∧
      (∀ step ∈ strayCall.steps jobsEnvironment, step = []) ∧
      (jobsEnvironment.resolve strayCall { maxCallSize := 0 } []).candidates = [] ∧
      (jobsEnvironment.resolve strayCall { maxCallSize := 0 } []).failureReason = .noTarget ∧
      (jobsEnvironment.resolve strayCall { maxCallSize := 0 } []).failureReason ≠
        .unresolvedInterfaceMethod ∧
      strayCall.initialCalleeFlaw? jobs = some .pointerBound := by
  decide +kernel

end Inlining
