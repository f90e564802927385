import Inlining.Proofs.Decisions

/-!
# Which guards bindings have

A binding that holds for every receiver needs no guard, or a test for null at most
(`Strategy.isExact`). Any other needs one that can fail, and that tests what the binding rests on
(`Guard.Protects`). That holds of every guard that a configuration allows (`protects_of_configuredGuard?`),
so of every candidate, whatever else is refused. Nothing is bound without its guard instead: a step that is
refused its guards might as well not be there (`GuardRule.Proposes.skip`).
-/

namespace Inlining

namespace Strategy

/-- The binding holds for every receiver. -/
def isExact : Strategy → Bool
  | direct | fixedReceiver _ | notOverridden | constantReference _ => true
  | notOverriddenInSubhierarchy _ | profiledReceiver _ | singleImplementer _ | forcedInline _
  | profiledReference _ => false

/-- The class that the receiver is tested against, for a binding that does not hold for every receiver. -/
def testedClass? : Strategy → Option ClassId
  | notOverriddenInSubhierarchy c | profiledReceiver c | singleImplementer c => some c
  | forcedInline c? => c?
  | direct | fixedReceiver _ | notOverridden | constantReference _ | profiledReference _ => none

/-- The method reference that the call's is tested against. -/
def testedReference? : Strategy → Option MethodRefId
  | profiledReference r => some r
  | _ => none

end Strategy

/-- The guard may be built, and is strong enough for a binding by the strategy. -/
structure Guard.Protects (g : Guard) (p : Program) (config : Configuration) (s : Strategy) : Prop where
  allowed : g.kind = .none ∨ g.kind ∉ config.disabledGuards
  exact : g.kind = .none ∨ g.kind = .nonNull → s.isExact = true
  speculative : s.isExact = false → g.isSpeculative = true
  tests : s.isExact = false → g.thisClass = s.testedClass? ∧ g.reference = s.testedReference? ∧
    (g.thisClass.isSome = true ∨ g.reference.isSome = true)
  instantiable : g.kind = .profiled → ∃ k, g.thisClass = some k ∧
    p.isInterface k = false ∧ p.isAbstract k = false

theorem GuardRule.Proposes.skip {rule : GuardRule} {earlier later : List (List Binding)}
    {step : List Binding} {proposed : List Candidate} (refused : rule.RefusesAll step)
    (h : rule.Proposes (earlier ++ step :: later) proposed) : rule.Proposes (earlier ++ later) proposed := by
  induction earlier with
  | nil =>
    cases h with
    | passedOver _ next => exact next
    | decided some => exact absurd refused some
  | cons first earlier ih =>
    cases h with
    | passedOver all next => exact .passedOver all (ih next)
    | decided some => exact .decided some

/-- A binding that holds for every receiver is protected by a guard that can only fail for null. -/
theorem Guard.protects_of_isExact {g : Guard} {p : Program} {config : Configuration} {s : Strategy}
    (allowed : g.kind = .none ∨ g.kind ∉ config.disabledGuards) (exact : s.isExact = true)
    (plain : g.isSpeculative = false) : g.Protects p config s where
  allowed := allowed
  exact _ := exact
  speculative inexact := by rw [exact] at inexact; cases inexact
  tests inexact := by rw [exact] at inexact; cases inexact
  instantiable profiled := by
    rw [Guard.isSpeculative, profiled] at plain
    cases plain

namespace Environment

/-- Guards as the program and the configuration give them, except that some strategies are refused. -/
def refusing (env : Environment) (refused : Strategy → Bool) : GuardRule := fun s =>
  if refused s then none else configuredGuard? env.program env.config s

variable {env : Environment} {p : Program} {config : Configuration} {s : Strategy} {g : Guard}
  {refused : Strategy → Bool}

theorem isSpeculative_exactGuard (config : Configuration) : (exactGuard config).isSpeculative = false := by
  unfold exactGuard
  split <;> rfl

theorem protects_of_configuredGuard? (h : configuredGuard? p config s = some g) :
    g.Protects p config s := by
  obtain ⟨wanted, free⟩ := Option.filter_eq_some_iff.1 h
  have allowed : g.kind = .none ∨ g.kind ∉ config.disabledGuards := by
    simpa [Guard.isGuarded, Configuration.allows] using free
  cases s with
  | direct | constantReference _ =>
    cases wanted
    exact Guard.protects_of_isExact allowed rfl rfl
  | fixedReceiver _ | notOverridden =>
    cases wanted
    exact Guard.protects_of_isExact allowed rfl (isSpeculative_exactGuard config)
  | notOverriddenInSubhierarchy c | singleImplementer c =>
    cases wanted
    exact ⟨allowed, by simp, fun _ => rfl, fun _ => ⟨rfl, rfl, .inl rfl⟩, by simp⟩
  | profiledReceiver c =>
    rw [wantedGuard?] at wanted
    split at wanted
    next => cases wanted
    next concrete =>
      cases wanted
      simp only [Bool.or_eq_true, not_or, Bool.not_eq_true] at concrete
      exact ⟨allowed, by simp, fun _ => rfl, fun _ => ⟨rfl, rfl, .inl rfl⟩, fun _ => ⟨c, rfl, concrete⟩⟩
  | forcedInline c? =>
    obtain ⟨c, rfl, rfl⟩ := Option.map_eq_some_iff.1 wanted
    exact ⟨allowed, by simp, fun _ => rfl, fun _ => ⟨rfl, rfl, .inl rfl⟩, by simp⟩
  | profiledReference r =>
    cases wanted
    exact ⟨allowed, by simp, fun _ => rfl, fun _ => ⟨rfl, rfl, .inr rfl⟩, by simp⟩

theorem refusing_eq_some_iff :
    env.refusing refused s = some g ↔
      refused s = false ∧ configuredGuard? env.program env.config s = some g := by
  unfold refusing
  cases refused s <;> simp

end Environment

/-- **No guard is disabled or too weak.** Whatever strategies are refused a guard, besides those that the
configuration disables: a call is bound under guards that may be built and that protect the bindings. No
binding has another guard than its strategy is given, and none that is refused one is bound. The chain goes
on instead: what the call is bound to was proposed as if a step that is refused all its guards were not
there. -/
theorem Environment.candidates_protected (env : Environment) (refused : Strategy → Bool) (c : Call)
    (stack : CallStack) (already : List MethodId) :
    (∀ b ∈ (env.resolveBy (env.refusing refused) c stack already).candidates,
      b.guard.Protects env.program env.config b.strategy ∧
        env.refusing refused b.strategy = some b.guard ∧ refused b.strategy = false) ∧
    (c.depth < env.config.maxDepth → ∃ proposed,
      (env.refusing refused).Proposes (c.steps env) proposed ∧
      (∀ earlier step later, c.steps env = earlier ++ step :: later →
        (env.refusing refused).RefusesAll step →
        (env.refusing refused).Proposes (earlier ++ later) proposed) ∧
      (env.resolveBy (env.refusing refused) c stack already).candidates =
        proposed.filter fun b => (env.rejection? stack already (c.depth + 1) b.method).isNone) ∧
    env.resolve c stack already =
      env.resolveBy (env.refusing env.advice.refuses) c stack already := by
  refine ⟨fun b hb => ?_, fun within => ?_, env.resolve_eq c stack already⟩
  · obtain ⟨-, guarded⟩ := guarded_of_mem_candidates hb
    obtain ⟨free, configured⟩ := refusing_eq_some_iff.1 guarded
    exact ⟨protects_of_configuredGuard? configured, guarded, free⟩
  · obtain ⟨proposed, proposes, candidates⟩ := exists_proposes (env.refusing refused) stack already within
    refine ⟨proposed, proposes, fun earlier step later split all => ?_, candidates⟩
    rw [split] at proposes
    exact proposes.skip all

/-- Jobs with tests of the hierarchy disabled, where every call was seen on jobs. -/
def profiledJobs : Environment where
  program := jobs
  config := { Configuration.standard with enableHierarchy := false, disabledGuards := [.hierarchy] }
  advice := { profile? := fun _ _ => some (.ofCounts [(⟨2⟩, .ofNat _ 30)] []) }

/-- A call on a task, where no test for jobs is built. -/
def taskResolution : Resolution :=
  profiledJobs.resolveBy (profiledJobs.refusing (· = .profiledReceiver ⟨2⟩))
    (.ofInstruction ⟨0⟩ ⟨7⟩ 0 taskCall) { maxCallSize := 0 } []

/-- The call may not test for tasks, as configured, nor for jobs. It is bound to the only implementation,
which is tested. -/
theorem candidates_protected_task :
    taskResolution.candidates.map (·.strategy) = [.singleImplementer ⟨1⟩] ∧
      ∀ b ∈ taskResolution.candidates, b.guard.isSpeculative = true ∧ b.guard.thisClass = some ⟨1⟩ := by
  have bound : taskResolution.candidates.map (·.strategy) = [.singleImplementer ⟨1⟩] := by decide +kernel
  refine ⟨bound, fun b hb => ?_⟩
  obtain ⟨protects, -, -⟩ := (Environment.candidates_protected profiledJobs
    (· = .profiledReceiver ⟨2⟩) (.ofInstruction ⟨0⟩ ⟨7⟩ 0 taskCall) { maxCallSize := 0 } []).1 b hb
  have strategy : b.strategy = .singleImplementer ⟨1⟩ := by
    have listed : b.strategy ∈ taskResolution.candidates.map (·.strategy) := List.mem_map_of_mem hb
    rwa [bound, List.mem_singleton] at listed
  have inexact : b.strategy.isExact = false := by rw [strategy]; rfl
  refine ⟨protects.speculative inexact, ?_⟩
  rw [(protects.tests inexact).1, strategy]
  rfl

end Inlining
