import Inlining.Proofs.Frames
import Inlining.Proofs.Devirtualization

/-!
# How a call is decided

Resolving a call asks for the guard of one binding after the other, and does not care by what rule it is
given or refused. So the rule is an argument here (`GuardRule`), and `Environment.resolveBy` resolves a call
by any rule; by that of the environment it is `Environment.resolve` (`resolve_eq`). What the chain of steps
proposes is told by `GuardRule.Proposes`: a step of which all guards are refused is passed over, and the
first other step decides.
-/

namespace Inlining

/-- Which guard a strategy gets; `none` if it is refused one. -/
abbrev GuardRule := Strategy → Option Guard

namespace GuardRule

variable (rule : GuardRule)

/-- A binding with the guard that it gets by the rule, if any. -/
def candidate? (b : Binding) : Option Candidate :=
  (rule b.strategy).map fun guard => { b with guard }

/-- What the first step decides that gets a guard by the rule; without one, the reason. -/
def firstBound (reason : FailureReason) : List (List Binding) → List Candidate × FailureReason
  | [] => ([], reason)
  | step :: rest =>
    let candidates := step.filterMap rule.candidate?
    if candidates.isEmpty then firstBound (if step.isEmpty then reason else .guardNotConstructed) rest
    else (candidates, .inlineableTarget)

/-- Every binding of the step is refused a guard. -/
def RefusesAll (step : List Binding) : Prop := ∀ b ∈ step, rule b.strategy = none

/-- What a chain of steps proposes. A step that is refused all its guards is passed over. The first other
step decides: of its bindings, those that get a guard are proposed with it, in their order. -/
inductive Proposes : List (List Binding) → List Candidate → Prop
  | exhausted : Proposes [] []
  | passedOver {step : List Binding} {rest : List (List Binding)} {proposed : List Candidate} :
    rule.RefusesAll step → Proposes rest proposed → Proposes (step :: rest) proposed
  | decided {step : List Binding} {rest : List (List Binding)} :
    ¬ rule.RefusesAll step → Proposes (step :: rest) (step.filterMap rule.candidate?)

variable {rule} {step : List Binding} {steps : List (List Binding)} {proposed other : List Candidate}
  {b : Candidate} {reason : FailureReason}

theorem candidate?_eq_some_iff {x : Binding} :
    rule.candidate? x = some b ↔ b.toBinding = x ∧ rule x.strategy = some b.guard := by
  unfold candidate?
  rw [Option.map_eq_some_iff]
  constructor
  · rintro ⟨guard, hg, rfl⟩
    exact ⟨rfl, hg⟩
  · rintro ⟨rfl, hg⟩
    exact ⟨b.guard, hg, rfl⟩

theorem filterMap_eq_nil_iff : step.filterMap rule.candidate? = [] ↔ rule.RefusesAll step := by
  simp [candidate?, RefusesAll]

theorem firstBound_passedOver {rest : List (List Binding)} (all : rule.RefusesAll step) :
    rule.firstBound reason (step :: rest) =
      rule.firstBound (if step.isEmpty then reason else .guardNotConstructed) rest := by
  simp [firstBound, filterMap_eq_nil_iff.2 all]

theorem firstBound_decided {rest : List (List Binding)} (some : ¬ rule.RefusesAll step) :
    rule.firstBound reason (step :: rest) = (step.filterMap rule.candidate?, .inlineableTarget) := by
  have bound : (step.filterMap rule.candidate?).isEmpty = false := by
    rw [List.isEmpty_eq_false_iff]
    exact fun none => some (filterMap_eq_nil_iff.1 none)
  simp [firstBound, bound]

/-- The chain proposes what its loop comes to. -/
theorem proposes_firstBound (reason : FailureReason) (steps : List (List Binding)) :
    rule.Proposes steps (rule.firstBound reason steps).1 := by
  induction steps generalizing reason with
  | nil => exact .exhausted
  | cons step rest ih =>
    by_cases all : rule.RefusesAll step
    · rw [firstBound_passedOver all]
      exact .passedOver all (ih _)
    · rw [firstBound_decided all]
      exact .decided all

theorem Proposes.unique (h : rule.Proposes steps proposed) (h' : rule.Proposes steps other) :
    proposed = other := by
  induction h with
  | exhausted => cases h'; rfl
  | passedOver all _ ih =>
    cases h' with
    | passedOver _ next => exact ih next
    | decided some => exact absurd all some
  | decided some =>
    cases h' with
    | passedOver all _ => exact absurd all some
    | decided _ => rfl

/-- What is proposed was a binding of some step, and has the guard that the rule gives it. -/
theorem Proposes.mem (h : rule.Proposes steps proposed) (hb : b ∈ proposed) :
    (∃ step ∈ steps, b.toBinding ∈ step) ∧ rule b.strategy = some b.guard := by
  induction h with
  | exhausted => cases hb
  | passedOver _ _ ih =>
    obtain ⟨⟨step, hstep, hmem⟩, guarded⟩ := ih hb
    exact ⟨⟨step, List.mem_cons_of_mem _ hstep, hmem⟩, guarded⟩
  | decided =>
    obtain ⟨x, hx, bound⟩ := List.mem_filterMap.1 hb
    obtain ⟨rfl, guarded⟩ := candidate?_eq_some_iff.1 bound
    exact ⟨⟨_, List.mem_cons_self, hx⟩, guarded⟩

/-- Nothing is proposed just in case every guard that is asked for is refused. -/
theorem Proposes.eq_nil_iff (h : rule.Proposes steps proposed) :
    proposed = [] ↔ ∀ step ∈ steps, rule.RefusesAll step := by
  induction h with
  | exhausted => simp
  | passedOver all _ ih => simp [ih, all]
  | decided some => simp only [filterMap_eq_nil_iff, List.forall_mem_cons, some, false_and]

/-- The reason of a chain that proposes nothing: some guard was refused, or there was none to ask for. -/
theorem firstBound_reason (none : (rule.firstBound reason steps).1 = []) :
    (rule.firstBound reason steps).2 =
      if ∀ step ∈ steps, step = [] then reason else .guardNotConstructed := by
  induction steps generalizing reason with
  | nil => simp [firstBound]
  | cons step rest ih =>
    by_cases all : rule.RefusesAll step
    · rw [firstBound_passedOver all] at none ⊢
      rw [ih none]
      cases step <;> simp
    · rw [firstBound_decided all] at none
      exact absurd (filterMap_eq_nil_iff.1 none) all

end GuardRule

namespace Environment

variable (env : Environment)

/-- What the screening leaves of the bindings that are proposed, and why if it leaves none. -/
def screening (c : Call) (stack : CallStack) (alreadyInlined : List MethodId)
    (bound : List Candidate × FailureReason) : Resolution :=
  let rejection? (b : Candidate) := env.rejection? stack alreadyInlined (c.depth + 1) b.method
  let candidates := bound.1.filter fun b => (rejection? b).isNone
  ⟨candidates,
    if candidates.isEmpty then (bound.1.findSome? rejection?).getD bound.2 else .inlineableTarget⟩

/-- Resolves a call where guards are given by a rule. -/
def resolveBy (rule : GuardRule) (c : Call) (stack : CallStack) (alreadyInlined : List MethodId) :
    Resolution :=
  if env.config.maxDepth ≤ c.depth then ⟨[], .exceedsDepth⟩
  else env.screening c stack alreadyInlined (rule.firstBound c.unboundReason (c.steps env))

theorem firstBound_eq (reason : FailureReason) (steps : List (List Binding)) :
    env.firstBound reason steps = GuardRule.firstBound env.guard? reason steps := by
  induction steps generalizing reason with
  | nil => rfl
  | cons step rest ih =>
    have same : step.filterMap env.bind? = step.filterMap (GuardRule.candidate? env.guard?) := rfl
    rw [firstBound, GuardRule.firstBound, same, ih]
    cases step.filterMap (GuardRule.candidate? env.guard?) <;> rfl

/-- A call is resolved by the rule of the environment. -/
theorem resolve_eq (c : Call) (stack : CallStack) (alreadyInlined : List MethodId) :
    env.resolve c stack alreadyInlined = env.resolveBy env.guard? c stack alreadyInlined := by
  unfold resolve resolveBy
  rw [firstBound_eq]
  rfl

variable {env} {rule : GuardRule} {c : Call} {stack : CallStack} {already : List MethodId}

theorem resolveBy_of_deep (deep : env.config.maxDepth ≤ c.depth) :
    env.resolveBy rule c stack already = ⟨[], .exceedsDepth⟩ :=
  if_pos deep

theorem resolveBy_of_within (within : c.depth < env.config.maxDepth) :
    env.resolveBy rule c stack already =
      env.screening c stack already (rule.firstBound c.unboundReason (c.steps env)) :=
  if_neg (Nat.not_le.2 within)

/-- A call that is not too deep is resolved by what its steps propose, as far as the screening lets it
through. -/
theorem exists_proposes (rule : GuardRule) (stack : CallStack) (already : List MethodId)
    (within : c.depth < env.config.maxDepth) :
    ∃ proposed, rule.Proposes (c.steps env) proposed ∧
      (env.resolveBy rule c stack already).candidates =
        proposed.filter fun b => (env.rejection? stack already (c.depth + 1) b.method).isNone := by
  refine ⟨_, GuardRule.proposes_firstBound c.unboundReason (c.steps env), ?_⟩
  rw [resolveBy_of_within within]
  rfl

/-- A call is bound under guards of the rule, and to bindings that its steps propose. -/
theorem guarded_of_mem_candidates {b : Candidate} (h : b ∈ (env.resolveBy rule c stack already).candidates) :
    (∃ step ∈ c.steps env, b.toBinding ∈ step) ∧ rule b.strategy = some b.guard := by
  have within : c.depth < env.config.maxDepth := by
    by_contra deep
    rw [resolveBy_of_deep (Nat.not_lt.1 deep)] at h
    cases h
  obtain ⟨proposed, proposes, candidates⟩ := exists_proposes rule stack already within
  rw [candidates] at h
  exact proposes.mem (List.mem_filter.1 h).1

end Environment

end Inlining
