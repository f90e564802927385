import Inlining.CallSite
import Inlining.CallStack
import Inlining.Environment

/-!
# Resolving calls

Which methods a call may reach, and under which guards. The decision chain is a list of
steps, each with the bindings that it proposes; the first step that gets a guard for one of
its bindings decides (`firstBound`). What it decided is screened against the stack and the
size limit. A call that is left without candidate says why: because of the screening of the
first candidate, else because some guard was refused, else because no step proposed a
binding.
-/

namespace Inlining

/-- A method that a call may be bound to, and on what ground. -/
structure Binding where
  method : MethodId
  strategy : Strategy
  /-- the class that the binding assumes of the receiver -/
  receiverClass : Option ClassId
  /-- the share of the calls that are expected to take the binding -/
  frequency : Single
deriving DecidableEq

/-- A binding with its guard. -/
structure Candidate extends Binding where
  guard : Guard
deriving DecidableEq

/-- The outcome of resolving a call. -/
structure Resolution where
  candidates : List Candidate
  failureReason : FailureReason
deriving DecidableEq

/-- A binding that every call takes. -/
def Binding.always (method : MethodId) (strategy : Strategy) (receiverClass : Option ClassId) :
    Binding :=
  ⟨method, strategy, receiverClass, .ofNat 1⟩

namespace Call

variable (c : Call) (env : Environment)

/-- What is known about the receiver, if such facts are used. -/
def receiverFact? : Option ArgumentFact :=
  if env.config.enablePreexistence then c.facts.bind (·.receiver?) else none

/-- The class that bounds the receiver. A fact replaces the class that the instruction names
only if it is narrower. -/
def receiverBound? : Option ClassId :=
  match c.receiverFact? env with
  | some ⟨known, .resolved⟩ =>
    if c.receiverClass.all (env.program.isSubclassOf known) then some known else c.receiverClass
  | _ => c.receiverClass

/-- The method that the call is bound to before its receiver is looked at. -/
def boundMethod? : Option MethodId :=
  c.initialCallee.or ((c.receiverBound? env).bind (env.program.dispatch? · c.slot))

/-- The profile of the call, if profiles are used. -/
def profile? : Option CallProfile :=
  if env.config.enableProfiled then env.advice.profile? c.caller c.position.index else none

/-- The receiver's class is known exactly. -/
def fixedReceiverStep : List Binding :=
  match c.receiverFact? env with
  | some ⟨known, .fixed⟩ =>
    (env.program.dispatch? known c.slot).toList.map fun m =>
      .always m (.fixedReceiver known) (some known)
  | _ => []

/-- Nobody overrides the method. -/
def notOverriddenStep : List Binding :=
  if env.config.enableHierarchy then
    ((c.boundMethod? env).filter fun m => !env.program.isOverridden m).toList.map fun m =>
      .always m .notOverridden (c.receiverBound? env)
  else []

/-- Nobody at or below the receiver's class overrides what it runs. -/
def subhierarchyStep : List Binding :=
  if env.config.enableSubhierarchy then
    (c.receiverBound? env).toList.flatMap fun bound =>
      ((env.program.dispatch? bound c.slot).filter fun m =>
        !env.program.isOverriddenBelow m bound).toList.map fun m =>
          .always m (.notOverriddenInSubhierarchy bound) (some bound)
  else []

/-- Classes that dominate the profile, as far as they can be the receiver's. -/
def profiledReceiverStep : List Binding :=
  match c.profile? env with
  | none => []
  | some profile =>
    (profile.receivers.dominant env.config.profileMinRatio env.config.profileMinSamples
      env.config.maxProfiledTargets).filterMap fun (known, share) =>
        if (c.receiverBound? env).all (env.program.isSubclassOf known) then
          (env.program.dispatch? known c.slot).map fun m =>
            ⟨m, .profiledReceiver known, some known, share⟩
        else none

/-- The class below which a single implementation is looked for. -/
def implementerBase? : Option ClassId :=
  (c.receiverBound? env).or
    ((c.interfaceMethod.bind env.program.classOf?).or
      ((c.boundMethod? env).bind env.program.classOf?))

/-- There is only one implementation. -/
def singleImplementerStep : List Binding :=
  if env.config.enableSingleImplementer then
    (c.implementerBase? env).toList.flatMap fun base =>
      (env.program.singleImplementer? base c.slot).toList.map fun m =>
        .always m (.singleImplementer base) (c.receiverBound? env)
  else []

/-- The call must be inlined. -/
def forcedStep : List Binding :=
  if c.forceInline then
    (c.boundMethod? env).toList.map fun m =>
      .always m (.forcedInline (env.program.classOf? m)) (c.receiverBound? env)
  else []

/-- The call is bound statically. -/
def directStep : List Binding :=
  c.initialCallee.toList.map fun m => .always m .direct c.receiverClass

/-- The call goes through a known method reference. -/
def constantReferenceStep : List Binding :=
  c.methodRef.toList.flatMap fun r =>
    (env.program.methodBehind? r).toList.map fun m => .always m (.constantReference r) none

/-- One method reference dominates the profile. -/
def profiledReferenceStep : List Binding :=
  (((c.profile? env).bind fun profile =>
    profile.dominantReference? env.config.profileMinRatio
      env.config.profileMinSamples).toList).flatMap fun (r, share) =>
        (env.program.methodBehind? r).toList.map fun m => ⟨m, .profiledReference r, none, share⟩

/-- The steps of the decision chain. -/
def steps : List (List Binding) :=
  match c.kind with
  | .direct => [c.directStep]
  | .indirect =>
    [c.fixedReceiverStep env, c.notOverriddenStep env, c.subhierarchyStep env,
      c.profiledReceiverStep env, c.singleImplementerStep env, c.forcedStep env]
  | .functionPointer => [c.constantReferenceStep env, c.profiledReferenceStep env]

/-- The reason when no step proposes a binding. -/
def unboundReason : FailureReason :=
  if c.kind = .indirect ∧ c.isInterface then .unresolvedInterfaceMethod else .noTarget

end Call

namespace Environment

variable (env : Environment)

/-- A binding with its guard, if it gets one. -/
def bind? (b : Binding) : Option Candidate :=
  (env.guard? b.strategy).map fun guard => { b with guard }

/-- What the first step that gets a guard decides. Without one the reason is `reason`, unless
some step proposed a binding, whose guard was refused then. -/
def firstBound (reason : FailureReason) : List (List Binding) → List Candidate × FailureReason
  | [] => ([], reason)
  | step :: rest =>
    match step.filterMap env.bind? with
    | [] => firstBound (if step.isEmpty then reason else .guardNotConstructed) rest
    | candidates => (candidates, .inlineableTarget)

/-- Why a candidate for a frame at `depth` is not taken. -/
def rejection? (stack : CallStack) (alreadyInlined : List MethodId) (depth : Nat)
    (m : MethodId) : Option FailureReason :=
  if alreadyInlined.contains m || stack.wasPreviouslyInlined m depth then some .alreadyInlined
  else if env.config.maxRecursiveOccurrences ≤ stack.occurrences m then some .recursive
  else if (env.program.sizeOf? m).any (env.config.maxCallSize < ·) then some .exceedsCallSize
  else none

/-- Resolves a call that is made from the innermost frame of `stack`. Methods in
`alreadyInlined` are not taken. -/
def resolve (c : Call) (stack : CallStack) (alreadyInlined : List MethodId) : Resolution :=
  if env.config.maxDepth ≤ c.depth then ⟨[], .exceedsDepth⟩
  else
    let (proposed, reason) := env.firstBound c.unboundReason (c.steps env)
    let rejection? (b : Candidate) := env.rejection? stack alreadyInlined (c.depth + 1) b.method
    let candidates := proposed.filter fun b => (rejection? b).isNone
    ⟨candidates,
      if candidates.isEmpty then (proposed.findSome? rejection?).getD reason
      else .inlineableTarget⟩

end Environment

end Inlining
