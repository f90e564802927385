import Inlining.Program.Basic

/-!
# What an exploration consults

A program and a configuration are fixed for a compilation. Profiles and the refusal to build
guards for some strategies may change from step to step; together they are the advice. The
guard of a strategy, `Environment.guard?`, is decided by all of them.
-/

namespace Inlining

/-- What may change between the steps of a compilation. -/
structure Advice where
  /-- the profile of the call at a bytecode index of a method -/
  profile? : MethodId → Int → Option CallProfile
  /-- no guard is built for the strategy -/
  refuses : Strategy → Bool := fun _ => false

namespace Advice

/-- The profiles in the program. -/
def ofProgram (p : Program) : Advice := { profile? := p.profileOf? }

/-- No profiles at all. -/
def unprofiled : Advice := { profile? := fun _ _ => none }

/-- Replaces the profiles of the listed calls, the later entry for a call winning, and refuses
all strategies of the listed kinds. -/
def overriding (advice : Advice) (profiles : List ((MethodId × Int) × CallProfile))
    (refused : List StrategyKind) : Advice where
  profile? m index :=
    match profiles.findRev? (·.1 == (m, index)) with
    | some (_, profile) => some profile
    | none => advice.profile? m index
  refuses strategy := refused.contains strategy.kind || advice.refuses strategy

end Advice

/-- All that an exploration consults. -/
structure Environment where
  program : Program
  config : Configuration
  advice : Advice

namespace Environment

/-- The guard of a binding that holds for every receiver. -/
def exactGuard (config : Configuration) : Guard :=
  if config.allowNullCheck && config.allows .nonNull then .nullCheck else .unguarded

/-- The guard that a strategy calls for, whether it may be built or not. -/
def wantedGuard? (p : Program) (config : Configuration) : Strategy → Option Guard
  | .direct | .constantReference _ => some .unguarded
  | .fixedReceiver _ | .notOverridden => some (exactGuard config)
  | .notOverriddenInSubhierarchy c =>
    some { kind := .hierarchy, test := .subclassTest, thisClass := some c }
  | .profiledReceiver c =>
    -- no instance has exactly such a class
    if p.isInterface c || p.isAbstract c then none
    else some { kind := .profiled, test := .vftTest, thisClass := some c }
  | .singleImplementer c => some { kind := .interface, test := .methodTest, thisClass := some c }
  | .forcedInline c? =>
    c?.map fun c => { kind := .hierarchy, test := .methodTest, thisClass := some c }
  | .profiledReference r =>
    some { kind := .methodReference, test := .referenceTest, reference := some r }

/-- The guard that a strategy gets under a configuration alone; `none` if its kind is
disabled. -/
def configuredGuard? (p : Program) (config : Configuration) (strategy : Strategy) :
    Option Guard :=
  (wantedGuard? p config strategy).filter fun g => !g.isGuarded || config.allows g.kind

/-- The guard that a strategy gets; `none` if it is refused or cannot be built. -/
def guard? (env : Environment) (strategy : Strategy) : Option Guard :=
  if env.advice.refuses strategy then none
  else configuredGuard? env.program env.config strategy

end Environment

end Inlining
