import Inlining.Guard
import Inlining.Json.Reader
import Inlining.Profile

/-!
# Configuration

Every limit and switch of a compilation. A configuration is read from JSON, where every field
may be missing.

A build with debug assertions checks the bookkeeping whatever the configuration says. It is the
build without them that is described here, where `verifyInvariants` alone turns the checks on.
-/

namespace Inlining

/-- The limits and switches of one compilation. -/
structure Configuration where
  /-- call sites at or below this depth are not resolved; a 32-bit quantity -/
  depthLimit : UInt32
  /-- the greatest size of one target with everything inlined into it -/
  maxCallSize : Size
  /-- the greatest sum of the sizes accepted in a compilation -/
  maxTotalSize : Size
  /-- the number of active frames of a method from which on a call to it is recursive -/
  maxRecursiveOccurrences : Nat
  /-- use what is known about the receiver's class -/
  enablePreexistence : Bool
  /-- bind methods that nobody overrides -/
  enableHierarchy : Bool
  /-- bind methods that nobody below the receiver's class overrides -/
  enableSubhierarchy : Bool
  /-- bind what dominates the profile -/
  enableProfiled : Bool
  /-- bind the only implementation below a class -/
  enableSingleImplementer : Bool
  /-- the share of the profiled calls that a receiver class must reach -/
  profileMinRatio : Single
  /-- the calls that must have been profiled -/
  profileMinSamples : SampleCount
  /-- the greatest number of profiled targets of one call site -/
  maxProfiledTargets : Nat
  /-- test the receiver of an exact binding for null -/
  allowNullCheck : Bool
  /-- kinds of guards that may not be built -/
  disabledGuards : List GuardKind
  /-- check the bookkeeping while exploring -/
  verifyInvariants : Bool
  /-- keep the events, not only the counters -/
  traceEvents : Bool

namespace Configuration

/-- The depth limit as a number, to compare depths with. -/
def maxDepth (config : Configuration) : Nat := config.depthLimit.toNat

theorem maxDepth_lt (config : Configuration) : config.maxDepth < UInt32.size :=
  config.depthLimit.toNat_lt_size

/-- The configuration of an empty description. -/
def standard : Configuration where
  depthLimit := 4
  maxCallSize := .ofNat _ 100
  maxTotalSize := .ofNat _ 1000
  maxRecursiveOccurrences := 1
  enablePreexistence := true
  enableHierarchy := true
  enableSubhierarchy := true
  enableProfiled := true
  enableSingleImplementer := true
  profileMinRatio := .ofRatio false 9 10
  profileMinSamples := .ofNat _ 10
  maxProfiledTargets := 1
  allowNullCheck := false
  disabledGuards := []
  verifyInvariants := false
  traceEvents := true

/-- Guards of the kind may be built. -/
def allows (config : Configuration) (kind : GuardKind) : Bool :=
  !config.disabledGuards.contains kind

end Configuration

/-- A size in JSON. -/
def Size.decoder : Json.Decoder Size := Json.Decoder.nat32.map (Saturating.ofNat _)

/-- A sample count in JSON. -/
def SampleCount.decoder : Json.Decoder SampleCount := Json.Decoder.nat64.map (Saturating.ofNat _)

namespace Configuration

def decoder : Json.Decoder Configuration := .object fun f => do
  return {
    depthLimit :=
      ← f.withDefault "max_depth" (Json.Decoder.nat32.map UInt32.ofNat) standard.depthLimit
    maxCallSize := ← f.withDefault "max_call_size" Size.decoder standard.maxCallSize
    maxTotalSize := ← f.withDefault "max_total_size" Size.decoder standard.maxTotalSize
    maxRecursiveOccurrences :=
      ← f.withDefault "max_recursive_occurrences" .nat64 standard.maxRecursiveOccurrences
    enablePreexistence :=
      ← f.withDefault "enable_preexistence" .bool standard.enablePreexistence
    enableHierarchy :=
      ← f.withDefault "enable_hierarchy_devirtualization" .bool standard.enableHierarchy
    enableSubhierarchy :=
      ← f.withDefault "enable_subhierarchy_devirtualization" .bool standard.enableSubhierarchy
    enableProfiled :=
      ← f.withDefault "enable_profiled_devirtualization" .bool standard.enableProfiled
    enableSingleImplementer :=
      ← f.withDefault "enable_single_implementer_cha" .bool standard.enableSingleImplementer
    profileMinRatio := ← f.withDefault "profile_min_ratio" .single standard.profileMinRatio
    profileMinSamples :=
      ← f.withDefault "profile_min_samples" SampleCount.decoder standard.profileMinSamples
    maxProfiledTargets :=
      ← f.withDefault "max_profiled_targets" .nat64 standard.maxProfiledTargets
    allowNullCheck := ← f.withDefault "allow_nonnull_guard" .bool standard.allowNullCheck
    disabledGuards :=
      ← f.withDefault "disabled_guards" (.list GuardKind.decoder) standard.disabledGuards
    verifyInvariants := ← f.withDefault "verify_invariants" .bool standard.verifyInvariants
    traceEvents := ← f.withDefault "trace_events" .bool standard.traceEvents }

/-- The configuration that a JSON text describes. -/
def ofText? (text : String) : Option Configuration :=
  (Json.parse? text).bind (Json.decode? decoder)

end Configuration

end Inlining
