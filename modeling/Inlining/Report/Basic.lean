import Inlining.Exploration

/-!
# Reports

A report sums a compilation up: the tree of call sites and targets below the compiled methods,
the counters, the contents of the region and the recorded events. A target that was removed
keeps its place in the tree. `Report.liveTargets` lists the others from the top down.
-/

namespace Inlining

/-- A required constant with the descriptions of its assumptions. -/
structure ConstantReport where
  index : Int
  value : Constant
  assumptions : List String
deriving DecidableEq

/-- A target without the call sites in its body. -/
structure TargetSummary where
  id : TargetId
  method : MethodId
  signature : String
  guard : Guard
  speculative : Bool := false
  size : Size
  fullSize : Size
  frequency : Single
  alreadyInlined : Bool
  failureReason : Option FailureReason := none
  constants : List ConstantReport := []
  deletedCallees : List SiteId := []
deriving DecidableEq

/-- A call site without its targets. -/
structure SiteSummary where
  id : SiteId
  kind : SiteKind
  signature : String
  position : BytecodePosition
  depth : Nat
  visitCount : Nat
  failureReason : Option FailureReason := none
deriving DecidableEq

mutual

/-- A call site with its live and its removed targets. -/
inductive SiteReport where
  | mk (summary : SiteSummary) (targets removed : List TargetReport)

/-- A target with the call sites in its body. -/
inductive TargetReport where
  | mk (summary : TargetSummary) (callees : List SiteReport)

end

instance : Inhabited SiteSummary := ⟨⟨⟨0⟩, .direct, "", {}, 0, 0, none⟩⟩

instance : Inhabited SiteReport := ⟨.mk default [] []⟩

/-- The summary of a compilation. -/
structure Report where
  methods : List String
  sites : List SiteReport
  totalSize : Size
  failureCounts : List (FailureReason × Nat)
  stats : RegionStats
  events : List Event

mutual

/-- The live targets of a site and in the bodies of these, from the top down. -/
def SiteReport.liveTargets : SiteReport → List TargetSummary
  | .mk _ targets _ => TargetReport.liveInAll targets

/-- A target and the live targets in its body. -/
def TargetReport.live : TargetReport → List TargetSummary
  | .mk summary callees => summary :: SiteReport.liveInAll callees

def TargetReport.liveInAll : List TargetReport → List TargetSummary
  | [] => []
  | t :: ts => t.live ++ TargetReport.liveInAll ts

def SiteReport.liveInAll : List SiteReport → List TargetSummary
  | [] => []
  | s :: ss => s.liveTargets ++ SiteReport.liveInAll ss

end

/-- The live targets in a report, from the top down. -/
def Report.liveTargets (r : Report) : List TargetSummary := SiteReport.liveInAll r.sites

namespace Region

variable (r : Region) (p : Program)

/-- A required constant with what its assumptions say. -/
def constantReport (index : Int) (c : RequiredConstant) : ConstantReport :=
  ⟨index, c.value, c.assumptions.filterMap fun a => (r.assumptions.get? a).map (·.description)⟩

def targetSummary (id : TargetId) (t : CallTarget) : TargetSummary where
  id := id
  method := t.method
  signature := p.signatureOf t.method
  guard := t.guard
  speculative := t.guard.isSpeculative
  size := t.size
  fullSize := t.fullSize
  frequency := t.frequency
  alreadyInlined := t.alreadyInlined
  failureReason := if t.failureReason.isFailure then some t.failureReason else none
  constants := t.constants.map fun (index, c) => r.constantReport index c
  deletedCallees := t.deletedCallees

def siteSummary (id : SiteId) (s : CallSite) : SiteSummary where
  id := id
  kind := s.kind
  signature := s.signature p
  position := s.position
  depth := s.depth
  visitCount := s.visitCount
  failureReason := if s.live.isEmpty then some s.failureReason else none

/-- A target with the sites in its body, each reported by `below`. -/
def targetReport? (below : SiteId → Option SiteReport) (id : TargetId) : Option TargetReport :=
  (r.targets.get? id).map fun t => .mk (r.targetSummary p id t) (t.callees.filterMap below)

/-- A site with what lies below it, down to the given number of levels. -/
def siteReport? : Nat → SiteId → Option SiteReport
  | 0, _ => none
  | levels + 1, id =>
    (r.sites.get? id).map fun s =>
      .mk (siteSummary p id s) (s.live.filterMap (r.targetReport? p (siteReport? levels)))
        (s.removed.filterMap (r.targetReport? p (siteReport? levels)))

end Region

/-- The report on a compilation. No site lies deeper than the depth limit. -/
def Compilation.report (c : Compilation) (p : Program) (config : Configuration) : Report where
  methods := c.compiled.map p.signatureOf
  sites := c.roots.filterMap (c.region.siteReport? p (config.maxDepth + 1))
  totalSize := c.totalSize
  failureCounts := c.journal.counters
  stats := c.region.stats
  events := c.journal.events.toList

end Inlining
