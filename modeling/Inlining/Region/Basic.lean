import Inlining.CallTarget

/-!
# Regions

A region holds the call sites, the targets and the assumptions of one compilation. Nothing
leaves it: a target that is given up stays in the arena and on its site. The functions below
are what an exploration asks of a region as a whole: who owns a site, how large the targets
of a site are, and what the body of a target turned out to hold.
-/

namespace Inlining

/-- The call sites, targets and assumptions of a compilation. -/
structure Region where
  sites : Arena .site CallSite := {}
  targets : Arena .target CallTarget := {}
  assumptions : AssumptionTable := {}

/-- How much a region holds. -/
structure RegionStats where
  callSites : Nat
  callTargets : Nat
  liveTargets : Nat
  removedTargets : Nat
  requiredConstants : Nat
  assumptions : Nat
deriving DecidableEq, Repr

namespace Region

variable (r : Region)

def stats : RegionStats where
  callSites := r.sites.size
  callTargets := r.targets.size
  liveTargets := (r.sites.toList.flatMap (·.live)).length
  removedTargets := (r.sites.toList.flatMap (·.removed)).length
  requiredConstants := (r.targets.toList.flatMap (·.constants)).length
  assumptions := r.assumptions.size

/-- The live targets of a site. -/
def liveTargets (s : SiteId) : List TargetId := ((r.sites.get? s).map (·.live)).getD []

/-- The size of a target with everything inlined into it. -/
def fullSize (t : TargetId) : Size := ((r.targets.get? t).map (·.fullSize)).getD 0

/-- The sum of the sizes of some targets. -/
def totalSize (ts : List TargetId) : Size := (ts.map r.fullSize).sum

/-- The target whose body a site was found in, unless the body dropped the site. -/
def owner? (s : SiteId) : Option (TargetId × CallTarget) :=
  r.targets.entries.find? fun (_, t) => t.callees.contains s

/-- The live targets whose bodies enclose a site that lies `depth` levels deep, the outermost
first, in front of `chain`; `none` once a body dropped the site or was removed itself. -/
def enclosingFrom (chain : List TargetId) : Nat → SiteId → Option (List TargetId)
  | 0, _ => some chain
  | depth + 1, s => do
    let (id, t) ← r.owner? s
    if (r.liveTargets t.callSite).contains id then enclosingFrom (id :: chain) depth t.callSite else none

/-- The targets whose bodies enclose a site, the outermost first. -/
def enclosing? (s : CallSite) : Option (List TargetId) := r.enclosingFrom [] s.depth s.id

/-- Records a fold in the body of a target under new assumptions of its own. -/
def recordFold (t : TargetId) (fold : SpeculativeFold) : Region :=
  let (ids, assumptions) := r.assumptions.registerAll fold.assumptions
  { r with
    assumptions
    targets := r.targets.modify t (·.addConstant fold.index ⟨fold.value, ids⟩) }

/-- Records the folds in the body of a target; of two at one index the later stays. -/
def recordFolds (t : TargetId) (folds : List SpeculativeFold) : Region :=
  folds.foldl (fun r fold => r.recordFold t fold) r

/-- Records a site that was found in the body of a target; a site without live targets counts
as deleted at once. -/
def addFound (t : TargetId) (s : SiteId) : Region :=
  { r with
    targets := r.targets.modify t fun x =>
      if (r.liveTargets s).isEmpty then x.addDeadCallee s else x.addCallee s }

/-- Records all sites that were found in the body of a target, and its size with everything
inlined into it. -/
def settle (t : TargetId) (found : List SiteId) : Region :=
  let r' := found.foldl (fun r s => r.addFound t s) r
  { r' with
    targets := r'.targets.modify t fun x =>
      { x with fullSize := x.size + (found.map fun s => r.totalSize (r.liveTargets s)).sum } }

/-- Enlarges targets by the size of something inlined into them. -/
def grow (ts : List TargetId) (size : Size) : Region :=
  { r with
    targets := ts.foldl
      (fun a t => a.modify t fun x => { x with fullSize := x.fullSize + size }) r.targets }

end Region

end Inlining
