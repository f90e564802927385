import Inlining.CallTarget
import Inlining.Resolution

/-!
# The targets of a call site

What happens to the targets of a site happens to three things at once: the site, the arena of
all targets, and the journal. A `SiteScope` holds them together. A target is added to the
live targets of the site and leaves them only for the removed ones (`retire`), where it keeps
the reason and loses its constants. An operation that fails has no new scope, so it changes
nothing; only a resolution that fails counts as a visit.
-/

namespace Inlining

/-- A call site with the arena of targets and the journal. -/
structure SiteScope where
  site : CallSite
  targets : Arena .target CallTarget := {}
  journal : Journal

namespace SiteScope

variable (s : SiteScope)

/-- Creates a target and makes it the last live one. -/
def add (t : CallTarget) : TargetId × SiteScope :=
  (s.targets.next,
    { s with
      site := { s.site with
        live := s.site.live ++ [s.targets.next], totalAdded := s.site.totalAdded + 1 }
      targets := s.targets.alloc { t with callSite := s.site.id } })

/-- Creates a target and makes it the first live one. -/
def addToFront (t : CallTarget) : TargetId × SiteScope :=
  (s.targets.next,
    { s with
      site := { s.site with
        live := s.targets.next :: s.site.live, totalAdded := s.site.totalAdded + 1 }
      targets := s.targets.alloc { t with callSite := s.site.id } })

/-- Counts and records a reason for the site. -/
def note (reason : FailureReason) (event : Event) : SiteScope :=
  { s with journal := (s.journal.count reason s.site.location.treeTop).record event }

/-- Makes a target that is not live a removed one. -/
def retire (t : TargetId) (reason : FailureReason) : SiteScope :=
  note
    { s with
      site := { s.site with removed := s.site.removed ++ [t] }
      targets := s.targets.modify t (·.retire reason) }
    reason (.targetRemoved s.site.id t reason)

/-- Retires targets one after the other. -/
def retireAll (ts : List TargetId) (reason : FailureReason) : SiteScope :=
  ts.foldl (fun s t => s.retire t reason) s

/-- Creates a target in the place of the live one at an index, which is retired. -/
def set (index : Nat) (t : CallTarget) (reason : FailureReason) :
    Except Fault (TargetId × SiteScope) := do
  let displaced ← s.site.liveAt index
  let replaced : SiteScope :=
    { s with
      site := { s.site with
        live := s.site.live.set index s.targets.next, totalAdded := s.site.totalAdded + 1 }
      targets := s.targets.alloc { t with callSite := s.site.id } }
  return (s.targets.next, replaced.retire displaced reason)

/-- Fails unless a target is live. -/
def checkLive (t : TargetId) : Except Fault Unit :=
  if s.site.live.contains t then .ok () else .error (.targetNotLive s.site.id t)

/-- Attaches a reason to a live target, which stays live. -/
def tag (t : TargetId) (reason : FailureReason) : Except Fault SiteScope := do
  s.checkLive t
  let tagged : SiteScope :=
    { s with targets := s.targets.modify t fun x => { x with failureReason := reason } }
  return tagged.note reason (.targetTagged s.site.id t reason)

/-- Attaches a reason to the live target at an index. -/
def tagAt (index : Nat) (reason : FailureReason) : Except Fault (TargetId × SiteScope) := do
  let t ← s.site.liveAt index
  return (t, ← s.tag t reason)

/-- Removes a live target. -/
def remove (t : TargetId) (reason : FailureReason) : Except Fault SiteScope := do
  s.checkLive t
  return retire { s with site := { s.site with live := s.site.live.erase t } } t reason

/-- Removes the live target at an index. -/
def removeAt (index : Nat) (reason : FailureReason) : Except Fault (TargetId × SiteScope) := do
  let t ← s.site.liveAt index
  return (t, retire { s with site := { s.site with live := s.site.live.eraseIdx index } } t reason)

/-- Removes the live targets from an index on. -/
def removeFrom (index : Nat) (reason : FailureReason) : Except Fault SiteScope :=
  if s.site.live.length < index then
    .error (.targetIndexOutOfRange index s.site.live.length)
  else
    .ok (retireAll { s with site := { s.site with live := s.site.live.take index } }
      (s.site.live.drop index) reason)

/-- Removes all live targets. -/
def removeAll (reason : FailureReason) : Except Fault SiteScope := s.removeFrom 0 reason

def setFailureReason (reason : FailureReason) : SiteScope :=
  { s with site := { s.site with failureReason := reason } }

/-- The live and removed targets. -/
def everAdded : List CallTarget := (s.site.live ++ s.site.removed).filterMap s.targets.get?

/-- Methods that were inlined at the site. -/
def alreadyInlined : List MethodId := (s.everAdded.filter (·.alreadyInlined)).map (·.method)

/-- Methods that were removed from the site for good. -/
def ruledOut : List MethodId :=
  ((s.site.removed.filterMap s.targets.get?).filter (·.failureReason.isTerminal)).map (·.method)

/-- A live target is bound to the method. -/
def binds (m : MethodId) : Bool := (s.site.live.filterMap s.targets.get?).any (·.method == m)

/-- The target that a candidate makes. -/
def targetOf (p : Program) (c : Candidate) : CallTarget :=
  let t : CallTarget :=
    { callSite := s.site.id
      symbol := if s.site.initialCallee = some c.method then s.site.initialSymbol else none
      method := c.method
      methodKind := p.kindOf c.method
      guard := c.guard
      receiverClass := c.receiverClass
      facts := s.site.facts
      originatingBlock := s.site.callerBlock
      frequency := c.frequency }
  match p.sizeOf? c.method with
  | none => t
  | some size => t.setSize size

/-- Adds the target of a candidate, unless its method has a live target already or is one of
`ruledOut`. -/
def take (p : Program) (ruledOut : List MethodId) (c : Candidate) : SiteScope :=
  if s.binds c.method || ruledOut.contains c.method then s
  else
    let (t, s') := s.add (s.targetOf p c)
    { s' with journal := s'.journal.record (.targetAdded s.site.id t c.method c.guard) }

/-- Writes the outcome of a resolution on the site. A site that was left without target by
candidates that it may not take again keeps its reason. -/
def conclude (reason : FailureReason) : SiteScope :=
  if s.site.live.isEmpty then
    let s := if reason.isFailure then s.setFailureReason reason else s
    s.note s.site.failureReason (.siteFailed s.site.id s.site.failureReason)
  else s.setFailureReason .inlineableTarget

/-- Resolves the site from the innermost frame of `stack`; the answer says whether it has a
live target now. -/
def findTargets (env : Environment) (stack : CallStack) : Except Fault Bool × SiteScope :=
  let s := { s with site := { s.site with visitCount := s.site.visitCount + 1 } }
  match
    if env.config.verifyInvariants then s.site.checkInitialCallee env.program else .ok () with
  | .error fault => (.error fault, s)
  | .ok () =>
    let resolution := env.resolve s.site.toCall stack s.alreadyInlined
    let ruledOut := s.ruledOut
    let s := (resolution.candidates.foldl (·.take env.program ruledOut) s).conclude
      resolution.failureReason
    match if env.config.verifyInvariants then s.site.checkTargetCounts else .ok () with
    | .error fault => (.error fault, s)
    | .ok () => (.ok (!s.site.live.isEmpty), s)

end SiteScope

end Inlining
