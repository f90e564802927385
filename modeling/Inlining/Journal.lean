import Inlining.FailureReason
import Inlining.Guard

/-!
# The journal of an exploration

Decisions are counted by failure reason, both in all and by the tree top of the call they are
about, and recorded as events if the configuration asks for that. Counting keeps every counted
reason with its tree top, so that each counter is the number of matching entries.
-/

namespace Inlining

/-- A recorded decision. -/
inductive Event where
  | targetAdded (site : SiteId) (target : TargetId) (method : MethodId) (guard : Guard)
  | targetTagged (site : SiteId) (target : TargetId) (reason : FailureReason)
  | targetRemoved (site : SiteId) (target : TargetId) (reason : FailureReason)
  | siteFailed (site : SiteId) (reason : FailureReason)
  | framePushed (method : MethodId) (depth : Nat)
  | framePopped (method : MethodId) (depth : Nat) (committed : Bool)
deriving DecidableEq, Repr

/-- What was counted and, if asked for, recorded. -/
structure Journal where
  /-- keep events -/
  recording : Bool
  events : Array Event := #[]
  /-- every counted reason with the tree top that it is counted against, newest first -/
  counted : List (FailureReason × Option TreeTopId) := []

namespace Journal

/-- Counts a reason against a tree top. -/
def count (j : Journal) (reason : FailureReason) (treeTop : Option TreeTopId) : Journal :=
  { j with counted := (reason, treeTop) :: j.counted }

/-- Records an event if the journal records. -/
def record (j : Journal) (event : Event) : Journal :=
  if j.recording then { j with events := j.events.push event } else j

/-- How often a reason was counted. -/
def counter (j : Journal) (reason : FailureReason) : Nat :=
  j.counted.countP (·.1 == reason)

/-- How often a reason was counted against a tree top. -/
def counterAt (j : Journal) (reason : FailureReason) (treeTop : TreeTopId) : Nat :=
  j.counted.countP (· == (reason, some treeTop))

/-- The counters of all reasons ever counted, in the order of reasons. -/
def counters (j : Journal) : List (FailureReason × Nat) :=
  (FailureReason.all.map fun r => (r, j.counter r)).filter (·.2 != 0)

end Journal

end Inlining
