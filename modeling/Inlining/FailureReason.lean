import Inlining.Json.Decode

/-!
# Why a call is not inlined

Reasons are data, never errors: they stay on the call site or target and are counted. The
neutral reason, `inlineableTarget`, is what every site and target starts with. Reasons are
ordered as they are listed, which is the order of reports.
-/

namespace Inlining

/-- The reason attached to a call site or target. -/
inductive FailureReason where
  /-- nothing stands in the way -/
  | inlineableTarget
  /-- no target is known -/
  | noTarget
  /-- an interface method has no known implementation -/
  | unresolvedInterfaceMethod
  /-- the call lies below the depth limit -/
  | exceedsDepth
  /-- the body is larger than one call may grow -/
  | exceedsCallSize
  /-- the body does not fit the budget of the compilation -/
  | exceedsBudget
  /-- the method is active further out already -/
  | recursive
  /-- the method was inlined at this place already -/
  | alreadyInlined
  /-- the guard of the binding cannot be built -/
  | guardNotConstructed
  /-- the body can never be inlined -/
  | uninlineable
deriving DecidableEq, Repr, Inhabited

namespace FailureReason

/-- All reasons in order. -/
def all : List FailureReason :=
  [inlineableTarget, noTarget, unresolvedInterfaceMethod, exceedsDepth, exceedsCallSize,
    exceedsBudget, recursive, alreadyInlined, guardNotConstructed, uninlineable]

/-- Every reason but the neutral one. -/
def isFailure (r : FailureReason) : Bool := r != inlineableTarget

/-- The reason rules its method out at the same site for good. -/
def isTerminal : FailureReason → Bool
  | exceedsCallSize | exceedsBudget | uninlineable => true
  | _ => false

/-- The name of the reason in traces and reports. -/
def name : FailureReason → String
  | inlineableTarget => "inlineable_target"
  | noTarget => "no_target"
  | unresolvedInterfaceMethod => "unresolved_interface_method"
  | exceedsDepth => "exceeds_depth"
  | exceedsCallSize => "exceeds_call_size"
  | exceedsBudget => "exceeds_budget"
  | recursive => "recursive"
  | alreadyInlined => "already_inlined"
  | guardNotConstructed => "guard_not_constructed"
  | uninlineable => "uninlineable"

/-- The place of the reason in the order. -/
def rank (r : FailureReason) : Nat := r.ctorIdx

def toJson (r : FailureReason) : Json := .str r.name

def decoder : Json.Decoder FailureReason := .named name all

theorem mem_all (r : FailureReason) : r ∈ all := by cases r <;> decide

theorem isFailure_iff {r : FailureReason} : r.isFailure = true ↔ r ≠ inlineableTarget := by
  simp [isFailure]

end FailureReason

end Inlining
